import Rebench.Post.Pairing

/-!
# What becomes of a line

Where no label is defined twice, a command reaches one line only, and every line
is reached by one command at most: the mark of a paired page becomes the label
of its pair, and the offset of the use becomes the low part of the same label.
-/
namespace Rebench.Post
open Text Machine

def HasLabel (line label : Str) : Prop := 'L' :: (label ++ [':']) <+: line

def LabelsDistinct (file : List Str) : Prop :=
  ∀ (i j : ℕ) (line line' label : Str), IsRun isHex label → file[i]? = some line →
    file[j]? = some line' → HasLabel line label → HasLabel line' label → i = j

/-- `"L{:x}:\t{} {}, ?{}"`, the line of a page. -/
def pageLine (label reg addr : Str) : Str :=
  'L' :: (label ++ ':' :: ("\tadrp ".toList ++ (reg ++ (", ?".toList ++ addr))))

/-- A listing as refine.py prints it: its labels are distinct, and an `adrp` line ends with its
page. -/
structure Listing (file : List Str) : Prop where
  labels : LabelsDistinct file
  pages : ∀ line ∈ file, ∀ a ∈ adrpOf line, line = pageLine a.2.label a.1 a.2.addr

section Labels
variable {line label reg addr rest : Str} {u : Use}

theorem hasLabel_cons (label s : Str) : HasLabel ('L' :: (label ++ ':' :: s)) label :=
  ⟨s, by simp⟩

theorem hasLabel_iff {label' : Str} (hl : IsRun isHex label) (hl' : IsRun isHex label') (s : Str) :
    HasLabel ('L' :: (label ++ ':' :: s)) label' ↔ label' = label := by
  constructor
  · intro h
    obtain ⟨t, ht⟩ := h
    have htext : 'L' :: (label' ++ ':' :: t) = 'L' :: (label ++ ':' :: s) := by
      rw [← ht]
      simp
    exact (label_unique hl' hl htext).1
  · rintro rfl
    exact hasLabel_cons _ _

theorem IsAdrp.hasLabel (h : IsAdrp line label reg addr rest) : HasLabel line label := by
  rw [h.text]
  exact hasLabel_cons _ _

theorem IsUse.hasLabel (h : IsUse line u reg rest) : HasLabel line u.label := by
  rw [h.text]
  exact hasLabel_cons _ _

end Labels

/-- What stands before the first colon tells lines with labels apart. -/
theorem labelsDistinct_of_nodup {file : List Str}
    (h : (file.map fun line => line.takeWhile (· != ':')).Nodup) : LabelsDistinct file := by
  intro i j line line' label hhex hi hj hline hline'
  have hfront : ∀ {l : Str}, HasLabel l label → l.takeWhile (· != ':') = 'L' :: label := by
    rintro l ⟨s, rfl⟩
    have hcolon : ∀ c ∈ 'L' :: label, (c != ':') = true := by
      intro c hc
      cases List.mem_cons.mp hc with
      | inl hc => rw [hc]; rfl
      | inr hc =>
        refine bne_iff_ne.mpr fun heq => ?_
        exact absurd (hhex.2 c hc) (by rw [heq]; decide)
    rw [← List.cons_append, List.append_assoc, List.takeWhile_append_of_pos hcolon]
    simp
  have hlt := (List.getElem?_eq_some_iff.mp hi).1
  apply (List.getElem?_inj (by simpa using hlt) h).mp
  rw [List.getElem?_map, List.getElem?_map, hi, hj, Option.map_some, Option.map_some,
    hfront hline, hfront hline']

def adrpEdited (label reg target rest : Str) : Str :=
  'L' :: (label ++ ':' :: ("\tadrp ".toList ++ (reg ++ (", ".toList ++ (target ++ rest)))))

def useEdited (u : Use) (reg target rest : Str) : Str :=
  'L' :: (u.label ++ ':' :: (u.kind.opcode ++ (reg ++ (u.kind.between ++ (u.base ++
    ((if u.kind = .add then ", ".toList else ",".toList) ++
      ("#:lo12:".toList ++ (target ++ rest))))))))

/-! ## One command -/

section Apply
variable {line label reg addr rest : Str} {c : Sed}

theorem apply_of_hasLabel (h : HasLabel line c.label) :
    c.apply line = replaceFirst c.pattern c.replacement line := if_pos h

theorem apply_of_not (h : ¬ HasLabel line c.label) : c.apply line = line := if_neg h

theorem foldl_apply_of_not {cs : List Sed} (h : ∀ c ∈ cs, ¬ HasLabel line c.label) :
    cs.foldl (fun l c => c.apply l) line = line := by
  induction cs with
  | nil => rfl
  | cons c cs ih =>
    rw [List.foldl_cons, apply_of_not (h c (by simp))]
    exact ih fun c hc => h c (by simp [hc])

/-- Of commands among which one reaches the line before and after it, that one acts. -/
theorem foldl_apply_one {cs cs' : List Sed} {line' : Str} (h : c.apply line = line')
    (hcs : ∀ c ∈ cs, ¬ HasLabel line c.label) (hcs' : ∀ c ∈ cs', ¬ HasLabel line' c.label) :
    (cs ++ c :: cs').foldl (fun l c => c.apply l) line = line' := by
  rw [List.foldl_append, foldl_apply_of_not hcs, List.foldl_cons, h, foldl_apply_of_not hcs']

def ReachOnce (line : Str) (cs : List Sed) : Prop :=
  cs.Pairwise fun c c' => HasLabel line c.label → ¬ HasLabel line c'.label

theorem ReachOnce.perm {cs cs' : List Sed} (h : ReachOnce line cs) (hperm : cs.Perm cs') :
    ReachOnce line cs' := by
  refine (hperm.pairwise_iff ?_).mp h
  intro c c' hcc hc' hc
  exact hcc hc hc'

/-- Where one command reaches the line, and leaves the label, that one acts. -/
theorem foldl_apply_of_reachOnce {cs : List Sed} (h : ReachOnce line cs)
    (hkeep : ∀ c ∈ cs, HasLabel line c.label → ∀ c' ∈ cs, HasLabel (c.apply line) c'.label →
      HasLabel line c'.label) (hc : c ∈ cs) (hlabel : HasLabel line c.label) :
    cs.foldl (fun l c => c.apply l) line = c.apply line := by
  obtain ⟨before, behind, hsplit⟩ := List.append_of_mem hc
  rw [ReachOnce, hsplit, List.pairwise_append, List.pairwise_cons] at h
  obtain ⟨-, ⟨hbehind, -⟩, hbefore⟩ := h
  rw [hsplit]
  apply foldl_apply_one rfl
  · intro c' hc' hlabel'
    exact hbefore c' hc' c (by simp) hlabel' hlabel
  · intro c' hc' hlabel'
    have hmem : c' ∈ cs := by
      rw [hsplit]
      simp [hc']
    exact hbehind c' hc' hlabel (hkeep c hc hlabel c' hmem hlabel')

/-- Then the order of the commands does not matter. -/
theorem foldl_apply_perm {cs cs' : List Sed} (h : ReachOnce line cs)
    (hkeep : ∀ c ∈ cs, HasLabel line c.label → ∀ c' ∈ cs, HasLabel (c.apply line) c'.label →
      HasLabel line c'.label) (hperm : cs.Perm cs') :
    cs'.foldl (fun l c => c.apply l) line = cs.foldl (fun l c => c.apply l) line := by
  by_cases hreach : ∃ c ∈ cs, HasLabel line c.label
  · obtain ⟨c, hc, hlabel⟩ := hreach
    rw [foldl_apply_of_reachOnce h hkeep hc hlabel,
      foldl_apply_of_reachOnce (h.perm hperm) _ (hperm.mem_iff.mp hc) hlabel]
    intro d hd hdlabel d' hd' hdlabel'
    exact hkeep d (hperm.mem_iff.mpr hd) hdlabel d' (hperm.mem_iff.mpr hd') hdlabel'
  · have hnone : ∀ c ∈ cs, ¬ HasLabel line c.label := fun c hc hlabel => hreach ⟨c, hc, hlabel⟩
    rw [foldl_apply_of_not hnone, foldl_apply_of_not]
    intro c hc
    exact hnone c (hperm.mem_iff.mpr hc)

theorem notMem_register {r : Str} (h : IsReg r) {c : Char} (hc : isDec c = false)
    (hclass : c ∉ ['x', '|', 'd', 'q']) : c ∉ r := by
  obtain ⟨d, k, rfl, hd, hk⟩ := h
  intro hmem
  cases List.mem_cons.mp hmem with
  | inl heq => exact hclass (heq ▸ hd)
  | inr hmem => exact absurd (hk.2 c hmem) (by simp [hc])

theorem notMem_label {l : Str} (h : IsRun isHex l) {c : Char} (hc : isHex c = false) : c ∉ l :=
  fun hmem => absurd (h.2 c hmem) (by simp [hc])

theorem apply_adrp (h : IsAdrp line label reg addr rest) (target : Str) :
    Sed.apply ⟨label, '?' :: addr, target⟩ line = adrpEdited label reg target rest := by
  have hmark : '?' ∉ 'L' :: (label ++ ':' :: ("\tadrp ".toList ++ (reg ++ ", ".toList))) := by
    simp only [List.mem_cons, List.mem_append, notMem_label h.label (c := '?') rfl,
      notMem_register h.reg (c := '?') rfl (by decide), false_or]
    decide
  have hline : line = 'L' :: (label ++ ':' :: ("\tadrp ".toList ++ (reg ++ ", ".toList))) ++
      '?' :: (addr ++ rest) := by
    rw [h.text, show ", ?".toList = ", ".toList ++ ['?'] from rfl]
    simp
  rw [apply_of_hasLabel h.hasLabel, hline]
  exact (replaceFirst_append rest hmark).trans (by simp [adrpEdited])

theorem apply_use {u : Use} (h : IsUse line u reg rest) {c : Sed} {target : Str}
    (hc : c ∈ u.edit target) : c.apply line = useEdited u reg target rest := by
  obtain ⟨kind, label, base, offset⟩ := u
  have hlabel := h.hasLabel
  obtain ⟨htext, hl, hreg, hbase, hoffset⟩ := h
  have hmark : ∀ k : Kind, '#' ∉ k.opcode ∧ '#' ∉ k.between := by
    intro k
    cases k <;> decide
  have hnot : ∀ k : Kind, '#' ∉ 'L' :: (label ++ ':' :: (k.opcode ++ (reg ++ (k.between ++
      (base ++ ",".toList))))) ∧ '#' ∉ 'L' :: (label ++ ':' :: (k.opcode ++ (reg ++ (k.between ++
        (base ++ ", ".toList))))) := by
    intro k
    simp only [List.mem_cons, List.mem_append, notMem_label hl (c := '#') rfl, hmark k,
      notMem_register hreg (c := '#') rfl (by decide),
      notMem_register hbase (c := '#') rfl (by decide), false_or]
    decide
  cases kind with
  | add =>
    obtain rfl := List.mem_singleton.mp hc
    have hline : line = 'L' :: (label ++ ':' :: (Kind.add.opcode ++ (reg ++ (Kind.add.between ++
        (base ++ ", ".toList))))) ++ '#' :: ("0x".toList ++ offset ++ rest) := by
      rw [htext, Kind.mark, show ", #0x".toList = ", ".toList ++ '#' :: "0x".toList from rfl]
      simp
    rw [apply_of_hasLabel hlabel, hline]
    exact (replaceFirst_append rest (hnot .add).2).trans (by simp [useEdited])
  | ldr =>
    obtain rfl := List.mem_singleton.mp hc
    have hline : line = 'L' :: (label ++ ':' :: (Kind.ldr.opcode ++ (reg ++ (Kind.ldr.between ++
        (base ++ ",".toList))))) ++ '#' :: (offset ++ rest) := by
      rw [htext, Kind.mark, show ",#".toList = ",".toList ++ ['#'] from rfl]
      simp
    rw [apply_of_hasLabel hlabel, hline]
    exact (replaceFirst_append rest (hnot .ldr).1).trans (by simp [useEdited])
  | ldrBase => exact absurd hc (by simp [Use.edit])

end Apply

/-! ## All commands -/

section Commands
variable {file : List Str} {j k : ℕ} {q : Pairing} {line reg rest : Str} {c : Sed}

theorem label_of_edit {u : Use} {target : Str} (hc : c ∈ u.edit target) :
    c.label = u.label ∧ u.kind ≠ .ldrBase := by
  rw [Use.edit] at hc
  cases hkind : u.kind with
  | add =>
    rw [hkind] at hc
    obtain rfl := List.mem_singleton.mp hc
    exact ⟨rfl, by decide⟩
  | ldr =>
    rw [hkind] at hc
    obtain rfl := List.mem_singleton.mp hc
    exact ⟨rfl, by decide⟩
  | ldrBase =>
    rw [hkind] at hc
    exact absurd hc (by simp)

theorem Paired.reach_page (hd : LabelsDistinct file) (h : Paired file j q)
    (hline : file[k]? = some line) (hlabel : HasLabel line q.adrp.label) : k = q.first := by
  obtain ⟨line₁, line₂, hp⟩ := h.pair
  obtain ⟨rest, hadrp⟩ := adrpOf_eq_some.mp hp.adrp
  exact hd _ _ _ _ _ hadrp.label hline hp.first hlabel hadrp.hasLabel

theorem Paired.reach_use (hd : LabelsDistinct file) (h : Paired file j q)
    (hc : c ∈ q.use.edit q.target) (hline : file[k]? = some line)
    (hlabel : HasLabel line c.label) : k = j := by
  obtain ⟨line₁, line₂, hp⟩ := h.pair
  obtain ⟨reg, rest, huse⟩ := useOf_eq_some.mp hp.use
  rw [(label_of_edit hc).1] at hlabel
  exact hd _ _ _ _ _ huse.label hline hp.second hlabel huse.hasLabel

/-- A command of a pair reaches the line it was made for and no other. -/
theorem Paired.reach (hd : LabelsDistinct file) (h : Paired file j q) (hc : c ∈ q.commands)
    (hline : file[k]? = some line) (hlabel : HasLabel line c.label) :
    k = q.first ∨ k = j ∧ c ∈ q.use.edit q.target := by
  cases List.mem_cons.mp hc with
  | inl heq =>
    rw [heq] at hlabel
    exact .inl (h.reach_page hd hline hlabel)
  | inr hc => exact .inr ⟨h.reach_use hd hc hline hlabel, hc⟩

theorem Paired.label_hex (h : Paired file j q) (hc : c ∈ q.commands) : IsRun isHex c.label := by
  obtain ⟨line₁, line₂, hp⟩ := h.pair
  cases List.mem_cons.mp hc with
  | inl heq =>
    obtain ⟨rest, hadrp⟩ := adrpOf_eq_some.mp hp.adrp
    rw [heq]
    exact hadrp.label
  | inr hc =>
    obtain ⟨reg, rest, huse⟩ := useOf_eq_some.mp hp.use
    rw [(label_of_edit hc).1]
    exact huse.label

theorem mem_commands {qs : List (Option Pairing)} :
    c ∈ commands qs ↔ ∃ q, some q ∈ qs ∧ c ∈ q.commands := by
  rw [commands, List.mem_flatMap]
  constructor
  · intro h
    obtain ⟨o, ho, hc⟩ := h
    cases o with
    | none => exact absurd hc (by simp)
    | some q => exact ⟨q, ho, hc⟩
  · intro h
    obtain ⟨q, hq, hc⟩ := h
    exact ⟨some q, hq, hc⟩

/-- The commands that reach a line are those of one pair. -/
theorem Paired.reach_unique {j' : ℕ} {q' : Pairing} {c' : Sed} (hd : LabelsDistinct file)
    (h : Paired file j q) (h' : Paired file j' q') (hc : c ∈ q.commands) (hc' : c' ∈ q'.commands)
    (hline : file[k]? = some line) (hlabel : HasLabel line c.label)
    (hlabel' : HasLabel line c'.label) : j = j' := by
  -- an `adrp` line is not the line of a use
  have hcross : ∀ {j j' : ℕ} {q q' : Pairing}, Paired file j q → Paired file j' q' →
      q.first ≠ j' := by
    intro j j' q q' h h' heq
    obtain ⟨line₁, line₂, hp⟩ := h.pair
    obtain ⟨line₁', line₂', hp'⟩ := h'.pair
    have hsame := hp.first
    rw [heq, hp'.second, Option.some_inj] at hsame
    have huse := hp'.use
    rw [hsame, useOf_of_adrpOf hp.adrp] at huse
    exact absurd huse (by simp)
  cases h.reach hd hc hline hlabel with
  | inl hfirst =>
    cases h'.reach hd hc' hline hlabel' with
    | inl hfirst' => exact h.unique h' (hfirst.symm.trans hfirst')
    | inr hsecond' => exact absurd (hfirst.symm.trans hsecond'.1) (hcross h h')
  | inr hsecond =>
    cases h'.reach hd hc' hline hlabel' with
    | inl hfirst' => exact absurd (hfirst'.symm.trans hsecond.1) (hcross h' h)
    | inr hsecond' => exact hsecond.1.symm.trans hsecond'.1

theorem commands_reachOnce (hd : LabelsDistinct file) (hline : file[k]? = some line) :
    ReachOnce line (commands (pairings file)) := by
  rw [ReachOnce, commands, List.pairwise_flatMap]
  constructor
  · intro o ho
    cases o with
    | none => exact List.Pairwise.nil
    | some q =>
      obtain ⟨j, h⟩ := List.mem_iff_getElem?.mp ho
      replace h : Paired file j q := h
      obtain ⟨line₁, line₂, hp⟩ := h.pair
      apply List.pairwise_cons.mpr
      constructor
      · intro c hc hpage huse
        have hfirst := h.reach_page hd hline hpage
        have hsecond := h.reach_use hd hc hline huse
        exact absurd hp.lt (by omega)
      · rw [Use.edit]
        cases q.use.kind with
        | add => exact List.pairwise_singleton ..
        | ldr => exact List.pairwise_singleton ..
        | ldrBase => exact List.Pairwise.nil
  · rw [List.pairwise_iff_getElem]
    intro i j hi hj hij c hc c' hc' hlabel hlabel'
    cases hq : (pairings file)[i] with
    | none =>
      rw [hq] at hc
      exact absurd hc (by simp)
    | some q =>
      cases hq' : (pairings file)[j] with
      | none =>
        rw [hq'] at hc'
        exact absurd hc' (by simp)
      | some q' =>
        rw [hq] at hc
        rw [hq'] at hc'
        have h : Paired file i q := (List.getElem?_eq_getElem hi).trans (congrArg some hq)
        have h' : Paired file j q' := (List.getElem?_eq_getElem hj).trans (congrArg some hq')
        exact absurd (h.reach_unique hd h' hc hc' hline hlabel hlabel') (by omega)

theorem hex_of_commands (hc : c ∈ commands (pairings file)) : IsRun isHex c.label := by
  obtain ⟨q, hq, hc⟩ := mem_commands.mp hc
  obtain ⟨j, hj⟩ := List.mem_iff_getElem?.mp hq
  exact Paired.label_hex hj hc

theorem apply_keeps_label (hd : LabelsDistinct file) (hline : file[k]? = some line)
    (hc : c ∈ commands (pairings file)) (hlabel : HasLabel line c.label) {c' : Sed}
    (hc' : c' ∈ commands (pairings file)) (h : HasLabel (c.apply line) c'.label) :
    HasLabel line c'.label := by
  have hhex := hex_of_commands hc'
  obtain ⟨o, ho, hc⟩ := mem_commands.mp hc
  obtain ⟨j, hpaired⟩ := List.mem_iff_getElem?.mp ho
  replace hpaired : Paired file j o := hpaired
  obtain ⟨line₁, line₂, hp⟩ := hpaired.pair
  cases List.mem_cons.mp hc with
  | inl heq =>
    rw [heq] at hlabel h
    have hfirst := hp.first
    rw [← hpaired.reach_page hd hline hlabel, hline, Option.some_inj] at hfirst
    obtain ⟨rest, hadrp⟩ := adrpOf_eq_some.mp (hfirst ▸ hp.adrp)
    rw [apply_adrp hadrp, adrpEdited] at h
    rw [(hasLabel_iff hadrp.label hhex _).mp h]
    exact hadrp.hasLabel
  | inr hc =>
    have hsecond := hp.second
    rw [← hpaired.reach_use hd hc hline hlabel, hline, Option.some_inj] at hsecond
    obtain ⟨reg, rest, huse⟩ := useOf_eq_some.mp (hsecond ▸ hp.use)
    rw [apply_use huse hc, useEdited] at h
    rw [(hasLabel_iff huse.label hhex _).mp h]
    exact huse.hasLabel

theorem edited_of_reach (hd : LabelsDistinct file) (hline : file[k]? = some line)
    (hc : c ∈ commands (pairings file)) (hlabel : HasLabel line c.label) :
    (commands (pairings file)).foldl (fun l c => c.apply l) line = c.apply line := by
  apply foldl_apply_of_reachOnce (commands_reachOnce hd hline) _ hc hlabel
  intro c hc hlabel c' hc' h
  exact apply_keeps_label hd hline hc hlabel hc' h

theorem Paired.edited_first (hd : LabelsDistinct file) (h : Paired file j q)
    (hline : file[q.first]? = some line) (ha : IsAdrp line q.adrp.label reg q.adrp.addr rest) :
    (commands (pairings file)).foldl (fun l c => c.apply l) line =
      adrpEdited q.adrp.label reg q.target rest := by
  have hc : ⟨q.adrp.label, '?' :: q.adrp.addr, q.target⟩ ∈ commands (pairings file) :=
    mem_commands.mpr ⟨q, List.mem_of_getElem? h, List.mem_cons_self⟩
  rw [edited_of_reach hd hline hc ha.hasLabel]
  exact apply_adrp ha q.target

theorem Paired.edited_second (hd : LabelsDistinct file) (h : Paired file j q)
    (hline : file[j]? = some line) (hu : IsUse line q.use reg rest)
    (hkind : q.use.kind ≠ .ldrBase) :
    (commands (pairings file)).foldl (fun l c => c.apply l) line =
      useEdited q.use reg q.target rest := by
  obtain ⟨c, hedit⟩ : ∃ c, c ∈ q.use.edit q.target := by
    rw [Use.edit]
    cases hk : q.use.kind with
    | add => exact ⟨_, List.mem_cons_self⟩
    | ldr => exact ⟨_, List.mem_cons_self⟩
    | ldrBase => exact absurd hk hkind
  have hc : c ∈ commands (pairings file) :=
    mem_commands.mpr ⟨q, List.mem_of_getElem? h, List.mem_cons_of_mem _ hedit⟩
  have hlabel : HasLabel line c.label := by
    rw [(label_of_edit hedit).1]
    exact hu.hasLabel
  rw [edited_of_reach hd hline hc hlabel]
  exact apply_use hu hedit

theorem edited_other (hd : LabelsDistinct file) (hline : file[k]? = some line)
    (h : ∀ j q, Paired file j q → k ≠ q.first ∧ (k = j → q.use.kind = .ldrBase)) :
    (commands (pairings file)).foldl (fun l c => c.apply l) line = line := by
  apply foldl_apply_of_not
  intro c hc hlabel
  obtain ⟨q, hq, hc⟩ := mem_commands.mp hc
  obtain ⟨j, hj⟩ := List.mem_iff_getElem?.mp hq
  obtain ⟨hfirst, hsecond⟩ := h j q hj
  cases Paired.reach hd hj hc hline hlabel with
  | inl hk => exact hfirst hk
  | inr hk => exact (label_of_edit hk.2).2 (hsecond hk.1)

theorem Paired.edited_base (hd : LabelsDistinct file) (h : Paired file j q)
    (hline : file[j]? = some line) (hu : IsUse line q.use reg rest)
    (hkind : q.use.kind = .ldrBase) :
    (commands (pairings file)).foldl (fun l c => c.apply l) line = line := by
  apply edited_other hd hline
  intro j' q' h'
  constructor
  · intro hfirst
    obtain ⟨line₁, line₂, hp⟩ := h'.pair
    obtain ⟨rest', hadrp⟩ := adrpOf_eq_some.mp hp.adrp
    have hsame := hp.first
    rw [← hfirst, hline, Option.some_inj] at hsame
    exact (hsame ▸ hadrp).not_isUse hu
  · rintro rfl
    have hsame : q = q' := Option.some.inj (Option.some.inj (h.symm.trans h'))
    exact hsame ▸ hkind

theorem commands_perm (hd : LabelsDistinct file) {cs : List Sed}
    (hperm : (commands (pairings file)).Perm cs) : cs.foldl (fun ls c => ls.map c.apply) file =
      (commands (pairings file)).foldl (fun ls c => ls.map c.apply) file := by
  rw [foldl_map_apply, foldl_map_apply]
  apply List.map_congr_left
  intro line hmem
  obtain ⟨k, hline⟩ := List.mem_iff_getElem?.mp hmem
  apply foldl_apply_perm (commands_reachOnce hd hline) _ hperm
  intro c hc hlabel c' hc' h
  exact apply_keeps_label hd hline hc hlabel hc' h

theorem Listing.isAdrp {p : Adrp} (hl : Listing file) (hline : line ∈ file)
    (ha : adrpOf line = some (reg, p)) : IsAdrp line p.label reg p.addr [] := by
  obtain ⟨rest, hadrp⟩ := adrpOf_eq_some.mp ha
  have htext := hl.pages line hline (reg, p) ha
  have hnil : rest = [] := by
    rw [hadrp.text, pageLine] at htext
    simpa using htext
  exact hnil ▸ hadrp

/-- The lines of the file afterwards, but for the two at its end. -/
theorem post_line {path : Str} {out : List Str} (hout : post path file = .ok out)
    (hline : file[k]? = some line) :
    out[k]? = some ((commands (pairings file)).foldl (fun l c => c.apply l) line) := by
  have hk := (List.getElem?_eq_some_iff.mp hline).1
  rw [(post_eq_ok hout).1, List.getElem?_append_left (by simpa using hk), List.getElem?_map, hline]
  rfl

end Commands

end Rebench.Post
