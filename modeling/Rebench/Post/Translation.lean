import Rebench.Post.Edits

/-!
# The reference translation

Where the register of every `adrp` is next mentioned by a use of one of the three
plain forms, within seven lines, the loop pairs each page with that use, and the
file afterwards is the file with the two lines of each pair translated.
-/
namespace Rebench.Post
open Text Machine

def names (line : Str) : List Str := line.splitOnP fun c => !isWord c

/-- The line names the register `x<n>` or its lower half `w<n>`. -/
def Mentions (line n : Str) : Prop := 'x' :: n ∈ names line ∨ 'w' :: n ∈ names line

instance : DecidableRel Mentions := fun _ _ => inferInstanceAs (Decidable (_ ∨ _))

/-- A line that refine.py prints: a symbol or a label, with an instruction behind the label. -/
def IsLine (line : Str) : Prop :=
  (∃ sym, IsRun isWord sym ∧ line = sym ++ [':']) ∨
    ∃ label code, IsRun isHex label ∧ line = 'L' :: (label ++ ':' :: '\t' :: code)

/-- What ends the line of a use. -/
def Kind.close : Kind → Str
  | .add | .ldrBase => []
  | .ldr => "]".toList

/-- Line `i` loads a page into the register `x<n>`, and the next line that mentions the register is
line `j`, seven lines later at most: a use of the register that ends with its displacement, which is
hexadecimal in an `add` and decimal in an `ldr`. -/
structure NextUse (file : List Str) (i j : ℕ) (n : Str) (p : Adrp) (u : Use) (reg : Str) : Prop where
  register : IsRun isDec n
  page : file[i]?.bind adrpOf = some ('x' :: n, p)
  lt : i < j
  near : j ≤ i + 7
  silent : ∀ k l, i < k → k < j → file[k]? = some l → ¬ Mentions l n
  base : u.base = 'x' :: n
  use : ∃ line, file[j]? = some line ∧ IsUse line u reg u.kind.close
  decimal : u.kind = .ldr → IsRun isDec u.offset

def pairLabel (p : Adrp) (u : Use) : Str := Post.label (hexVal p.addr + u.disp)

/-- The file afterwards: in the two lines of each pair the mark of the page becomes the label and the
displacement becomes its low part; all other lines stay, and two are added. -/
structure Translates (path : Str) (file out : List Str) : Prop where
  page : ∀ i j n p u reg, NextUse file i j n p u reg →
    out[i]? = some ('L' :: (p.label ++ ":\tadrp ".toList ++ ('x' :: n) ++ ", ".toList ++ pairLabel p u))
  use : ∀ i j n p u reg, NextUse file i j n p u reg → u.kind ≠ .ldrBase →
    out[j]? = some (useEdited u reg (pairLabel p u) u.kind.close)
  other : ∀ k line, file[k]? = some line → (∀ j n p u reg, ¬ NextUse file k j n p u reg) →
    (∀ i n p u reg, NextUse file i k n p u reg → u.kind = .ldrBase) → out[k]? = some line
  added : out.drop file.length = [[], includeLine path]

section Names
variable {line n : Str} {c d : Char}

theorem mem_names {w : Str} (hw : ∀ c ∈ w, isWord c) (hc : isWord c = false) (hd : isWord d = false)
    (u v : Str) : w ∈ names (u ++ c :: (w ++ d :: v)) := by
  have hrun : ∀ e ∈ w, (fun e => !isWord e) e = false := by
    intro e he
    simpa using hw e he
  rw [names, List.splitOnP_append_cons u _ (by simpa using hc),
    List.splitOnP_append_cons_of_forall_mem hrun d (by simpa using hd)]
  simp

theorem isWord_register (hn : IsRun isDec n) : ∀ c ∈ 'x' :: n, isWord c := by
  intro c hc
  cases List.mem_cons.mp hc with
  | inl hc =>
    rw [hc]
    rfl
  | inr hc => exact isWord_of_isHex (isHex_of_isDec (hn.2 c hc))

theorem IsAdrp.mentions {label addr rest : Str} (h : IsAdrp line label ('x' :: n) addr rest)
    (hn : IsRun isDec n) : Mentions line n := by
  have hline : line = ('L' :: (label ++ ':' :: "\tadrp".toList)) ++ ' ' ::
      (('x' :: n) ++ ',' :: (" ?".toList ++ (addr ++ rest))) := by
    rw [h.text]
    simp
  rw [hline]
  exact .inl (mem_names (isWord_register hn) (by decide) (by decide) _ _)

theorem IsUse.mentions {u : Use} {reg rest : Str} (h : IsUse line u reg rest)
    (hbase : u.base = 'x' :: n) (hn : IsRun isDec n) : Mentions line n := by
  obtain ⟨front, c, hbetween, hc⟩ : ∃ front c, u.kind.between = front ++ [c] ∧ isWord c = false := by
    cases u.kind with
    | add => exact ⟨[','], ' ', rfl, rfl⟩
    | ldr => exact ⟨", ".toList, '[', rfl, rfl⟩
    | ldrBase => exact ⟨", ".toList, '[', rfl, rfl⟩
  obtain ⟨d, back, hmark, hd⟩ : ∃ d back, u.kind.mark = d :: back ∧ isWord d = false := by
    cases u.kind with
    | add => exact ⟨',', _, rfl, rfl⟩
    | ldr => exact ⟨',', _, rfl, rfl⟩
    | ldrBase => exact ⟨']', _, rfl, rfl⟩
  have hline : line = ('L' :: (u.label ++ ':' :: (u.kind.opcode ++ (reg ++ front)))) ++ c ::
      (('x' :: n) ++ d :: (back ++ (u.offset ++ rest))) := by
    rw [h.text, hbetween, hmark, hbase]
    simp
  rw [hline]
  exact .inl (mem_names (isWord_register hn) hc hd _ _)

theorem passes_of_not_mentions (hn : IsRun isDec n) (hdash : ¬ "--".toList <+: line)
    (h : ¬ Mentions line n) : Passes ('x' :: n) line := by
  refine ⟨hdash, ?_, ?_⟩
  · intro p hp
    obtain ⟨rest, hadrp⟩ := adrpOf_eq_some.mp hp
    exact h (hadrp.mentions hn)
  · intro u hu hbase
    obtain ⟨reg, rest, huse⟩ := useOf_eq_some.mp hu
    exact h (huse.mentions hbase hn)

theorem IsLine.not_dashes (h : IsLine line) : ¬ "--".toList <+: line := by
  rcases h with ⟨sym, hsym, rfl⟩ | ⟨label, code, -, rfl⟩
  · rintro ⟨s, hs⟩
    cases sym with
    | nil => exact hsym.1 rfl
    | cons c sym =>
      have hhead : '-' = c := (List.cons.inj hs).1
      exact absurd (hsym.2 c (by simp)) (by rw [← hhead]; decide)
  · exact Post.not_dashes _

end Names

section Pairs
variable {path : Str} {file out : List Str} {i j k : ℕ} {n reg line : Str} {p : Adrp} {u : Use}
  {q : Pairing}

/-- The loop pairs the page with its next use. -/
theorem NextUse.paired (h : NextUse file i j n p u reg) (hlines : ∀ line ∈ file, IsLine line) :
    Paired file j ⟨i, p, u⟩ := by
  obtain ⟨line, hline, hadrp⟩ := Option.bind_eq_some_iff.mp h.page
  obtain ⟨line', hline', huse⟩ := h.use
  apply paired_iff.mpr
  refine ⟨line, line', h.lt, hline, hline', ?_, useOf_eq_some.mpr ⟨_, _, huse⟩, ?_, ?_⟩
  · rw [hadrp, h.base]
  · intro k l hk hkj hl
    rw [h.base]
    exact passes_of_not_mentions h.register (hlines l (List.mem_of_getElem? hl)).not_dashes
      (h.silent k l hk hkj hl)
  · intro k hk hkj
    have hnear := h.near
    exact ⟨i, line, hline, isInfix_of_adrpOf hadrp, hk.le, by omega⟩

/-- Where every page has a next use, the loop makes these pairs and no others. -/
theorem nextUse_of_paired (hlines : ∀ line ∈ file, IsLine line)
    (hnext : ∀ i r p, file[i]?.bind adrpOf = some (r, p) →
      ∃ j n u reg, NextUse file i j n p u reg) (hq : Paired file j q) :
    ∃ n reg, NextUse file q.first j n q.adrp q.use reg := by
  obtain ⟨line, line', hp⟩ := hq.pair
  have hpage : file[q.first]?.bind adrpOf = some (q.use.base, q.adrp) := by
    rw [hp.first, Option.bind_some, hp.adrp]
  obtain ⟨j', n, u, reg, h⟩ := hnext _ _ _ hpage
  have hpaired := h.paired hlines
  obtain rfl := hq.unique hpaired rfl
  have hsame : q = ⟨q.first, q.adrp, u⟩ := Option.some.inj (Option.some.inj (hq.symm.trans hpaired))
  refine ⟨n, reg, ?_⟩
  rw [hsame]
  exact h

end Pairs

/-- Where every page has a next use, the loop succeeds, the file afterwards is the translated one, no
line is reached by two commands, and every order of the commands gives the same file. -/
theorem post_translates (path : Str) (file : List Str) (hl : Listing file)
    (hlines : ∀ line ∈ file, IsLine line)
    (hnext : ∀ i r p, file[i]?.bind adrpOf = some (r, p) →
      ∃ j n u reg, NextUse file i j n p u reg) :
    ∃ s out, (grep file).foldlM step start = .ok s ∧ post path file = .ok out ∧
      Translates path file out ∧
      (∀ line ∈ file, s.replaces.Pairwise fun c c' => HasLabel line c.label →
        ¬ HasLabel line c'.label) ∧
      ∀ cs, s.replaces.Perm cs →
        cs.foldl (fun ls c => ls.map c.apply) file ++ [[], includeLine path] = out := by
  have hread : ∀ q, some q ∈ pairings file → q.use.Readable := by
    intro q hq
    obtain ⟨j, hj⟩ := List.mem_iff_getElem?.mp hq
    obtain ⟨n, reg, h⟩ := nextUse_of_paired hlines hnext hj
    exact h.decimal
  obtain ⟨s, hs, hreplaces⟩ := grep_ok hread
  have hout : post path file = .ok
      (s.replaces.foldl (fun ls c => ls.map c.apply) file ++ [[], includeLine path]) := by
    rw [post, hs]
    rfl
  refine ⟨s, _, hs, hout, ⟨?_, ?_, ?_, ?_⟩, ?_, ?_⟩
  · intro i j n p u reg h
    have hpaired := h.paired hlines
    obtain ⟨line, hline, ha⟩ := Option.bind_eq_some_iff.mp h.page
    have hadrp := hl.isAdrp (List.mem_of_getElem? hline) ha
    rw [post_line hout hline, hpaired.edited_first hl.labels hline hadrp, adrpEdited]
    simp [Pairing.target, Use.target, pairLabel]
  · intro i j n p u reg h hkind
    obtain ⟨line, hline, huse⟩ := h.use
    rw [post_line hout hline, (h.paired hlines).edited_second hl.labels hline huse hkind]
    rfl
  · intro k line hline hfirst hsecond
    rw [post_line hout hline, edited_other hl.labels hline]
    intro j q hq
    obtain ⟨n, reg, h⟩ := nextUse_of_paired hlines hnext hq
    constructor
    · rintro rfl
      exact hfirst j n _ _ reg h
    · rintro rfl
      exact hsecond _ n _ _ reg h
  · rw [foldl_map_apply, List.drop_left' (by simp)]
  · intro line hmem
    obtain ⟨k, hline⟩ := List.mem_iff_getElem?.mp hmem
    rw [hreplaces]
    exact commands_reachOnce hl.labels hline
  · intro cs hperm
    rw [hreplaces] at hperm ⊢
    rw [commands_perm hl.labels hperm]

def mixedListing : List Str :=
  ["f:".toList, "L583bc:\tadrp x8, ?14a000".toList, "L583c0:\tadrp x9, ?14b000".toList,
    "L583c4:\tldr x9, [x9,#2912]".toList, "L583c8:\tadd x8, x8, #0x8d8".toList]

theorem listing_mixedListing : Listing mixedListing :=
  ⟨labelsDistinct_of_nodup (by decide), by decide +kernel⟩

theorem isLine_mixedListing : ∀ line ∈ mixedListing, IsLine line := by
  have hlabel : ∀ label code, IsRun isHex label → IsLine ('L' :: (label ++ ':' :: '\t' :: code)) :=
    fun label code h => .inr ⟨label, code, h, rfl⟩
  intro line h
  simp only [mixedListing, List.mem_cons, List.not_mem_nil, or_false] at h
  rcases h with rfl | rfl | rfl | rfl | rfl
  · exact .inl ⟨"f".toList, by decide, rfl⟩
  · exact hlabel "583bc".toList _ (by decide)
  · exact hlabel "583c0".toList _ (by decide)
  · exact hlabel "583c4".toList _ (by decide)
  · exact hlabel "583c8".toList _ (by decide)

theorem nextUse_first : NextUse mixedListing 1 4 "8".toList ⟨"583bc".toList, "14a000".toList⟩
    ⟨.add, "583c8".toList, "x8".toList, "8d8".toList⟩ "x8".toList where
  register := by decide
  page := by decide +kernel
  lt := by decide
  near := by decide
  silent := by
    intro k l hk hk' hl
    obtain rfl | rfl : k = 2 ∨ k = 3 := by omega
    · obtain rfl : "L583c0:\tadrp x9, ?14b000".toList = l := Option.some.inj hl
      decide +kernel
    · obtain rfl : "L583c4:\tldr x9, [x9,#2912]".toList = l := Option.some.inj hl
      decide +kernel
  base := rfl
  use := ⟨_, rfl, rfl, by decide, ⟨'x', ['8'], rfl, by decide, by decide⟩,
    ⟨'x', ['8'], rfl, by decide, by decide⟩, by decide⟩
  decimal := by decide

theorem nextUse_second : NextUse mixedListing 2 3 "9".toList ⟨"583c0".toList, "14b000".toList⟩
    ⟨.ldr, "583c4".toList, "x9".toList, "2912".toList⟩ "x9".toList where
  register := by decide
  page := by decide +kernel
  lt := by decide
  near := by decide
  silent := by
    intro k l hk hk' hl
    omega
  base := rfl
  use := ⟨_, rfl, rfl, by decide, ⟨'x', ['9'], rfl, by decide, by decide⟩,
    ⟨'x', ['9'], rfl, by decide, by decide⟩, by decide⟩
  decimal := by decide

theorem next_mixedListing (i : ℕ) (r : Str) (p : Adrp)
    (h : mixedListing[i]?.bind adrpOf = some (r, p)) :
    ∃ j n u reg, NextUse mixedListing i j n p u reg := by
  match i, h with
  | 0, h => exact absurd h (by rw [show mixedListing[0]?.bind adrpOf = none by decide +kernel]; simp)
  | 1, h =>
    rw [nextUse_first.page, Option.some_inj, Prod.mk.injEq] at h
    obtain ⟨rfl, rfl⟩ := h
    exact ⟨_, _, _, _, nextUse_first⟩
  | 2, h =>
    rw [nextUse_second.page, Option.some_inj, Prod.mk.injEq] at h
    obtain ⟨rfl, rfl⟩ := h
    exact ⟨_, _, _, _, nextUse_second⟩
  | 3, h => exact absurd h (by rw [show mixedListing[3]?.bind adrpOf = none by decide +kernel]; simp)
  | 4, h => exact absurd h (by rw [show mixedListing[4]?.bind adrpOf = none by decide +kernel]; simp)
  | _ + 5, h => exact absurd h (by simp [mixedListing])

theorem post_translates_mixed : ∃ out, post "mixed.s".toList mixedListing = .ok out ∧
    Translates "mixed.s".toList mixedListing out := by
  obtain ⟨s, out, -, hout, htranslates, -⟩ := post_translates "mixed.s".toList mixedListing
    listing_mixedListing isLine_mixedListing next_mixedListing
  exact ⟨out, hout, htranslates⟩

end Rebench.Post
