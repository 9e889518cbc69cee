import Rebench.Refine.ControlFlow

/-!
# The symbol report

Every branch that names a symbol records it once, every header its own name.
The report tags the recorded symbols when the listing has been read, and does
not ask in the order in which the names in the output were chosen.
-/
namespace Rebench.Refine
open Text Pattern Machine

/-- The operands begin with `target <sym>` or `target <sym@plt>`. -/
def Names (operands sym : Str) : Prop :=
  ∃ target sp close rest, IsRun isHex target ∧ IsRun isSpace sp ∧ IsRun isWord sym ∧
    (close = ">".toList ∨ close = "@plt>".toList) ∧
    operands = target ++ (sp ++ '<' :: (sym ++ (close ++ rest)))

/-- A line of a branch `b`, `bl` or `b.<cond>` that names the symbol. The line is cut at its last
tab, which is the one behind the mnemonic unless the operands hold another. -/
structure NamedBranch (sym : Str) extends InstLine where
  mnem : Str
  ops : Str
  branch : IsBranch mnem
  mnem_tab : '\t' ∉ mnem
  names : Names ops sym
  code_eq : inst ++ '\t' :: operands = mnem ++ '\t' :: ops
  not_format : ¬ "file format".toList <:+: toInstLine.text

/-- Some branch of the listing refers to the symbol by name. -/
def RefersTo (file sym : Str) : Prop := ∃ b : NamedBranch sym, b.text ∈ lines file

/-- Some such branch has no other tab than the one behind its mnemonic. -/
def RefersPlainly (file sym : Str) : Prop :=
  ∃ b : NamedBranch sym, b.text ∈ lines file ∧ '\t' ∉ b.ops

/-- Some branch that names the symbol is printed with this name. -/
def EmittedAs (file sym name : Str) : Prop :=
  ∃ b : NamedBranch sym, b.text ∈ lines file ∧
    printed b.text = some (codeLine (hexVal b.addr) b.mnem name)

def Defines (file sym : Str) : Prop :=
  ∃ h : HeaderLine, ∃ line ∈ lines file, ¬ Silent line ∧ h.text <+: line ∧ h.sym = sym

def tags : List Str := ["(unsafe) ", "(static) ", "(local) ", ""].map String.toList

def reportLine (tag sym : Str) : Str := "  ".toList ++ (tag ++ sym)

/-- The report lists the symbol once, and its tag agrees with the names in the output. -/
structure Truthful (file : Str) (report : List Str) (sym : Str) : Prop where
  once : report.countP (fun line => ∃ tag ∈ tags, line = reportLine tag sym) = 1
  tag_unsafe : reportLine "(unsafe) ".toList sym ∈ report ↔
    EmittedAs file sym ("o_".toList ++ sym)
  tag_static : reportLine "(static) ".toList sym ∈ report ↔
    EmittedAs file sym ("s_".toList ++ sym)
  tag_local : reportLine "(local) ".toList sym ∈ report ↔
    EmittedAs file sym sym ∧ Defines file sym
  tag_none : reportLine [] sym ∈ report ↔ EmittedAs file sym sym ∧ ¬ Defines file sym

/-! ## Branches that name a symbol -/

theorem match?_target {t : String} {a sp s u : Str} (ha : IsRun isHex a) (hsp : IsRun isSpace sp)
    (hs : IsRun isWord s) (hu : ∀ c ∈ u.head?, isWord c = false)
    (ht : ∀ c ∈ t.toList.head?, isWord c = false) (hne : t.toList ≠ []) :
    (Pat.addr ++ Pat.space ++ (Pat.str "<" ++ Pat.word ++ Pat.str t)).match?
        (a ++ (sp ++ '<' :: (s ++ u))) =
      if t.toList <+: u then some [(.addr, a), (.sym, s)] else none := by
  have huniq : ∀ w r m, a ++ (sp ++ '<' :: (s ++ u)) = w ++ r →
      (Pat.addr ++ Pat.space ++ (Pat.str "<" ++ Pat.word ++ Pat.str t)).Reads w m →
        m = [(.addr, a), (.sym, s)] ∧ t.toList <+: u := by
    intro w r m hw hr
    obtain ⟨a', sp', v, d, ha', hsp', hv, rfl, rfl⟩ := reads_addr_space.mp hr
    obtain ⟨s', hs', rfl, rfl⟩ := reads_target.mp hv
    have hhead : ∀ c ∈ (t.toList ++ r).head?, isWord c = false := by
      rw [List.head?_append_of_ne_nil _ hne]
      exact ht
    obtain ⟨haa, hss, hur⟩ := header_cut ha hsp hs hu ha' hsp' hs' hhead (by simpa using hw)
    exact ⟨by rw [haa, hss], r, hur.symm⟩
  split_ifs with h
  · obtain ⟨r, rfl⟩ := h
    have hread : (Pat.addr ++ Pat.space ++ (Pat.str "<" ++ Pat.word ++ Pat.str t)).Reads
        (a ++ sp ++ ('<' :: s ++ t.toList)) [(.addr, a), (.sym, s)] :=
      reads_addr_space.mpr ⟨a, sp, _, _, ha, hsp, reads_target.mpr ⟨s, hs, rfl, rfl⟩, rfl, rfl⟩
    have hcut : a ++ (sp ++ '<' :: (s ++ (t.toList ++ r))) =
        a ++ sp ++ ('<' :: s ++ t.toList) ++ r := by
      simp
    rw [hcut] at huniq ⊢
    exact match?_eq_some_of_unique hread fun w r' m hw hr => (huniq w r' m hw hr).1
  · rw [match?_eq_none]
    intro w r m hw hr
    exact h (huniq w r m hw hr).2

theorem branchCase_of_names {operands sym : Str} (h : Names operands sym) (symbols : List Str)
    (addr : ℕ) (inst : Str) : branchCase symbols addr inst operands =
      some (codeLine addr inst (importName sym), (importSym symbols sym).2) := by
  obtain ⟨target, sp, close, rest, htarget, hsp, hsym, hclose, rfl⟩ := h
  have hhead : ∀ c ∈ (close ++ rest).head?, isWord c = false := by
    rcases hclose with rfl | rfl <;> simp <;> decide
  have hangle := match?_target (t := ">") htarget hsp hsym hhead (by decide) (by decide)
  have hplt := match?_target (t := "@plt>") htarget hsp hsym hhead (by decide) (by decide)
  rw [← importSym_fst symbols sym]
  rcases hclose with rfl | rfl
  · rw [if_pos (by simp)] at hangle
    rw [branchCase, Pat.sym, hangle]
    rfl
  · rw [if_neg (by simp)] at hangle
    rw [if_pos (by simp)] at hplt
    rw [branchCase, Pat.sym, hangle, Pat.symPlt, hplt]
    rfl

theorem InstLine.action_of_names (l : InstLine) {sym : Str} (symbols : List Str)
    (hdot : ∀ c ∈ l.text, isDot c) (hformat : ¬ "file format".toList <:+: l.text)
    (hb : IsBranch l.inst) (h : Names l.operands sym) :
    action symbols l.text = .print (codeLine (hexVal l.addr) l.inst (importName sym))
      (importSym symbols sym).2 := by
  have hp : processInsts symbols l.captures =
      some (codeLine (hexVal l.addr) l.inst (importName sym), (importSym symbols sym).2) :=
    (if_pos hb).trans (branchCase_of_names h symbols _ _)
  rw [l.action_text symbols hdot hformat, hp]

namespace NamedBranch
variable {sym : Str} (b : NamedBranch sym)

theorem cut_plain (h : '\t' ∉ b.ops) : b.inst = b.mnem ∧ b.operands = b.ops := by
  apply b.cut_of_code b.code_eq
  intro htab
  obtain ⟨j, -, hops⟩ := b.tab_of_code b.code_eq b.mnem_tab htab
  exact h (by simp [hops])

theorem printed_plain (h : '\t' ∉ b.ops) (hdot : ∀ c ∈ b.text, isDot c) :
    printed b.text = some (codeLine (hexVal b.addr) b.mnem (importName sym)) := by
  obtain ⟨hinst, hops⟩ := b.cut_plain h
  rw [printed, b.action_of_names [] hdot b.not_format (hinst ▸ b.branch) (hops ▸ b.names), hinst]
  rfl

theorem plain_of_inst (h : '\t' ∉ b.inst) : '\t' ∉ b.ops :=
  (b.cut_of_code b.code_eq h).2 ▸ b.operands_tab

/-- A line with another tab is printed with more than its mnemonic. -/
theorem plain_of_printed {name : Str} (hdot : ∀ c ∈ b.text, isDot c) (hacc : Accepted b.text)
    (h : printed b.text = some (codeLine (hexVal b.addr) b.mnem name)) : '\t' ∉ b.ops := by
  apply b.plain_of_inst
  intro hinst
  obtain ⟨j, hj, -⟩ := b.tab_of_code b.code_eq b.mnem_tab hinst
  obtain ⟨operands, hout⟩ := b.toInstLine.printed_text hdot b.not_format hacc
  rw [hout, Option.some_inj, codeLine_eq, codeLine_eq, hj] at h
  have htail := (List.cons.inj (List.append_cancel_left h)).2
  rw [List.cons_append, List.cons_append, List.append_assoc, List.cons.injEq] at htail
  exact absurd (List.cons.inj (List.append_cancel_left htail.2)).1 (by decide)

end NamedBranch

section Readings
variable {line operands out : Str} {symbols symbols' : List Str} {m : Match}

theorem importSym_snd (symbols : List Str) (sym : Str) :
    (importSym symbols sym).2 = if sym ∈ symbols then symbols else symbols ++ [sym] := by
  simp only [importSym]
  split_ifs <;> rfl

theorem mem_importSym {sym x : Str} :
    x ∈ (importSym symbols sym).2 ↔ x ∈ symbols ∨ x = sym := by
  rw [importSym_snd]
  split_ifs with h
  · simp only [iff_self_or]
    rintro rfl
    exact h
  · simp

theorem nodup_importSym {sym : Str} (h : symbols.Nodup) : (importSym symbols sym).2.Nodup := by
  rw [importSym_snd]
  split_ifs with hmem
  · exact h
  · rw [List.nodup_append]
    refine ⟨h, List.nodup_singleton _, ?_⟩
    rintro x hx y hy rfl
    exact hmem (List.mem_singleton.mp hy ▸ hx)

theorem sym_unique {l l' : InstLine} {sym sym' : Str} (hdot : ∀ c ∈ l.text, isDot c)
    (hformat : ¬ "file format".toList <:+: l.text) (htext : l.text = l'.text)
    (hb : IsBranch l.inst) (hb' : IsBranch l'.inst) (h : Names l.operands sym)
    (h' : Names l'.operands sym') : sym = sym' := by
  have hact := l.action_of_names [] hdot hformat hb h
  rw [htext] at hdot hformat hact
  rw [l'.action_of_names [] hdot hformat hb' h', Action.print.injEq] at hact
  have hmem : sym ∈ (importSym [] sym').2 := by
    rw [hact.2, mem_importSym]
    exact .inr rfl
  simpa using mem_importSym.mp hmem

theorem branchCase_symbols {addr : ℕ} {inst : Str}
    (h : branchCase symbols addr inst operands = some (out, symbols')) :
    symbols' = symbols ∨ ∃ sym, Names operands sym ∧ symbols' = (importSym symbols sym).2 := by
  unfold branchCase at h
  split at h
  next mo hmo =>
    obtain ⟨a, sp, _, _, r, ha, hsp, hq, rfl, rfl⟩ := exists_of_match?_target hmo
    obtain ⟨s, hs, rfl, rfl⟩ := reads_target.mp hq
    refine .inr ⟨s, ⟨a, sp, _, r, ha, hsp, hs, .inl rfl, by simp⟩, ?_⟩
    exact (Prod.mk.inj (Option.some.inj h)).2.symm
  split at h
  next mo hmo =>
    obtain ⟨a, sp, _, _, r, ha, hsp, hq, rfl, rfl⟩ := exists_of_match?_target hmo
    obtain ⟨s, hs, rfl, rfl⟩ := reads_target.mp hq
    refine .inr ⟨s, ⟨a, sp, _, r, ha, hsp, hs, .inr rfl, by simp⟩, ?_⟩
    exact (Prod.mk.inj (Option.some.inj h)).2.symm
  split at h
  next => exact .inl (Prod.mk.inj (Option.some.inj h)).2.symm
  split at h
  next => exact .inl (Prod.mk.inj (Option.some.inj h)).2.symm
  next => exact absurd h (by simp)

theorem head_of_isBranch {inst : Str} (h : IsBranch inst) : ∃ t, inst = 'b' :: t := by
  rcases h with h | ⟨t, rfl⟩
  · fin_cases h
    · exact ⟨_, rfl⟩
    · exact ⟨_, rfl⟩
  · exact ⟨_, rfl⟩

/-- A text with an element is cut at its last occurrence. -/
theorem exists_last_cut {x : Char} {s : Str} (h : x ∈ s) : ∃ u v, s = u ++ x :: v ∧ x ∉ v := by
  obtain ⟨u, v, hs, hu⟩ := List.eq_append_cons_of_mem (List.mem_reverse.mpr h)
  refine ⟨v.reverse, u.reverse, ?_, by simpa using hu⟩
  simpa using congrArg List.reverse hs

theorem exists_instLine (h : instOperands.match? line = some m)
    (hinst : ∀ c ∈ (m.group .inst).head?, isSpace c = false)
    (hlast : ∀ c ∈ line.getLast?, isSpace c = false) (hdot : ∀ c ∈ line, isDot c) :
    ∃ l : InstLine, l.text = line ∧ l.captures = m := by
  obtain ⟨w, r, rfl, hw⟩ := exists_reads_of_match? h
  obtain ⟨a, sp₁, b, sp₂, i, o, ha, hsp₁, ⟨hlen, hhex⟩, hsp₂, hi, rfl, rfl⟩ :=
    exists_of_reads_instOperands hw
  -- the pattern for the mnemonic takes all it can
  obtain ⟨u, v, huv, hv⟩ := exists_last_cut (x := '\t') (s := '\t' :: (o ++ r)) (by simp)
  have hline : a ++ ':' :: (sp₁ ++ (b ++ (sp₂ ++ (i ++ '\t' :: o)))) ++ r =
      a ++ (':' :: (sp₁ ++ (b ++ (sp₂ ++ (i ++ u ++ '\t' :: v))))) := by
    have htail : i ++ '\t' :: (o ++ r) = i ++ u ++ '\t' :: v := by
      rw [huv, List.append_assoc]
    rw [← htail]
    simp
  have hhead : ∀ c ∈ (i ++ u).head?, isSpace c = false := by
    rw [List.head?_append_of_ne_nil _ hi]
    exact hinst
  have hne : v ≠ [] := by
    rintro rfl
    have hend : a ++ (':' :: (sp₁ ++ (b ++ (sp₂ ++ (i ++ u ++ ['\t']))))) =
        a ++ (':' :: (sp₁ ++ (b ++ (sp₂ ++ (i ++ u))))) ++ ['\t'] := by
      simp
    rw [hline, hend, List.getLast?_concat] at hlast
    exact absurd (hlast '\t' rfl) (by decide)
  let l : InstLine := ⟨a, sp₁, b, sp₂, i ++ u, v, ha, hsp₁, hlen, hhex, hsp₂, by simp [hi], hhead,
    hne, hv⟩
  have htext : l.text = a ++ ':' :: (sp₁ ++ (b ++ (sp₂ ++ (i ++ '\t' :: o)))) ++ r := hline.symm
  refine ⟨l, htext, Option.some.inj ?_⟩
  rw [← h, ← htext]
  exact (l.match?_text (by rwa [htext])).symm

def RecordedBy (line sym : Str) : Prop :=
  ∃ l : InstLine, l.text = line ∧ ¬ "file format".toList <:+: l.text ∧ IsBranch l.inst ∧
    Names l.operands sym

/-- What an accepted line of a listing records among the symbols. -/
theorem action_print (hlast : ∀ c ∈ line.getLast?, isSpace c = false)
    (hdot : ∀ c ∈ line, isDot c) (h : action symbols line = .print out symbols') :
    symbols' = symbols ∨
      ∃ sym, RecordedBy line sym ∧ symbols' = (importSym symbols sym).2 := by
  unfold action at h
  split_ifs at h with h₁ h₂ hformat h₄
  split at h
  · cases h
  split at h
  · cases h
  split at h
  next m hm =>
    cases hp : processInsts symbols m with
    | none => simp [hp] at h
    | some r =>
      obtain ⟨out', syms⟩ := r
      simp only [hp, Action.print.injEq] at h
      obtain ⟨rfl, rfl⟩ := h
      simp only [processInsts] at hp
      by_cases hb : IsBranch (m.group .inst)
      · rw [if_pos hb] at hp
        rcases branchCase_symbols hp with hsyms | ⟨sym, hnames, hsyms⟩
        · exact .inl hsyms
        · have hhead : ∀ c ∈ (m.group .inst).head?, isSpace c = false := by
            obtain ⟨t, ht⟩ := head_of_isBranch hb
            rw [ht, List.head?_cons]
            decide
          obtain ⟨l, rfl, rfl⟩ := exists_instLine hm hhead hlast hdot
          exact .inr ⟨sym, ⟨l, rfl, hformat, hb, hnames⟩, hsyms⟩
      · rw [if_neg hb] at hp
        obtain ⟨_, -, heq⟩ := Option.map_eq_some_iff.mp hp
        exact .inl (Prod.mk.inj heq).2.symm
  next =>
    split at h
    · split_ifs at h
      exact .inl (Action.print.inj h).2.symm
    · cases h

theorem action_define {sym : Str} : action symbols line = .define sym ↔
    ¬ Silent line ∧ ∃ h : HeaderLine, h.text <+: line ∧ h.sym = sym := by
  constructor
  · intro h
    unfold action at h
    split_ifs at h with h₁ h₂ h₃ h₄
    split at h
    next m hm =>
      have hoff : headerBaseOffset.match? line = none := by
        by_contra hne
        rw [header_match?_none_of_offset (Option.isSome_iff_ne_none.mpr hne)] at hm
        cases hm
      refine ⟨not_silent_iff.mpr ⟨h₁, h₂, h₃, h₄, hoff⟩, ?_⟩
      obtain ⟨t, ht, hm⟩ : ∃ t : String, (t.toList ++ [':'] = ">:".toList ∨
          t.toList ++ [':'] = "@@Base>:".toList) ∧
          (Pat.addr ++ Pat.space ++ (Pat.str "<" ++ Pat.word ++ Pat.str t) ++ Pat.str ":").match?
            line = some m := by
        rcases orElse_eq_some_iff.mp hm with hm | ⟨-, hm⟩
        · exact ⟨">", .inl rfl, hm⟩
        · exact ⟨"@@Base>", .inr rfl, hm⟩
      obtain ⟨w, r, rfl, hw⟩ := exists_reads_of_match? hm
      obtain ⟨a, sp, _, _, ha, hsp, hv, rfl, rfl⟩ := reads_header.mp hw
      obtain ⟨s, hs, rfl, rfl⟩ := reads_target.mp hv
      refine ⟨⟨a, sp, s, t.toList ++ [':'], ha, hsp, hs, ht⟩, ⟨r, ?_⟩, Action.define.inj h⟩
      simp [HeaderLine.text]
    next =>
      split at h
      · cases h
      split at h
      · split at h <;> cases h
      · split at h
        · split_ifs at h
        · cases h
  · rintro ⟨hs, l, ⟨r, rfl⟩, rfl⟩
    obtain ⟨h₁, h₂, h₃, h₄, -⟩ := not_silent_iff.mp hs
    rw [action, if_neg h₁, if_neg h₂, if_neg h₃, if_neg h₄, l.match?_append]
    rfl

end Readings

/-! ## Runs -/

/-- The lists of a state hold what the lines read so far refer to and define. -/
structure Records (s : State) (ls : List Str) : Prop where
  nodup : s.symbols.Nodup
  mem_symbols : ∀ sym, sym ∈ s.symbols ↔ ∃ line ∈ ls, RecordedBy line sym
  mem_local : ∀ sym, sym ∈ s.localSymbols ↔
    ∃ h : HeaderLine, ∃ line ∈ ls, ¬ Silent line ∧ h.text <+: line ∧ h.sym = sym

theorem records_start : Records start [] where
  nodup := List.nodup_nil
  mem_symbols := by simp [start]
  mem_local := by simp [start]

section Runs
variable {s t : State} {raw : Str} {ls : List Str}

theorem RecordedBy.action {sym : Str} (h : RecordedBy (strip raw) sym) (symbols : List Str)
    (hdot : ∀ c ∈ strip raw, isDot c) :
    ∃ out, Refine.action symbols (strip raw) = .print out (importSym symbols sym).2 := by
  obtain ⟨l, hl, hformat, hb, hnames⟩ := h
  exact ⟨_, hl ▸ l.action_of_names symbols (hl ▸ hdot) hformat hb hnames⟩

theorem RecordedBy.unique {sym sym' : Str} (h : RecordedBy (strip raw) sym)
    (h' : RecordedBy (strip raw) sym') (hdot : ∀ c ∈ strip raw, isDot c) : sym = sym' := by
  obtain ⟨l, hl, hformat, hb, hnames⟩ := h
  obtain ⟨l', hl', -, hb', hnames'⟩ := h'
  exact sym_unique (hl ▸ hdot) hformat (hl.trans hl'.symm) hb hb' hnames hnames'

theorem step_symbols (hdot : ∀ c ∈ strip raw, isDot c) (h : step s raw = .ok t) :
    (s.symbols.Nodup → t.symbols.Nodup) ∧
      ∀ sym, sym ∈ t.symbols ↔ sym ∈ s.symbols ∨ RecordedBy (strip raw) sym := by
  have hrecords : ∀ sym, RecordedBy (strip raw) sym →
      ∃ out, action s.symbols (strip raw) = .print out (importSym s.symbols sym).2 :=
    fun sym hrec => hrec.action s.symbols hdot
  -- a line that is not printed records nothing
  have hnone : (∀ out symbols, action s.symbols (strip raw) ≠ .print out symbols) →
      ∀ sym, ¬ RecordedBy (strip raw) sym := by
    intro hne sym hrec
    obtain ⟨out, hout⟩ := hrecords sym hrec
    exact hne _ _ hout
  simp only [step] at h
  cases ha : action s.symbols (strip raw) with
  | skip =>
    simp only [ha, Except.ok.injEq] at h
    subst h
    exact ⟨id, fun sym => (or_iff_left (hnone (by simp [ha]) sym)).symm⟩
  | define x =>
    simp only [ha, Except.ok.injEq] at h
    subst h
    exact ⟨id, fun sym => (or_iff_left (hnone (by simp [ha]) sym)).symm⟩
  | print out symbols =>
    simp only [ha, Except.ok.injEq] at h
    subst h
    rcases action_print (isSpace_getLast?_strip raw) hdot ha with rfl | ⟨x, hx, rfl⟩
    · refine ⟨id, fun sym => (or_iff_left_of_imp fun hrec => ?_).symm⟩
      obtain ⟨out, hout⟩ := hrecords sym hrec
      rw [hout, Action.print.injEq] at ha
      rw [← ha.2, mem_importSym]
      exact .inr rfl
    · refine ⟨nodup_importSym, fun sym => ?_⟩
      rw [mem_importSym]
      apply or_congr_right
      constructor
      · rintro rfl
        exact hx
      · exact fun hrec => hrec.unique hx hdot
  | fail =>
    simp only [ha] at h
    cases h

theorem step_localSymbols (h : step s raw = .ok t) (sym : Str) : sym ∈ t.localSymbols ↔
    sym ∈ s.localSymbols ∨ action s.symbols (strip raw) = .define sym := by
  simp only [step] at h
  cases ha : action s.symbols (strip raw) with
  | skip =>
    simp only [ha, Except.ok.injEq] at h
    subst h
    simp
  | define x =>
    simp only [ha, Except.ok.injEq] at h
    subst h
    rw [Action.define.injEq]
    split_ifs with hmem
    · rw [iff_self_or]
      rintro rfl
      exact hmem
    · simp [eq_comm]
  | print out symbols =>
    simp only [ha, Except.ok.injEq] at h
    subst h
    simp
  | fail =>
    simp only [ha] at h
    cases h

theorem Records.step (h : Records s ls) (hdot : ∀ c ∈ strip raw, isDot c)
    (hstep : step s raw = .ok t) : Records t (ls ++ [strip raw]) where
  nodup := (step_symbols hdot hstep).1 h.nodup
  mem_symbols := by
    intro sym
    rw [(step_symbols hdot hstep).2, h.mem_symbols]
    simp only [List.mem_append, List.mem_singleton, or_and_right, exists_or, exists_eq_left]
  mem_local := by
    intro sym
    rw [step_localSymbols hstep, h.mem_local, action_define]
    constructor
    · rintro (⟨l, line, hline, hl⟩ | ⟨hs, l, hl, hsym⟩)
      · exact ⟨l, line, List.mem_append_left _ hline, hl⟩
      · exact ⟨l, strip raw, by simp, hs, hl, hsym⟩
    · rintro ⟨l, line, hline, hs, hl, hsym⟩
      cases List.mem_append.mp hline with
      | inl hline => exact .inl ⟨l, line, hline, hs, hl, hsym⟩
      | inr hline =>
        rw [List.mem_singleton.mp hline] at hs hl
        exact .inr ⟨hs, l, hl, hsym⟩

theorem records_of_run {raws : List Str} (hdot : ∀ raw ∈ raws, ∀ c ∈ strip raw, isDot c)
    (h : raws.foldlM Refine.step start = .ok t) : Records t (raws.map strip) := by
  induction raws using List.reverseRecOn generalizing t with
  | nil =>
    obtain rfl := Except.ok.inj h
    exact records_start
  | append_singleton raws raw ih =>
    obtain ⟨u, hu, ht⟩ := foldlM_eq_ok_append_singleton.mp h
    rw [List.map_append, List.map_singleton]
    exact (ih (fun r hr => hdot r (by simp [hr])) hu).step (hdot raw (by simp)) ht

end Runs

section Files
variable {file : Str} {s : State} (hs : refine file = .ok s)
include hs

theorem records_refine : Records s (lines file) :=
  records_of_run (fun _ hraw _ hc => isDot_of_mem_strip hraw hc) hs

theorem mem_symbols_iff (sym : Str) :
    sym ∈ s.symbols ↔ ∃ line ∈ lines file, RecordedBy line sym :=
  (records_refine hs).mem_symbols sym

theorem mem_localSymbols_iff (sym : Str) : sym ∈ s.localSymbols ↔ Defines file sym :=
  (records_refine hs).mem_local sym

theorem isRun_of_mem_symbols {sym : Str} (h : sym ∈ s.symbols) : IsRun isWord sym := by
  obtain ⟨line, -, l, -, -, -, _, _, _, _, -, -, hsym, -⟩ := (mem_symbols_iff hs sym).mp h
  exact hsym

theorem mem_symbols_of_plain {sym : Str} (h : RefersPlainly file sym) : sym ∈ s.symbols := by
  obtain ⟨b, hb, htab⟩ := h
  obtain ⟨hinst, hops⟩ := b.cut_plain htab
  exact (mem_symbols_iff hs sym).mpr
    ⟨b.text, hb, b.toInstLine, rfl, b.not_format, hinst ▸ b.branch, hops ▸ b.names⟩

/-- A branch that is printed with a name has no other tab. -/
theorem refersPlainly_of_emittedAs {sym name : Str} (h : EmittedAs file sym name) :
    RefersPlainly file sym := by
  obtain ⟨b, hb, hout⟩ := h
  exact ⟨b, hb, b.plain_of_printed (fun c hc => isDot_of_mem_lines hb hc)
    (accepted_of_refine hs hb) hout⟩

/-- The branches that name a symbol are printed with the same name. -/
theorem emittedAs_iff {sym name : Str} (h : RefersPlainly file sym) :
    EmittedAs file sym name ↔ name = importName sym := by
  constructor
  · rintro ⟨b, hb, hname⟩
    have hdot : ∀ c ∈ b.text, isDot c := fun c hc => isDot_of_mem_lines hb hc
    have htab := b.plain_of_printed hdot (accepted_of_refine hs hb) hname
    rw [b.printed_plain htab hdot, Option.some_inj] at hname
    exact (List.append_cancel_left hname).symm
  · rintro rfl
    obtain ⟨b, hb, htab⟩ := h
    exact ⟨b, hb, b.printed_plain htab fun c hc => isDot_of_mem_lines hb hc⟩

end Files

/-! ## The lines of the report -/

section Lines
variable {s : State} {tag tag' sym sym' : Str}

theorem reportLine_inj (ht : tag ∈ tags) (ht' : tag' ∈ tags) (hsym : IsRun isWord sym)
    (hsym' : IsRun isWord sym') :
    reportLine tag sym = reportLine tag' sym' ↔ tag = tag' ∧ sym = sym' := by
  have hlast : ∀ {tag : Str}, tag ∈ tags →
      ∀ c ∈ ("  ".toList ++ tag).getLast?, isWord c = false := by
    intro tag htag
    simp only [tags, List.map_cons, List.map_nil] at htag
    fin_cases htag <;> decide
  constructor
  · intro h
    rw [reportLine, reportLine, ← List.append_assoc, ← List.append_assoc] at h
    obtain ⟨hfront, hback⟩ := run_unique_right hsym.2 hsym'.2 (hlast ht) (hlast ht') h
    exact ⟨List.append_cancel_left hfront, hback⟩
  · rintro ⟨rfl, rfl⟩
    rfl

theorem reportTag_mem (localSymbols : List Str) (sym : Str) :
    reportTag localSymbols sym ∈ tags := by
  rw [reportTag]
  split_ifs <;> decide

theorem symbolReport_perm (s : State) : (symbolReport s).Perm
    (s.symbols.map fun sym => reportLine (reportTag s.localSymbols sym) sym) := by
  have h := (List.mergeSort_perm (s.symbols.map fun sym => reportTag s.localSymbols sym ++ sym)
    textLe).map ("  ".toList ++ ·)
  rwa [List.map_map] at h

/-- A recorded symbol has its own tag and no other. -/
theorem reportLine_mem_iff (hword : ∀ x ∈ s.symbols, IsRun isWord x) (ht : tag ∈ tags)
    (hsym : sym ∈ s.symbols) :
    reportLine tag sym ∈ symbolReport s ↔ tag = reportTag s.localSymbols sym := by
  rw [(symbolReport_perm s).mem_iff, List.mem_map]
  constructor
  · rintro ⟨x, hx, hline⟩
    obtain ⟨rfl, rfl⟩ :=
      (reportLine_inj (reportTag_mem _ _) ht (hword x hx) (hword sym hsym)).mp hline
    rfl
  · rintro rfl
    exact ⟨sym, hsym, rfl⟩

theorem countP_symbolReport (hword : ∀ x ∈ s.symbols, IsRun isWord x) (hnodup : s.symbols.Nodup)
    (hsym : sym ∈ s.symbols) :
    (symbolReport s).countP (fun line => ∃ tag ∈ tags, line = reportLine tag sym) = 1 := by
  rw [(symbolReport_perm s).countP_eq, List.countP_map, ← List.count_eq_one_of_mem hnodup hsym,
    List.count]
  apply List.countP_congr
  intro x hx
  simp only [Function.comp_apply, decide_eq_true_eq, beq_iff_eq]
  constructor
  · rintro ⟨tag, ht, hline⟩
    exact ((reportLine_inj (reportTag_mem _ _) ht (hword x hx) (hword sym hsym)).mp hline).2
  · rintro rfl
    exact ⟨_, reportTag_mem _ _, rfl⟩

end Lines

/-! ## The report and the output -/

section Report
variable {file sym : Str} {s : State}

theorem notMem_staticSymbols : ∀ sym ∈ unsafeSymbols, sym ∉ staticSymbols := by
  decide

theorem prefixed_ne {pre : Str} (h : pre ≠ []) : pre ++ sym ≠ sym := by
  intro heq
  exact h (by simpa using heq)

theorem importName_eq_o : "o_".toList ++ sym = importName sym ↔ sym ∈ unsafeSymbols := by
  rw [importName_eq]
  split_ifs with hu hst
  · exact iff_of_true rfl hu
  · exact iff_of_false (fun h => absurd (List.append_cancel_right h) (by decide)) hu
  · exact iff_of_false (prefixed_ne (by decide)) hu

theorem importName_eq_s : "s_".toList ++ sym = importName sym ↔ sym ∈ staticSymbols := by
  rw [importName_eq]
  split_ifs with hu hst
  · exact iff_of_false (fun h => absurd (List.append_cancel_right h) (by decide))
      (notMem_staticSymbols sym hu)
  · exact iff_of_true rfl hst
  · exact iff_of_false (prefixed_ne (by decide)) hst

theorem importName_eq_self :
    sym = importName sym ↔ sym ∉ unsafeSymbols ∧ sym ∉ staticSymbols := by
  rw [importName_eq]
  split_ifs with hu hst
  · exact iff_of_false (prefixed_ne (by decide)).symm fun h => h.1 hu
  · exact iff_of_false (prefixed_ne (by decide)).symm fun h => h.2 hst
  · exact iff_of_true rfl ⟨hu, hst⟩

/-- A symbol that the report lists truthfully is printed by name. -/
theorem refersPlainly_of_truthful (hs : refine file = .ok s)
    (h : Truthful file (symbolReport s) sym) : RefersPlainly file sym := by
  obtain ⟨line, hline, htags⟩ := List.countP_pos_iff.mp (h.once.symm ▸ Nat.one_pos)
  simp only [decide_eq_true_eq] at htags
  obtain ⟨tag, ht, rfl⟩ := htags
  simp only [tags, List.map_cons, List.map_nil, List.mem_cons, List.not_mem_nil, or_false] at ht
  rcases ht with rfl | rfl | rfl | rfl
  · exact refersPlainly_of_emittedAs hs (h.tag_unsafe.mp hline)
  · exact refersPlainly_of_emittedAs hs (h.tag_static.mp hline)
  · exact refersPlainly_of_emittedAs hs (h.tag_local.mp hline).1
  · exact refersPlainly_of_emittedAs hs (h.tag_none.mp hline).1

/-- A symbol that is printed by name is reported as it is printed unless it is replaced and defined
at once. -/
theorem truthful_iff (hs : refine file = .ok s) (h : RefersPlainly file sym) :
    Truthful file (symbolReport s) sym ↔ (sym ∈ staticSymbols → ¬ Defines file sym) := by
  have hsym : sym ∈ s.symbols := mem_symbols_of_plain hs h
  have hword : ∀ x ∈ s.symbols, IsRun isWord x := fun x hx => isRun_of_mem_symbols hs hx
  have htag : ∀ tag ∈ tags, reportLine tag sym ∈ symbolReport s ↔
      tag = reportTag s.localSymbols sym := fun tag ht => reportLine_mem_iff hword ht hsym
  have hlocal := mem_localSymbols_iff hs sym
  constructor
  · intro ht hst hdef
    have hu : sym ∉ unsafeSymbols := fun hu => notMem_staticSymbols sym hu hst
    have hstatic := ht.tag_static.mpr ((emittedAs_iff hs h).mpr (importName_eq_s.mpr hst))
    rw [htag _ (by decide), reportTag, if_neg hu, if_pos (hlocal.mpr hdef)] at hstatic
    exact absurd hstatic (by decide)
  · intro hst
    refine ⟨countP_symbolReport hword (records_refine hs).nodup hsym, ?_, ?_, ?_, ?_⟩
    · rw [htag _ (by decide), emittedAs_iff hs h, importName_eq_o, reportTag]
      split_ifs <;> simp [*]
    · rw [htag _ (by decide), emittedAs_iff hs h, importName_eq_s, reportTag]
      split_ifs with h₁ h₂ h₃
      · simp [notMem_staticSymbols sym h₁]
      · simpa using fun h₃ => hst h₃ (hlocal.mp h₂)
      · simp [h₃]
      · simp [h₃]
    · rw [htag _ (by decide), emittedAs_iff hs h, importName_eq_self, ← hlocal, reportTag]
      split_ifs with h₁ h₂ h₃
      · simp [h₁]
      · simpa [h₁, h₂] using fun h₃ => hst h₃ (hlocal.mp h₂)
      · simp [h₂]
      · simp [h₂]
    · rw [htag [] (by decide), emittedAs_iff hs h, importName_eq_self, ← hlocal, reportTag]
      split_ifs with h₁ h₂ h₃
      · simp [h₁]
      · simp [h₂]
      · simp [h₃]
      · simp [h₁, h₂, h₃]

/-- The report of an accepted listing agrees with the output exactly if every symbol that a branch
names is named by one without another tab, and none that the output replaces by the function of the
same name is defined in the listing. -/
theorem report_truthful_iff (hs : refine file = .ok s) :
    (∀ sym, RefersTo file sym → Truthful file (symbolReport s) sym) ↔
      ∀ sym, RefersTo file sym →
        RefersPlainly file sym ∧ (sym ∈ staticSymbols → ¬ Defines file sym) := by
  apply forall_congr'
  intro sym
  apply imp_congr_right
  intro _
  constructor
  · intro h
    have hplain := refersPlainly_of_truthful hs h
    exact ⟨hplain, (truthful_iff hs hplain).mp h⟩
  · rintro ⟨hplain, hst⟩
    exact (truthful_iff hs hplain).mpr hst

end Report

/-- What a run leaves for the report. -/
def reported (file : Str) : Option (List Str × List Str) :=
  (refine file).toOption.map fun s => (s.localSymbols, symbolReport s)

theorem exists_of_reported {file : Str} {names report : List Str}
    (h : reported file = some (names, report)) :
    ∃ s, refine file = .ok s ∧ s.localSymbols = names ∧ symbolReport s = report := by
  obtain ⟨s, hs, heq⟩ := Option.map_eq_some_iff.mp h
  obtain ⟨hnames, hreport⟩ := Prod.mk.inj heq
  cases hrun : refine file with
  | error f => simp [hrun, Except.toOption] at hs
  | ok t =>
    obtain rfl : t = s := by simpa [hrun, Except.toOption] using hs
    exact ⟨t, rfl, hnames, hreport⟩

theorem leafListing_report : ∃ s, refine leafListing = .ok s ∧
    ∀ sym, RefersTo leafListing sym → Truthful leafListing (symbolReport s) sym := by
  obtain ⟨s, hs, hnames, -⟩ := exists_of_reported
    (by decide +kernel : reported leafListing = some (["leaf".toList], ["  (local) leaf".toList]))
  have hinst : ∀ line ∈ lines leafListing,
      ∀ m ∈ instOperands.match? line, '\t' ∉ m.group .inst := by
    decide +kernel
  refine ⟨s, hs, (report_truthful_iff hs).mpr fun sym ⟨b, hb⟩ => ⟨⟨b, hb, ?_⟩, fun hst hdef => ?_⟩⟩
  · exact b.plain_of_inst (hinst b.text hb b.captures
      (b.match?_text fun c hc => isDot_of_mem_lines hb hc))
  · rw [← mem_localSymbols_iff hs, hnames, List.mem_singleton] at hdef
    rw [hdef] at hst
    exact absurd hst (by decide)

def mallocCall : NamedBranch "malloc".toList where
  addr := leafCall.addr
  sp₁ := leafCall.sp₁
  bin := leafCall.bin
  sp₂ := leafCall.sp₂
  inst := leafCall.inst
  operands := "400 <malloc>".toList
  addr_run := leafCall.addr_run
  sp₁_run := leafCall.sp₁_run
  bin_length := leafCall.bin_length
  bin_hex := leafCall.bin_hex
  sp₂_run := leafCall.sp₂_run
  inst_ne := leafCall.inst_ne
  inst_head := leafCall.inst_head
  operands_ne := by decide
  operands_tab := by decide
  mnem := leafCall.inst
  ops := "400 <malloc>".toList
  branch := by decide
  mnem_tab := by decide
  names := ⟨leafCall.target, leafCall.sp, ">".toList, [], leafCall.target_run, leafCall.sp_run,
    by decide, .inl rfl, rfl⟩
  code_eq := rfl
  not_format := by decide

def mallocListing : Str :=
  "400 <malloc>:\n  400:\td503201f \tnop\n  404:\t97ffffff \tbl\t400 <malloc>\n".toList

/-- The branch goes to `s_malloc`, and the report calls the symbol local. -/
theorem mallocListing_report : ∃ s, refine mallocListing = .ok s ∧
    s.stdout = ["malloc:", "L400:\tnop", "L404:\tbl s_malloc"].map String.toList ∧
    symbolReport s = ["  (local) malloc".toList] ∧ RefersTo mallocListing "malloc".toList ∧
    ¬ Truthful mallocListing (symbolReport s) "malloc".toList := by
  obtain ⟨s, hs, hnames, hreport⟩ := exists_of_reported
    (by decide +kernel :
      reported mallocListing = some (["malloc".toList], ["  (local) malloc".toList]))
  have hmem : mallocCall.text ∈ lines mallocListing := by decide +kernel
  refine ⟨s, hs, (refine_stdout hs).trans (by decide +kernel), hreport, ⟨mallocCall, hmem⟩, ?_⟩
  rw [truthful_iff hs ⟨mallocCall, hmem, by decide⟩, ← mem_localSymbols_iff hs, hnames]
  decide

end Rebench.Refine
