import Rebench.Refine.Source

/-!
# What one line of a listing becomes

The operand patterns share one shape: an address, white space and a target in
angle brackets. The readings of each pattern are stated once; from them every
line printed for an instruction is either the instruction with its code address
replaced or, in the last case of the source, a copy.
-/
namespace Rebench.Refine
open Text Pattern

/-! ## Readings of the operand patterns -/

section Readings
variable {w : Str} {m : Match}

@[simp] theorem reads_str {t : String} : (Pat.str t).Reads w m ↔ w = t.toList ∧ m = [] := Iff.rfl

theorem reads_run {n : Group} {p : Char → Bool} :
    (named n (plus p) : Pat).Reads w m ↔ IsRun p w ∧ m = [(n, w)] := by
  simp only [reads_named, reads_plus]
  constructor
  · rintro ⟨_, rfl, hw, rfl⟩
    exact ⟨hw, rfl⟩
  · rintro ⟨hw, rfl⟩
    exact ⟨[], rfl, hw, rfl⟩

@[simp] theorem reads_addr : Pat.addr.Reads w m ↔ IsRun isHex w ∧ m = [(.addr, w)] := reads_run
@[simp] theorem reads_word : Pat.word.Reads w m ↔ IsRun isWord w ∧ m = [(.sym, w)] := reads_run
@[simp] theorem reads_hexOffset : Pat.hexOffset.Reads w m ↔ IsRun isHex w ∧ m = [(.offset, w)] :=
  reads_run
@[simp] theorem reads_op1 : Pat.op1.Reads w m ↔ IsRun isDot w ∧ m = [(.op1, w)] := reads_run
@[simp] theorem reads_op2 : Pat.op2.Reads w m ↔ IsRun isDot w ∧ m = [(.op2, w)] := reads_run
@[simp] theorem reads_inst : Pat.inst.Reads w m ↔ IsRun isDot w ∧ m = [(.inst, w)] := reads_run
@[simp] theorem reads_operands : Pat.operands.Reads w m ↔ IsRun isDot w ∧ m = [(.operands, w)] :=
  reads_run
@[simp] theorem reads_space : Pat.space.Reads w m ↔ IsRun isSpace w ∧ m = [] := Iff.rfl

@[simp] theorem reads_bin :
    Pat.bin.Reads w m ↔ w.length = 8 ∧ (∀ x ∈ w, isHex x) ∧ m = [(.bin, w)] := by
  simp only [Pat.bin, reads_named, reads_exactly]
  constructor
  · rintro ⟨_, rfl, hn, hw, rfl⟩
    exact ⟨hn, hw, rfl⟩
  · rintro ⟨hn, hw, rfl⟩
    exact ⟨[], rfl, hn, hw, rfl⟩

/-- A register name of the source's class; the reader also takes a bar. -/
def IsReg (r : Str) : Prop := ∃ c n, r = c :: n ∧ c ∈ ['x', '|', 'd'] ∧ IsRun isDec n

@[simp] theorem reads_reg : Pat.reg.Reads w m ↔ IsReg w ∧ m = [(.reg, w)] := by
  simp only [Pat.reg, reads_named, reads_append, reads_exactly, reads_plus, decide_eq_true_eq]
  constructor
  · rintro ⟨_, rfl, u, n, rfl, _, _, rfl, ⟨hu, hc, rfl⟩, hn, rfl⟩
    obtain ⟨c, rfl⟩ := List.length_eq_one_iff.mp hu
    exact ⟨⟨c, n, rfl, hc c (by simp), hn⟩, rfl⟩
  · rintro ⟨⟨c, n, rfl, hc, hn⟩, rfl⟩
    exact ⟨[], rfl, [c], n, rfl, [], [], rfl, ⟨rfl, by simpa using hc, rfl⟩, hn, rfl⟩

theorem reads_addr_space {q : Pat} :
    (Pat.addr ++ Pat.space ++ q).Reads w m ↔ ∃ a sp v d, IsRun isHex a ∧ IsRun isSpace sp ∧
      q.Reads v d ∧ w = a ++ sp ++ v ∧ m = (.addr, a) :: d := by
  simp only [reads_append, reads_addr, reads_space]
  constructor
  · rintro ⟨_, v, rfl, _, d, rfl, ⟨a, sp, rfl, _, _, rfl, ⟨ha, rfl⟩, hsp, rfl⟩, hq⟩
    exact ⟨a, sp, v, d, ha, hsp, hq, rfl, rfl⟩
  · rintro ⟨a, sp, v, d, ha, hsp, hq, rfl, rfl⟩
    exact ⟨_, v, rfl, [(.addr, a)], d, rfl, ⟨a, sp, rfl, _, [], rfl, ⟨ha, rfl⟩, hsp, rfl⟩, hq⟩

theorem reads_before_addr_space {p q : Pat} :
    (p ++ Pat.addr ++ Pat.space ++ q).Reads w m ↔ ∃ u c a sp v d, p.Reads u c ∧
      IsRun isHex a ∧ IsRun isSpace sp ∧ q.Reads v d ∧ w = u ++ a ++ sp ++ v ∧
      m = c ++ (.addr, a) :: d := by
  simp only [reads_append, reads_addr, reads_space]
  constructor
  · rintro ⟨_, v, rfl, _, d, rfl, ⟨_, sp, rfl, _, _, rfl, ⟨u, a, rfl, c, _, rfl, hp, ha, rfl⟩, hsp,
      rfl⟩, hq⟩
    exact ⟨u, c, a, sp, v, d, hp, ha, hsp, hq, rfl, by simp⟩
  · rintro ⟨u, c, a, sp, v, d, hp, ha, hsp, hq, rfl, rfl⟩
    exact ⟨_, v, rfl, c ++ [(.addr, a)], d, by simp, ⟨_, sp, rfl, _, [], by simp,
      ⟨u, a, rfl, c, _, rfl, hp, ha, rfl⟩, hsp, rfl⟩, hq⟩

theorem reads_target {t : String} : (Pat.str "<" ++ Pat.word ++ Pat.str t).Reads w m ↔
    ∃ s, IsRun isWord s ∧ w = '<' :: s ++ t.toList ∧ m = [(.sym, s)] := by
  simp only [reads_append, reads_str, reads_word]
  constructor
  · rintro ⟨_, _, rfl, _, _, rfl, ⟨_, s, rfl, _, _, rfl, ⟨rfl, rfl⟩, hs, rfl⟩, rfl, rfl⟩
    exact ⟨s, hs, by simp, by simp⟩
  · rintro ⟨s, hs, rfl, rfl⟩
    exact ⟨_, _, rfl, [(.sym, s)], [], by simp, ⟨['<'], s, by simp, [], _, rfl, by simp, hs, rfl⟩,
      by simp⟩

theorem reads_targetOffset {t : String} :
    (Pat.str "<" ++ Pat.word ++ Pat.str t ++ Pat.hexOffset ++ Pat.str ">").Reads w m ↔
      ∃ s o, IsRun isWord s ∧ IsRun isHex o ∧ w = '<' :: s ++ (t.toList ++ o ++ ['>']) ∧
        m = [(.sym, s), (.offset, o)] := by
  rw [reads_append]
  constructor
  · rintro ⟨_, _, rfl, _, _, rfl, h, hgt⟩
    obtain ⟨_, o, rfl, _, _, rfl, ht, ho⟩ := reads_append.mp h
    obtain ⟨s, hs, rfl, rfl⟩ := reads_target.mp ht
    obtain ⟨hrun, rfl⟩ := reads_hexOffset.mp ho
    obtain ⟨rfl, rfl⟩ := reads_str.mp hgt
    exact ⟨s, o, hs, hrun, by simp, by simp⟩
  · rintro ⟨s, o, hs, ho, rfl, rfl⟩
    refine ⟨'<' :: s ++ t.toList ++ o, ['>'], by simp, [(.sym, s), (.offset, o)], [], by simp,
      ?_, by simp⟩
    exact reads_append.mpr ⟨_, o, rfl, [(.sym, s)], [(.offset, o)], rfl,
      reads_target.mpr ⟨s, hs, rfl, rfl⟩, reads_hexOffset.mpr ⟨ho, rfl⟩⟩

end Readings

/-! ## The printed lines -/

/-- The operands hold the code address `a <s...` between `pre` and `u`. -/
def AddressAt (operands pre a s u : Str) : Prop :=
  IsRun isHex a ∧ IsRun isWord s ∧ ∃ sp, IsRun isSpace sp ∧ operands = pre ++ a ++ sp ++ '<' :: s ++ u

/-- What follows the name in a target with an offset. -/
def IsOffsetTail (u : Str) : Prop :=
  ∃ o, IsRun isHex o ∧ ("+0x".toList ++ o ++ ['>'] <+: u ∨ "@@Base+0x".toList ++ o ++ ['>'] <+: u)

/-- The name `importSym` prints does not depend on the symbols recorded so far. -/
def importName (sym : Str) : Str := (importSym [] sym).1

theorem importSym_fst (symbols : List Str) (sym : Str) :
    (importSym symbols sym).1 = importName sym := by
  simp only [importName, importSym]
  split_ifs <;> rfl

theorem importName_eq (sym : Str) : importName sym =
    if sym ∈ unsafeSymbols then "o_".toList ++ sym
    else if sym ∈ staticSymbols then "s_".toList ++ sym else sym := by
  simp only [importName, importSym]
  split_ifs <;> rfl

theorem importName_of_not_mem {sym : Str} (hu : sym ∉ unsafeSymbols) (hs : sym ∉ staticSymbols) :
    importName sym = sym := by
  rw [importName_eq, if_neg hu, if_neg hs]

theorem isWord_of_mem_importName {sym : Str} (h : IsRun isWord sym) {c : Char}
    (hc : c ∈ importName sym) : isWord c := by
  rw [importName_eq] at hc
  split_ifs at hc
  · rcases List.mem_append.mp hc with hc | hc
    · fin_cases hc <;> decide
    · exact h.2 c hc
  · rcases List.mem_append.mp hc with hc | hc
    · fin_cases hc <;> decide
    · exact h.2 c hc
  · exact h.2 c hc

/-- What an output line says in place of the code address `a <s...`. -/
inductive Reference (inst a s u : Str) : Str → Prop where
  | name (hb : IsBranch inst) (h : ">".toList <+: u ∨ "@plt>".toList <+: u) :
      Reference inst a s u (importName s)
  | label (h : IsOffsetTail u) (comment : Str) (hc : comment = [] ∨ " // <".toList <+: comment) :
      Reference inst a s u ('L' :: a ++ comment)
  | page (h : inst = "adrp".toList) : Reference inst a s u ('?' :: a)

section Targets
variable {operands : Str} {mo : Match}

theorem orElse_eq_some_iff {α : Type*} {x y : Option α} {b : α} :
    (x <|> y) = some b ↔ x = some b ∨ x = none ∧ y = some b := by
  simp

theorem exists_of_match?_target {q : Pat}
    (h : (Pat.addr ++ Pat.space ++ q).match? operands = some mo) :
    ∃ a sp v d r, IsRun isHex a ∧ IsRun isSpace sp ∧ q.Reads v d ∧
      operands = a ++ sp ++ v ++ r ∧ mo = (.addr, a) :: d := by
  obtain ⟨w, r, rfl, hw⟩ := exists_reads_of_match? h
  obtain ⟨a, sp, v, d, ha, hsp, hq, rfl, rfl⟩ := reads_addr_space.mp hw
  exact ⟨a, sp, v, d, r, ha, hsp, hq, rfl, rfl⟩

theorem exists_of_match?_before_target {p q : Pat}
    (h : (p ++ Pat.addr ++ Pat.space ++ q).match? operands = some mo) :
    ∃ u c a sp v d r, p.Reads u c ∧ IsRun isHex a ∧ IsRun isSpace sp ∧ q.Reads v d ∧
      operands = u ++ a ++ sp ++ v ++ r ∧ mo = c ++ (.addr, a) :: d := by
  obtain ⟨w, r, rfl, hw⟩ := exists_reads_of_match? h
  obtain ⟨u, c, a, sp, v, d, hp, ha, hsp, hq, rfl, rfl⟩ := reads_before_addr_space.mp hw
  exact ⟨u, c, a, sp, v, d, r, hp, ha, hsp, hq, rfl, rfl⟩

/-- Both spellings of a target with an offset leave the same captures. -/
theorem exists_of_reads_offset {q : Pat} {v : Str} (hq : q = Pat.symOffset ∨ q = Pat.symBaseOffset)
    (h : q.Reads v mo) : ∃ s o t, IsRun isWord s ∧ v = '<' :: s ++ t ∧
      (∀ r, IsOffsetTail (t ++ r)) ∧ mo = [(.sym, s), (.offset, o)] := by
  rcases hq with rfl | rfl
  · obtain ⟨s, o, hs, ho, rfl, rfl⟩ := reads_targetOffset.mp h
    exact ⟨s, o, _, hs, rfl, fun r => ⟨o, ho, .inl ( List.prefix_append _ r)⟩, rfl⟩
  · obtain ⟨s, o, hs, ho, rfl, rfl⟩ := reads_targetOffset.mp h
    exact ⟨s, o, _, hs, rfl, fun r => ⟨o, ho, .inr ( List.prefix_append _ r)⟩, rfl⟩

theorem exists_of_match?_offset {p : Pat}
    (h : ((p ++ Pat.addr ++ Pat.space ++ Pat.symBaseOffset).match? operands <|>
      (p ++ Pat.addr ++ Pat.space ++ Pat.symOffset).match? operands) = some mo) :
    ∃ u c a s o t, p.Reads u c ∧ AddressAt operands u a s t ∧ IsOffsetTail t ∧
      mo = c ++ [(.addr, a), (.sym, s), (.offset, o)] := by
  obtain ⟨q, hq, hm⟩ : ∃ q, (q = Pat.symOffset ∨ q = Pat.symBaseOffset) ∧
      (p ++ Pat.addr ++ Pat.space ++ q).match? operands = some mo := by
    rcases orElse_eq_some_iff.mp h with hm | ⟨-, hm⟩
    · exact ⟨_, .inr rfl, hm⟩
    · exact ⟨_, .inl rfl, hm⟩
  obtain ⟨u, c, a, sp, v, d, r, hp, ha, hsp, hv, rfl, rfl⟩ := exists_of_match?_before_target hm
  obtain ⟨s, o, t, hs, rfl, ht, rfl⟩ := exists_of_reads_offset hq hv
  exact ⟨u, c, a, s, o, t ++ r, hp, ⟨ha, hs, sp, hsp, by simp⟩, ht r, rfl⟩

end Targets

section Cases
variable {symbols symbols' : List Str} {addr : ℕ} {inst operands out : Str}

/-- The mnemonics beside the branches whose code address the source replaces. -/
def addressed : List Str := ["tbz", "tbnz", "cbz", "cbnz", "adrp", "adr"].map String.toList

/-- A branch has its code address alone, the other instructions behind a comma. -/
def PrecededBy (inst pre : Str) : Prop :=
  IsBranch inst ∧ pre = [] ∨ inst ∈ addressed ∧ ∃ p, pre = p ++ ", ".toList

/-- The line printed for operands whose code address, behind `pre`, gave way to a reference. -/
def Replaced (addr : ℕ) (inst operands out : Str) : Prop :=
  ∃ pre a s u ref, AddressAt operands pre a s u ∧ PrecededBy inst pre ∧
    Reference inst a s u ref ∧ out = codeLine addr inst (pre ++ ref)

theorem branchCase_replaced (hb : IsBranch inst)
    (h : branchCase symbols addr inst operands = some (out, symbols')) :
    Replaced addr inst operands out := by
  unfold branchCase at h
  split at h
  next mo hmo =>
    obtain ⟨a, sp, _, _, r, ha, hsp, hq, rfl, rfl⟩ := exists_of_match?_target hmo
    obtain ⟨s, hs, rfl, rfl⟩ := reads_target.mp hq
    refine ⟨[], a, s, ">".toList ++ r, importName s, ⟨ha, hs, sp, hsp, by simp⟩, .inl ⟨hb, rfl⟩,
      .name hb (.inl ( List.prefix_append _ _)), ?_⟩
    simp only [Option.some.injEq, Prod.mk.injEq] at h
    rw [← h.1, importSym_fst]
    simp
  split at h
  next mo hmo =>
    obtain ⟨a, sp, _, _, r, ha, hsp, hq, rfl, rfl⟩ := exists_of_match?_target hmo
    obtain ⟨s, hs, rfl, rfl⟩ := reads_target.mp hq
    refine ⟨[], a, s, "@plt>".toList ++ r, importName s, ⟨ha, hs, sp, hsp, by simp⟩, .inl ⟨hb, rfl⟩,
      .name hb (.inr ( List.prefix_append _ _)), ?_⟩
    simp only [Option.some.injEq, Prod.mk.injEq] at h
    rw [← h.1, importSym_fst]
    simp
  split at h
  next mo hmo =>
    obtain ⟨a, sp, _, _, r, ha, hsp, hq, rfl, rfl⟩ := exists_of_match?_target hmo
    obtain ⟨s, o, t, hs, rfl, ht, rfl⟩ := exists_of_reads_offset (.inl rfl) hq
    refine ⟨[], a, s, t ++ r, _, ⟨ha, hs, sp, hsp, by simp⟩, .inl ⟨hb, rfl⟩, .label (ht r)
      (" // <".toList ++ (s ++ "+0x".toList ++ o ++ ">".toList))
      (.inr ( List.prefix_append _ _)), ?_⟩
    simp only [Option.some.injEq, Prod.mk.injEq] at h
    rw [← h.1]
    simp
  split at h
  next mo hmo =>
    obtain ⟨a, sp, _, _, r, ha, hsp, hq, rfl, rfl⟩ := exists_of_match?_target hmo
    obtain ⟨s, o, t, hs, rfl, ht, rfl⟩ := exists_of_reads_offset (.inr rfl) hq
    refine ⟨[], a, s, t ++ r, _, ⟨ha, hs, sp, hsp, by simp⟩, .inl ⟨hb, rfl⟩, .label (ht r)
      (" // <".toList ++ (s ++ "@@Base+0x".toList ++ o ++ ">".toList))
      (.inr ( List.prefix_append _ _)), ?_⟩
    simp only [Option.some.injEq, Prod.mk.injEq] at h
    rw [← h.1]
    simp
  next => exact absurd h (by simp)

theorem tbzCase_replaced (h : tbzCase addr inst operands = some out) :
    Replaced addr inst operands out := by
  simp only [tbzCase] at h
  split_ifs at h with hi
  obtain ⟨mo, hmo, rfl⟩ := Option.map_eq_some_iff.mp h
  obtain ⟨u, c, a, s, o, t, hp, hat, ht, rfl⟩ := exists_of_match?_offset hmo
  obtain ⟨_, _, rfl, _, _, rfl, hp, hcomma⟩ := reads_append.mp hp
  obtain ⟨_, r₂, rfl, _, _, rfl, hp, hr₂⟩ := reads_append.mp hp
  obtain ⟨r₁, _, rfl, _, _, rfl, hr₁, hcomma'⟩ := reads_append.mp hp
  obtain ⟨-, rfl⟩ := reads_op1.mp hr₁
  obtain ⟨-, rfl⟩ := reads_op2.mp hr₂
  obtain ⟨rfl, rfl⟩ := reads_str.mp hcomma
  obtain ⟨rfl, rfl⟩ := reads_str.mp hcomma'
  refine ⟨_, a, s, t, _, hat, .inr ⟨by fin_cases hi <;> simp [addressed], _, rfl⟩, .label ht
    (" // <".toList ++ (s ++ "@@Base+0x".toList ++ o ++ ">".toList))
    (.inr ( List.prefix_append _ _)), ?_⟩
  simp

theorem cbzCase_replaced (h : cbzCase addr inst operands = some out) :
    Replaced addr inst operands out := by
  simp only [cbzCase] at h
  split_ifs at h with hi
  obtain ⟨mo, hmo, rfl⟩ := Option.map_eq_some_iff.mp h
  obtain ⟨u, c, a, s, o, t, hp, hat, ht, rfl⟩ := exists_of_match?_offset hmo
  obtain ⟨r₁, _, rfl, _, _, rfl, hr₁, hcomma⟩ := reads_append.mp hp
  obtain ⟨-, rfl⟩ := reads_op1.mp hr₁
  obtain ⟨rfl, rfl⟩ := reads_str.mp hcomma
  refine ⟨_, a, s, t, _, hat, .inr ⟨by fin_cases hi <;> simp [addressed], _, rfl⟩, .label ht
    (" // <".toList ++ (s ++ "@@Base+0x".toList ++ o ++ ">".toList))
    (.inr ( List.prefix_append _ _)), ?_⟩
  simp

theorem adrpCase_replaced (hi : inst = "adrp".toList) (h : adrpCase addr inst operands = some out) :
    Replaced addr inst operands out := by
  obtain ⟨mo, hmo, rfl⟩ := Option.map_eq_some_iff.mp h
  obtain ⟨q, hq, hm⟩ : ∃ q, (∀ v d, q.Reads v d → ∃ s t, IsRun isWord s ∧ v = '<' :: s ++ t) ∧
      (Pat.reg ++ Pat.str ", " ++ Pat.addr ++ Pat.space ++ q).match? operands = some mo := by
    rcases orElse_eq_some_iff.mp hmo with hm | ⟨-, hm⟩
    · refine ⟨_, fun v d hv => ?_, hm⟩
      obtain ⟨s, -, t, hs, rfl, -⟩ := exists_of_reads_offset (.inr rfl) hv
      exact ⟨s, t, hs, rfl⟩
    rcases orElse_eq_some_iff.mp hm with hm | ⟨-, hm⟩
    · refine ⟨_, fun v d hv => ?_, hm⟩
      obtain ⟨s, hs, rfl, -⟩ := reads_target.mp hv
      exact ⟨s, _, hs, rfl⟩
    · refine ⟨_, fun v d hv => ?_, hm⟩
      obtain ⟨s, -, t, hs, rfl, -⟩ := exists_of_reads_offset (.inl rfl) hv
      exact ⟨s, t, hs, rfl⟩
  obtain ⟨_, _, a, sp, _, d, r, hp, ha, hsp, hv, rfl, rfl⟩ := exists_of_match?_before_target hm
  obtain ⟨s, t, hs, rfl⟩ := hq _ _ hv
  obtain ⟨g, _, rfl, _, _, rfl, hg, hcomma⟩ := reads_append.mp hp
  obtain ⟨-, rfl⟩ := reads_reg.mp hg
  obtain ⟨rfl, rfl⟩ := reads_str.mp hcomma
  refine ⟨g ++ ", ".toList, a, s, t ++ r, _, ⟨ha, hs, sp, hsp, ?_⟩,
    .inr ⟨by simp [hi, addressed], g, rfl⟩, .page hi, ?_⟩
  · simp
  · simp

theorem adrCase_replaced (h : adrCase addr inst operands = some out) :
    Replaced addr inst operands out := by
  simp only [adrCase] at h
  split_ifs at h with hi
  obtain ⟨mo, hmo, rfl⟩ := Option.map_eq_some_iff.mp h
  obtain ⟨_, _, a, sp, _, _, r, hp, ha, hsp, hq, rfl, rfl⟩ := exists_of_match?_before_target hmo
  obtain ⟨s, o, t, hs, rfl, ht, rfl⟩ := exists_of_reads_offset (.inr rfl) hq
  obtain ⟨g, _, rfl, _, _, rfl, hg, hcomma⟩ := reads_append.mp hp
  obtain ⟨-, rfl⟩ := reads_reg.mp hg
  obtain ⟨rfl, rfl⟩ := reads_str.mp hcomma
  refine ⟨g ++ ", ".toList, a, s, t ++ r, _, ⟨ha, hs, sp, hsp, ?_⟩,
    .inr ⟨by simp [hi, addressed], g, rfl⟩, .label (ht r) [] (.inl rfl), ?_⟩
  · simp
  · simp

/-- The last case is reached by no branch and no `adrp`, and copies its operands. -/
theorem genericCase_eq_some : genericCase addr inst operands = some out ↔
    '@' ∉ operands ∧ ¬ "+0x".toList <:+: operands ∧ out = codeLine addr inst operands := by
  unfold genericCase
  split_ifs with h₁ h₂
  · exact iff_of_false (by simp) fun h => h.1 h₁
  · exact iff_of_false (by simp) fun h => h.2.1 h₂
  · simp only [Option.some.injEq, h₁, h₂, not_false_eq_true, true_and]
    exact eq_comm

/-- Everything an accepted instruction line can print. -/
theorem processInsts_cases {m : Match} (h : processInsts symbols m = some (out, symbols')) :
    Replaced (hexVal (m.group .addr)) (m.group .inst) (m.group .operands) out ∨
      ¬ IsBranch (m.group .inst) ∧ m.group .inst ≠ "adrp".toList ∧ '@' ∉ m.group .operands ∧
        ¬ "+0x".toList <:+: m.group .operands ∧
        out = codeLine (hexVal (m.group .addr)) (m.group .inst) (m.group .operands) := by
  simp only [processInsts] at h
  by_cases hb : IsBranch (m.group .inst)
  · rw [if_pos hb] at h
    exact .inl (branchCase_replaced hb h)
  rw [if_neg hb] at h
  obtain ⟨_, hc, heq⟩ := Option.map_eq_some_iff.mp h
  obtain ⟨rfl, -⟩ := Prod.mk.inj heq
  rcases orElse_eq_some_iff.mp hc with hc | ⟨-, hc⟩
  · exact .inl (tbzCase_replaced hc)
  rcases orElse_eq_some_iff.mp hc with hc | ⟨-, hc⟩
  · exact .inl (cbzCase_replaced hc)
  split_ifs at hc with hp
  · exact .inl (adrpCase_replaced hp hc)
  rcases orElse_eq_some_iff.mp hc with hc | ⟨-, hc⟩
  · exact .inl (adrCase_replaced hc)
  · exact .inr ⟨hb, hp, genericCase_eq_some.mp hc⟩

/-- The last case stands behind every mnemonic but the branches and `adrp`. -/
theorem processInsts_isSome (symbols : List Str) {m : Match} (hb : ¬ IsBranch (m.group .inst))
    (hp : m.group .inst ≠ "adrp".toList) (hat : '@' ∉ m.group .operands)
    (hoff : ¬ "+0x".toList <:+: m.group .operands) : (processInsts symbols m).isSome := by
  have hg : genericCase (hexVal (m.group .addr)) (m.group .inst) (m.group .operands) =
      some (codeLine (hexVal (m.group .addr)) (m.group .inst) (m.group .operands)) :=
    genericCase_eq_some.mpr ⟨hat, hoff, rfl⟩
  simp only [processInsts, if_neg hb, if_neg hp, hg, Option.isSome_map]
  simp

/-- The symbols recorded so far decide neither whether a line is printed nor what is printed. -/
theorem processInsts_fst (symbols : List Str) (m : Match) :
    (processInsts symbols m).map Prod.fst = (processInsts [] m).map Prod.fst := by
  unfold processInsts branchCase
  simp only [importSym_fst]
  by_cases hb : IsBranch (m.group .inst)
  · simp only [if_pos hb]
    split <;> try rfl
    split <;> try rfl
    split <;> try rfl
    split <;> rfl
  · simp only [if_neg hb, Option.map_map, Function.comp_def]

end Cases

end Rebench.Refine
