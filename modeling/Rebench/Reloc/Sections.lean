import Rebench.Reloc.Protection
import Rebench.Reloc.Script

/-!
# The section table of a listing

A row of the table carries its number in brackets, two columns wide. Below ten
the number has a blank in front of it, which makes the bracket a field of its
own: the first row is found by that blank, and the names of the rows from ten
on stand one field further to the left.
-/
namespace Rebench.Reloc
open Text Machine

/-- A section of an ELF file, at its link address. -/
structure ElfSection extends Sec where
  name : Str
  type : Str
  alloc : Bool

/-- The line is row `i` of the table. Only the null section has no name. -/
def SectionRow (i : ℕ) (line : Str) (s : ElfSection) : Prop :=
  ∃ blanks rest addr off size more,
    line = blanks ++ '[' :: (padLeft 2 (dec i) ++ ']' :: rest) ∧
    (∀ c ∈ blanks, isBlank c) ∧ '[' ∉ rest ∧ (∀ c ∈ rest.head?, isBlank c) ∧
    words rest = words s.name ++ s.type :: addr :: off :: size :: more ∧
    (IsToken s.name ∨ i = 0 ∧ s.name = []) ∧
    IsRun isHex addr ∧ hexVal addr = s.start ∧ IsRun isHex size ∧ hexVal size = s.size

/-- The lines that are no headings are the rows of the sections from number `i` on. -/
inductive ListsSections : ℕ → List Str → List ElfSection → Prop where
  | nil {i : ℕ} : ListsSections i [] []
  | heading {i : ℕ} {line : Str} {lines : List Str} {ss : List ElfSection}
      (hmark : ¬ firstMark <:+: line) (hmacros : sectionMacros line = [])
      (hl : ListsSections i lines ss) : ListsSections i (line :: lines) ss
  | row {i : ℕ} {line : Str} {lines : List Str} {s : ElfSection} {ss : List ElfSection}
      (h : SectionRow i line s) (hl : ListsSections (i + 1) lines ss) :
      ListsSections i (line :: lines) (s :: ss)

/-! ## The fields of a row -/

section Row
variable {i : ℕ} {blanks rest : Str}

theorem dec_of_lt (h : i < 10) : dec i = [Nat.digitChar i] := by
  interval_cases i <;> rfl

theorem padLeft_dec_of_lt (h : i < 10) : padLeft 2 (dec i) = ' ' :: dec i := by
  rw [dec_of_lt h]
  rfl

theorem padLeft_dec_of_le (h : 10 ≤ i) : padLeft 2 (dec i) = dec i := by
  have hlen := two_le_length_dec h
  rw [padLeft, Nat.sub_eq_zero_of_le hlen]
  rfl

theorem bracket_notMem_dec : '[' ∉ dec i :=
  fun h => absurd (isHex_of_mem_dec h) (by decide)

theorem words_row_of_lt (h : i < 10) (hblanks : ∀ c ∈ blanks, isBlank c)
    (hrest : ∀ c ∈ rest.head?, isBlank c) :
    words (blanks ++ '[' :: (padLeft 2 (dec i) ++ ']' :: rest)) =
      ['['] :: (dec i ++ [']']) :: words rest := by
  have hnr : IsToken ([] ++ dec i ++ [']']) := isToken_dec (by simp) (by simp; decide) i
  have hbracket : words ('[' :: (' ' :: dec i ++ ']' :: rest)) =
      ['['] :: words (dec i ++ ']' :: rest) :=
    words_token_blank (w := ['[']) (by decide) (by decide) _
  have hline : dec i ++ ']' :: rest = [] ++ dec i ++ [']'] ++ rest := by
    simp
  rw [words_blanks hblanks, padLeft_dec_of_lt h, hbracket, hline, words_token_append hnr hrest]
  rfl

theorem words_row_of_le (h : 10 ≤ i) (hblanks : ∀ c ∈ blanks, isBlank c)
    (hrest : ∀ c ∈ rest.head?, isBlank c) :
    words (blanks ++ '[' :: (padLeft 2 (dec i) ++ ']' :: rest)) =
      ('[' :: (dec i ++ [']'])) :: words rest := by
  have hnr : IsToken (['['] ++ dec i ++ [']']) := isToken_dec (by simp; decide) (by simp; decide) i
  have hline : '[' :: (dec i ++ ']' :: rest) = ['['] ++ dec i ++ [']'] ++ rest := by
    simp
  rw [words_blanks hblanks, padLeft_dec_of_le h, hline, words_token_append hnr hrest]
  rfl

theorem firstMark_iff (hblanks : ∀ c ∈ blanks, isBlank c) (hrest : '[' ∉ rest) :
    firstMark <:+: blanks ++ '[' :: (padLeft 2 (dec i) ++ ']' :: rest) ↔ i = 1 := by
  constructor
  · intro h
    obtain ⟨u, v, huv⟩ := h
    have hu : '[' ∉ blanks := fun hmem => absurd (hblanks _ hmem) (by decide)
    have hv : '[' ∉ padLeft 2 (dec i) ++ ']' :: rest := by
      intro hmem
      rw [padLeft, List.append_assoc, List.mem_append, List.mem_append, List.mem_cons] at hmem
      rcases hmem with hmem | hmem | hmem | hmem
      · exact absurd (List.eq_of_mem_replicate hmem) (by decide)
      · exact bracket_notMem_dec hmem
      · exact absurd hmem (by decide)
      · exact hrest hmem
    have hcut : blanks ++ '[' :: (padLeft 2 (dec i) ++ ']' :: rest) = u ++ '[' :: ([' ', '1'] ++ v) := by
      rw [← huv]
      simp [firstMark]
    obtain ⟨-, hnr⟩ := split_unique hu hv hcut
    by_cases hi : i < 10
    · rw [padLeft_dec_of_lt hi, dec_of_lt hi] at hnr
      have hdigit : ∀ i < 10, Nat.digitChar i = '1' → i = 1 := by
        decide
      exact hdigit i hi (List.cons.inj (List.cons.inj hnr).2).1
    · rw [padLeft_dec_of_le (by omega)] at hnr
      have hhead : ' ' ∈ dec i := by
        cases hdec : dec i with
        | nil => exact absurd hdec (by simp)
        | cons c cs =>
          rw [hdec] at hnr
          simp_all
      exact absurd (isHex_of_mem_dec hhead) (by decide)
  · rintro rfl
    refine ⟨blanks, ']' :: rest, ?_⟩
    rw [padLeft_dec_of_lt (by norm_num), dec_of_lt (by norm_num), List.append_assoc]
    rfl

end Row

/-! ## The macros of a table -/

def Column (digits : Str) (n : ℕ) : Prop := IsRun isHex digits ∧ hexVal digits = n

theorem hexLiteral_column {digits : Str} {n : ℕ} (h : Column digits n) :
    hexLiteral digits = some (BitVec.ofNat 64 n) := by
  rw [hexLiteral, if_pos h.1, h.2]

section Macros
variable {i : ℕ} {line : Str} {lines : List Str} {s : ElfSection} {ss : List ElfSection}

/-- Below ten the second field of a row is the number. -/
theorem sectionMacros_of_lt (h : SectionRow i line s) (hi : i < 10) : sectionMacros line = [] := by
  obtain ⟨blanks, rest, addr, off, size, more, rfl, hblanks, -, hhead, -⟩ := h
  have hname : wordAt (blanks ++ '[' :: (padLeft 2 (dec i) ++ ']' :: rest)) 1 = dec i ++ [']'] := by
    rw [wordAt, words_row_of_lt hi hblanks hhead]
    rfl
  have hne : ∀ u : Str, u.getLast? ≠ some ']' → dec i ++ [']'] ≠ u := by
    rintro u hu rfl
    exact hu (by simp)
  rw [sectionMacros, hname, if_neg (hne _ (by decide)), if_neg (hne _ (by decide))]

/-- From ten on a row of the text or of the zero-initialized data gives its two macros. -/
theorem sectionMacros_of_le (h : SectionRow i line s) (hi : 10 ≤ i) :
    ∃ addr size, Column addr s.start ∧ Column size s.size ∧ sectionMacros line =
      if s.name = ".text".toList then
        [("TEXT_START".toList, addr), ("TEXT_SIZE".toList, size)]
      else if s.name = ".bss".toList then
        [("BSS_START".toList, addr), ("BSS_SIZE".toList, size)]
      else [] := by
  obtain ⟨blanks, rest, addr, off, size, more, rfl, hblanks, -, hhead, hwords, hname, haddr, haddr',
    hsize, hsize'⟩ := h
  refine ⟨addr, size, ⟨haddr, haddr'⟩, ⟨hsize, hsize'⟩, ?_⟩
  have htoken : IsToken s.name := by
    cases hname with
    | inl hname => exact hname
    | inr hnull => omega
  rw [sectionMacros]
  simp only [wordAt, words_row_of_le hi hblanks hhead, hwords, words_token htoken,
    List.singleton_append, List.getD_cons_zero, List.getD_cons_succ]

theorem wordAt_firstRow (h : SectionRow 1 line s) : Column (wordAt line 4) s.start := by
  obtain ⟨blanks, rest, addr, off, size, more, rfl, hblanks, -, hhead, hwords, hname, haddr, haddr',
    -⟩ := h
  have htoken : IsToken s.name := by
    cases hname with
    | inl hname => exact hname
    | inr hnull => omega
  simp only [wordAt, words_row_of_lt (by norm_num : 1 < 10) hblanks hhead, hwords,
    words_token htoken, List.singleton_append, List.getD_cons_zero, List.getD_cons_succ]
  exact ⟨haddr, haddr'⟩

theorem firstMark_row_iff (h : SectionRow i line s) : firstMark <:+: line ↔ i = 1 := by
  obtain ⟨blanks, rest, addr, off, size, more, rfl, hblanks, hrest, -⟩ := h
  exact firstMark_iff hblanks hrest

theorem filter_firstMark_of_lt (h : ListsSections i lines ss) (hi : 1 < i) :
    lines.filter (firstMark <:+: ·) = [] := by
  induction h with
  | nil => rfl
  | heading hmark _ _ ih => rw [List.filter_cons_of_neg (by simpa using hmark), ih hi]
  | row h _ ih =>
    have hmark : ¬ firstMark <:+: _ := fun hin => absurd ((firstMark_row_iff h).mp hin) (by omega)
    rw [List.filter_cons_of_neg (by simpa using hmark), ih (by omega)]

/-- `ROM_START` is the address of the first section of the listing. -/
theorem romStartText_column (h : ListsSections i lines ss) (hi : i ≤ 1) (hs : ss[1 - i]? = some s) :
    Column (romStartText lines) s.start := by
  induction h with
  | nil => simp at hs
  | heading hmark _ _ ih =>
    rw [romStartText, List.filter_cons_of_neg (by simpa using hmark)]
    exact ih hi hs
  | @row i line lines s' ss h hl ih =>
    cases Nat.lt_or_eq_of_le hi with
    | inl hzero =>
      have hmark : ¬ firstMark <:+: line := fun hin => absurd ((firstMark_row_iff h).mp hin) (by omega)
      rw [romStartText, List.filter_cons_of_neg (by simpa using hmark)]
      obtain rfl : i = 0 := by omega
      exact ih le_rfl hs
    | inr hone =>
      subst hone
      rw [List.getElem?_cons_zero, Option.some_inj] at hs
      have hmark : firstMark <:+: line := (firstMark_row_iff h).mpr rfl
      rw [romStartText, List.filter_cons_of_pos (by simpa using hmark),
        filter_firstMark_of_lt hl (by norm_num), ← hs, List.map_singleton, List.intercalate_singleton]
      exact wordAt_firstRow h

/-- The macros for the zero-initialized part come together, from one of the sections. -/
def BssOf (macros : List (Str × Str)) (ss : List ElfSection) : Prop :=
  macros.reverse.lookup "BSS_START".toList = none ∧ macros.reverse.lookup "BSS_SIZE".toList = none ∨
    ∃ s ∈ ss, s.name = ".bss".toList ∧ ∃ addr size, Column addr s.start ∧ Column size s.size ∧
      macros.reverse.lookup "BSS_START".toList = some addr ∧
      macros.reverse.lookup "BSS_SIZE".toList = some size

theorem bssOf_row (h : SectionRow i line s) : BssOf (sectionMacros line) [s] := by
  by_cases hi : i < 10
  · rw [sectionMacros_of_lt h hi]
    exact .inl ⟨rfl, rfl⟩
  · obtain ⟨addr, size, haddr, hsize, hmacros⟩ := sectionMacros_of_le h (by omega)
    rw [hmacros]
    by_cases htext : s.name = ".text".toList
    · rw [if_pos htext]
      exact .inl ⟨rfl, rfl⟩
    · rw [if_neg htext]
      by_cases hbss : s.name = ".bss".toList
      · rw [if_pos hbss]
        exact .inr ⟨s, by simp, hbss, addr, size, haddr, hsize, rfl, rfl⟩
      · rw [if_neg hbss]
        exact .inl ⟨rfl, rfl⟩

theorem BssOf.append {ms ms' : List (Str × Str)} {ss' : List ElfSection} (h : BssOf ms ss)
    (h' : BssOf ms' ss') : BssOf (ms ++ ms') (ss ++ ss') := by
  rw [BssOf, List.reverse_append, List.lookup_append, List.lookup_append]
  cases h' with
  | inl h' =>
    rw [h'.1, h'.2, Option.none_or, Option.none_or]
    cases h with
    | inl h => exact .inl h
    | inr h =>
      obtain ⟨s, hs, h⟩ := h
      exact .inr ⟨s, List.mem_append_left _ hs, h⟩
  | inr h' =>
    obtain ⟨s, hs, hname, addr, size, haddr, hsize, hstart, hlen⟩ := h'
    rw [hstart, hlen]
    exact .inr ⟨s, List.mem_append_right _ hs, hname, addr, size, haddr, hsize, rfl, rfl⟩

theorem bssOf_lists (h : ListsSections i lines ss) : BssOf (lines.flatMap sectionMacros) ss := by
  induction h with
  | nil => exact .inl ⟨rfl, rfl⟩
  | heading _ hmacros _ ih =>
    rw [List.flatMap_cons, hmacros]
    exact ih
  | row h _ ih =>
    rw [List.flatMap_cons]
    exact (bssOf_row h).append ih

theorem sectionMacros_keys : ∀ m ∈ sectionMacros line, m.1 ≠ "ROM_START".toList := by
  rw [sectionMacros]
  split_ifs <;> simp

/-- The macros that the header takes from the two tables. -/
theorem processSections_values {jemalloc : List Str} {js : List ElfSection} {j : ElfSection}
    (hj : ListsSections 0 jemalloc js) (hfirst : js[1]? = some j) (h : ListsSections 0 lines ss)
    {start size : Word}
    (hstart : macroValue (processSections jemalloc lines) "BSS_START" = some start)
    (hsize : macroValue (processSections jemalloc lines) "BSS_SIZE" = some size) :
    macroValue (processSections jemalloc lines) "ROM_START" = some (BitVec.ofNat 64 j.start) ∧
      ∃ s ∈ ss, s.name = ".bss".toList ∧ start = BitVec.ofNat 64 s.start ∧
        size = BitVec.ofNat 64 s.size := by
  have hrom : (lines.flatMap sectionMacros).reverse.lookup "ROM_START".toList = none := by
    rw [List.lookup_eq_none_iff]
    intro m hm
    obtain ⟨line, -, hm⟩ := List.mem_flatMap.mp (List.mem_reverse.mp hm)
    simpa using Ne.symm (sectionMacros_keys m hm)
  have hlookup : ∀ name : String, macroValue (processSections jemalloc lines) name =
      (((lines.flatMap sectionMacros).reverse.lookup name.toList).or
        ([("ROM_START".toList, romStartText jemalloc)].lookup name.toList)).bind hexLiteral := by
    intro name
    rw [macroValue, processSections, List.reverse_cons, List.lookup_append]
  rw [hlookup] at hstart hsize
  constructor
  · rw [hlookup, hrom, Option.none_or]
    exact hexLiteral_column (romStartText_column hj (Nat.zero_le 1) hfirst)
  · cases bssOf_lists h with
    | inl hnone =>
      rw [hnone.1] at hstart
      exact absurd hstart (Option.some_ne_none start).symm
    | inr hsome =>
      obtain ⟨s, hs, hname, addr, len, haddr, hlen, hlookupStart, hlookupSize⟩ := hsome
      rw [hlookupStart, Option.some_or, Option.bind_some, hexLiteral_column haddr,
        Option.some_inj] at hstart
      rw [hlookupSize, Option.some_or, Option.bind_some, hexLiteral_column hlen,
        Option.some_inj] at hsize
      exact ⟨s, hs, hname, hstart.symm, hsize.symm⟩

end Macros

end Rebench.Reloc
