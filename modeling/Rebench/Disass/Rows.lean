import Mathlib.Data.List.GetD
import Rebench.Disass.Source

/-!
# The rows of a symbol table

The range is that of the first line in which the name stands as a word, whatever
symbol the line is about. The columns of that line are counted in words, and a
symbol without a type has one word less in front of its size.
-/
namespace Rebench.Disass
open Text Reloc Machine

/-- A row of `objdump -t` or `objdump -T`. Behind the size may stand a version and a visibility. -/
structure Row where
  value : ℕ
  flags : Str
  sec : Str
  size : ℕ
  extra : Str
  name : Str
  fits : value + size < 2 ^ 64
  flags_length : flags.length = 7
  flags_word : value ≠ 0 → words flags ≠ []
  sec_token : IsToken sec
  extra_blank : ∀ c ∈ extra.head?, isBlank c
  name_token : IsToken name

def Row.line (r : Row) : Str :=
  hex16 r.value ++ ' ' :: (r.flags ++ ' ' :: (r.sec ++ '\t' :: (hex16 r.size ++
    (r.extra ++ ' ' :: r.name))))

/-- A line that is no row is empty or does not begin with an address. -/
def Heading (line : Str) : Prop := line = [] ∨ ∃ w ws, words line = w :: ws ∧ ¬ IsRun isHex w

/-- What `objdump` prints for the symbols: the rows, in any order, and headings. -/
def SymbolTable (listing : List Str) (rows : List Row) : Prop :=
  ∃ before after, listing = before ++ rows.map Row.line ++ after ∧
    ∀ line ∈ before ++ after, Heading line

def Extracts (d : Option Disassembly) (r : Row) : Prop :=
  ∃ s, d = some s ∧ hexLiteral s.start = some (BitVec.ofNat 64 r.value) ∧
    hexLiteral s.stop = some (BitVec.ofNat 64 (r.value + r.size))

/-- A location `<start>-<end>` with the addresses of the symbol. -/
def Locates (location : Str) (r : Row) : Prop :=
  ∃ start stop more,
    words (location.map fun c => if c = '-' then ' ' else c) = start :: stop :: more ∧
      hexLiteral start = some (BitVec.ofNat 64 r.value) ∧
      hexLiteral stop = some (BitVec.ofNat 64 (r.value + r.size))

/-- The argument asks for the name: as it is, or behind `@`. -/
def AsksFor (arg name : Str) : Prop :=
  arg = '@' :: name ∨ arg = name ∧ ∀ c ∈ name.head?, c ∉ ['?', 'L', '@']

/-! ## The columns of a row -/

section Digits

theorem hexVal_replicate (k : ℕ) (s : Str) : hexVal (List.replicate k '0' ++ s) = hexVal s := by
  induction k with
  | zero => rfl
  | succ k ih =>
    rw [← ih]
    rfl

theorem isRun_hex16 (n : ℕ) : IsRun isHex (hex16 n) := by
  refine ⟨by simp [hex16, hex], fun c hc => ?_⟩
  cases List.mem_append.mp hc with
  | inl hc =>
    rw [List.eq_of_mem_replicate hc]
    rfl
  | inr hc => exact isHex_of_mem_hex hc

theorem hexVal_hex16 (n : ℕ) : hexVal (hex16 n) = n := by
  rw [hex16, hexVal_replicate, hexVal_hex]

theorem hexLiteral_hex16 (n : ℕ) : hexLiteral (hex16 n) = some (BitVec.ofNat 64 n) := by
  rw [hexLiteral, if_pos (isRun_hex16 n), hexVal_hex16]

theorem hexLiteral_nil : hexLiteral [] = none := by
  decide

theorem shellHex_of_ne_nil {s : Str} (h : s ≠ []) : shellHex s = hexLiteral s := if_neg h

/-- The end of a range has the digits of the sum. -/
theorem hexLiteral_stopText {start size : Str} {a b : Word} (h : hexLiteral start = some a) :
    hexLiteral (stopText start size) = some (a + b) ↔ shellHex size = some b := by
  have hne : start ≠ [] := by
    rintro rfl
    rw [hexLiteral_nil] at h
    cases h
  rw [stopText, shellHex_of_ne_nil hne, h]
  cases hn : shellHex size with
  | none => simp [hexLiteral_nil]
  | some n =>
    simp only [hexLiteral_hex16, BitVec.ofNat_toNat, BitVec.setWidth_eq, Option.some_inj]
    exact BitVec.add_right_inj a

end Digits

namespace Row
variable (r : Row)

theorem words_line : words r.line = hex16 r.value ::
    (words r.flags ++ r.sec :: hex16 r.size :: (words r.extra ++ [r.name])) := by
  have htail : ∀ c ∈ (r.extra ++ ' ' :: r.name).head?, isBlank c := by
    intro c hc
    cases hx : r.extra with
    | nil =>
      rw [hx, List.nil_append, List.head?_cons, Option.mem_some_iff] at hc
      rw [← hc]
      rfl
    | cons x extra =>
      rw [hx, List.cons_append, List.head?_cons, Option.mem_some_iff] at hc
      rw [← hc]
      exact r.extra_blank x (by simp [hx])
  rw [line, words_token_blank (isRun_hex16 _).isToken (by decide), words_append_blank (by decide),
    words_token_blank r.sec_token (by decide), words_token_append (isRun_hex16 _).isToken htail,
    words_append_blank (by decide), words_token r.name_token]

theorem wordAt_line_four (h : (words r.flags).length = 2) : wordAt r.line 4 = hex16 r.size := by
  obtain ⟨u, v, huv⟩ := List.length_eq_two.mp h
  rw [wordAt, words_line, huv]
  rfl

theorem five_le_length (h : r.value ≠ 0) : 5 ≤ (words r.line).length := by
  have hflags := List.length_pos_iff.mpr (r.flags_word h)
  rw [words_line]
  simp only [List.length_cons, List.length_append, List.length_nil]
  omega

theorem value_lt : r.value < 2 ^ 64 := by
  have hfits := r.fits
  omega

theorem not_heading : ¬ Heading r.line := by
  rintro (hnil | ⟨w, ws, hwords, hw⟩)
  · have hwords := r.words_line
    rw [hnil, words_nil] at hwords
    cases hwords
  · rw [r.words_line] at hwords
    exact hw ((List.cons.inj hwords).1 ▸ isRun_hex16 _)

end Row

/-! ## The selected lines -/

section Selected
variable {grepW : Str → Str → Bool} {static : Bool} {listing : List Str} {rows : List Row}
  {own : Row} {name : Str}

theorem ofNat_inj {m n : ℕ} (hm : m < 2 ^ 64) (hn : n < 2 ^ 64) :
    BitVec.ofNat 64 m = BitVec.ofNat 64 n ↔ m = n := by
  constructor
  · intro h
    have htoNat := congrArg BitVec.toNat h
    rwa [BitVec.toNat_ofNat, BitVec.toNat_ofNat, Nat.mod_eq_of_lt hm, Nat.mod_eq_of_lt hn] at htoNat
  · exact congrArg _

theorem hexLiteral_zeros : hexLiteral "0000000000000000".toList = some 0 := by
  decide

/-- The range is that of the first and the fifth word of the selected lines. -/
theorem extracts_disass_iff (hne : own.value ≠ 0) :
    Extracts (disass grepW static listing name) own ↔
      hexLiteral (((listing.filter (selects grepW static name)).flatMap words).getD 0 []) =
          some (BitVec.ofNat 64 own.value) ∧
        shellHex (((listing.filter (selects grepW static name)).flatMap words).getD 4 []) =
          some (BitVec.ofNat 64 own.size) := by
  obtain ⟨sym, hsym⟩ : ∃ sym, listing.filter (selects grepW static name) = sym := ⟨_, rfl⟩
  have hzero : BitVec.ofNat 64 own.value ≠ 0 := by
    intro h
    exact hne ((ofNat_inj own.value_lt (by norm_num)).mp h)
  rw [disass, hsym, Extracts]
  constructor
  · intro h
    obtain ⟨s, hs, hstart, hstop⟩ := h
    dsimp only at hs
    split_ifs at hs with hempty hzeros
    obtain rfl := Option.some.inj hs
    rw [BitVec.ofNat_add, hexLiteral_stopText hstart] at hstop
    exact ⟨hstart, hstop⟩
  · rintro ⟨hstart, hsize⟩
    have hempty : ¬ ∀ line ∈ sym, line = [] := by
      intro hall
      have hnil : sym.flatMap words = [] := by
        rw [List.flatMap_eq_nil_iff]
        intro line hline
        rw [hall line hline, words_nil]
      rw [hnil] at hstart
      exact absurd hstart (by simp [hexLiteral_nil])
    have hzeros : ¬ ((sym.flatMap words).getD 0 [] = [] ∨
        (sym.flatMap words).getD 0 [] = "0000000000000000".toList) := by
      rintro (h | h)
      · rw [h] at hstart
        exact absurd hstart (by simp [hexLiteral_nil])
      · rw [h, hexLiteral_zeros, Option.some_inj] at hstart
        exact hzero hstart.symm
    rw [if_neg hempty]
    simp only [if_neg hzeros]
    refine ⟨_, rfl, hstart, ?_⟩
    rw [BitVec.ofNat_add]
    exact (hexLiteral_stopText hstart).mpr hsize

theorem Row.value_eq_of_line {r r' : Row} (h : r.line = r'.line) : r.value = r'.value := by
  have hwords := congrArg words h
  rw [words_line, words_line] at hwords
  rw [← hexVal_hex16 r.value, (List.cons.inj hwords).1, hexVal_hex16]

theorem fields_cons {line : Str} (rest : List Str) {i : ℕ} (h : i < (words line).length) :
    ((line :: rest).flatMap words).getD i [] = wordAt line i := by
  rw [List.flatMap_cons, List.getD_append _ _ _ _ h, wordAt]

theorem row_or_heading (h : SymbolTable listing rows) {line : Str} (hl : line ∈ listing) :
    Heading line ∨ ∃ r ∈ rows, line = r.line := by
  obtain ⟨before, after, rfl, hheading⟩ := h
  simp only [List.mem_append, List.mem_map] at hl hheading
  rcases hl with (hl | ⟨r, hr, rfl⟩) | hl
  · exact .inl (hheading line (.inl hl))
  · exact .inr ⟨r, hr, rfl⟩
  · exact .inl (hheading line (.inr hl))

/-- An empty line among the selected ones leaves no word. -/
theorem flatMap_words_filter (lines : List Str) :
    (lines.filter (· ≠ [])).flatMap words = lines.flatMap words := by
  induction lines with
  | nil => rfl
  | cons line lines ih =>
    by_cases h : line = []
    · rw [List.filter_cons_of_neg (by simpa using h), ih, List.flatMap_cons, h, words_nil,
        List.nil_append]
    · rw [List.filter_cons_of_pos (by simpa using h), List.flatMap_cons, List.flatMap_cons, ih]

/-- The range is the symbol's exactly if the first selected line that is not empty is a row with the
symbol's value and with the symbol's size as its fifth word. -/
theorem disass_extracts_iff (h : SymbolTable listing rows) (hne : own.value ≠ 0) :
    Extracts (disass grepW static listing name) own ↔
      ∃ r ∈ rows, listing.find? (fun line => line ≠ [] && selects grepW static name line) =
          some r.line ∧
        r.value = own.value ∧ hexLiteral (wordAt r.line 4) = some (BitVec.ofNat 64 own.size) := by
  rw [extracts_disass_iff hne, ← flatMap_words_filter, List.filter_filter, ← List.head?_filter]
  cases hsel : listing.filter (fun line => line ≠ [] && selects grepW static name line) with
  | nil => exact iff_of_false (fun hnil => absurd hnil.1 (by simp [hexLiteral_nil])) (by simp)
  | cons line rest =>
    have hmem : line ∈ listing ∧ line ≠ [] := by
      have hmem := List.mem_cons_self (a := line) (l := rest)
      rw [← hsel, List.mem_filter, Bool.and_eq_true, decide_eq_true_eq] at hmem
      exact ⟨hmem.1, hmem.2.1⟩
    rw [List.head?_cons]
    rcases row_or_heading h hmem.1 with (hnil | ⟨w, ws, hwords, hw⟩) | ⟨r, hr, rfl⟩
    · exact absurd hnil hmem.2
    · refine iff_of_false ?_ ?_
      · rintro ⟨hstart, -⟩
        rw [fields_cons rest (by simp [hwords]), wordAt, hwords, List.getD_cons_zero, hexLiteral,
          if_neg hw] at hstart
        cases hstart
      · rintro ⟨r, -, hline, -⟩
        exact r.not_heading (Option.some.inj hline ▸ .inr ⟨w, ws, hwords, hw⟩)
    · have hstart : ((r.line :: rest).flatMap words).getD 0 [] = hex16 r.value := by
        rw [fields_cons rest (by simp [r.words_line]), wordAt, r.words_line, List.getD_cons_zero]
      rw [hstart, hexLiteral_hex16, Option.some_inj, ofNat_inj r.value_lt own.value_lt]
      constructor
      · rintro ⟨hvalue, hsize⟩
        have hfive := r.five_le_length (hvalue ▸ hne)
        rw [fields_cons rest hfive, shellHex_of_ne_nil (wordAt_ne_nil hfive)] at hsize
        exact ⟨r, hr, rfl, hvalue, hsize⟩
      · rintro ⟨r', -, hline, hvalue, hsize⟩
        have hsame := Row.value_eq_of_line (Option.some.inj hline)
        have hfive := r.five_le_length (hsame ▸ hvalue ▸ hne)
        rw [← Option.some.inj hline] at hsize
        refine ⟨hsame.trans hvalue, ?_⟩
        rwa [fields_cons rest hfive, shellHex_of_ne_nil (wordAt_ne_nil hfive)]

theorem disassLoc_extracts_iff {location : Str} :
    Extracts (disassLoc location) own ↔ Locates location own := by
  obtain ⟨arr, harr⟩ :
      ∃ arr, words (location.map fun c => if c = '-' then ' ' else c) = arr := ⟨_, rfl⟩
  rw [disassLoc, Locates, harr]
  constructor
  · rintro ⟨s, hs, hstart, hstop⟩
    obtain rfl := Option.some.inj hs
    match arr with
    | [] => exact absurd hstart (by simp [hexLiteral_nil])
    | [start] => exact absurd hstop (by simp [hexLiteral_nil])
    | start :: stop :: more => exact ⟨start, stop, more, rfl, hstart, hstop⟩
  · rintro ⟨start, stop, more, rfl, hstart, hstop⟩
    exact ⟨_, rfl, hstart, hstop⟩

theorem asksFor_cases (arg : Str) : (∃ name, AsksFor arg name) ∨ (∃ cs, arg = '?' :: cs) ∨
    ∃ location, arg = 'L' :: location := by
  cases arg with
  | nil => exact .inl ⟨[], .inr ⟨rfl, by simp⟩⟩
  | cons c cs =>
    by_cases hc : c ∈ ['?', 'L', '@']
    · fin_cases hc
      · exact .inr (.inl ⟨cs, rfl⟩)
      · exact .inr (.inr ⟨cs, rfl⟩)
      · exact .inl ⟨cs, .inl rfl⟩
    · exact .inl ⟨c :: cs, .inr ⟨rfl, by simpa using hc⟩⟩

theorem not_asksFor {c : Char} {cs : Str} (hc : c = '?' ∨ c = 'L') : ¬ AsksFor (c :: cs) name := by
  rintro (h | ⟨rfl, h⟩)
  · obtain ⟨rfl, -⟩ := List.cons.inj h
    exact absurd hc (by decide)
  · have hnot := h c rfl
    rcases hc with rfl | rfl
    · exact hnot (by decide)
    · exact hnot (by decide)

theorem disassArg_of_asksFor {arg : Str} (h : AsksFor arg name) :
    disassArg grepW static listing arg = disass grepW static listing name := by
  rcases h with rfl | ⟨rfl, h⟩
  · rfl
  · cases arg with
    | nil => rfl
    | cons c cs =>
      have hc := h c rfl
      simp only [List.mem_cons, List.not_mem_nil, or_false, not_or] at hc
      simp [disassArg, hc]

/-- For every table, every symbol with an address and every argument, the range is exactly the
symbol's if and only if the argument is its location, or asks for a name for which the first line
that `grep -w` selects is a row with the symbol's address and its size as the fifth word. -/
theorem disassArg_extracts_iff (h : SymbolTable listing rows) (hne : own.value ≠ 0) (arg : Str) :
    Extracts (disassArg grepW static listing arg) own ↔
      (∃ location, arg = 'L' :: location ∧ Locates location own) ∨
        ∃ name, AsksFor arg name ∧ ∃ r ∈ rows,
          listing.find? (fun line => line ≠ [] && selects grepW static name line) = some r.line ∧
            r.value = own.value ∧
            hexLiteral (wordAt r.line 4) = some (BitVec.ofNat 64 own.size) := by
  simp only [← disass_extracts_iff h hne]
  rcases asksFor_cases arg with ⟨name, hname⟩ | ⟨cs, rfl⟩ | ⟨location, rfl⟩
  · rw [disassArg_of_asksFor hname]
    constructor
    · exact fun hext => .inr ⟨name, hname, hext⟩
    · rintro (⟨location, rfl, -⟩ | ⟨name', hname', hext⟩)
      · exact absurd hname (not_asksFor (.inr rfl))
      · rwa [← disassArg_of_asksFor hname, disassArg_of_asksFor hname']
  · refine iff_of_false ?_ ?_
    · rintro ⟨s, hs, -⟩
      cases hs
    · rintro (⟨location, hlocation, -⟩ | ⟨name, hname, -⟩)
      · exact absurd (List.cons.inj hlocation).1 (by decide)
      · exact not_asksFor (.inl rfl) hname
  · refine disassLoc_extracts_iff.trans ⟨fun hloc => .inl ⟨location, rfl, hloc⟩, ?_⟩
    rintro (⟨location', hlocation, hloc⟩ | ⟨name, hname, -⟩)
    · rwa [(List.cons.inj hlocation).2]
    · exact absurd hname (not_asksFor (.inr rfl))

/-! ## Rows and names -/

theorem isWord_eq_false_of_isBlank {c : Char} (h : isBlank c) : isWord c = false := by
  simp only [isBlank, Bool.or_eq_true, beq_iff_eq] at h
  rcases h with (rfl | rfl) | rfl <;> rfl

/-- The word is the address, the size or a word of one of the other columns. -/
def Row.Holds (r : Row) (w : Str) : Prop :=
  w = hex16 r.value ∨ HasWord w r.flags ∨ HasWord w r.sec ∨ w = hex16 r.size ∨ HasWord w r.extra ∨
    HasWord w r.name

/-- With `--static` the row has to hold a `g` as well, the flag of a global symbol or another one. -/
def Row.Selected (static : Bool) (name : Str) (r : Row) : Prop :=
  r.Holds name ∧ (static → r.Holds "g".toList)

theorem Row.hasWord_line_iff (r : Row) {w : Str} (hw : IsRun isWord w) :
    HasWord w r.line ↔ r.Holds w := by
  have hspace : isWord ' ' = false := rfl
  have htab : isWord '\t' = false := rfl
  have hdigits : ∀ n, HasWord w (hex16 n) ↔ w = hex16 n := fun n =>
    hasWord_isRun fun c hc => isWord_of_isHex ((isRun_hex16 n).2 c hc)
  have htail : HasWord w (hex16 r.size ++ (r.extra ++ ' ' :: r.name)) ↔
      w = hex16 r.size ∨ HasWord w r.extra ∨ HasWord w r.name := by
    cases hx : r.extra with
    | nil =>
      rw [List.nil_append, hasWord_append_cons hw hspace, hdigits]
      simp [not_hasWord_nil hw.1]
    | cons x extra =>
      have hblank := isWord_eq_false_of_isBlank (r.extra_blank x (by simp [hx]))
      rw [List.cons_append, hasWord_append_cons hw hblank, hasWord_append_cons hw hspace,
        hasWord_cons hw hblank, hdigits]
  rw [Row.line, hasWord_append_cons hw hspace, hasWord_append_cons hw hspace,
    hasWord_append_cons hw htab, htail, hdigits, Row.Holds]

/-- Where no heading has the name as a word, the rows are searched. -/
theorem find?_rows (hgrep : GrepsWords grepW) (h : SymbolTable listing rows)
    (hname : IsRun isWord name) (hheading : ∀ line ∈ listing, Heading line → ¬ HasWord name line) :
    listing.find? (fun line => line ≠ [] && selects grepW static name line) =
      (rows.find? fun r => selects grepW static name r.line).map Row.line := by
  obtain ⟨before, after, rfl, hheadings⟩ := h
  have hnone : ∀ lines ⊆ before ++ after,
      lines.find? (fun line => line ≠ [] && selects grepW static name line) = none := by
    intro lines hlines
    rw [List.find?_eq_none]
    intro line hline hsel
    have hmem := hlines hline
    have hlisting : line ∈ before ++ rows.map Row.line ++ after := by
      rcases List.mem_append.mp hmem with hmem | hmem <;> simp [hmem]
    simp only [selects, Bool.and_eq_true] at hsel
    exact hheading line hlisting (hheadings line hmem) ((hgrep _ _ hname).mp hsel.2.1)
  have hrow : ∀ r : Row, r.line ≠ [] := by
    intro r
    simp [Row.line]
  rw [List.find?_append, List.find?_append, hnone before (List.subset_append_left _ _),
    hnone after (List.subset_append_right _ _), Option.none_or, Option.or_none, List.find?_map]
  congr 2
  ext r
  simp [hrow]

/-- For a name of word characters that stands in no heading, the range is the symbol's if and only if
the first row that has the name as a word, be it in its name, its version or its section, has the
symbol's address and its size as the fifth word. -/
theorem disassArg_extracts_iff_row (hgrep : GrepsWords grepW) (h : SymbolTable listing rows)
    (hne : own.value ≠ 0) (hname : IsRun isWord name)
    (hheading : ∀ line ∈ listing, Heading line → ¬ HasWord name line) {arg : Str}
    (harg : AsksFor arg name) : Extracts (disassArg grepW static listing arg) own ↔
      ∃ before r after, rows = before ++ r :: after ∧ (∀ q ∈ before, ¬ q.Selected static name) ∧
        r.Selected static name ∧ r.value = own.value ∧
        hexLiteral (wordAt r.line 4) = some (BitVec.ofNat 64 own.size) := by
  have hg : IsRun isWord "g".toList := by decide
  have hselects : ∀ q : Row, selects grepW static name q.line ↔ q.Selected static name := by
    intro q
    rw [selects, Bool.and_eq_true, hgrep _ _ hname, q.hasWord_line_iff hname, Row.Selected,
      Bool.or_eq_true, hgrep _ _ hg, q.hasWord_line_iff hg]
    cases static <;> simp
  rw [disassArg_of_asksFor harg, disass_extracts_iff h hne, find?_rows hgrep h hname hheading]
  constructor
  · rintro ⟨r, -, hfind, hvalue, hsize⟩
    obtain ⟨r', hr', hline⟩ := Option.map_eq_some_iff.mp hfind
    obtain ⟨hsel, before, after, hrows, hbefore⟩ := List.find?_eq_some_iff_append.mp hr'
    refine ⟨before, r', after, hrows, fun q hq => ?_, (hselects r').mp hsel,
      (Row.value_eq_of_line hline).trans hvalue, hline ▸ hsize⟩
    rw [← hselects]
    simpa using hbefore q hq
  · rintro ⟨before, r, after, hrows, hbefore, hsel, hvalue, hsize⟩
    have hfind : rows.find? (fun q => selects grepW static name q.line) = some r := by
      refine List.find?_eq_some_iff_append.mpr ⟨(hselects r).mpr hsel, before, after, hrows, ?_⟩
      intro q hq
      have hnot := hbefore q hq
      rw [← hselects] at hnot
      simpa using hnot
    exact ⟨r, by simp [hrows], by rw [hfind, Option.map_some], hvalue, hsize⟩

end Selected

/-! ## A table of two functions -/

def functionRow (value size : ℕ) (sec name : Str) (fits : value + size < 2 ^ 64)
    (sec_token : IsToken sec) (name_token : IsToken name) : Row where
  value := value
  flags := "g    DF".toList
  sec := sec
  size := size
  extra := "  Base       ".toList
  name := name
  fits := fits
  flags_length := rfl
  flags_word := fun _ => by decide
  sec_token := sec_token
  extra_blank := by decide
  name_token := name_token

def underscoreInit : Row := functionRow 0x3000 0x10 ".init".toList "_init".toList (by norm_num)
  (by decide) (by decide)

def plainInit : Row := functionRow 0x5000 0x40 ".text".toList "init".toList (by norm_num)
  (by decide) (by decide)

def listingOf (rows : List Row) : List Str :=
  ["DYNAMIC SYMBOL TABLE:".toList] ++ rows.map Row.line ++ [[]]

theorem symbolTable_listingOf (rows : List Row) : SymbolTable (listingOf rows) rows := by
  refine ⟨["DYNAMIC SYMBOL TABLE:".toList], [[]], rfl, ?_⟩
  intro line hline
  rcases List.mem_cons.mp hline with rfl | hline
  · exact .inr ⟨"DYNAMIC".toList, ["SYMBOL".toList, "TABLE:".toList], by decide, by decide⟩
  · exact .inl (List.mem_singleton.mp hline)

theorem init_extracted :
    Extracts (disassArg wordMatch false (listingOf [plainInit, underscoreInit]) "@init".toList)
      plainInit := by
  refine (disassArg_extracts_iff (symbolTable_listingOf _) (by decide) _).mpr
    (.inr ⟨"init".toList, .inl rfl, plainInit, by simp, by decide +kernel, rfl, ?_⟩)
  rw [plainInit.wordAt_line_four (by decide), hexLiteral_hex16]

example : Extracts (disassArg wordMatch false (listingOf [plainInit, underscoreInit])
    "@init".toList) plainInit := by
  have hname : IsRun isWord "init".toList := by decide
  refine (disassArg_extracts_iff_row grepsWords_wordMatch (symbolTable_listingOf _) (by decide) hname
    ?_ (.inl rfl)).mpr ⟨[], plainInit, [underscoreInit], rfl, by simp, ?_, rfl, ?_⟩
  · intro line hline hheading hword
    have hmatch := (grepsWords_wordMatch _ _ hname).mpr hword
    simp only [listingOf, List.map_cons, List.map_nil, List.cons_append, List.nil_append,
      List.mem_cons, List.not_mem_nil, or_false] at hline
    rcases hline with rfl | rfl | rfl | rfl
    · exact absurd hmatch (by decide)
    · exact plainInit.not_heading hheading
    · exact underscoreInit.not_heading hheading
    · exact absurd hmatch (by decide)
  · exact ⟨.inr (.inr (.inr (.inr (.inr ((hasWord_isRun hname.2).mpr rfl))))), by simp⟩
  · rw [plainInit.wordAt_line_four (by decide), hexLiteral_hex16]

/-- The section of an earlier row has the name as a word, and its function is disassembled. -/
theorem init_not_extracted : ∃ rows s, rows = [underscoreInit, plainInit] ∧
    SymbolTable (listingOf rows) rows ∧ (rows.map Row.name).count "init".toList = 1 ∧
    disassArg wordMatch false (listingOf rows) "init".toList = some s ∧
    s.start = "0000000000003000".toList ∧ s.stop = "0000000000003010".toList ∧
    ¬ Extracts (disassArg wordMatch false (listingOf rows) "init".toList) plainInit := by
  have hrange : (disassArg wordMatch false (listingOf [underscoreInit, plainInit])
      "init".toList).map (fun s => (s.start, s.stop)) =
        some ("0000000000003000".toList, "0000000000003010".toList) := by
    decide +kernel
  obtain ⟨s, hs, heq⟩ := Option.map_eq_some_iff.mp hrange
  obtain ⟨hstart, hstop⟩ := Prod.mk.inj heq
  refine ⟨_, s, rfl, symbolTable_listingOf _, by decide, hs, hstart, hstop, ?_⟩
  rintro ⟨s', hs', hvalue, -⟩
  rw [hs, Option.some_inj] at hs'
  rw [← hs', hstart] at hvalue
  exact absurd hvalue (by decide)

end Rebench.Disass
