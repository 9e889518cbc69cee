import Mathlib.Data.List.DropRight
import Mathlib.Data.List.Infix
import Mathlib.Tactic

/-!
# Byte text: character classes, numerals, lines

Text is a list of characters read as bytes, so a class holds its ASCII members
only. The numerals are those of the usual formatting and scanning functions:
lower-case hexadecimal and decimal without leading zeros on the way out, digits
of either case on the way in.
-/
namespace Rebench.Text

abbrev Str := List Char

section Decide
variable {p : Char → Prop} [DecidablePred p]

/-- A condition on the characters of a text is decided on the text, and not on all characters. -/
instance (priority := high) decidableForallMem (s : Str) : Decidable (∀ c ∈ s, p c) :=
  List.decidableBAll p s

instance (priority := high) decidableExistsMem (s : Str) : Decidable (∃ c ∈ s, p c) :=
  List.decidableBEx p s

instance (priority := high) decidableForallMemHead (o : Option Char) : Decidable (∀ c ∈ o, p c) :=
  match o with
  | none => isTrue fun _ h => absurd h (Option.not_mem_none _)
  | some d => decidable_of_iff (p d) (by simp)

end Decide

/-- `[0-9A-Fa-f]`. -/
def isHex (c : Char) : Bool :=
  ('0' ≤ c && c ≤ '9') || ('A' ≤ c && c ≤ 'F') || ('a' ≤ c && c ≤ 'f')

/-- `[0-9]`. -/
def isDec (c : Char) : Bool := '0' ≤ c && c ≤ '9'

/-- `\w`. -/
def isWord (c : Char) : Bool :=
  ('0' ≤ c && c ≤ '9') || ('A' ≤ c && c ≤ 'Z') || ('a' ≤ c && c ≤ 'z') || c == '_'

/-- `\s`. -/
def isSpace (c : Char) : Bool :=
  c == ' ' || c == '\t' || c == '\n' || c == '\r' || c == '\x0b' || c == '\x0c'

/-- `.` -/
def isDot (c : Char) : Bool := c != '\n'

section Classes
variable {c : Char}

theorem isWord_of_isHex (h : isHex c) : isWord c := by
  simp only [isHex, isWord, Bool.or_eq_true, Bool.and_eq_true, decide_eq_true_eq, Char.le_def,
    UInt32.le_iff_toNat_le] at h ⊢
  simp only [show 'F'.val.toNat = 70 from rfl, show 'Z'.val.toNat = 90 from rfl,
    show 'f'.val.toNat = 102 from rfl, show 'z'.val.toNat = 122 from rfl] at h ⊢
  omega

theorem isHex_of_isDec (h : isDec c) : isHex c := by
  simp only [isDec] at h
  simp [isHex, h]

/-- White space is outside every class of name and number characters. -/
theorem isWord_eq_false_of_isSpace (h : isSpace c) : isWord c = false := by
  simp only [isSpace, Bool.or_eq_true, beq_iff_eq] at h
  rcases h with (((((rfl | rfl) | rfl) | rfl) | rfl) | rfl) <;> decide

theorem isSpace_eq_false_of_isWord (h : isWord c) : isSpace c = false := by
  by_contra hs
  rw [isWord_eq_false_of_isSpace (by simpa using hs)] at h
  exact absurd h (by simp)

theorem isHex_eq_false_of_isSpace (h : isSpace c) : isHex c = false := by
  by_contra hx
  have hw := isWord_of_isHex (c := c) (by simpa using hx)
  rw [isWord_eq_false_of_isSpace h] at hw
  exact absurd hw (by simp)

theorem isSpace_eq_false_of_isHex (h : isHex c) : isSpace c = false :=
  isSpace_eq_false_of_isWord (isWord_of_isHex h)

end Classes

/-! ## Numerals -/

def digitVal (c : Char) : ℕ :=
  if 'a' ≤ c then c.toNat - 87 else if 'A' ≤ c then c.toNat - 55 else c.toNat - 48

def valueIn (b : ℕ) (s : Str) : ℕ := s.foldl (fun n c => b * n + digitVal c) 0

abbrev hexVal (s : Str) : ℕ := valueIn 16 s

abbrev decVal (s : Str) : ℕ := valueIn 10 s

/-- `{:x}`. -/
def hex (n : ℕ) : Str := Nat.toDigits 16 n

/-- `%d` of a natural number. -/
def dec (n : ℕ) : Str := Nat.toDigits 10 n

/-- A field of a least width, as in `%2d` and `%12s`. -/
def padLeft (width : ℕ) (s : Str) : Str := List.replicate (width - s.length) ' ' ++ s

@[simp] theorem valueIn_nil (b : ℕ) : valueIn b [] = 0 := rfl

theorem valueIn_append_singleton (b : ℕ) (s : Str) (c : Char) :
    valueIn b (s ++ [c]) = b * valueIn b s + digitVal c := by
  simp [valueIn]

theorem digitVal_digitChar {d : ℕ} (h : d < 16) : digitVal d.digitChar = d := by
  interval_cases d <;> decide

theorem isHex_digitChar {d : ℕ} (h : d < 16) : isHex d.digitChar := by
  interval_cases d <;> decide

theorem valueIn_toDigits {b : ℕ} (hb : 1 < b) (hb' : b ≤ 16) (n : ℕ) :
    valueIn b (Nat.toDigits b n) = n := by
  induction n using Nat.strong_induction_on with
  | _ n ih =>
    rw [Nat.toDigits_eq_if hb]
    split_ifs with h
    · simpa [valueIn] using digitVal_digitChar (by omega : n < 16)
    · have hlt : n % b < 16 := (Nat.mod_lt n (by omega)).trans_le hb'
      rw [valueIn_append_singleton, ih _ (Nat.div_lt_self (by omega) hb), digitVal_digitChar hlt]
      exact Nat.div_add_mod n b

@[simp] theorem hexVal_hex (n : ℕ) : hexVal (hex n) = n :=
  valueIn_toDigits (by norm_num) le_rfl n

@[simp] theorem decVal_dec (n : ℕ) : decVal (dec n) = n :=
  valueIn_toDigits (by norm_num) (by norm_num) n

theorem hex_injective : Function.Injective hex := fun m n h => by
  rw [← hexVal_hex m, h, hexVal_hex]

theorem toDigits_ne_nil {b : ℕ} (hb : 1 < b) (n : ℕ) : Nat.toDigits b n ≠ [] := by
  rw [Nat.toDigits_eq_if hb]
  split_ifs <;> simp

@[simp] theorem hex_ne_nil (n : ℕ) : hex n ≠ [] := toDigits_ne_nil (by norm_num) n

@[simp] theorem dec_ne_nil (n : ℕ) : dec n ≠ [] := toDigits_ne_nil (by norm_num) n

theorem exists_of_mem_toDigits {b : ℕ} (hb : 1 < b) {n : ℕ} {c : Char}
    (h : c ∈ Nat.toDigits b n) : ∃ d < b, c = d.digitChar := by
  induction n using Nat.strong_induction_on with
  | _ n ih =>
    rw [Nat.toDigits_eq_if hb] at h
    split_ifs at h with hn
    · exact ⟨n, hn, List.mem_singleton.mp h⟩
    · rcases List.mem_append.mp h with h | h
      · exact ih _ (Nat.div_lt_self (by omega) hb) h
      · exact ⟨n % b, Nat.mod_lt n (by omega), List.mem_singleton.mp h⟩

theorem isHex_of_mem_toDigits {b : ℕ} (hb : 1 < b) (hb' : b ≤ 16) {n : ℕ} {c : Char}
    (h : c ∈ Nat.toDigits b n) : isHex c := by
  obtain ⟨d, hd, rfl⟩ := exists_of_mem_toDigits hb h
  exact isHex_digitChar (by omega)

theorem isHex_of_mem_hex {n : ℕ} {c : Char} (h : c ∈ hex n) : isHex c :=
  isHex_of_mem_toDigits (by norm_num) le_rfl h

theorem isHex_of_mem_dec {n : ℕ} {c : Char} (h : c ∈ dec n) : isHex c :=
  isHex_of_mem_toDigits (by norm_num) (by norm_num) h

theorem two_le_length_dec {n : ℕ} (h : 10 ≤ n) : 2 ≤ (dec n).length := by
  have hpos := List.length_pos_of_ne_nil (dec_ne_nil (n / 10))
  rw [dec] at hpos
  rw [dec, Nat.toDigits_eq_if (by norm_num), if_neg (by omega), List.length_append]
  simpa using Nat.succ_le_of_lt hpos

/-! ## Lines -/

/-- `readline` until the end of the text: every line keeps its newline. -/
def readlines : Str → List Str
  | [] => []
  | c :: cs =>
    if c = '\n' then [c] :: readlines cs
    else match readlines cs with
      | [] => [[c]]
      | l :: ls => (c :: l) :: ls

/-- `strip`: white space off both ends. -/
def strip (s : Str) : Str := (s.dropWhile isSpace).rdropWhile isSpace

theorem exists_of_mem_readlines {s l : Str} (h : l ∈ readlines s) :
    ∃ w, '\n' ∉ w ∧ (l = w ∨ l = w ++ ['\n']) := by
  induction s generalizing l with
  | nil => simp [readlines] at h
  | cons c cs ih =>
    rw [readlines] at h
    split_ifs at h with hc
    · rcases List.mem_cons.mp h with rfl | h
      · exact ⟨[], by simp, .inr (by simp [hc])⟩
      · exact ih h
    · cases hl : readlines cs with
      | nil =>
        rw [hl] at h
        rw [List.mem_singleton] at h
        exact ⟨[c], by simpa using Ne.symm hc, .inl h⟩
      | cons l' ls =>
        rw [hl] at h
        rcases List.mem_cons.mp h with rfl | h
        · obtain ⟨w, hw, hlw⟩ := ih (show l' ∈ readlines cs by simp [hl])
          refine ⟨c :: w, by simp [hw, Ne.symm hc], ?_⟩
          rcases hlw with rfl | rfl <;> simp
        · exact ih (by simp [hl, h])

theorem strip_isInfix (s : Str) : strip s <:+: s :=
  ( List.rdropWhile_prefix isSpace (s.dropWhile isSpace)).isInfix.trans
    (List.dropWhile_suffix isSpace).isInfix

theorem isSpace_getLast?_strip (s : Str) : ∀ c ∈ (strip s).getLast?, isSpace c = false := by
  intro c hc
  obtain ⟨hne, rfl⟩ := List.mem_getLast?_eq_getLast hc
  exact Bool.eq_false_iff.mpr (List.rdropWhile_last_not isSpace (s.dropWhile isSpace) hne)

theorem strip_concat {w : Str} {c : Char} (hc : isSpace c) : strip (w ++ [c]) = strip w := by
  unfold strip
  rw [List.dropWhile_append]
  split_ifs with h
  · simp [List.isEmpty_iff.mp h, hc]
  · exact List.rdropWhile_concat_pos isSpace _ _ hc

/-- A stripped line has no newline left, so that `.` reads any character of it. -/
theorem isDot_of_mem_strip {s l : Str} (h : l ∈ readlines s) {c : Char} (hc : c ∈ strip l) :
    isDot c := by
  obtain ⟨w, hw, hl⟩ := exists_of_mem_readlines h
  have hstrip : strip l = strip w := by
    rcases hl with rfl | rfl
    · rfl
    · exact strip_concat (by decide)
  have hmem : c ∈ w := (strip_isInfix w).subset (hstrip ▸ hc)
  simp only [isDot, bne_iff_ne, ne_eq]
  rintro rfl
  exact hw hmem

end Rebench.Text
