import Rebench.Machine.Memory
import Rebench.Text.Pattern
import Rebench.Text.Words

/-!
# Address operands of an assembly line

The text of an instruction names the register that it takes as the base of an
address and the displacement that it adds: an `add` of an immediate, shifted or
not, and every operand in brackets. A displacement is written in figures or is
the low part of the address of a label.
-/
namespace Rebench.Machine
open Text

def number (t : Str) : Option ℤ :=
  if "#0x".toList <+: t then
    if IsRun isHex (t.drop 3) then some (hexVal (t.drop 3)) else none
  else if "#-".toList <+: t then
    if IsRun isDec (t.drop 2) then some (-decVal (t.drop 2)) else none
  else if "#".toList <+: t then
    if IsRun isDec (t.drop 1) then some (decVal (t.drop 1)) else none
  else none

def lowLabel (t : Str) : Option Str :=
  if "#:lo12:".toList <+: t ∧ IsRun isWord (t.drop 7) then some (t.drop 7) else none

/-- A base register with the text of an immediate, shifted by twelve bits or not; without a text the
displacement is zero. An operand in brackets that writes its base back has something behind them. -/
@[ext] structure AddressOperand where
  base : Str
  imm : Option Str
  shifted : Bool
  behind : Str
  deriving DecidableEq

def beforeComma (w : Str) : Str := w.takeWhile (· != ',')

/-- The operand between brackets, with what stands behind them. -/
def bracketed (inner behind : Str) : AddressOperand where
  base := beforeComma inner
  imm :=
    match inner.dropWhile (· != ',') with
    | [] => none
    | _ :: imm => some (imm.dropWhile isBlank)
  shifted := false
  behind := behind.dropWhile isBlank

/-- What stands behind the bracket of the address. It begins a word, unlike the index of a lane, which
stands behind its registers: `ld1 {v0.s}[1], [x8]`. -/
def behindBracket : Str → Option Str
  | [] => none
  | [_] => none
  | c :: d :: s => if isBlank c ∧ d = '[' then some s else behindBracket (d :: s)

/-- The operand up to the closing bracket. A displacement behind it is added afterwards. -/
def closedOperand (s : Str) : Option AddressOperand :=
  match s.dropWhile (· != ']') with
  | [] => none
  | _ :: behind => some (bracketed (s.takeWhile (· != ']')) behind)

def memoryOperand (line : Str) : Option AddressOperand := (behindBracket line).bind closedOperand

/-- The operand of an `add` by the words behind its registers. -/
def addImmediate (base : Str) : List Str → Option AddressOperand
  | [imm] => some ⟨base, some imm, false, []⟩
  | [imm, shift, amount] =>
    if shift = "lsl".toList ∧ amount = "#12".toList then
      some ⟨base, some (beforeComma imm), true, []⟩
    else none
  | _ => none

def addressOperand (line : Str) : Option AddressOperand :=
  match words line with
  | _ :: op :: operands =>
    if op = "add".toList then
      match operands with
      | _ :: base :: imm => addImmediate (beforeComma base) imm
      | _ => none
    else memoryOperand line
  | _ => none

/-- The displacement, where `low` gives the low parts of the labels. An operand that writes its base
back takes a number only: `[x8,#:lo12:L14a010]!` is none. -/
def AddressOperand.displacement (low : Str → Option ℤ) (o : AddressOperand) : Option ℤ :=
  match o.imm with
  | none => some 0
  | some t =>
    (number t <|> if o.behind = [] then (lowLabel t).bind low else none).map fun d =>
      if o.shifted then d * 4096 else d

def pageOperand (line : Str) : Option (Str × Str) :=
  match words line with
  | [_, op, reg, label] => if op = "adrp".toList then some (beforeComma reg, label) else none
  | _ => none

/-! ## Execution -/

abbrev Regs := Str → Word

def pageBase (a : Word) : Word := BitVec.ofNat 64 (a.toNat / pageSize * pageSize)

def lowPart (a : Word) : ℤ := (a.toNat % pageSize : ℕ)

/-- The line is an `adrp`: its register becomes the page of its label, under the addresses `σ`. -/
def loadPage (σ : Str → Word) (line : Str) (r : Regs) : Option Regs :=
  (pageOperand line).map fun p => Function.update r p.1 (pageBase (σ p.2))

/-- The address that a line forms, loads from or stores to. -/
def formed (σ : Str → Word) (line : Str) (r : Regs) : Option Word :=
  (addressOperand line).bind fun o =>
    (o.displacement fun s => some (lowPart (σ s))).map fun d => r o.base + BitVec.ofInt 64 d

theorem pageBase_add_lowPart (a : Word) : pageBase a + BitVec.ofInt 64 (lowPart a) = a := by
  rw [pageBase, lowPart, BitVec.ofInt_natCast, ← BitVec.ofNat_add, Nat.div_add_mod',
    BitVec.ofNat_toNat, BitVec.setWidth_eq]

/-! ## Immediates -/

section Immediates
variable {t : Str}

theorem number_hex {ds : Str} :
    number ("#0x".toList ++ ds) = if IsRun isHex ds then some (hexVal ds : ℤ) else none :=
  if_pos (List.prefix_append _ _)

theorem number_dec {ds : Str} (h : IsRun isDec ds) : number ('#' :: ds) = some (decVal ds : ℤ) := by
  have hhex : ¬ "#0x".toList <+: '#' :: ds := by
    intro hpre
    have htail : ['0', 'x'] <+: ds := (List.cons_prefix_cons.mp hpre).2
    exact absurd (h.2 'x' (htail.subset (by decide))) (by decide)
  have hneg : ¬ "#-".toList <+: '#' :: ds := by
    intro hpre
    have htail : ['-'] <+: ds := (List.cons_prefix_cons.mp hpre).2
    exact absurd (h.2 '-' (htail.subset (by decide))) (by decide)
  rw [number, if_neg hhex, if_neg hneg, if_pos ⟨ds, rfl⟩]
  exact if_pos h

theorem number_low : number ("#:lo12:".toList ++ t) = none := by
  rw [number, if_neg, if_neg, if_pos ⟨":lo12:".toList ++ t, rfl⟩, if_neg]
  · intro h
    exact absurd (h.2 ':' (by simp)) (by decide)
  · intro h
    exact absurd (List.cons_prefix_cons.mp (List.cons_prefix_cons.mp h).2).1 (by decide)
  · intro h
    exact absurd (List.cons_prefix_cons.mp (List.cons_prefix_cons.mp h).2).1 (by decide)

theorem lowLabel_low (t : Str) :
    lowLabel ("#:lo12:".toList ++ t) = if IsRun isWord t then some t else none := by
  rw [lowLabel]
  by_cases h : IsRun isWord t
  · rw [if_pos ⟨List.prefix_append _ _, h⟩, if_pos h]
    rfl
  · rw [if_neg fun hlow => h hlow.2, if_neg h]

theorem displacement_none (base t : Str) (shifted : Bool) (behind : Str) :
    (⟨base, some t, shifted, behind⟩ : AddressOperand).displacement (fun _ => none) =
      (number t).map fun d => if shifted then d * 4096 else d := by
  simp only [AddressOperand.displacement]
  split_ifs <;> cases number t <;> cases lowLabel t <;> rfl

theorem displacement_low {low : Str → Option ℤ} {base : Str} {shifted : Bool}
    (h : IsRun isWord t) :
    (⟨base, some ("#:lo12:".toList ++ t), shifted, []⟩ : AddressOperand).displacement low =
      (low t).map fun d => if shifted then d * 4096 else d := by
  simp only [AddressOperand.displacement, number_low, lowLabel_low, if_pos h]
  rfl

/-- A low part is no displacement where it is no label, or where the base is written back. -/
theorem displacement_low_of_not {low : Str → Option ℤ} {base behind : Str} {shifted : Bool}
    (h : ¬ (IsRun isWord t ∧ behind = [])) :
    (⟨base, some ("#:lo12:".toList ++ t), shifted, behind⟩ : AddressOperand).displacement low =
      none := by
  simp only [AddressOperand.displacement, number_low, lowLabel_low]
  by_cases hbehind : behind = []
  · rw [if_pos hbehind, if_neg fun ht => h ⟨ht, hbehind⟩]
    rfl
  · rw [if_neg hbehind]
    rfl

end Immediates

/-! ## Lines -/

section Lines
variable {label reg base : Str}

theorem beforeComma_append {w : Str} (h : ',' ∉ w) (s : Str) : beforeComma (w ++ s) =
    w ++ beforeComma s := by
  rw [beforeComma, List.takeWhile_append_of_pos]
  · rfl
  · intro c hc
    exact bne_iff_ne.mpr fun heq => h (heq ▸ hc)

theorem words_instruction (hlabel : IsToken label) {op : Str} (hop : IsToken op) (s : Str) :
    words (label ++ '\t' :: (op ++ ' ' :: s)) = label :: op :: words s := by
  rw [words_token_blank hlabel (by decide), words_token_blank hop (by decide)]

theorem addressOperand_add (hlabel : IsToken label) (hreg : IsToken reg)
    (hbase : IsToken base) (s : Str) :
    addressOperand (label ++ '\t' :: ("add".toList ++ ' ' :: (reg ++ ' ' :: (base ++ ' ' :: s)))) =
      addImmediate (beforeComma base) (words s) := by
  rw [addressOperand, words_instruction hlabel (by decide), words_token_blank hreg (by decide),
    words_token_blank hbase (by decide)]
  rfl

/-- An `add` has an immediate alone, or one that is shifted by twelve bits. -/
theorem addImmediate_eq_some {imm : Str} {ws : List Str} {o : AddressOperand}
    (h : addImmediate base (imm :: ws) = some o) :
    ws = [] ∧ o = ⟨base, some imm, false, []⟩ ∨
      ws = ["lsl".toList, "#12".toList] ∧ o = ⟨base, some (beforeComma imm), true, []⟩ := by
  cases ws with
  | nil =>
    cases h
    exact .inl ⟨rfl, rfl⟩
  | cons shift ws =>
    cases ws with
    | nil => cases h
    | cons amount ws =>
      cases ws with
      | nil =>
        rw [addImmediate] at h
        split_ifs at h with hshift
        cases h
        rw [hshift.1, hshift.2]
        exact .inr ⟨rfl, rfl⟩
      | cons w ws => cases h

/-- The bracket of the address is the first that stands behind a blank. -/
theorem behindBracket_append {u : Str} (hu : '[' ∉ u) (s : Str) :
    behindBracket (u ++ ' ' :: '[' :: s) = some s := by
  induction u with
  | nil => exact if_pos ⟨rfl, rfl⟩
  | cons c u ih =>
    have hnot : ∀ d ∈ u.head?, ¬ (isBlank c ∧ d = '[') := by
      rintro d hd ⟨-, rfl⟩
      exact hu (List.mem_cons_of_mem _ (List.mem_of_head? hd))
    have htail := ih fun h => hu (List.mem_cons_of_mem _ h)
    cases u with
    | nil =>
      have hblank : ¬ (isBlank c ∧ ' ' = '[') := by simp
      rw [List.singleton_append, behindBracket, if_neg hblank]
      exact htail
    | cons d u =>
      rw [List.cons_append, List.cons_append, behindBracket, if_neg (hnot d rfl)]
      exact htail

theorem behindBracket_of_notMem {s : Str} (h : '[' ∉ s) : behindBracket s = none := by
  induction s with
  | nil => rfl
  | cons c s ih =>
    cases s with
    | nil => rfl
    | cons d s =>
      have hd : ¬ (isBlank c ∧ d = '[') := by
        rintro ⟨-, rfl⟩
        simp at h
      rw [behindBracket, if_neg hd]
      exact ih fun hs => h (List.mem_cons_of_mem _ hs)

theorem closedOperand_append {inner : Str} (h : ']' ∉ inner) (behind : Str) :
    closedOperand (inner ++ ']' :: behind) = some (bracketed inner behind) := by
  have hne : ∀ c ∈ inner, (c != ']') = true := fun c hc => bne_iff_ne.mpr fun heq => h (heq ▸ hc)
  rw [closedOperand, List.dropWhile_append_of_pos hne, List.takeWhile_append_of_pos hne]
  simp

theorem closedOperand_eq_some {s : Str} {o : AddressOperand} (h : closedOperand s = some o) :
    ∃ behind, s = s.takeWhile (· != ']') ++ ']' :: behind ∧
      o = bracketed (s.takeWhile (· != ']')) behind := by
  have hcut := List.takeWhile_append_dropWhile (p := (· != ']')) (l := s)
  rw [closedOperand] at h
  cases hrest : s.dropWhile (· != ']') with
  | nil =>
    rw [hrest] at h
    exact absurd h (by simp)
  | cons c behind =>
    have hc := List.head?_dropWhile_not (· != ']') s
    rw [hrest, List.head?_cons] at hc
    obtain rfl : c = ']' := by simpa using hc
    rw [hrest] at h hcut
    exact ⟨behind, hcut.symm, (Option.some.inj h).symm⟩

example : addressOperand "L583c0:\tld1 \x7bv0.s\x7d[1], [x8], #4".toList =
    some ⟨"x8".toList, none, false, ", #4".toList⟩ := by
  decide +kernel

@[simp] theorem beforeComma_comma {w : Str} (h : ',' ∉ w) (s : Str) :
    beforeComma (w ++ ',' :: s) = w := by
  rw [beforeComma_append h]
  exact List.append_nil w

theorem beforeComma_of_notMem {w : Str} (h : ',' ∉ w) : beforeComma w = w := by
  rw [← List.append_nil w, beforeComma_append h]
  rfl

theorem bracketed_base (h : ',' ∉ base) (behind : Str) :
    bracketed base behind = ⟨base, none, false, behind.dropWhile isBlank⟩ := by
  have hdrop : base.dropWhile (· != ',') = [] := by
    rw [List.dropWhile_eq_nil_iff]
    intro c hc
    exact bne_iff_ne.mpr fun heq => h (heq ▸ hc)
  rw [bracketed, hdrop, beforeComma_of_notMem h]

theorem bracketed_offset (h : ',' ∉ base) {c : Char} (hc : isBlank c = false) (s behind : Str) :
    bracketed (base ++ ',' :: c :: s) behind =
      ⟨base, some (c :: s), false, behind.dropWhile isBlank⟩ := by
  have hdrop : (base ++ ',' :: c :: s).dropWhile (· != ',') = ',' :: c :: s := by
    rw [List.dropWhile_append_of_pos]
    · simp
    · intro d hd
      exact bne_iff_ne.mpr fun heq => h (heq ▸ hd)
  rw [bracketed, hdrop, beforeComma_comma h]
  simp [hc]

end Lines

end Rebench.Machine
