import Mathlib.Data.BitVec
import Mathlib.Tactic

/-!
# Byte memory with 64-bit addresses

Addresses wrap around, and a byte belongs to a range if its distance from the
start is below the length. Words are little-endian. A write is described by the
bytes it changes and the bytes it leaves alone.
-/
namespace Rebench.Machine

abbrev Addr := BitVec 64
abbrev Word := BitVec 64
abbrev Byte := BitVec 8
abbrev Mem := Addr → Byte

/-- Byte `i` of a word, from the low end. -/
def byteOf (v : Word) (i : ℕ) : Byte := v.extractLsb' (8 * i) 8

/-- The range of `n` bytes from `a` on holds the address. -/
def InRange (a : Addr) (n : ℕ) (x : Addr) : Prop := (x - a).toNat < n

instance (a : Addr) (n : ℕ) : DecidablePred (InRange a n) :=
  fun _ => inferInstanceAs (Decidable (_ < _))

namespace Mem
variable (m : Mem) (a x : Addr) (v : Word)

def write64 : Mem := fun x => if InRange a 8 x then byteOf v (x - a).toNat else m x

def read64 : Word :=
  m (a + 7) ++ m (a + 6) ++ m (a + 5) ++ m (a + 4) ++ m (a + 3) ++ m (a + 2) ++ m (a + 1) ++ m a

def write8 (b : Byte) : Mem := Function.update m a b

def copy (dst src : Addr) (n : ℕ) : Mem := fun x => if InRange dst n x then m (src + (x - dst)) else m x

def fill (dst : Addr) (b : Byte) (n : ℕ) : Mem := fun x => if InRange dst n x then b else m x

end Mem

section Ranges
variable {a x : Addr} {n i : ℕ}

theorem sub_toNat_of_add (hi : i < 2 ^ 64) : (a + BitVec.ofNat 64 i - a).toNat = i := by
  rw [add_sub_cancel_left, BitVec.toNat_ofNat, Nat.mod_eq_of_lt hi]

theorem inRange_add (hi : i < n) (hn : n ≤ 2 ^ 64) : InRange a n (a + BitVec.ofNat 64 i) := by
  rw [InRange, sub_toNat_of_add (by omega)]
  exact hi

theorem inRange_offset_iff {base off : Addr} (h : off.toNat + n ≤ 2 ^ 64) :
    InRange (off + base) n x ↔ off.toNat ≤ (x - base).toNat ∧ (x - base).toNat < off.toNat + n := by
  have hdist : x - (off + base) = (x - base) - off := by abel
  have hlt := (x - base).isLt
  rw [InRange, hdist, BitVec.toNat_sub]
  omega

theorem exists_of_inRange (h : InRange a n x) : ∃ i < n, x = a + BitVec.ofNat 64 i := by
  refine ⟨(x - a).toNat, h, ?_⟩
  rw [BitVec.ofNat_toNat, BitVec.setWidth_eq, add_sub_cancel]

end Ranges

section Words
variable {m : Mem} {a b x : Addr} {v w : Word}

/-- The bytes of a concatenation are those of its low part and then those of its high part. -/
theorem extract_append {n k i : ℕ} (hi : BitVec n) (lo : BitVec (8 * k)) :
    (hi ++ lo).extractLsb' (8 * i) 8 =
      if i < k then lo.extractLsb' (8 * i) 8 else hi.extractLsb' (8 * (i - k)) 8 := by
  apply BitVec.eq_of_getLsbD_eq
  intro j hj
  rw [BitVec.getLsbD_extractLsb', BitVec.getLsbD_append]
  by_cases h : i < k
  · rw [if_pos h, if_pos (by omega), BitVec.getLsbD_extractLsb']
  · rw [if_neg h, if_neg (by omega), BitVec.getLsbD_extractLsb']
    congr 2
    omega

theorem byteOf_read64 {i : ℕ} (hi : i < 8) :
    byteOf (m.read64 a) i = m (a + BitVec.ofNat 64 i) := by
  have hbyte : ∀ b : Byte, b.extractLsb' 0 8 = b := fun b => BitVec.extractLsb'_eq_self
  rw [byteOf, Mem.read64, extract_append (k := 1), extract_append (k := 1),
    extract_append (k := 1), extract_append (k := 1), extract_append (k := 1),
    extract_append (k := 1), extract_append (k := 1)]
  interval_cases i <;> simp [hbyte]

theorem eq_of_byteOf_eq (h : ∀ i < 8, byteOf v i = byteOf w i) : v = w := by
  apply BitVec.eq_of_getLsbD_eq
  intro j hj
  have hmod : j % 8 < 8 := Nat.mod_lt j (by norm_num)
  have hbyte := congrArg (fun b : Byte => b.getLsbD (j % 8)) (h (j / 8) (by omega))
  simpa [byteOf, BitVec.getLsbD_extractLsb', Nat.div_add_mod, hmod] using hbyte

theorem read64_eq_iff :
    m.read64 a = v ↔ ∀ i < 8, m (a + BitVec.ofNat 64 i) = byteOf v i := by
  constructor
  · intro h i hi
    rw [← h, byteOf_read64 hi]
  · intro h
    apply eq_of_byteOf_eq
    intro i hi
    rw [byteOf_read64 hi, h i hi]

theorem write64_of_inRange (h : InRange a 8 x) :
    m.write64 a v x = byteOf v (x - a).toNat := if_pos h

theorem write64_of_not_inRange (h : ¬ InRange a 8 x) : m.write64 a v x = m x := if_neg h

theorem read64_write64 : (m.write64 a v).read64 a = v := by
  rw [read64_eq_iff]
  intro i hi
  rw [write64_of_inRange (inRange_add hi (by norm_num)), sub_toNat_of_add (by omega)]

theorem read64_congr {m' : Mem} (h : ∀ x, InRange a 8 x → m x = m' x) :
    m.read64 a = m'.read64 a := by
  rw [read64_eq_iff]
  intro i hi
  rw [h _ (inRange_add hi (by norm_num)), byteOf_read64 hi]

@[simp] theorem write8_self {c : Byte} : m.write8 a c a = c := Function.update_self ..

theorem write8_of_ne {c : Byte} (h : x ≠ a) : m.write8 a c x = m x := Function.update_of_ne h ..

theorem copy_of_inRange {dst src : Addr} {n : ℕ} (h : InRange dst n x) :
    m.copy dst src n x = m (src + (x - dst)) := if_pos h

theorem copy_of_not_inRange {dst src : Addr} {n : ℕ} (h : ¬ InRange dst n x) :
    m.copy dst src n x = m x := if_neg h

theorem fill_of_inRange {dst : Addr} {c : Byte} {n : ℕ} (h : InRange dst n x) :
    m.fill dst c n x = c := if_pos h

theorem fill_of_not_inRange {dst : Addr} {c : Byte} {n : ℕ} (h : ¬ InRange dst n x) :
    m.fill dst c n x = m x := if_neg h

end Words

/-! ## Sequences of word writes -/

def Mem.writes (m : Mem) (ws : List (Addr × Word)) : Mem :=
  ws.foldl (fun m w => m.write64 w.1 w.2) m

section Writes
variable {m : Mem} {ws : List (Addr × Word)} {x : Addr}

@[simp] theorem writes_nil : m.writes [] = m := rfl

@[simp] theorem writes_cons (w : Addr × Word) :
    m.writes (w :: ws) = (m.write64 w.1 w.2).writes ws := rfl

theorem writes_append_singleton (w : Addr × Word) :
    m.writes (ws ++ [w]) = (m.writes ws).write64 w.1 w.2 := by
  rw [Mem.writes, List.foldl_append]
  rfl

/-- A byte comes from the last write that covers it. -/
theorem writes_apply : m.writes ws x =
    match ws.reverse.find? fun w => InRange w.1 8 x with
    | some w => byteOf w.2 (x - w.1).toNat
    | none => m x := by
  induction ws using List.reverseRecOn with
  | nil => rfl
  | append_singleton ws w ih =>
    rw [writes_append_singleton, List.reverse_append, List.reverse_singleton,
      List.singleton_append]
    by_cases h : InRange w.1 8 x
    · rw [write64_of_inRange h, List.find?_cons_of_pos (by simpa using h)]
    · rw [write64_of_not_inRange h, List.find?_cons_of_neg (by simpa using h), ih]

theorem writes_of_not_inRange (h : ∀ w ∈ ws, ¬ InRange w.1 8 x) : m.writes ws x = m x := by
  have hnone : (ws.reverse.find? fun w => InRange w.1 8 x) = none := by
    rw [List.find?_eq_none]
    intro w hw
    simpa using h w (List.mem_reverse.mp hw)
  rw [writes_apply, hnone]

/-- Where all writes that cover a byte agree on it, their order does not matter. -/
theorem writes_of_agree {w : Addr × Word} (hw : w ∈ ws) (hx : InRange w.1 8 x)
    (h : ∀ w' ∈ ws, InRange w'.1 8 x →
      byteOf w'.2 (x - w'.1).toNat = byteOf w.2 (x - w.1).toNat) :
    m.writes ws x = byteOf w.2 (x - w.1).toNat := by
  rw [writes_apply]
  cases hfind : ws.reverse.find? fun w => InRange w.1 8 x with
  | none =>
    have hnone := List.find?_eq_none.mp hfind w (List.mem_reverse.mpr hw)
    exact absurd hx (by simpa using hnone)
  | some w' =>
    have hw' := List.mem_reverse.mp (List.mem_of_find?_eq_some hfind)
    exact h w' hw' (by simpa using List.find?_some hfind)

def Apart (w w' : Addr × Word) : Prop := ∀ x, InRange w.1 8 x → ¬ InRange w'.1 8 x

theorem Apart.symm {w w' : Addr × Word} (h : Apart w w') : Apart w' w := by
  intro x hx hx'
  exact h x hx' hx

/-- Of writes that are apart one covers the byte at most. -/
theorem eq_of_apart {w w' : Addr × Word} (h : ws.Pairwise Apart) (hw : w ∈ ws) (hw' : w' ∈ ws)
    (hx : InRange w.1 8 x) (hx' : InRange w'.1 8 x) : w = w' := by
  induction ws with
  | nil => exact absurd hw (by simp)
  | cons v ws ih =>
    obtain ⟨hv, htail⟩ := List.pairwise_cons.mp h
    cases List.mem_cons.mp hw with
    | inl heq =>
      cases List.mem_cons.mp hw' with
      | inl heq' => rw [heq, heq']
      | inr hw' =>
        rw [heq] at hx
        exact absurd hx' (hv w' hw' x hx)
    | inr hw =>
      cases List.mem_cons.mp hw' with
      | inl heq' =>
        rw [heq'] at hx'
        exact absurd hx (hv w hw x hx')
      | inr hw' => exact ih htail hw hw'

theorem writes_of_apart {w : Addr × Word} (h : ws.Pairwise Apart) (hw : w ∈ ws)
    (hx : InRange w.1 8 x) : m.writes ws x = byteOf w.2 (x - w.1).toNat := by
  apply writes_of_agree hw hx
  intro w' hw' hx'
  rw [eq_of_apart h hw hw' hx hx']

theorem read64_writes_of_apart {w : Addr × Word} (h : ws.Pairwise Apart) (hw : w ∈ ws) :
    (m.writes ws).read64 w.1 = w.2 := by
  rw [read64_eq_iff]
  intro i hi
  rw [writes_of_apart h hw (inRange_add hi (by norm_num)), sub_toNat_of_add (by omega)]

/-- The order of writes that are apart does not matter. -/
theorem writes_perm {ws' : List (Addr × Word)} (h : ws.Pairwise Apart) (hperm : ws.Perm ws') :
    m.writes ws' = m.writes ws := by
  have h' : ws'.Pairwise Apart := (hperm.pairwise_iff Apart.symm).mp h
  funext x
  by_cases hx : ∃ w ∈ ws, InRange w.1 8 x
  · obtain ⟨w, hw, hx⟩ := hx
    rw [writes_of_apart h hw hx, writes_of_apart h' (hperm.mem_iff.mp hw) hx]
  · have hnone : ∀ w ∈ ws, ¬ InRange w.1 8 x := fun w hw hin => hx ⟨w, hw, hin⟩
    rw [writes_of_not_inRange hnone, writes_of_not_inRange]
    intro w hw
    exact hnone w (hperm.mem_iff.mpr hw)

end Writes

/-! ## Pages -/

def pageSize : ℕ := 4096

def pageOf (x : Addr) : ℕ := x.toNat / pageSize

structure Prot where
  read : Bool
  write : Bool
  exec : Bool
  deriving DecidableEq

/-- An address space: the bytes, and the protection of every page. -/
structure Space where
  mem : Mem
  prot : ℕ → Prot

/-- The page holds a byte of the range. -/
def PageIn (start len : Addr) (p : ℕ) : Prop :=
  start.toNat / pageSize ≤ p ∧ p * pageSize < start.toNat + len.toNat

instance (start len : Addr) : DecidablePred (PageIn start len) :=
  fun _ => inferInstanceAs (Decidable (_ ∧ _))

theorem pageIn_add {start len : Addr} {i : ℕ} (hi : i < len.toNat)
    (h : start.toNat + len.toNat ≤ 2 ^ 64) :
    PageIn start len (pageOf (start + BitVec.ofNat 64 i)) := by
  have hsum : (start + BitVec.ofNat 64 i).toNat = start.toNat + i := by
    rw [BitVec.toNat_add, BitVec.toNat_ofNat]
    omega
  rw [PageIn, pageOf, hsum, pageSize]
  omega

def pagesOf (start len : Addr) : List ℕ :=
  List.range' (start.toNat / pageSize)
    ((start.toNat + len.toNat + (pageSize - 1)) / pageSize - start.toNat / pageSize)

theorem mem_pagesOf {start len : Addr} {p : ℕ} : p ∈ pagesOf start len ↔ PageIn start len p := by
  rw [pagesOf, List.mem_range'_1, PageIn, pageSize]
  omega

/-- A fresh anonymous mapping of whole pages, readable and writable. -/
def Space.mapAnonymous (s : Space) (start len : Addr) : Space where
  mem x := if PageIn start len (pageOf x) then 0 else s.mem x
  prot p := if PageIn start len p then ⟨true, true, false⟩ else s.prot p

def Space.mprotect (s : Space) (start len : Addr) (prot : Prot) : Space :=
  { s with prot := fun p => if PageIn start len p then prot else s.prot p }

end Rebench.Machine
