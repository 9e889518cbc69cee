import Rebench.Machine.Memory

/-!
# `s_calloc` of jemalloc.c

The allocator clears small blocks only, and `s_calloc` clears the others. It
decides by the product of its arguments in 64 bits and does not look at the
pointer, so that a failed request of a large product is cleared at `NULL`.
-/
namespace Rebench.Heap
open Machine

/-- A result, the memory behind the call, and the range passed to `s_memset`. -/
structure Cleared where
  ptr : Addr
  mem : Mem
  memset : Option (Addr × Word)

def Cleared.Writes (r : Cleared) (x : Addr) : Prop :=
  ∃ w ∈ r.memset, InRange w.1 w.2.toNat x

section Calloc
/- `je_calloc`, which `s_calloc0` jumps to. -/
variable (sCalloc0 : Word → Word → Mem → Addr × Mem)

def sCalloc (n size : Word) (m : Mem) : Cleared :=
  let (ptr, m) := sCalloc0 n size m
  let total := n * size
  if total ≥ 20480 then ⟨ptr, m.fill ptr 0 total.toNat, some (ptr, total)⟩
  else ⟨ptr, m, none⟩

/-- `je_calloc` returns `NULL` where the product exceeds 64 bits, and clears blocks below 20480
bytes. -/
structure CallocSpec : Prop where
  overflow : ∀ n size m, 2 ^ 64 ≤ n.toNat * size.toNat → (sCalloc0 n size m).1 = 0
  zero : ∀ n size m, (sCalloc0 n size m).1 ≠ 0 → n.toNat * size.toNat < 20480 →
    ∀ x, InRange (sCalloc0 n size m).1 (n.toNat * size.toNat) x → (sCalloc0 n size m).2 x = 0

/-- `s_calloc` fails as `je_calloc` does and then writes nothing; otherwise the block is zero, and
nothing is written outside it. -/
structure IsCalloc (n size : Word) (m : Mem) : Prop where
  null_iff : (sCalloc sCalloc0 n size m).ptr = 0 ↔ (sCalloc0 n size m).1 = 0
  untouched : (sCalloc0 n size m).1 = 0 → ∀ x, ¬ (sCalloc sCalloc0 n size m).Writes x
  zero : (sCalloc0 n size m).1 ≠ 0 → ∀ x,
    InRange (sCalloc sCalloc0 n size m).ptr (n.toNat * size.toNat) x →
      (sCalloc sCalloc0 n size m).mem x = 0
  within : (sCalloc0 n size m).1 ≠ 0 → ∀ x, (sCalloc sCalloc0 n size m).Writes x →
    InRange (sCalloc sCalloc0 n size m).ptr (n.toNat * size.toNat) x

variable {sCalloc0} {n size : Word} {m : Mem} {x : Addr}

theorem sCalloc_large (h : n * size ≥ 20480) : sCalloc sCalloc0 n size m =
    ⟨(sCalloc0 n size m).1, (sCalloc0 n size m).2.fill (sCalloc0 n size m).1 0 (n * size).toNat,
      some ((sCalloc0 n size m).1, n * size)⟩ := if_pos h

theorem sCalloc_small (h : ¬ n * size ≥ 20480) :
    sCalloc sCalloc0 n size m = ⟨(sCalloc0 n size m).1, (sCalloc0 n size m).2, none⟩ := if_neg h

@[simp] theorem sCalloc_ptr : (sCalloc sCalloc0 n size m).ptr = (sCalloc0 n size m).1 := by
  by_cases h : n * size ≥ 20480
  · rw [sCalloc_large h]
  · rw [sCalloc_small h]

theorem writes_large (h : n * size ≥ 20480) : (sCalloc sCalloc0 n size m).Writes x ↔
    InRange (sCalloc0 n size m).1 (n * size).toNat x := by
  rw [sCalloc_large h, Cleared.Writes]
  simp

theorem not_writes_small (h : ¬ n * size ≥ 20480) : ¬ (sCalloc sCalloc0 n size m).Writes x := by
  rw [sCalloc_small h, Cleared.Writes]
  simp

theorem mem_of_not_writes (h : ¬ (sCalloc sCalloc0 n size m).Writes x) :
    (sCalloc sCalloc0 n size m).mem x = (sCalloc0 n size m).2 x := by
  by_cases hlarge : n * size ≥ 20480
  · rw [writes_large hlarge] at h
    rw [sCalloc_large hlarge]
    exact fill_of_not_inRange h
  · rw [sCalloc_small hlarge]

theorem toNat_total (h : n.toNat * size.toNat < 2 ^ 64) : (n * size).toNat = n.toNat * size.toNat := by
  rw [BitVec.toNat_mul, Nat.mod_eq_of_lt h]

theorem ge_limit_iff : n * size ≥ 20480 ↔ 20480 ≤ (n * size).toNat := BitVec.le_def

/-- A request that the allocator serves is cleared, by the one or by the other. -/
theorem isCalloc_of_ne (hspec : CallocSpec sCalloc0) (hptr : (sCalloc0 n size m).1 ≠ 0) :
    IsCalloc sCalloc0 n size m := by
  have hfits : n.toNat * size.toNat < 2 ^ 64 := by
    by_contra h
    exact hptr (hspec.overflow n size m (by omega))
  have htotal := toNat_total hfits
  constructor
  · rw [sCalloc_ptr]
  · intro h
    exact absurd h hptr
  · intro _ x hx
    rw [sCalloc_ptr] at hx
    by_cases hlarge : n * size ≥ 20480
    · rw [← htotal] at hx
      rw [sCalloc_large hlarge]
      exact fill_of_inRange hx
    · rw [mem_of_not_writes (not_writes_small hlarge)]
      rw [ge_limit_iff, htotal] at hlarge
      exact hspec.zero n size m hptr (by omega) x hx
  · intro _ x hx
    rw [sCalloc_ptr]
    by_cases hlarge : n * size ≥ 20480
    · rw [writes_large hlarge, htotal] at hx
      exact hx
    · exact absurd hx (not_writes_small hlarge)

/-- A request that fails writes nothing exactly if its product in 64 bits is small. -/
theorem isCalloc_null_iff (hptr : (sCalloc0 n size m).1 = 0) :
    IsCalloc sCalloc0 n size m ↔ n * size < 20480 := by
  constructor
  · intro h
    by_contra hlarge
    have hge : n * size ≥ 20480 := BitVec.not_lt.mp hlarge
    apply h.untouched hptr 0
    rw [writes_large hge, hptr, InRange]
    rw [ge_limit_iff] at hge
    have hzero : (0 : Addr).toNat = 0 := rfl
    rw [sub_self, hzero]
    omega
  · intro hlt
    have hsmall : ¬ n * size ≥ 20480 := BitVec.not_le.mpr hlt
    constructor
    · rw [sCalloc_ptr]
    · intro _ x
      exact not_writes_small hsmall
    · intro h
      exact absurd hptr h
    · intro h
      exact absurd hptr h

end Calloc

/-- `s_calloc` is a `calloc` exactly where the allocator serves the request or the product in 64 bits
is below 20480. -/
theorem sCalloc_isCalloc_iff (sCalloc0 : Word → Word → Mem → Addr × Mem)
    (hspec : CallocSpec sCalloc0) (n size : Word) (m : Mem) :
    IsCalloc sCalloc0 n size m ↔ (sCalloc0 n size m).1 ≠ 0 ∨ n * size < 20480 := by
  by_cases hptr : (sCalloc0 n size m).1 = 0
  · rw [isCalloc_null_iff hptr]
    exact (or_iff_right (not_not.mpr hptr)).symm
  · exact iff_of_true (isCalloc_of_ne hspec hptr) (.inl hptr)

def oneBlock (n size : Word) (m : Mem) : Addr × Mem :=
  if n.toNat * size.toNat ≤ 0x10000 then (0x44000000, m.fill 0x44000000 0 (n.toNat * size.toNat))
  else (0, m)

theorem oneBlock_spec : CallocSpec oneBlock where
  overflow n size m h := by
    rw [oneBlock, if_neg (by omega)]
  zero n size m _ hsmall x hx := by
    rw [oneBlock, if_pos (by omega)] at hx ⊢
    exact fill_of_inRange hx

theorem sCalloc_isCalloc_served : IsCalloc oneBlock 16 0x800 fun _ => 1 :=
  (sCalloc_isCalloc_iff oneBlock oneBlock_spec 16 0x800 fun _ => 1).mpr (.inl (by decide))

/-- The product 2⁶⁴ + 2³² is rejected, and 2³² bytes at `NULL` are cleared. -/
theorem sCalloc_clears_null : ∃ sCalloc0, CallocSpec sCalloc0 ∧
    ¬ IsCalloc sCalloc0 0x100000001 0x100000000 fun _ => 1 := by
  refine ⟨oneBlock, oneBlock_spec, ?_⟩
  intro h
  exact h.untouched (by decide) 0 ⟨(0, 0x100000000), rfl, by decide⟩

end Rebench.Heap
