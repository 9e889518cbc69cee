import Rebench.Heap.Source
import Rebench.Machine.Blocks
import Rebench.Machine.Run

/-!
# The blocks of `s_mmap` in the `SEMIHOSTING` build

The length of a request becomes a signed increment of 32 bits. Requests below
half that range are cut off one behind the other; of the others, each one that
`_sbrk` does not refuse yields a block that does not fit below the new break.
-/
namespace Rebench.Heap
open Machine

structure Trace where
  semi : Semi
  blocks : List Block

def Trace.mmap (ram : Ram) (h : Trace) (len : Word) : Trace where
  semi := (h.semi.sMmap ram len).2
  blocks := if (h.semi.sMmap ram len).1 = mapFailed then h.blocks
    else h.blocks ++ [⟨(h.semi.sMmap ram len).1.toNat, len.toNat⟩]

/-- The call fails, or it returns a block below the new break that no earlier block overlaps; the
break does not move down. -/
def FreshStep (ram : Ram) (h : Trace) (len : Word) : Prop :=
  h.semi.brk.toNat ≤ (h.mmap ram len).semi.brk.toNat ∧
    ((h.semi.sMmap ram len).1 = mapFailed ∨
      (h.semi.sMmap ram len).1.toNat + len.toNat ≤ (h.mmap ram len).semi.brk.toNat ∧
        ∀ b ∈ h.blocks, b.Disjoint ⟨(h.semi.sMmap ram len).1.toNat, len.toNat⟩)

/-- The break would leave RAM, or it is the failure value and stays. -/
def Refused (ram : Ram) (incr : BitVec 32) (brk : Addr) : Prop :=
  ¬ (ram.start ≤ brk.toNat + incr.toInt ∧ brk.toNat + incr.toInt ≤ ram.stop) ∨
    brk = mapFailed ∧ incr = 0

/-- The increment is the length, or `_sbrk` refuses what the length became. -/
def ExactStep (ram : Ram) (h : Trace) (len : Word) : Prop :=
  len.toNat < 2 ^ 31 ∨ Refused ram (len.setWidth 32) h.semi.brk

/-- The blocks lie between `lo` and the break, and no two overlap. -/
structure Stacked (lo : ℕ) (h : Trace) : Prop where
  within : ∀ b ∈ h.blocks, lo ≤ b.start ∧ b.stop ≤ h.semi.brk.toNat
  pairwise : h.blocks.Pairwise Block.Disjoint

section Steps
variable {ram : Ram} {h : Trace} {len : Word} {incr : BitVec 32} {brk : Addr} {lo : ℕ}

@[simp] theorem sMmap_fst : (h.semi.sMmap ram len).1 = (sbrk ram (len.setWidth 32) h.semi.brk).1 := rfl

@[simp] theorem mmap_brk :
    (h.mmap ram len).semi.brk = (sbrk ram (len.setWidth 32) h.semi.brk).2 := rfl

theorem mmap_blocks : (h.mmap ram len).blocks =
    if (sbrk ram (len.setWidth 32) h.semi.brk).1 = mapFailed then h.blocks
    else h.blocks ++ [⟨(sbrk ram (len.setWidth 32) h.semi.brk).1.toNat, len.toNat⟩] := rfl

theorem toInt_setWidth (hlen : len.toNat < 2 ^ 31) : (len.setWidth 32).toInt = len.toNat := by
  rw [BitVec.toInt_eq_toNat_of_lt, BitVec.toNat_setWidth, Nat.mod_eq_of_lt (by omega)]
  rw [BitVec.toNat_setWidth, Nat.mod_eq_of_lt (by omega)]
  omega

/-- A call is refused, or it returns the old break and moves it by the increment. -/
theorem sbrk_cases (ram : Ram) (incr : BitVec 32) (brk : Addr) :
    sbrk ram incr brk = (mapFailed, brk) ∨ (sbrk ram incr brk).1 = brk ∧
      ((sbrk ram incr brk).2.toNat : ℤ) = brk.toNat + incr.toInt := by
  rw [sbrk]
  by_cases hin : ram.start ≤ brk.toNat + incr.toInt ∧ brk.toNat + incr.toInt ≤ ram.stop
  · rw [if_pos hin]
    refine .inr ⟨rfl, ?_⟩
    have hstop := ram.stop_lt
    rw [BitVec.toNat_ofInt]
    omega
  · rw [if_neg hin]
    exact .inl rfl

/-- A call fails and leaves the break alone exactly if the increment is refused. -/
theorem sbrk_eq_failed_iff : sbrk ram incr brk = (mapFailed, brk) ↔ Refused ram incr brk := by
  rw [sbrk, Refused]
  by_cases hin : ram.start ≤ brk.toNat + incr.toInt ∧ brk.toNat + incr.toInt ≤ ram.stop
  · rw [if_pos hin, or_iff_right (not_not.mpr hin), Prod.mk.injEq]
    apply and_congr_right
    intro _
    constructor
    · intro hstay
      have htoNat := congrArg BitVec.toNat hstay
      have hstop := ram.stop_lt
      rw [BitVec.toNat_ofInt] at htoNat
      apply BitVec.eq_of_toInt_eq
      change incr.toInt = 0
      omega
    · intro hzero
      have hint : incr.toInt = 0 := by
        rw [hzero]
        rfl
      rw [hint, add_zero, BitVec.ofInt_natCast, BitVec.ofNat_toNat, BitVec.setWidth_eq]
  · rw [if_neg hin]
    exact iff_of_true rfl (.inl hin)

theorem freshStep_of_failed (h' : sbrk ram (len.setWidth 32) h.semi.brk = (mapFailed, h.semi.brk)) :
    FreshStep ram h len := by
  rw [FreshStep, mmap_brk, sMmap_fst, h']
  exact ⟨le_rfl, .inl rfl⟩

/-- Where the blocks lie below the break, a step is fresh exactly if its increment is exact or
refused. -/
theorem freshStep_iff (hs : Stacked lo h) : FreshStep ram h len ↔ ExactStep ram h len := by
  cases sbrk_cases ram (len.setWidth 32) h.semi.brk with
  | inl hfail => exact iff_of_true (freshStep_of_failed hfail) (.inr (sbrk_eq_failed_iff.mp hfail))
  | inr hmove =>
    obtain ⟨hres, hbrk⟩ := hmove
    by_cases hlen : len.toNat < 2 ^ 31
    · apply iff_of_true
      · rw [toInt_setWidth hlen] at hbrk
        rw [FreshStep, mmap_brk, sMmap_fst, hres]
        refine ⟨by omega, .inr ⟨by omega, ?_⟩⟩
        intro b hb
        exact Block.disjoint_of_le (hs.within b hb).2
      · exact .inl hlen
    · constructor
      · rw [FreshStep, mmap_brk, sMmap_fst, hres]
        rintro ⟨hle, hfail | ⟨hfit, -⟩⟩
        · -- the break is the failure value, and no increment leads above it
          have hmax : h.semi.brk.toNat = 2 ^ 64 - 1 := by
            rw [hfail]
            rfl
          have hsame : (sbrk ram (len.setWidth 32) h.semi.brk).2 = h.semi.brk := by
            apply BitVec.eq_of_toNat_eq
            have hlt := (sbrk ram (len.setWidth 32) h.semi.brk).2.isLt
            omega
          exact .inr (sbrk_eq_failed_iff.mp (Prod.ext (hres.trans hfail) hsame))
        · have hlt := BitVec.toInt_lt (x := len.setWidth 32)
          omega
      · intro hstep
        exact freshStep_of_failed (sbrk_eq_failed_iff.mpr (hstep.resolve_left hlen))

/-- The next block lies between the old break and the new one. -/
theorem stacked_mmap (hs : Stacked lo h) (hlo : lo ≤ h.semi.brk.toNat)
    (hstep : ExactStep ram h len) :
    Stacked lo (h.mmap ram len) ∧ lo ≤ (h.mmap ram len).semi.brk.toNat := by
  have hfailed : sbrk ram (len.setWidth 32) h.semi.brk = (mapFailed, h.semi.brk) →
      Stacked lo (h.mmap ram len) ∧ lo ≤ (h.mmap ram len).semi.brk.toNat := by
    intro hfail
    have hsame : h.mmap ram len = h := by
      rw [Trace.mmap, Semi.sMmap, hfail]
      rfl
    rw [hsame]
    exact ⟨hs, hlo⟩
  cases hstep with
  | inr hrefused => exact hfailed (sbrk_eq_failed_iff.mpr hrefused)
  | inl hlen =>
    cases sbrk_cases ram (len.setWidth 32) h.semi.brk with
    | inl hfail => exact hfailed hfail
    | inr hmove =>
      obtain ⟨hres, hbrk⟩ := hmove
      rw [toInt_setWidth hlen] at hbrk
      rw [mmap_brk]
      refine ⟨?_, by omega⟩
      have hold : ∀ b ∈ h.blocks, lo ≤ b.start ∧
          b.stop ≤ (sbrk ram (len.setWidth 32) h.semi.brk).2.toNat := by
        intro b hb
        have hin := hs.within b hb
        omega
      by_cases hvalue : h.semi.brk = mapFailed
      · have hblocks : (h.mmap ram len).blocks = h.blocks := by
          rw [mmap_blocks, hres, if_pos hvalue]
        constructor
        · rw [hblocks]
          exact hold
        · rw [hblocks]
          exact hs.pairwise
      · have hblocks : (h.mmap ram len).blocks =
            h.blocks ++ [⟨h.semi.brk.toNat, len.toNat⟩] := by
          rw [mmap_blocks, hres, if_neg hvalue]
        constructor
        · rw [hblocks]
          intro b hb
          cases List.mem_append.mp hb with
          | inl hb => exact hold b hb
          | inr hb =>
            rw [List.mem_singleton.mp hb, mmap_brk]
            simp only [Block.stop]
            omega
        · rw [hblocks, List.pairwise_append]
          refine ⟨hs.pairwise, List.pairwise_singleton .., ?_⟩
          intro b hb c hc
          rw [List.mem_singleton.mp hc]
          exact Block.disjoint_of_le (hs.within b hb).2

end Steps

/-- Every call of a run fails or returns a fresh block exactly if every length is below half the
range of an increment or becomes an increment that is refused. -/
theorem mmap_fresh_iff (ram : Ram) (s : Semi) (lens : List Word) :
    Always (Trace.mmap ram) (FreshStep ram) ⟨s, []⟩ lens ↔
      Always (Trace.mmap ram) (ExactStep ram) ⟨s, []⟩ lens := by
  apply always_congr (I := fun h => Stacked 0 h)
  · intro h len hs
    exact freshStep_iff hs
  · intro h len hs hstep
    exact (stacked_mmap hs (Nat.zero_le _) hstep).1
  · exact ⟨by simp, List.Pairwise.nil⟩

/-- A length of 2³² - 4096 moves the break down over the block before it. -/
theorem mmap_overlap :
    ¬ Always (Trace.mmap ⟨0x44000000, 0x48000000, by decide⟩)
      (FreshStep ⟨0x44000000, 0x48000000, by decide⟩) ⟨⟨fun _ => 0, 0x44000000⟩, []⟩
      [0x1000, 0xfffff000, 0x1000] := by
  intro h
  exact absurd h.2.1.1 (by decide)

end Rebench.Heap
