import Rebench.Bootstrap.Source
import Rebench.Machine.Blocks

/-!
# The blocks of `bootstrap_malloc`

The pointer and the remaining count move in step, so that the blocks are those
of a layout of the sizes from the start of the buffer, as long as the sizes fit.
-/
namespace Rebench.Bootstrap
open Machine

/-- A call of `malloc` or `free`, which are redirected. -/
inductive Call where
  | malloc (size : Word)
  | free (ptr : Addr)

/-- The blocks returned so far, in order, beside the static variables. -/
structure History where
  state : State
  blocks : List Block

/-- `none` where the program aborts. -/
def call (h : History) : Call → Option History
  | .malloc size => (bootstrapMalloc size h.state).map fun (ptr, s) =>
      ⟨s, h.blocks ++ [⟨ptr.toNat, size.toNat⟩]⟩
  | .free ptr => some ⟨bootstrapFree ptr h.state, h.blocks⟩

def calls (buffer : Addr) (cs : List Call) : Option History :=
  cs.foldlM call ⟨initial buffer, []⟩

def sizes (cs : List Call) : List ℕ :=
  cs.filterMap fun c => match c with | .malloc size => some size.toNat | .free _ => none

/-- The static variables after requests for `n` bytes in all. -/
structure Used (buffer : Addr) (n : ℕ) (s : State) : Prop where
  le : n ≤ bufferSize
  ptr : s.ptr.toNat = buffer.toNat + n
  remaining : s.remaining.toNat = bufferSize - n

section Calls
variable {buffer : Addr} {n : ℕ} {s : State} {size : Word} {cs : List Call} {h : History}

theorem used_initial (buffer : Addr) : Used buffer 0 (initial buffer) :=
  ⟨Nat.zero_le _, rfl, rfl⟩

theorem Used.wide (hs : Used buffer n s) :
    (s.remaining.setWidth 64).toNat = bufferSize - n := by
  have hle := hs.le
  rw [BitVec.toNat_setWidth, hs.remaining]
  apply Nat.mod_eq_of_lt
  rw [bufferSize] at hle ⊢
  omega

theorem bootstrapMalloc_eq_none_iff (hs : Used buffer n s) :
    bootstrapMalloc size s = none ↔ bufferSize < n + size.toNat := by
  have hle := hs.le
  have hgt : size > s.remaining.setWidth 64 ↔ bufferSize < n + size.toNat := by
    rw [gt_iff_lt, BitVec.lt_def, hs.wide]
    omega
  rw [← hgt, bootstrapMalloc]
  by_cases h : size > s.remaining.setWidth 64
  · rw [if_pos h]
    exact iff_of_true rfl h
  · rw [if_neg h]
    exact iff_of_false (by simp) h

theorem bootstrapMalloc_eq_some (hbuffer : buffer.toNat + bufferSize < 2 ^ 64)
    (hs : Used buffer n s) {p : Addr × State} (hp : bootstrapMalloc size s = some p) :
    p.1.toNat = buffer.toNat + n ∧ Used buffer (n + size.toNat) p.2 := by
  have hfits : n + size.toNat ≤ bufferSize := by
    by_contra h
    rw [(bootstrapMalloc_eq_none_iff hs).mpr (by omega)] at hp
    exact absurd hp (by simp)
  have hwide := hs.wide
  have hptr := hs.ptr
  rw [bootstrapMalloc] at hp
  split_ifs at hp
  rw [← Option.some.inj hp]
  refine ⟨hptr, hfits, ?_, ?_⟩
  · rw [BitVec.toNat_add, hptr, Nat.mod_eq_of_lt (by omega), add_assoc]
  · rw [BitVec.toNat_setWidth, BitVec.toNat_sub, hwide]
    rw [bufferSize] at hfits ⊢
    omega

@[simp] theorem sizes_nil : sizes [] = [] := rfl

@[simp] theorem sizes_append (cs cs' : List Call) : sizes (cs ++ cs') = sizes cs ++ sizes cs' :=
  List.filterMap_append

@[simp] theorem sizes_malloc (size : Word) : sizes [.malloc size] = [size.toNat] := rfl

@[simp] theorem sizes_free (ptr : Addr) : sizes [.free ptr] = [] := rfl

/-- The blocks are laid out from the start of the buffer. -/
theorem calls_eq_some (hbuffer : buffer.toNat + bufferSize < 2 ^ 64) (hc : calls buffer cs = some h) :
    Used buffer (sizes cs).sum h.state ∧ h.blocks = layout buffer.toNat (sizes cs) := by
  induction cs using List.reverseRecOn generalizing h with
  | nil =>
    cases hc
    exact ⟨used_initial buffer, rfl⟩
  | append_singleton cs c ih =>
    rw [calls, List.foldlM_append] at hc
    obtain ⟨g, hg, hlast⟩ := Option.bind_eq_some_iff.mp hc
    obtain ⟨hused, hblocks⟩ := ih hg
    replace hlast : call g c = some h := by simpa using hlast
    cases c with
    | malloc size =>
      obtain ⟨p, hp, rfl⟩ := Option.map_eq_some_iff.mp hlast
      obtain ⟨hptr, hused'⟩ := bootstrapMalloc_eq_some hbuffer hused hp
      rw [sizes_append, sizes_malloc, List.sum_append, List.sum_singleton, layout_concat]
      refine ⟨hused', ?_⟩
      change g.blocks ++ [⟨p.1.toNat, size.toNat⟩] = _
      rw [hblocks, hptr]
    | free ptr =>
      obtain rfl := Option.some.inj hlast
      rw [sizes_append, sizes_free, List.append_nil]
      exact ⟨hused, hblocks⟩

theorem calls_eq_none_iff (hbuffer : buffer.toNat + bufferSize < 2 ^ 64) :
    calls buffer cs = none ↔ bufferSize < (sizes cs).sum := by
  induction cs using List.reverseRecOn with
  | nil => exact iff_of_false (by simp [calls]) (by simp)
  | append_singleton cs c ih =>
    have hrun : calls buffer (cs ++ [c]) = (calls buffer cs).bind fun h => call h c := by
      rw [calls, List.foldlM_append]
      simp [calls, Option.bind_eq_bind]
    rw [hrun, sizes_append, List.sum_append]
    cases hc : calls buffer cs with
    | none =>
      have hlt := ih.mp hc
      exact iff_of_true rfl (by omega)
    | some h =>
      obtain ⟨hused, -⟩ := calls_eq_some hbuffer hc
      have hle := hused.le
      rw [Option.bind_some]
      cases c with
      | malloc size =>
        rw [call, Option.map_eq_none_iff, bootstrapMalloc_eq_none_iff hused, sizes_malloc,
          List.sum_singleton]
      | free ptr => exact iff_of_false (by simp [call]) (by simpa using hle)

end Calls

/-- A run aborts exactly if its sizes exceed the buffer. Before that the two variables meet at the
end of the buffer, all blocks lie in the buffer, no two of them overlap, and the next request aborts
exactly if its size and the earlier ones exceed the buffer. -/
theorem bootstrap_blocks (buffer : Addr) (hbuffer : buffer.toNat + bufferSize < 2 ^ 64)
    (cs : List Call) :
    (calls buffer cs = none ↔ bufferSize < (sizes cs).sum) ∧
      ∀ h, calls buffer cs = some h →
        h.state.ptr.toNat + h.state.remaining.toNat = buffer.toNat + bufferSize ∧
        (∀ b ∈ h.blocks, buffer.toNat ≤ b.start ∧ b.stop ≤ buffer.toNat + bufferSize) ∧
        h.blocks.Pairwise Block.Disjoint ∧
        h.blocks.map Block.size = sizes cs ∧
        h.state.remaining.toNat = bufferSize - (sizes cs).sum ∧
        ∀ size : Word, call h (.malloc size) = none ↔ bufferSize < size.toNat + (sizes cs).sum := by
  refine ⟨calls_eq_none_iff hbuffer, fun h hc => ?_⟩
  obtain ⟨hused, hblocks⟩ := calls_eq_some hbuffer hc
  have hle := hused.le
  rw [hblocks]
  refine ⟨?_, ?_, layout_pairwise, layout_sizes, hused.remaining, ?_⟩
  · rw [hused.ptr, hused.remaining]
    omega
  · intro b hb
    have hin := layout_within hb
    omega
  · intro size
    rw [call, Option.map_eq_none_iff, bootstrapMalloc_eq_none_iff hused, add_comm]

theorem bootstrap_blocks_three :
    ([⟨0x1000, 24⟩, ⟨0x1018, 0⟩, ⟨0x1018, 100⟩] : List Block).Pairwise Block.Disjoint :=
  ((bootstrap_blocks 0x1000 (by decide)
    [.malloc 24, .free 0x1000, .malloc 0, .malloc 100]).2 _ rfl).2.2.1

/-- All blocks are aligned exactly if every size but the last is a multiple of sixteen. -/
theorem bootstrap_aligned_iff (buffer : Addr) (hbuffer : buffer.toNat + bufferSize < 2 ^ 64)
    (haligned : 16 ∣ buffer.toNat) (cs : List Call) (h : History)
    (hc : calls buffer cs = some h) :
    (∀ b ∈ h.blocks, 16 ∣ b.start) ↔ ∀ n ∈ (sizes cs).dropLast, 16 ∣ n := by
  rw [(calls_eq_some hbuffer hc).2]
  exact layout_dvd_iff haligned

theorem bootstrap_aligned_two :
    (∀ b ∈ ([⟨0x1000, 32⟩, ⟨0x1020, 5⟩] : List Block), 16 ∣ b.start) ↔ ∀ n ∈ [32], 16 ∣ n :=
  bootstrap_aligned_iff 0x1000 (by decide) (by decide) [.malloc 32, .malloc 5] _ rfl

/-- Behind an odd size the next block is not aligned. -/
theorem bootstrap_unaligned :
    ∃ h, calls 0x1000 [.malloc 1, .malloc 16] = some h ∧ ¬ ∀ b ∈ h.blocks, 16 ∣ b.start :=
  ⟨_, rfl, by decide⟩

end Rebench.Bootstrap
