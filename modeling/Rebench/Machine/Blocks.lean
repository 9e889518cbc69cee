import Mathlib.Data.List.Basic
import Mathlib.Tactic

/-!
# Blocks cut off one behind the other

A block is a start and a size. Blocks that are cut off at a break which moves up
by their sizes lie one behind the other, and no two of them share a byte.
-/
namespace Rebench.Machine

/-- The numbers from `start` on, `size` of them. -/
@[ext] structure Block where
  start : ℕ
  size : ℕ
  deriving DecidableEq

namespace Block

def stop (b : Block) : ℕ := b.start + b.size

instance : Membership ℕ Block := ⟨fun b v => b.start ≤ v ∧ v < b.stop⟩

instance (v : ℕ) (b : Block) : Decidable (v ∈ b) := inferInstanceAs (Decidable (_ ∧ _))

theorem mem_def {v : ℕ} {b : Block} : v ∈ b ↔ b.start ≤ v ∧ v < b.stop := Iff.rfl

def Disjoint (b c : Block) : Prop := ∀ v, v ∈ b → v ∉ c

theorem Disjoint.symm {b c : Block} (h : b.Disjoint c) : c.Disjoint b := by
  intro v hc hb
  exact h v hb hc

theorem disjoint_of_le {b c : Block} (h : b.stop ≤ c.start) : b.Disjoint c := by
  intro v hb hc
  rw [mem_def] at hb hc
  omega

end Block

def layout (brk : ℕ) : List ℕ → List Block
  | [] => []
  | n :: ns => ⟨brk, n⟩ :: layout (brk + n) ns

section Layout
variable {brk n : ℕ} {ns : List ℕ}

@[simp] theorem layout_nil : layout brk [] = [] := rfl

@[simp] theorem layout_cons : layout brk (n :: ns) = ⟨brk, n⟩ :: layout (brk + n) ns := rfl

theorem layout_concat : layout brk (ns ++ [n]) = layout brk ns ++ [⟨brk + ns.sum, n⟩] := by
  induction ns generalizing brk with
  | nil => simp
  | cons m ns ih =>
    rw [List.cons_append, layout_cons, ih, layout_cons, List.cons_append, List.sum_cons, add_assoc]

theorem layout_sizes : (layout brk ns).map Block.size = ns := by
  induction ns generalizing brk with
  | nil => rfl
  | cons n ns ih => simp [ih]

theorem layout_within {b : Block} (hb : b ∈ layout brk ns) :
    brk ≤ b.start ∧ b.stop ≤ brk + ns.sum := by
  induction ns generalizing brk with
  | nil => exact absurd hb (by simp)
  | cons n ns ih =>
    rw [List.sum_cons]
    cases List.mem_cons.mp hb with
    | inl hb =>
      rw [hb]
      simp only [Block.stop]
      omega
    | inr hb =>
      have hin := ih hb
      omega

theorem layout_pairwise : (layout brk ns).Pairwise Block.Disjoint := by
  induction ns generalizing brk with
  | nil => exact List.Pairwise.nil
  | cons n ns ih =>
    rw [layout_cons, List.pairwise_cons]
    constructor
    · intro b hb
      exact Block.disjoint_of_le (layout_within hb).1
    · exact ih

/-- All blocks begin at multiples of `d` exactly if the break does and all sizes but the last are
multiples. -/
theorem layout_dvd_iff {d : ℕ} (hbrk : d ∣ brk) :
    (∀ b ∈ layout brk ns, d ∣ b.start) ↔ ∀ n ∈ ns.dropLast, d ∣ n := by
  induction ns generalizing brk with
  | nil => simp
  | cons n ns ih =>
    cases ns with
    | nil => simpa using hbrk
    | cons m ns =>
      rw [List.dropLast_cons_cons, List.forall_mem_cons, layout_cons, List.forall_mem_cons,
        and_iff_right hbrk]
      by_cases hn : d ∣ n
      · rw [and_iff_right hn]
        exact ih (Nat.dvd_add hbrk hn)
      · apply iff_of_false
        · intro h
          have hnext : d ∣ brk + n := h ⟨brk + n, m⟩ (by simp)
          exact hn ((Nat.dvd_add_right hbrk).mp hnext)
        · intro h
          exact hn h.1

end Layout

end Rebench.Machine
