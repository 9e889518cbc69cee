import Mathlib.Data.List.Basic
import Mathlib.Tactic

/-!
# Runs over a list of inputs

A program that reads its inputs one by one and may stop with an error is a
monadic fold. The run that fails is the one whose first failing input is the
reported one. A program that answers every input with an output is a run of a
transducer. An invariant of one step is an invariant of every run.
-/
namespace Rebench.Machine

variable {σ ι ε : Type*} {f : σ → ι → Except ε σ}

theorem exists_of_toBool {α : Type*} {x : Except ε α} (h : x.toBool) : ∃ a, x = .ok a := by
  cases x with
  | error e => exact absurd h Bool.false_ne_true
  | ok a => exact ⟨a, rfl⟩

theorem foldlM_cons (s : σ) (i : ι) (l : List ι) :
    (i :: l).foldlM f s = (f s i).bind fun t => l.foldlM f t := rfl

theorem foldlM_eq_ok_cons {s t : σ} {i : ι} {l : List ι} :
    (i :: l).foldlM f s = .ok t ↔ ∃ u, f s i = .ok u ∧ l.foldlM f u = .ok t := by
  rw [foldlM_cons]
  cases h : f s i with
  | error e => simp [Except.bind]
  | ok u => simp [Except.bind]

theorem foldlM_eq_ok_append {s t : σ} {l m : List ι} :
    (l ++ m).foldlM f s = .ok t ↔ ∃ u, l.foldlM f s = .ok u ∧ m.foldlM f u = .ok t := by
  induction l generalizing s with
  | nil =>
    constructor
    · intro h
      exact ⟨s, rfl, h⟩
    · rintro ⟨u, hu, ht⟩
      cases hu
      exact ht
  | cons j l ih =>
    rw [List.cons_append, foldlM_eq_ok_cons]
    constructor
    · rintro ⟨v, hv, ht⟩
      obtain ⟨u, hu, hi⟩ := ih.mp ht
      exact ⟨u, foldlM_eq_ok_cons.mpr ⟨v, hv, hu⟩, hi⟩
    · rintro ⟨u, hu, hi⟩
      obtain ⟨v, hv, hu⟩ := foldlM_eq_ok_cons.mp hu
      exact ⟨v, hv, ih.mpr ⟨u, hu, hi⟩⟩

theorem foldlM_eq_ok_append_singleton {s t : σ} {i : ι} {l : List ι} :
    (l ++ [i]).foldlM f s = .ok t ↔ ∃ u, l.foldlM f s = .ok u ∧ f u i = .ok t := by
  rw [foldlM_eq_ok_append]
  apply exists_congr
  intro u
  apply and_congr_right
  intro _
  rw [foldlM_eq_ok_cons]
  constructor
  · rintro ⟨v, hv, ht⟩
    cases ht
    exact hv
  · intro hv
    exact ⟨t, hv, rfl⟩

/-- A split of a longer list is a split of the list, or it is at the new entry. -/
theorem concat_eq_append_cons {β : Type*} {l before after : List β} {e d : β}
    (h : l ++ [e] = before ++ d :: after) :
    (∃ rest, l = before ++ d :: rest) ∨ l = before ∧ e = d := by
  cases after using List.reverseRecOn with
  | nil =>
    have hends := List.append_inj' h rfl
    exact .inr ⟨hends.1, by simpa using hends.2⟩
  | append_singleton rest f =>
    rw [← List.cons_append, ← List.append_assoc] at h
    exact .inl ⟨rest, (List.append_inj' h rfl).1⟩

/-- A run fails where its first failing step does. -/
theorem foldlM_eq_error {s : σ} {l : List ι} {e : ε} :
    l.foldlM f s = .error e ↔
      ∃ l₁ i l₂ t, l = l₁ ++ i :: l₂ ∧ l₁.foldlM f s = .ok t ∧ f t i = .error e := by
  induction l generalizing s with
  | nil => simp [List.foldlM, pure, Except.pure]
  | cons i l ih =>
    rw [foldlM_cons]
    constructor
    · intro h
      cases hi : f s i with
      | error e' =>
        rw [hi] at h
        exact ⟨[], i, l, s, rfl, rfl, hi.trans (by simpa [Except.bind] using h)⟩
      | ok u =>
        rw [hi] at h
        obtain ⟨l₁, j, l₂, t, rfl, ht, hj⟩ := ih.mp h
        exact ⟨i :: l₁, j, l₂, t, rfl, foldlM_eq_ok_cons.mpr ⟨u, hi, ht⟩, hj⟩
    · rintro ⟨l₁, j, l₂, t, hl, ht, hj⟩
      cases l₁ with
      | nil =>
        obtain ⟨rfl, rfl⟩ := List.cons.inj hl
        cases ht
        rw [hj]
        rfl
      | cons k l₁ =>
        obtain ⟨rfl, rfl⟩ := List.cons.inj hl
        obtain ⟨u, hu, ht⟩ := foldlM_eq_ok_cons.mp ht
        rw [hu]
        exact ih.mpr ⟨l₁, j, l₂, t, rfl, ht, hj⟩

theorem foldlM_invariant {P : σ → Prop} (hstep : ∀ s i t, P s → f s i = .ok t → P t) {s t : σ}
    {l : List ι} (hs : P s) (h : l.foldlM f s = .ok t) : P t := by
  induction l generalizing s with
  | nil =>
    cases h
    exact hs
  | cons i l ih =>
    obtain ⟨u, hu, ht⟩ := foldlM_eq_ok_cons.mp h
    exact ih (hstep s i u hs hu) ht

section Always

/-- Every step of the run from a state meets the condition. -/
def Always (g : σ → ι → σ) (P : σ → ι → Prop) : σ → List ι → Prop
  | _, [] => True
  | s, i :: l => P s i ∧ Always g P (g s i) l

variable {g : σ → ι → σ} {P Q : σ → ι → Prop}

@[simp] theorem always_cons (s : σ) (i : ι) (l : List ι) :
    Always g P s (i :: l) ↔ P s i ∧ Always g P (g s i) l := Iff.rfl

/-- Conditions that agree where an invariant holds agree on runs, if steps that meet them keep the
invariant. -/
theorem always_congr {I : σ → Prop} (hPQ : ∀ s i, I s → (P s i ↔ Q s i))
    (hstep : ∀ s i, I s → Q s i → I (g s i)) {s : σ} (hs : I s) (l : List ι) :
    Always g P s l ↔ Always g Q s l := by
  induction l generalizing s with
  | nil => exact Iff.rfl
  | cons i l ih =>
    rw [always_cons, always_cons, hPQ s i hs]
    apply and_congr_right
    intro hQ
    exact ih (hstep s i hs hQ)

theorem always_of_forall {l : List ι} (h : ∀ i ∈ l, ∀ s, P s i) (s : σ) : Always g P s l := by
  induction l generalizing s with
  | nil => exact trivial
  | cons i l ih =>
    have htail := ih fun j hj => h j (List.mem_cons_of_mem i hj)
    exact ⟨h i List.mem_cons_self s, htail (g s i)⟩

/-- An invariant of the steps that meet the condition holds behind a run of them. -/
theorem always_invariant {I : σ → Prop} (hstep : ∀ s i, I s → P s i → I (g s i)) {s : σ} (hs : I s)
    {l : List ι} (h : Always g P s l) : I (l.foldl g s) := by
  induction l generalizing s with
  | nil => exact hs
  | cons i l ih => exact ih (hstep s i hs h.1) h.2

end Always

section Transducer
variable {ω : Type*}

/-- The last state and the outputs of a run, one for each input. -/
def transduce (g : σ → ι → σ × ω) (s : σ) : List ι → σ × List ω
  | [] => (s, [])
  | i :: l => ((transduce g (g s i).1 l).1, (g s i).2 :: (transduce g (g s i).1 l).2)

variable {g : σ → ι → σ × ω}

@[simp] theorem transduce_nil (s : σ) : transduce g s [] = (s, []) := rfl

@[simp] theorem transduce_cons (s : σ) (i : ι) (l : List ι) : transduce g s (i :: l) =
    ((transduce g (g s i).1 l).1, (g s i).2 :: (transduce g (g s i).1 l).2) := rfl

theorem transduce_append (s : σ) (l m : List ι) : transduce g s (l ++ m) =
    ((transduce g (transduce g s l).1 m).1,
      (transduce g s l).2 ++ (transduce g (transduce g s l).1 m).2) := by
  induction l generalizing s with
  | nil => rfl
  | cons i l ih => simp [ih]

@[simp] theorem length_transduce (g : σ → ι → σ × ω) (s : σ) (l : List ι) :
    (transduce g s l).2.length = l.length := by
  induction l generalizing s with
  | nil => rfl
  | cons i l ih => simp [ih]

/-- What one step keeps and guarantees, every run keeps and guarantees. -/
theorem transduce_invariant {P : σ → Prop} {Q : ω → Prop}
    (hstep : ∀ s i, P s → P (g s i).1 ∧ Q (g s i).2) {s : σ} (hs : P s) (l : List ι) :
    P (transduce g s l).1 ∧ ∀ o ∈ (transduce g s l).2, Q o := by
  induction l generalizing s with
  | nil => exact ⟨hs, by simp⟩
  | cons i l ih =>
    obtain ⟨hP, hQ⟩ := hstep s i hs
    obtain ⟨hP', hQ'⟩ := ih hP
    exact ⟨hP', by simpa using ⟨hQ, hQ'⟩⟩

end Transducer

end Rebench.Machine
