import Mathlib.Data.List.TakeWhile
import Rebench.Machine.Run

/-!
# Ledgers of allocations and frees

A block is live behind its last allocation until it is freed. Where only live
blocks are freed and only other blocks are handed out, no block is freed twice
on one allocation, and a block that is not live at the end was freed once.
-/
namespace Rebench.Machine

inductive Entry (α : Type*) where
  | alloc (a : α)
  | free (a : α)
  deriving DecidableEq

variable {α : Type*} [DecidableEq α]

def live (l : List (Entry α)) (a : α) : Bool :=
  l.foldl (fun b e => match e with
    | .alloc c => b || c = a
    | .free c => b && c ≠ a) false

/-- Only live blocks are freed, and only other blocks are allocated. -/
structure Sound (l : List (Entry α)) : Prop where
  freed : ∀ before a after, l = before ++ .free a :: after → live before a = true
  fresh : ∀ before a after, l = before ++ .alloc a :: after → live before a = false

section Live
variable {l m : List (Entry α)} {a c : α}

@[simp] theorem live_nil : live [] a = false := rfl

@[simp] theorem live_concat_alloc : live (l ++ [.alloc c]) a = (live l a || c = a) := by
  simp [live]

@[simp] theorem live_concat_free : live (l ++ [.free c]) a = (live l a && c ≠ a) := by
  simp [live]

/-- Without an allocation of the block, it stays live until it is freed. -/
theorem live_append (h : .alloc a ∉ m) :
    live (l ++ m) a = true ↔ live l a = true ∧ .free a ∉ m := by
  induction m using List.reverseRecOn with
  | nil => simp
  | append_singleton m e ih =>
    have hm : .alloc a ∉ m := fun hin => h (by simp [hin])
    rw [← List.append_assoc]
    cases e with
    | alloc c =>
      have hc : c ≠ a := fun heq => h (by simp [heq])
      rw [live_concat_alloc, decide_eq_false hc, Bool.or_false, ih hm]
      simp
    | free c =>
      rw [live_concat_free, Bool.and_eq_true, ih hm]
      by_cases hc : c = a
      · simp [hc]
      · simp [hc, Ne.symm hc]

end Live

section Sound
variable {l : List (Entry α)} {a c : α}

theorem sound_nil : Sound ([] : List (Entry α)) where
  freed := by simp
  fresh := by simp

theorem Sound.concat_alloc (h : Sound l) (hc : live l c = false) : Sound (l ++ [.alloc c]) where
  freed before a after heq := by
    cases concat_eq_append_cons heq with
    | inl hold => exact h.freed before a _ hold.choose_spec
    | inr hnew => exact absurd hnew.2 (by simp)
  fresh before a after heq := by
    cases concat_eq_append_cons heq with
    | inl hold => exact h.fresh before a _ hold.choose_spec
    | inr hnew =>
      obtain ⟨rfl, hsame⟩ := hnew
      cases hsame
      exact hc

theorem Sound.concat_free (h : Sound l) (hc : live l c = true) : Sound (l ++ [.free c]) where
  freed before a after heq := by
    cases concat_eq_append_cons heq with
    | inl hold => exact h.freed before a _ hold.choose_spec
    | inr hnew =>
      obtain ⟨rfl, hsame⟩ := hnew
      cases hsame
      exact hc
  fresh before a after heq := by
    cases concat_eq_append_cons heq with
    | inl hold => exact h.fresh before a _ hold.choose_spec
    | inr hnew => exact absurd hnew.2 (by simp)

/-- Between two frees of a block there is an allocation of it. -/
theorem Sound.alloc_between (h : Sound l) {before mid after : List (Entry α)}
    (heq : l = before ++ .free a :: (mid ++ .free a :: after)) : .alloc a ∈ mid := by
  by_contra hmid
  have hlive : live ((before ++ [.free a]) ++ mid) a = true := by
    apply h.freed _ _ after
    simpa using heq
  have hfreed := ((live_append hmid).mp hlive).1
  simp at hfreed

/-- A block that is not live at the end is freed once between an allocation of it and the next. -/
theorem Sound.freed_once (h : Sound l) (hend : live l a = false) {before after : List (Entry α)}
    (heq : l = before ++ .alloc a :: after) :
    (after.takeWhile (· ≠ .alloc a)).count (.free a) = 1 := by
  obtain ⟨mid, hmid⟩ : ∃ mid, after.takeWhile (· ≠ .alloc a) = mid := ⟨_, rfl⟩
  obtain ⟨rest, hrest⟩ : ∃ rest, after.dropWhile (· ≠ .alloc a) = rest := ⟨_, rfl⟩
  have hsplit : after = mid ++ rest := by
    rw [← hmid, ← hrest, List.takeWhile_append_dropWhile]
  have hno : .alloc a ∉ mid := by
    intro hin
    rw [← hmid] at hin
    simpa using List.mem_takeWhile_imp hin
  -- the block is not live behind the segment: it is freed, or allocated next
  have hdead : live ((before ++ [.alloc a]) ++ mid) a = false := by
    cases hr : rest with
    | nil =>
      rw [hsplit, hr] at heq
      rw [← hend, heq]
      simp
    | cons e tail =>
      have hhead := List.head?_dropWhile_not (fun e => decide (e ≠ Entry.alloc a)) after
      rw [hrest, hr] at hhead
      have he : e = .alloc a := by simpa using hhead
      apply h.fresh _ _ tail
      rw [heq, hsplit, hr, he]
      simp
  have hfree : .free a ∈ mid := by
    by_contra hnot
    have hlive := (live_append (l := before ++ [.alloc a]) hno).mpr ⟨by simp, hnot⟩
    rw [hdead] at hlive
    exact absurd hlive (by simp)
  rw [hmid]
  obtain ⟨s, t, hst, hs⟩ := List.eq_append_cons_of_mem hfree
  have ht : .free a ∉ t := by
    intro hin
    obtain ⟨u, v, huv⟩ := List.append_of_mem hin
    have htwice : l = (before ++ .alloc a :: s) ++ .free a :: (u ++ .free a :: (v ++ rest)) := by
      rw [heq, hsplit, hst, huv]
      simp
    have hbetween := h.alloc_between htwice
    apply hno
    rw [hst, huv]
    simp [hbetween]
  rw [hst, List.count_append, List.count_cons_self, List.count_eq_zero_of_not_mem hs,
    List.count_eq_zero_of_not_mem ht]

end Sound

/-! ## Tables of blocks -/

/-- The live blocks are those in the table, each in one slot; the other slots are empty. -/
structure Owns {ι : Type*} (null : α) (t : ι → α) (l : List (Entry α)) : Prop where
  live_iff : ∀ a, a ≠ null → (live l a = true ↔ ∃ i, t i = a)
  distinct : ∀ i j, t i = t j → t i ≠ null → i = j
  sound : Sound l

section Tables
variable {ι : Type*} [DecidableEq ι] {null c : α} {t : ι → α} {l : List (Entry α)} {i : ι}

/-- A block that is not live may be put into an empty slot. -/
theorem Owns.store (h : Owns null t l) (hi : t i = null) (hc : c ≠ null) (hdead : live l c = false) :
    Owns null (Function.update t i c) (l ++ [.alloc c]) := by
  have hfresh : ∀ j, t j ≠ c := by
    intro j hj
    have hlive := (h.live_iff c hc).mpr ⟨j, hj⟩
    rw [hdead] at hlive
    exact absurd hlive (by simp)
  constructor
  · intro a ha
    rw [live_concat_alloc, Bool.or_eq_true, h.live_iff a ha, decide_eq_true_iff]
    constructor
    · rintro (⟨j, hj⟩ | rfl)
      · have hji : j ≠ i := by
          intro heq
          rw [heq, hi] at hj
          exact ha hj.symm
        exact ⟨j, by rw [Function.update_of_ne hji, hj]⟩
      · exact ⟨i, Function.update_self ..⟩
    · rintro ⟨j, hj⟩
      by_cases hji : j = i
      · rw [hji, Function.update_self] at hj
        exact .inr hj
      · rw [Function.update_of_ne hji] at hj
        exact .inl ⟨j, hj⟩
  · intro j k hjk hne
    by_cases hji : j = i <;> by_cases hki : k = i
    · rw [hji, hki]
    · rw [hji, Function.update_self, Function.update_of_ne hki] at hjk
      exact absurd hjk.symm (hfresh k)
    · rw [hki, Function.update_self, Function.update_of_ne hji] at hjk
      exact absurd hjk (hfresh j)
    · rw [Function.update_of_ne hji, Function.update_of_ne hki] at hjk
      rw [Function.update_of_ne hji] at hne
      exact h.distinct j k hjk hne
  · exact h.sound.concat_alloc hdead

/-- The block of a slot may be freed and the slot emptied. -/
theorem Owns.release (h : Owns null t l) (hi : t i ≠ null) :
    Owns null (Function.update t i null) (l ++ [.free (t i)]) := by
  have hlive := (h.live_iff (t i) hi).mpr ⟨i, rfl⟩
  constructor
  · intro a ha
    rw [live_concat_free, Bool.and_eq_true, h.live_iff a ha, decide_eq_true_iff]
    constructor
    · rintro ⟨⟨j, hj⟩, hne⟩
      have hji : j ≠ i := by
        intro heq
        rw [heq] at hj
        exact hne hj
      exact ⟨j, by rw [Function.update_of_ne hji, hj]⟩
    · rintro ⟨j, hj⟩
      by_cases hji : j = i
      · rw [hji, Function.update_self] at hj
        exact absurd hj.symm ha
      · rw [Function.update_of_ne hji] at hj
        refine ⟨⟨j, hj⟩, ?_⟩
        intro heq
        apply hji
        apply h.distinct j i (hj.trans heq.symm)
        rw [hj]
        exact ha
  · intro j k hjk hne
    by_cases hji : j = i
    · rw [hji, Function.update_self] at hne
      exact absurd rfl hne
    · rw [Function.update_of_ne hji] at hjk hne
      by_cases hki : k = i
      · rw [hki, Function.update_self] at hjk
        exact absurd hjk hne
      · rw [Function.update_of_ne hki] at hjk
        exact h.distinct j k hjk hne
  · exact h.sound.concat_free hlive

end Tables

end Rebench.Machine
