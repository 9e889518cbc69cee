import Rebench.Perf.Source

/-!
# The counter buffers

The options admit ten counters and the buffers hold six. A sequence of calls
stays inside the buffers exactly if the options ask for six counters or fewer.
-/
namespace Rebench.Perf
open Machine

def requested (r : Char × BitVec 32) : ℕ :=
  if r.1 = 'i' then if r.2 = 0 ∨ r.2 = 1 ∨ r.2 = 2 then 2 else 0 else 1

structure Configured (s : State) : Prop where
  nCounters_le : s.nCounters ≤ maxCounters
  ratios_zero : s.ratios 0 = 0

theorem configured_initial : Configured initial := ⟨Nat.zero_le _, rfl⟩

/-- The options leave the buffers and the mark of an ended section alone. -/
def SameBuffers (s t : State) : Prop :=
  t.countersBegin = s.countersBegin ∧ t.countersEnd = s.countersEnd ∧
    t.countersValid = s.countersValid

theorem SameBuffers.refl (s : State) : SameBuffers s s := ⟨rfl, rfl, rfl⟩

theorem SameBuffers.trans {s t u : State} (h : SameBuffers s t) (h' : SameBuffers t u) :
    SameBuffers s u :=
  ⟨h'.1.trans h.1, h'.2.1.trans h.2.1, h'.2.2.trans h.2.2⟩

section Config
variable {perfEventOpen : List Attr → Attr → ℤ} {s t : State}

theorem perfOpen_eq_some {type : ℕ} {event : BitVec 32}
    (h : perfOpen perfEventOpen type event s = some t) :
    t.nCounters = s.nCounters + 1 ∧ t.ratios = s.ratios ∧ SameBuffers s t := by
  by_cases hret : perfEventOpen s.events ⟨type, event.signExtend 64⟩ < 0
  · rw [perfOpen, if_pos hret] at h
    exact absurd h (by simp)
  · rw [perfOpen, if_neg hret] at h
    rw [← Option.some.inj h]
    exact ⟨rfl, rfl, .refl s⟩

theorem openPair_eq_some {ratio : ℕ} {first second : BitVec 32} {buf : Text.Str}
    (h : openPair perfEventOpen ratio first second buf s = some t) :
    t.nCounters = s.nCounters + 2 ∧
      t.ratios = Function.update s.ratios (s.nCounters + 1) ratio ∧ SameBuffers s t := by
  obtain ⟨u, hu, h⟩ := Option.bind_eq_some_iff.mp h
  obtain ⟨v, hv, h⟩ := Option.bind_eq_some_iff.mp h
  obtain ⟨hn, hr, hs⟩ := perfOpen_eq_some hu
  obtain ⟨hn', hr', hs'⟩ := perfOpen_eq_some hv
  rw [← Option.some.inj h]
  refine ⟨?_, ?_, ?_⟩
  · rw [addHeading, hn', hn]
    rfl
  · rw [addHeading, hr', hr]
    rfl
  · exact hs.trans hs'

/-- A request is admitted as a whole or changes nothing. -/
theorem perfConfig_eq_some {r : Char × BitVec 32} (hs : Configured s)
    (h : perfConfig perfEventOpen r.1 r.2 s = some t) :
    Configured t ∧ SameBuffers s t ∧
      (t.nCounters = s.nCounters + requested r ∨ t.nCounters = s.nCounters ∧ 9 ≤ s.nCounters) := by
  simp only [perfConfig] at h
  by_cases hi : r.1 = 'i'
  · rw [if_pos hi] at h
    by_cases hfull : s.nCounters + 2 > maxCounters
    · rw [if_pos hfull] at h
      obtain rfl := Option.some.inj h
      refine ⟨hs, .refl s, .inr ⟨rfl, ?_⟩⟩
      rw [maxCounters] at hfull
      omega
    have hpair : ∀ {ratio first second buf},
        openPair perfEventOpen ratio first second buf s = some t →
          Configured t ∧ SameBuffers s t ∧ t.nCounters = s.nCounters + 2 := by
      intro ratio first second buf h
      obtain ⟨hn, hr, hsame⟩ := openPair_eq_some h
      refine ⟨⟨by omega, ?_⟩, hsame, hn⟩
      rw [hr, Function.update_of_ne (by omega)]
      exact hs.ratios_zero
    rw [if_neg hfull] at h
    by_cases hevent : r.2 = 0 ∨ r.2 = 1 ∨ r.2 = 2
    · have hcount : Configured t ∧ SameBuffers s t ∧ t.nCounters = s.nCounters + 2 := by
        split_ifs at h with h₀ h₁ h₂
        · exact hpair h
        · exact hpair h
        · exact hpair h
        · exact absurd hevent (not_or.mpr ⟨h₀, not_or.mpr ⟨h₁, h₂⟩⟩)
      refine ⟨hcount.1, hcount.2.1, .inl ?_⟩
      rw [requested, if_pos hi, if_pos hevent, hcount.2.2]
    · obtain ⟨h₀, h₁₂⟩ := not_or.mp hevent
      obtain ⟨h₁, h₂⟩ := not_or.mp h₁₂
      rw [if_neg h₀, if_neg h₁, if_neg h₂] at h
      obtain rfl := Option.some.inj h
      exact ⟨hs, .refl s, .inl (by rw [requested, if_pos hi, if_neg hevent, Nat.add_zero])⟩
  · rw [if_neg hi] at h
    by_cases hfull : s.nCounters + 1 > maxCounters
    · rw [if_pos hfull] at h
      obtain rfl := Option.some.inj h
      refine ⟨hs, .refl s, .inr ⟨rfl, ?_⟩⟩
      rw [maxCounters] at hfull
      omega
    · rw [if_neg hfull] at h
      obtain ⟨u, hu, h⟩ := Option.bind_eq_some_iff.mp h
      obtain ⟨hn, hr, hsame⟩ := perfOpen_eq_some hu
      rw [← Option.some.inj h]
      refine ⟨⟨?_, ?_⟩, hsame, .inl ?_⟩
      · rw [addHeading, hn]
        omega
      · rw [addHeading, hr]
        exact hs.ratios_zero
      · rw [addHeading, hn, requested, if_neg hi]

/-- The requests are counted in full or cut off above eight counters. -/
theorem configure_eq_some {requests : List (Char × BitVec 32)} (hs : Configured s)
    (h : configure perfEventOpen requests s = some t) :
    Configured t ∧ SameBuffers s t ∧
      t.nCounters ≤ s.nCounters + (requests.map requested).sum ∧
      (t.nCounters = s.nCounters + (requests.map requested).sum ∨ 9 ≤ t.nCounters) := by
  induction requests generalizing s with
  | nil =>
    obtain rfl := Option.some.inj h
    exact ⟨hs, .refl s, by simp, .inl (by simp)⟩
  | cons r requests ih =>
    obtain ⟨u, hu, h⟩ := Option.bind_eq_some_iff.mp h
    obtain ⟨hcu, hsame, hnu⟩ := perfConfig_eq_some hs hu
    obtain ⟨hct, hsame', hle, hnt⟩ := ih hcu h
    rw [List.map_cons, List.sum_cons]
    exact ⟨hct, hsame.trans hsame', by omega, by omega⟩

/-- The options exit only where the kernel refuses an event. -/
theorem configure_isSome (hopen : ∀ l a, 0 ≤ perfEventOpen l a)
    (requests : List (Char × BitVec 32)) (s : State) :
    ∃ t, configure perfEventOpen requests s = some t := by
  have hsome : ∀ type event s, ∃ t, perfOpen perfEventOpen type event s = some t := by
    intro type event s
    exact ⟨_, if_neg (not_lt.mpr (hopen _ _))⟩
  have hpair : ∀ ratio first second buf s,
      ∃ t, openPair perfEventOpen ratio first second buf s = some t := by
    intro ratio first second buf s
    obtain ⟨u, hu⟩ := hsome perfTypeRaw first (setRatio (s.nCounters + 1) ratio s)
    obtain ⟨v, hv⟩ := hsome perfTypeRaw second u
    exact ⟨addHeading buf v, by simp [openPair, hu, hv]⟩
  induction requests generalizing s with
  | nil => exact ⟨s, rfl⟩
  | cons r requests ih =>
    obtain ⟨u, hu⟩ : ∃ u, perfConfig perfEventOpen r.1 r.2 s = some u := by
      rw [perfConfig]
      split_ifs
      · exact ⟨s, rfl⟩
      · exact hpair _ _ _ _ s
      · exact hpair _ _ _ _ s
      · exact hpair _ _ _ _ s
      · exact ⟨s, rfl⟩
      · exact ⟨s, rfl⟩
      all_goals
        exact ⟨_, by rw [(hsome _ r.2 s).choose_spec]; rfl⟩
    obtain ⟨t, ht⟩ := ih u
    exact ⟨t, by rw [configure, List.foldlM_cons, hu]; exact ht⟩

end Config

/-! ## Accesses -/

def Access.InBounds : Access → Prop
  | read bytes => bytes ≤ Counters.size
  | vals i => 0 ≤ i ∧ i < valsLength
  | ratios i => 0 ≤ i ∧ i < maxCounters

/-- With at most as many counters as `vals` holds one call stays inside and keeps them. -/
theorem call_inBounds (s : State) (op : Op) (hs : Configured s ∧ s.nCounters ≤ valsLength) :
    (Configured (call s op).1 ∧ (call s op).1.nCounters ≤ valsLength) ∧
      ∀ a ∈ (call s op).2.accesses, a.InBounds := by
  obtain ⟨hc, hn⟩ := hs
  have hread : 8 * (s.nCounters + 1) ≤ Counters.size := by
    rw [Counters.size]
    omega
  cases op with
  | begin r =>
    simp only [call, perfBegin]
    split_ifs
    · exact ⟨⟨hc, hn⟩, by simp⟩
    · exact ⟨⟨⟨hc.1, hc.2⟩, hn⟩, by simpa [Access.InBounds] using hread⟩
  | done r =>
    simp only [call, perfEnd]
    split_ifs
    · exact ⟨⟨hc, hn⟩, by simp⟩
    · exact ⟨⟨⟨hc.1, hc.2⟩, hn⟩, by simpa [Access.InBounds] using hread⟩
  | print =>
    simp only [call, perfPrint]
    split_ifs
    · refine ⟨⟨⟨hc.1, hc.2⟩, hn⟩, ?_⟩
      intro a ha
      obtain ⟨i, hi, ha⟩ := List.mem_flatMap.mp ha
      have hin : i < valsLength := (List.mem_range.mp hi).trans_le hn
      have hvals : (Access.vals i).InBounds := ⟨by omega, by omega⟩
      have hratios : (Access.ratios i).InBounds :=
        ⟨by omega, by rw [maxCounters]; rw [valsLength] at hin; omega⟩
      rw [printCounter] at ha
      split_ifs at ha with hr
      · -- a counter with a ratio is not the first one
        have hpos : i ≠ 0 := by
          intro h
          rw [h] at hr
          exact hr hc.ratios_zero
        have hprev : (Access.vals (i - 1)).InBounds := ⟨by omega, by omega⟩
        simp only [List.mem_cons, List.not_mem_nil, or_false] at ha
        rcases ha with rfl | rfl | rfl | rfl
        · exact hvals
        · exact hratios
        · exact hprev
        · exact hvals
      · simp only [List.mem_cons, List.not_mem_nil, or_false] at ha
        rcases ha with rfl | rfl
        · exact hvals
        · exact hratios
    · exact ⟨⟨hc, hn⟩, by simp⟩

/-- A reading of more counters than `vals` holds writes beyond the buffer. -/
theorem not_inBounds_of_lt {s : State} (h : valsLength < s.nCounters) (r : Reading) :
    ∃ e ∈ (transduce call s [.begin r]).2, ∃ a ∈ e.accesses, ¬ a.InBounds := by
  refine ⟨(call s (.begin r)).2, by simp, .read (8 * (s.nCounters + 1)), ?_, ?_⟩
  · rw [call, perfBegin, if_neg (by omega)]
    simp
  · rw [Access.InBounds, Counters.size]
    omega

theorem perf_inBounds_iff (perfEventOpen : List Attr → Attr → ℤ)
    (hopen : ∀ l a, 0 ≤ perfEventOpen l a) (requests : List (Char × BitVec 32)) :
    ∃ s, configure perfEventOpen requests initial = some s ∧
      ((∀ ops, ∀ e ∈ (transduce call s ops).2, ∀ a ∈ e.accesses, a.InBounds) ↔
        (requests.map requested).sum ≤ valsLength) := by
  obtain ⟨s, hs⟩ := configure_isSome hopen requests initial
  obtain ⟨hc, -, hle, hn⟩ := configure_eq_some configured_initial hs
  have hinit : initial.nCounters = 0 := rfl
  rw [hinit, Nat.zero_add] at hle hn
  refine ⟨s, hs, ?_⟩
  constructor
  · intro h
    by_contra hlt
    have hover : valsLength < s.nCounters := by
      rw [valsLength] at hlt ⊢
      omega
    obtain ⟨e, he, a, ha, hbad⟩ := not_inBounds_of_lt hover ⟨0, fun _ => 0⟩
    exact hbad (h _ e he a ha)
  · intro h ops
    exact (transduce_invariant call_inBounds ⟨hc, by omega⟩ ops).2

def fileNumber (opened : List Attr) (_ : Attr) : ℤ := opened.length + 3

theorem perf_inBounds_six : ∃ s,
    configure fileNumber [('i', 0), ('i', 1), ('i', 2)] initial = some s ∧
      ((∀ ops, ∀ e ∈ (transduce call s ops).2, ∀ a ∈ e.accesses, a.InBounds) ↔
        ([('i', 0), ('i', 1), ('i', 2)].map requested).sum ≤ valsLength) :=
  perf_inBounds_iff fileNumber (fun l _ => by rw [fileNumber]; omega) _

/-- Three pairs and a single event pass the guards, and the first reading is too long. -/
theorem perf_overrun_seven : ¬ ∀ s,
    configure fileNumber [('i', 0), ('i', 1), ('i', 2), ('r', 0x13)] initial = some s →
      ∀ ops, ∀ e ∈ (transduce call s ops).2, ∀ a ∈ e.accesses, a.InBounds := by
  intro h
  obtain ⟨e, he, a, ha, hbad⟩ := not_inBounds_of_lt
    (s := (configure fileNumber [('i', 0), ('i', 1), ('i', 2), ('r', 0x13)] initial).getD initial)
    (by decide) ⟨0, fun _ => 0⟩
  exact hbad (h _ rfl _ e he a ha)

end Rebench.Perf
