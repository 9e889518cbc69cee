import Rebench.Perf.Buffers

/-!
# What `perf_print` prints

After any sequence of calls the buffers hold the last two readings, and a
section is printed once, when it has ended.
-/
namespace Rebench.Perf
open Machine

def Reading.zero : Reading := ⟨0, fun _ => 0⟩

def lastBegin (ops : List Op) : Reading :=
  ops.foldl (fun r op => match op with | .begin r' => r' | _ => r) .zero

def lastEnd (ops : List Op) : Reading :=
  ops.foldl (fun r op => match op with | .done r' => r' | _ => r) .zero

/-- Some `perf_end` has occurred since the previous `perf_print`. -/
def Pending (ops : List Op) : Prop :=
  ∃ before after r, ops = before ++ .done r :: after ∧ Op.print ∉ after

/-- The fields of a section: the wrapping difference of every counter, and the ratio behind the
second counter of a pair. -/
def sectionFields (n : ℕ) (ratios : ℕ → ℕ) (b e : Reading) : List Field :=
  (List.range n).flatMap fun i =>
    .value (e.val i - b.val i) :: if ratios i = 0 then [] else
      [.ratio (e.val (i - 1) - b.val (i - 1)) (e.val i - b.val i) (ratios i)]

def values (fields : List Field) : List (BitVec 64) :=
  fields.filterMap fun f => match f with | .value v => some v | .ratio .. => none

theorem values_sectionFields (n : ℕ) (ratios : ℕ → ℕ) (b e : Reading) :
    values (sectionFields n ratios b e) = (List.range n).map fun i => e.val i - b.val i := by
  rw [values, sectionFields, List.filterMap_flatMap, List.map_eq_flatMap]
  congr 1
  funext i
  by_cases h : ratios i = 0
  · simp [h]
  · simp [h]

theorem sectionFields_eq_nil {n : ℕ} {ratios : ℕ → ℕ} {b e : Reading} :
    sectionFields n ratios b e = [] ↔ n = 0 := by
  constructor
  · intro h
    have hlen := congrArg List.length (values_sectionFields n ratios b e)
    rw [h] at hlen
    simpa [values] using hlen.symm
  · intro h
    rw [h]
    rfl

/-! ## The buffers -/

def Counters.Holds (c : Counters) (n : ℕ) (r : Reading) : Prop :=
  ∀ i : Fin valsLength, i.val < n → c.vals i = r.val i

theorem holds_fill (c : Counters) (n : ℕ) (r : Reading) :
    (c.fill (8 * (n + 1)) r).Holds n r := by
  intro i hi
  rw [Counters.fill]
  exact if_pos (by omega)

theorem holds_at {c : Counters} {n i : ℕ} {r : Reading} (h : c.Holds n r) (hn : n ≤ valsLength)
    (hi : i < n) : c.at i = r.val i := by
  have hin : (0 : ℤ) ≤ i ∧ (i : ℤ) < valsLength := by omega
  rw [Counters.at, dif_pos hin]
  exact h _ hi

/-- What a state shows of the calls made so far: the last readings, and whether a section has
ended that is not printed yet. -/
structure Tracks (s : State) (n : ℕ) (ratios : ℕ → ℕ) (b e : Reading) (pending : Prop) : Prop where
  nCounters_eq : s.nCounters = n
  ratios_eq : s.ratios = ratios
  begin_holds : s.countersBegin.Holds n b
  end_holds : s.countersEnd.Holds n e
  valid_iff : s.countersValid = true ↔ 0 < n ∧ pending

section Tracks
variable {s : State} {n : ℕ} {ratios : ℕ → ℕ} {b e : Reading} {pending : Prop}

theorem tracks_perfBegin (h : Tracks s n ratios b e pending) (r : Reading) :
    Tracks (perfBegin r s).1 n ratios r e pending := by
  obtain ⟨rfl, rfl, hb, he, hv⟩ := h
  rw [perfBegin]
  split_ifs with hn
  · refine ⟨rfl, rfl, ?_, he, hv⟩
    intro i hi
    omega
  · exact ⟨rfl, rfl, holds_fill _ _ _, he, hv⟩

theorem tracks_perfEnd (h : Tracks s n ratios b e pending) (r : Reading) :
    Tracks (perfEnd r s).1 n ratios b r True := by
  obtain ⟨rfl, rfl, hb, he, hv⟩ := h
  rw [perfEnd]
  split_ifs with hn
  · refine ⟨rfl, rfl, hb, ?_, ?_⟩
    · intro i hi
      omega
    · rw [hv]
      omega
  · exact ⟨rfl, rfl, hb, holds_fill _ _ _, by simp; omega⟩

theorem tracks_perfPrint (h : Tracks s n ratios b e pending) :
    Tracks (perfPrint s).1 n ratios b e False := by
  obtain ⟨rfl, rfl, hb, he, hv⟩ := h
  rw [perfPrint]
  split_ifs with hvalid
  · exact ⟨rfl, rfl, hb, he, by simp⟩
  · exact ⟨rfl, rfl, hb, he, by simpa using hvalid⟩

/-- The second counter of a pair is printed with the first. -/
theorem printCounter_eq (h : Tracks s n ratios b e pending) (hn : n ≤ valsLength)
    (hratios : ratios 0 = 0) {i : ℕ} (hi : i < n) : (printCounter s i).1 =
      .value (e.val i - b.val i) :: if ratios i = 0 then [] else
        [.ratio (e.val (i - 1) - b.val (i - 1)) (e.val i - b.val i) (ratios i)] := by
  have hdiff : ∀ j < n, s.diff j = e.val j - b.val j := by
    intro j hj
    rw [State.diff, holds_at h.end_holds hn hj, holds_at h.begin_holds hn hj]
  rw [printCounter, h.ratios_eq]
  by_cases hr : ratios i = 0
  · simp [hr, hdiff i hi]
  · have hpos : i ≠ 0 := by
      intro hzero
      rw [hzero] at hr
      exact hr hratios
    have hprev : s.diff ((i : ℤ) - 1) = e.val (i - 1) - b.val (i - 1) := by
      rw [← hdiff (i - 1) (by omega)]
      congr 1
      omega
    simp [hr, hdiff i hi, hprev]

theorem perfPrint_fields (h : Tracks s n ratios b e pending) (hn : n ≤ valsLength)
    (hratios : ratios 0 = 0) (hp : pending) : (perfPrint s).2.1 = sectionFields n ratios b e := by
  rw [perfPrint]
  split_ifs with hvalid
  · rw [h.nCounters_eq, sectionFields]
    apply List.flatMap_congr
    intro i hi
    exact printCounter_eq h hn hratios (List.mem_range.mp hi)
  · have hzero : n = 0 := by
      by_contra hpos
      exact hvalid (h.valid_iff.mpr ⟨by omega, hp⟩)
    rw [hzero]
    rfl

theorem perfPrint_fields_of_not (h : Tracks s n ratios b e pending) (hp : ¬ pending) :
    (perfPrint s).2.1 = [] := by
  rw [perfPrint, if_neg]
  intro hvalid
  exact hp (h.valid_iff.mp hvalid).2

end Tracks

/-! ## Sequences of calls -/

theorem pending_append_singleton (ops : List Op) (op : Op) : Pending (ops ++ [op]) ↔
    (∃ r, op = .done r) ∨ op ≠ .print ∧ Pending ops := by
  constructor
  · rintro ⟨before, after, r, h, hafter⟩
    cases after using List.reverseRecOn with
    | nil =>
      obtain ⟨-, hop⟩ := List.append_inj' h rfl
      exact .inl ⟨r, (List.cons.inj hop).1⟩
    | append_singleton after op' _ =>
      have hcut : ops ++ [op] = (before ++ .done r :: after) ++ [op'] := by simpa using h
      obtain ⟨hops, hop⟩ := List.append_inj' hcut rfl
      obtain rfl := (List.cons.inj hop).1
      refine .inr ⟨?_, before, after, r, hops, fun hmem => hafter (by simp [hmem])⟩
      intro hprint
      exact hafter (by simp [hprint])
  · rintro (⟨r, rfl⟩ | ⟨hne, before, after, r, rfl, hafter⟩)
    · exact ⟨ops, [], r, rfl, by simp⟩
    · refine ⟨before, after ++ [op], r, by simp, ?_⟩
      intro hmem
      rcases List.mem_append.mp hmem with hmem | hmem
      · exact hafter hmem
      · exact hne (List.mem_singleton.mp hmem).symm

theorem tracks_of_configured {s : State} (hb : s.countersBegin = initial.countersBegin)
    (he : s.countersEnd = initial.countersEnd) (hv : s.countersValid = false) (ops : List Op) :
    Tracks (transduce call s ops).1 s.nCounters s.ratios (lastBegin ops) (lastEnd ops)
      (Pending ops) := by
  induction ops using List.reverseRecOn with
  | nil =>
    refine ⟨rfl, rfl, ?_, ?_, ?_⟩
    · intro i hi
      rw [transduce_nil, hb]
      rfl
    · intro i hi
      rw [transduce_nil, he]
      rfl
    · rw [transduce_nil, hv]
      simp [Pending]
  | append_singleton ops op ih =>
    rw [transduce_append]
    simp only [lastBegin, lastEnd, List.foldl_append, List.foldl_cons, List.foldl_nil,
      transduce_cons, transduce_nil]
    cases op with
    | begin r =>
      have hp : Pending (ops ++ [.begin r]) ↔ Pending ops := by
        simp [pending_append_singleton]
      exact propext hp ▸ tracks_perfBegin ih r
    | done r =>
      have hp : Pending (ops ++ [.done r]) ↔ True := by
        simp [pending_append_singleton]
      exact propext hp ▸ tracks_perfEnd ih r
    | print =>
      have hp : Pending (ops ++ [.print]) ↔ False := by
        simp [pending_append_singleton]
      exact propext hp ▸ tracks_perfPrint ih

end Rebench.Perf
