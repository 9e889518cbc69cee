import Rebench.Bench.Source
import Rebench.Perf.Printing

/-!
# Rows and the sections they carry

Between two benchmarks no ended section waits to be printed. A row therefore
carries the counters of the section its own benchmark has timed, or none.
-/
namespace Rebench.Bench
open Text Perf Machine

def Section.row : Section → String
  | fft => "600_FFT"
  | sgemm => "[SGEMM]"
  | dgemm => "[DGEMM]"
  | map idx => if idx = 0 then "[MAP.ORDERED]" else "[MAP.UNORDERED]"
  | png => "609_PNG"
  | physics => "614_PHYSICS"
  | hash => "607_HASH"

def summaryRows : List Str := ["601_GEMM".toList, "603_MAP".toList]

theorem Section.row_notMem (sec : Section) : sec.row.toList ∉ summaryRows := by
  cases sec with
  | map idx =>
    rw [row]
    split_ifs <;> decide
  | _ => decide

/-- `test_map` times twice through its hook. -/
def CallsHookTwice
    (testMap : (CMap → Float → State → State × Float) → ℤ → State → State × Float) : Prop :=
  ∀ loops, ∃ (m₁ m₂ : CMap) (t₁ t₂ : Float) (result : Float → Float → Float), ∀ hook s,
    testMap hook loops s =
    ((hook m₂ t₂ (hook m₁ t₁ s).1).1, result (hook m₁ t₁ s).2 (hook m₂ t₂ (hook m₁ t₁ s).1).2)

/-- `test_physics` starts the stopwatch and then stops it. -/
def CallsStopwatch
    (testPhysics : (State → State) → (State → State) → State → State × Float) : Prop :=
  ∃ result, ∀ start stop s, testPhysics start stop s = (stop (start s), result)

section Rows
variable (w : World) (n : ℕ) (ratios : ℕ → ℕ)

/-- The row carries its own section or nothing, and a row of sums carries nothing. -/
def Attributed (row : Row) : Prop :=
  (row.name ∈ summaryRows → row.counters = []) ∧
    (row.counters ≠ [] → ∃ sec : Section, row.name = sec.row.toList ∧
      row.counters = sectionFields n ratios (w.startReading sec) (w.stopReading sec))

/-- Between two rows: no section waits, and the rows so far are attributed. -/
structure Settled (s : State) : Prop where
  tracks : ∃ b e, Tracks s.perf n ratios b e False
  rows : ∀ row ∈ s.rows, Attributed w n ratios row

/-- Behind a section: it waits, and the rows so far are attributed. -/
structure Timed (sec : Section) (s : State) : Prop where
  tracks : Tracks s.perf n ratios (w.startReading sec) (w.stopReading sec) True
  rows : ∀ row ∈ s.rows, Attributed w n ratios row

end Rows

section Steps
variable {w : World} {n : ℕ} {ratios : ℕ → ℕ} {s : State} {sec : Section}

theorem Settled.congr (h : Settled w n ratios s) {t : State} (hperf : t.perf = s.perf)
    (hrows : t.rows = s.rows) : Settled w n ratios t :=
  ⟨hperf ▸ h.tracks, hrows ▸ h.rows⟩

theorem Timed.congr (h : Timed w n ratios sec s) {t : State} (hperf : t.perf = s.perf)
    (hrows : t.rows = s.rows) : Timed w n ratios sec t :=
  ⟨hperf ▸ h.tracks, hrows ▸ h.rows⟩

theorem Settled.timed (h : Settled w n ratios s) :
    Timed w n ratios sec («end» w sec (begin w sec s)).1 := by
  obtain ⟨⟨b, e, htracks⟩, hrows⟩ := h
  exact ⟨tracks_perfEnd (tracks_perfBegin htracks _) _, hrows⟩

theorem Settled.stopwatch (h : Settled w n ratios s) :
    Timed w n ratios sec (sStopStopwatch w sec (sStartStopwatch w sec s)) := by
  obtain ⟨⟨b, e, htracks⟩, hrows⟩ := h
  exact ⟨tracks_perfEnd (tracks_perfBegin htracks _) _, hrows⟩

theorem Settled.printScore (h : Settled w n ratios s) (name : String) (score : Float) (loops : ℤ)
    (secs : Float) : Settled w n ratios (printScore name score loops secs s) := by
  obtain ⟨⟨b, e, htracks⟩, hrows⟩ := h
  refine ⟨⟨b, e, tracks_perfPrint htracks⟩, ?_⟩
  intro row hrow
  rcases List.mem_append.mp hrow with hrow | hrow
  · exact hrows row hrow
  · have hnone := perfPrint_fields_of_not htracks id
    rw [List.mem_singleton] at hrow
    rw [hrow]
    exact ⟨fun _ => hnone, fun hsome => absurd hnone hsome⟩

theorem Timed.printScore (h : Timed w n ratios sec s) (hn : n ≤ valsLength)
    (hratios : ratios 0 = 0) {name : String} (hname : name = sec.row) (score : Float) (loops : ℤ)
    (secs : Float) : Settled w n ratios (printScore name score loops secs s) := by
  obtain ⟨htracks, hrows⟩ := h
  refine ⟨⟨_, _, tracks_perfPrint htracks⟩, ?_⟩
  intro row hrow
  rcases List.mem_append.mp hrow with hrow | hrow
  · exact hrows row hrow
  · have hfields := perfPrint_fields htracks hn hratios trivial
    rw [List.mem_singleton] at hrow
    rw [hrow]
    refine ⟨fun hsum => absurd hsum ?_, fun _ => ⟨sec, congrArg String.toList hname, hfields⟩⟩
    rw [hname]
    exact sec.row_notMem

end Steps

/-! ## The benchmarks -/

section Benchmarks
variable {w : World} {n : ℕ} {ratios : ℕ → ℕ} (hn : n ≤ valsLength) (hratios : ratios 0 = 0)
  {s : State}
include hn hratios

theorem settled_test600Fft (h : Settled w n ratios s) (loops : ℤ) :
    Settled w n ratios (test600Fft w loops s) :=
  h.timed.printScore hn hratios rfl _ _ _

/-- The tests that may stop before their section. -/
theorem settled_printScore_of_guard (h : Settled w n ratios s) {sec : Section} {name : String}
    (hname : name = sec.row) (failed : Bool) (score : Float → Float) (loops : ℤ) :
    Settled w n ratios
      (printScore name (score (if failed then (s, 0) else «end» w sec (begin w sec s)).2) loops
        (if failed then (s, 0) else «end» w sec (begin w sec s)).2
        (if failed then (s, 0) else «end» w sec (begin w sec s)).1) := by
  cases failed with
  | false => exact h.timed.printScore hn hratios hname _ _ _
  | true => exact h.printScore _ _ _ _

theorem settled_test601Gemm (h : Settled w n ratios s) (loops : ℤ) :
    Settled w n ratios (test601Gemm w loops s) := by
  have hsgemm := settled_printScore_of_guard hn hratios h
    (rfl : _ = Section.sgemm.row) (w.testSgemm != -1)
    (fun secs => Float.ofInt loops * 335.54432 / secs) loops
  have hdgemm := settled_printScore_of_guard hn hratios hsgemm
    (rfl : _ = Section.dgemm.row) (w.testDgemm != -1)
    (fun secs => Float.ofInt (if loops > 1 then loops / 2 else 1) * 335.54432 / secs)
    (if loops > 1 then loops / 2 else 1)
  exact hdgemm.printScore _ _ _ _

theorem settled_testConstTime (h : Settled w n ratios s) (map : CMap) (tm : Float) :
    Settled w n ratios (testConstTime w map tm s).1 := by
  have htimed : Timed w n ratios (.map s.testMapIdx)
      («end» w (.map s.testMapIdx) (begin w (.map s.testMapIdx) s)).1 := h.timed
  simp only [testConstTime]
  split_ifs with hidx
  all_goals
    refine Settled.congr (Timed.printScore (htimed.congr rfl rfl) hn hratios ?_ _ _ _) rfl rfl
    simp [Section.row, hidx]

theorem settled_test603Map (h : Settled w n ratios s)
    {testMap : (CMap → Float → State → State × Float) → ℤ → State → State × Float}
    (hmap : CallsHookTwice testMap) (loops : ℤ) :
    Settled w n ratios (test603Map w testMap loops s) := by
  obtain ⟨m₁, m₂, t₁, t₂, result, hcalls⟩ := hmap ((loops * 2).bmod (2 ^ 32))
  simp only [test603Map, hcalls]
  apply Settled.printScore
  apply settled_testConstTime hn hratios
  apply settled_testConstTime hn hratios
  exact h.congr rfl rfl

theorem settled_test609Png (h : Settled w n ratios s) (loops : ℤ) :
    Settled w n ratios (test609Png w loops s) :=
  h.timed.printScore hn hratios rfl _ _ _

theorem settled_test614Physics (h : Settled w n ratios s)
    {testPhysics : (State → State) → (State → State) → State → State × Float}
    (hphysics : CallsStopwatch testPhysics) (loops : ℤ) :
    Settled w n ratios (test614Physics w testPhysics loops s) := by
  obtain ⟨result, hcalls⟩ := hphysics
  simp only [test614Physics, hcalls]
  apply Timed.printScore _ hn hratios (rfl : _ = Section.physics.row)
  apply Settled.stopwatch
  exact h.congr rfl rfl

theorem settled_test607Hash (h : Settled w n ratios s) (loops : ℤ) :
    Settled w n ratios (test607Hash w loops s) :=
  h.timed.printScore hn hratios rfl _ _ _

omit hn hratios in
theorem settled_select {test : ℤ → State → State}
    (htest : ∀ loops t, Settled w n ratios t → Settled w n ratios (test loops t))
    (h : Settled w n ratios s) (id k loops default : ℤ) :
    Settled w n ratios (select id k loops default test s) := by
  rw [select]
  split_ifs
  · exact htest _ _ h
  · exact htest _ _ h
  · exact h

theorem settled_main {perf : Perf.State} (h : Settled w n ratios (initial perf))
    {testMap : (CMap → Float → State → State × Float) → ℤ → State → State × Float}
    {testPhysics : (State → State) → (State → State) → State → State × Float}
    (hmap : CallsHookTwice testMap) (hphysics : CallsStopwatch testPhysics) (id loops : ℤ) :
    Settled w n ratios (main w testMap testPhysics id loops perf) := by
  rw [main]
  apply settled_select fun loops t ht => settled_test607Hash hn hratios ht loops
  apply settled_select fun loops t ht => settled_test614Physics hn hratios ht hphysics loops
  apply settled_select fun loops t ht => settled_test609Png hn hratios ht loops
  apply settled_select fun loops t ht => settled_test603Map hn hratios ht hmap loops
  apply settled_select fun loops t ht => settled_test601Gemm hn hratios ht loops
  apply settled_select fun loops t ht => settled_test600Fft hn hratios ht loops
  exact h

end Benchmarks

/-- With at most as many counters as the buffers hold, `perf_print` prints exactly the sections
that have ended since it last printed, as the differences of the last two readings; and a run of
`main` prints every section in its own row, and nothing in the rows of sums. -/
theorem perf_rows_attributed {perfEventOpen : List Attr → Attr → ℤ}
    {requests : List (Char × BitVec 32)} {p : Perf.State}
    (hp : configure perfEventOpen requests Perf.initial = some p) (hn : p.nCounters ≤ valsLength) :
    (∀ ops, ((call (transduce call p ops).1 .print).2.fields ≠ [] ↔
        0 < p.nCounters ∧ Pending ops) ∧
      (0 < p.nCounters ∧ Pending ops →
        values (call (transduce call p ops).1 .print).2.fields =
          (List.range p.nCounters).map fun i => (lastEnd ops).val i - (lastBegin ops).val i)) ∧
    ∀ w testMap testPhysics, CallsHookTwice testMap → CallsStopwatch testPhysics →
      ∀ id loops, ∀ row ∈ (main w testMap testPhysics id loops p).rows,
        (row.name ∈ summaryRows → row.counters = []) ∧
          (row.counters ≠ [] → ∃ sec : Section, row.name = sec.row.toList ∧
            row.counters =
              sectionFields p.nCounters p.ratios (w.startReading sec) (w.stopReading sec)) := by
  obtain ⟨hc, hsame, -⟩ := configure_eq_some configured_initial hp
  constructor
  · intro ops
    have htracks := tracks_of_configured hsame.1 hsame.2.1 hsame.2.2 ops
    by_cases hpend : Pending ops
    · have hfields := perfPrint_fields htracks hn hc.ratios_zero hpend
      simp only [call, hfields, values_sectionFields, Ne, sectionFields_eq_nil, hpend, and_true,
        implies_true]
      omega
    · have hfields := perfPrint_fields_of_not htracks hpend
      simp [call, hfields, hpend]
  · intro w testMap testPhysics hmap hphysics id loops
    have hinit : Settled w p.nCounters p.ratios (initial p) := by
      refine ⟨⟨.zero, .zero, ?_⟩, by simp [initial]⟩
      have htracks := tracks_of_configured hsame.1 hsame.2.1 hsame.2.2 []
      have hnone : Pending [] = False := by
        simp [Pending]
      exact hnone ▸ htracks
    exact (settled_main hn hc.ratios_zero hinit hmap hphysics id loops).rows

def timedMap (hook : CMap → Float → State → State × Float) (_ : ℤ) (s : State) : State × Float :=
  let map : CMap := ⟨fun _ => true, 1⟩
  ((hook map 1.0 (hook map 1.0 s).1).1, (hook map 1.0 s).2 + (hook map 1.0 (hook map 1.0 s).1).2)

def timedPhysics (start stop : State → State) (s : State) : State × Float := (stop (start s), 60.0)

def fiveToEight : World where
  startTime _ := ⟨0, 0⟩
  stopTime _ := ⟨1, 0⟩
  startReading _ := ⟨2, fun _ => 5⟩
  stopReading _ := ⟨2, fun i => if i = 0 then 7 else 8⟩
  testSgemm := -1
  testDgemm := -1
  loadMemPng _ := 1.0
  sumData _ := false

def onePair : Perf.State :=
  (configure fileNumber [('i', 0)] Perf.initial).getD Perf.initial

theorem perf_rows_attributed_pair : ∃ p,
    configure fileNumber [('i', 0)] Perf.initial = some p ∧
      values (call (transduce call p [.begin (fiveToEight.startReading .fft),
        .done (fiveToEight.stopReading .fft)]).1 .print).2.fields = [2, 3] ∧
      ∀ row ∈ (main fiveToEight timedMap timedPhysics 0 1 p).rows,
        row.name ∈ summaryRows → row.counters = [] := by
  have hp : configure fileNumber [('i', 0)] Perf.initial = some onePair := rfl
  obtain ⟨hprint, hmain⟩ := perf_rows_attributed hp (by decide)
  refine ⟨onePair, hp, ?_, ?_⟩
  · refine ((hprint _).2 ⟨by decide, ?_⟩).trans (by decide)
    exact ⟨[_], [], _, rfl, by simp⟩
  · intro row hrow
    have hmap : CallsHookTwice timedMap := fun loops => ⟨_, _, _, _, (· + ·), fun hook s => rfl⟩
    have hphysics : CallsStopwatch timedPhysics := ⟨_, fun start stop s => rfl⟩
    exact (hmain fiveToEight timedMap timedPhysics hmap hphysics 0 1 row hrow).1

end Rebench.Bench
