import Rebench.Bench.Attribution
import Rebench.Perf.Options

/-!
# The table of a run

A run of `main` prints the rows of the selected benchmarks, in one order. The
row of a section that has run has one field for each heading of the configured
counters, and every other row has none.
-/
namespace Rebench.Bench
open Text Perf Machine

/-- The benchmarks in the order of `main`. -/
inductive Benchmark where
  | fft | gemm | map | png | physics | hash

def Benchmark.number : Benchmark → ℤ
  | fft => 600
  | gemm => 601
  | map => 603
  | png => 609
  | physics => 614
  | hash => 607

def benchmarks : List Benchmark := [.fft, .gemm, .map, .png, .physics, .hash]

abbrev Line := String × Option Section

/-- `sec`, if the test in front of it does not fail. -/
def guarded (failed : Bool) (sec : Section) : Option Section := if failed then none else some sec

section Table
variable (w : World)

def Benchmark.lines : Benchmark → List Line
  | fft => [("600_FFT", some .fft)]
  | gemm => [("[SGEMM]", guarded (w.testSgemm != -1) .sgemm),
      ("[DGEMM]", guarded (w.testDgemm != -1) .dgemm), ("601_GEMM", none)]
  | map => [("[MAP.ORDERED]", some (.map 0)), ("[MAP.UNORDERED]", some (.map 1)),
      ("603_MAP", none)]
  | png => [("609_PNG", some .png)]
  | physics => [("614_PHYSICS", some .physics)]
  | hash => [("607_HASH", some .hash)]

def table (id : ℤ) : List Line :=
  (benchmarks.filter fun b => id = 0 ∨ id = b.number).flatMap (Benchmark.lines w)

variable (n : ℕ) (ratios : ℕ → ℕ)

def shown : Option Section → List Field
  | none => []
  | some sec => sectionFields n ratios (w.startReading sec) (w.stopReading sec)

def Waiting (p : Perf.State) : Option Section → Prop
  | none => ∃ b e, Tracks p n ratios b e False
  | some sec => Tracks p n ratios (w.startReading sec) (w.stopReading sec) True

/-- The rows so far are `lines`, and the section waits. -/
structure Printed (waiting : Option Section) (lines : List Line) (s : State) : Prop where
  waiting : Waiting w n ratios s.perf waiting
  rows : s.rows.map (fun row => (row.name, row.counters)) =
    lines.map fun l => (l.1.toList, shown w n ratios l.2)

end Table

section Steps
variable {w : World} {n : ℕ} {ratios : ℕ → ℕ} {waiting : Option Section} {lines : List Line}
  {s : State} {sec : Section}

theorem Printed.congr (h : Printed w n ratios waiting lines s) {t : State} (hperf : t.perf = s.perf)
    (hrows : t.rows = s.rows) : Printed w n ratios waiting lines t :=
  ⟨hperf ▸ h.waiting, hrows ▸ h.rows⟩

theorem Printed.timed (h : Printed w n ratios none lines s) :
    Printed w n ratios (some sec) lines («end» w sec (begin w sec s)).1 := by
  obtain ⟨⟨b, e, htracks⟩, hrows⟩ := h
  exact ⟨tracks_perfEnd (tracks_perfBegin htracks _) _, hrows⟩

theorem Printed.stopwatch (h : Printed w n ratios none lines s) :
    Printed w n ratios (some sec) lines (sStopStopwatch w sec (sStartStopwatch w sec s)) :=
  h.timed.congr rfl rfl

theorem Printed.guarded (h : Printed w n ratios none lines s) (failed : Bool) :
    Printed w n ratios (guarded failed sec) lines
      (if failed then (s, (0 : Float)) else «end» w sec (begin w sec s)).1 := by
  cases failed with
  | false => exact h.timed
  | true => exact h

theorem Printed.printScore (h : Printed w n ratios waiting lines s) (hn : n ≤ valsLength)
    (hratios : ratios 0 = 0) (name : String) (score : Float) (loops : ℤ) (secs : Float) :
    Printed w n ratios none (lines ++ [(name, waiting)]) (printScore name score loops secs s) := by
  obtain ⟨hwaiting, hrows⟩ := h
  have hprint : (∃ b e, Tracks (perfPrint s.perf).1 n ratios b e False) ∧
      (perfPrint s.perf).2.1 = shown w n ratios waiting := by
    cases waiting with
    | none =>
      obtain ⟨b, e, htracks⟩ := hwaiting
      exact ⟨⟨b, e, tracks_perfPrint htracks⟩, perfPrint_fields_of_not htracks id⟩
    | some sec =>
      exact ⟨⟨_, _, tracks_perfPrint hwaiting⟩, perfPrint_fields hwaiting hn hratios trivial⟩
  refine ⟨hprint.1, ?_⟩
  rw [Bench.printScore, List.map_append, List.map_append, hrows, List.map_singleton,
    List.map_singleton, hprint.2]

end Steps

/-! ## The benchmarks -/

section Benchmarks
variable {w : World} {n : ℕ} {ratios : ℕ → ℕ} (hn : n ≤ valsLength) (hratios : ratios 0 = 0)
  {lines : List Line} {s : State}
include hn hratios

theorem printed_test600Fft (h : Printed w n ratios none lines s) (loops : ℤ) :
    Printed w n ratios none (lines ++ Benchmark.fft.lines w) (test600Fft w loops s) :=
  h.timed.printScore hn hratios _ _ _ _

theorem printed_test601Gemm (h : Printed w n ratios none lines s) (loops : ℤ) :
    Printed w n ratios none (lines ++ Benchmark.gemm.lines w) (test601Gemm w loops s) := by
  have hlines : lines ++ Benchmark.gemm.lines w =
      lines ++ [("[SGEMM]", guarded (w.testSgemm != -1) .sgemm)] ++
        [("[DGEMM]", guarded (w.testDgemm != -1) .dgemm)] ++ [("601_GEMM", none)] := by
    simp [Benchmark.lines]
  rw [hlines]
  apply Printed.printScore _ hn hratios
  apply Printed.printScore _ hn hratios
  apply Printed.guarded
  apply Printed.printScore _ hn hratios
  exact h.guarded _

theorem printed_testConstTime (h : Printed w n ratios none lines s) (map : CMap) (tm : Float) :
    Printed w n ratios none
      (lines ++ [(if s.testMapIdx = 0 then "[MAP.ORDERED]" else "[MAP.UNORDERED]",
        some (.map s.testMapIdx))]) (testConstTime w map tm s).1 := by
  have htimed : Printed w n ratios (some (.map s.testMapIdx)) lines
      («end» w (.map s.testMapIdx) (begin w (.map s.testMapIdx) s)).1 := h.timed
  simp only [testConstTime]
  split_ifs
  all_goals
    exact Printed.congr (Printed.printScore (htimed.congr rfl rfl) hn hratios _ _ _ _) rfl rfl

theorem printed_test603Map (h : Printed w n ratios none lines s)
    {testMap : (CMap → Float → State → State × Float) → ℤ → State → State × Float}
    (hmap : CallsHookTwice testMap) (loops : ℤ) :
    Printed w n ratios none (lines ++ Benchmark.map.lines w) (test603Map w testMap loops s) := by
  obtain ⟨m₁, m₂, t₁, t₂, result, hcalls⟩ := hmap ((loops * 2).bmod (2 ^ 32))
  simp only [test603Map, hcalls]
  have hstart : Printed w n ratios none lines { s with
      testMapIdx := 0
      loopsUnordered := if loops > 1 then (loops * 10).bmod (2 ^ 32) else 1 } := h.congr rfl rfl
  have hordered := printed_testConstTime hn hratios hstart m₁ t₁
  have hunordered := printed_testConstTime hn hratios hordered m₂ t₂
  have hlines : lines ++ Benchmark.map.lines w =
      lines ++ [("[MAP.ORDERED]", some (.map 0))] ++ [("[MAP.UNORDERED]", some (.map 1))] ++
        [("603_MAP", none)] := by
    simp [Benchmark.lines]
  rw [hlines]
  exact hunordered.printScore hn hratios _ _ _ _

theorem printed_test609Png (h : Printed w n ratios none lines s) (loops : ℤ) :
    Printed w n ratios none (lines ++ Benchmark.png.lines w) (test609Png w loops s) :=
  h.timed.printScore hn hratios _ _ _ _

theorem printed_test614Physics (h : Printed w n ratios none lines s)
    {testPhysics : (State → State) → (State → State) → State → State × Float}
    (hphysics : CallsStopwatch testPhysics) (loops : ℤ) :
    Printed w n ratios none (lines ++ Benchmark.physics.lines w)
      (test614Physics w testPhysics loops s) := by
  obtain ⟨result, hcalls⟩ := hphysics
  simp only [test614Physics, hcalls]
  apply Printed.printScore _ hn hratios
  apply Printed.stopwatch
  exact h.congr rfl rfl

theorem printed_test607Hash (h : Printed w n ratios none lines s) (loops : ℤ) :
    Printed w n ratios none (lines ++ Benchmark.hash.lines w) (test607Hash w loops s) :=
  h.timed.printScore hn hratios _ _ _ _

omit hn hratios in
theorem printed_select (bs : List Benchmark) {b : Benchmark} {id : ℤ} {test : ℤ → State → State}
    (htest : ∀ loops ls t, Printed w n ratios none ls t →
      Printed w n ratios none (ls ++ b.lines w) (test loops t))
    (h : Printed w n ratios none
      ((bs.filter fun b => id = 0 ∨ id = b.number).flatMap (Benchmark.lines w)) s)
    (loops default : ℤ) :
    Printed w n ratios none
      (((bs ++ [b]).filter fun b => id = 0 ∨ id = b.number).flatMap (Benchmark.lines w))
      (select id b.number loops default test s) := by
  rw [select, List.filter_append, List.flatMap_append]
  split_ifs with hid
  · simpa [hid] using htest _ _ _ h
  · simpa [hid] using htest _ _ _ h
  · simpa [hid] using h

theorem printed_main {perf : Perf.State} (h : Printed w n ratios none [] (initial perf))
    {testMap : (CMap → Float → State → State × Float) → ℤ → State → State × Float}
    {testPhysics : (State → State) → (State → State) → State → State × Float}
    (hmap : CallsHookTwice testMap) (hphysics : CallsStopwatch testPhysics) (id loops : ℤ) :
    Printed w n ratios none (table w id) (main w testMap testPhysics id loops perf) := by
  have hnone : Printed w n ratios none
      (([].filter fun b : Benchmark => id = 0 ∨ id = b.number).flatMap (Benchmark.lines w))
      (initial perf) := h
  have hfft := printed_select _ (fun loops ls t ht => printed_test600Fft hn hratios ht loops)
    hnone loops 200000
  have hgemm := printed_select _ (fun loops ls t ht => printed_test601Gemm hn hratios ht loops)
    hfft loops 1000
  have hmaps := printed_select _
    (fun loops ls t ht => printed_test603Map hn hratios ht hmap loops) hgemm loops 500
  have hpng := printed_select _ (fun loops ls t ht => printed_test609Png hn hratios ht loops)
    hmaps loops 1000
  have hphys := printed_select _
    (fun loops ls t ht => printed_test614Physics hn hratios ht hphysics loops) hpng loops 600
  exact printed_select _ (fun loops ls t ht => printed_test607Hash hn hratios ht loops) hphys
    loops 5000

end Benchmarks

/-! ## The options -/

section Options
variable {perfEventOpen : List Attr → Attr → ℤ} {strtoulNull : Option (BitVec 64)}
  {s t : Perf.State}

/-- The option loop makes calls of `perf_config`. -/
theorem exists_configure_of_optionLoop {results : List (Char × Option Str)}
    (h : (optionLoop perfEventOpen strtoulNull results s).2 = some t) :
    ∃ requests, configure perfEventOpen requests s = some t := by
  induction results generalizing s with
  | nil => exact ⟨[], h⟩
  | cons r results ih =>
    obtain ⟨c, optarg⟩ := r
    rw [optionLoop] at h
    cases hvalue : optarg.elim strtoulNull (some ∘ strtoul) with
    | none =>
      rw [hvalue] at h
      cases h
    | some value =>
      rw [hvalue] at h
      simp only at h
      cases hu : perfConfig perfEventOpen c (value.setWidth 32) s with
      | none =>
        rw [hu] at h
        cases h
      | some u =>
        rw [hu] at h
        obtain ⟨requests, hrequests⟩ := ih h
        refine ⟨(c, value.setWidth 32) :: requests, ?_⟩
        rw [configure_cons, hu]
        exact hrequests

def opening (perfEventOpen : List Attr → Attr → ℤ) (l : List Attr) (a : Attr) : ℤ :=
  max 0 (perfEventOpen l a)

theorem perfOpen_opening {type : ℕ} {event : BitVec 32}
    (h : perfOpen perfEventOpen type event s = some t) :
    perfOpen (opening perfEventOpen) type event s = some t := by
  rw [perfOpen] at h ⊢
  have hret : ¬ perfEventOpen s.events ⟨type, event.signExtend 64⟩ < 0 := by
    intro hlt
    rw [if_pos hlt] at h
    cases h
  have hopening : opening perfEventOpen s.events ⟨type, event.signExtend 64⟩ =
      perfEventOpen s.events ⟨type, event.signExtend 64⟩ := max_eq_right (not_lt.mp hret)
  simp only [hopening]
  exact h

theorem openPair_opening {ratio : ℕ} {first second : BitVec 32} {buf : Str}
    (h : openPair perfEventOpen ratio first second buf s = some t) :
    openPair (opening perfEventOpen) ratio first second buf s = some t := by
  obtain ⟨u, hu, h⟩ := Option.bind_eq_some_iff.mp h
  obtain ⟨v, hv, h⟩ := Option.bind_eq_some_iff.mp h
  exact Option.bind_eq_some_iff.mpr ⟨u, perfOpen_opening hu,
    Option.bind_eq_some_iff.mpr ⟨v, perfOpen_opening hv, h⟩⟩

theorem perfConfig_opening {type : Char} {event : BitVec 32}
    (h : perfConfig perfEventOpen type event s = some t) :
    perfConfig (opening perfEventOpen) type event s = some t := by
  rw [perfConfig] at h ⊢
  by_cases hi : type = 'i'
  · rw [if_pos hi] at h ⊢
    split_ifs at h ⊢
    · exact h
    · exact openPair_opening h
    · exact openPair_opening h
    · exact openPair_opening h
    · exact h
  · rw [if_neg hi] at h ⊢
    by_cases hfull : s.nCounters + 1 > maxCounters
    · rw [if_pos hfull] at h ⊢
      exact h
    · rw [if_neg hfull] at h ⊢
      obtain ⟨u, hu, h⟩ := Option.bind_eq_some_iff.mp h
      exact Option.bind_eq_some_iff.mpr ⟨u, perfOpen_opening hu, h⟩

theorem configure_opening {requests : List Request}
    (h : configure perfEventOpen requests s = some t) :
    configure (opening perfEventOpen) requests s = some t := by
  induction requests generalizing s with
  | nil => exact h
  | cons r requests ih =>
    rw [configure_cons] at h ⊢
    obtain ⟨u, hu, h⟩ := Option.bind_eq_some_iff.mp h
    exact Option.bind_eq_some_iff.mpr ⟨u, perfConfig_opening hu, ih h⟩

/-- The headings that the options leave name the columns of the counters. -/
theorem columns_of_configure {requests : List Request}
    (h : configure perfEventOpen requests Perf.initial = some t) :
    (words t.headers).map headingKind = (List.range t.nCounters).flatMap (kindsAt t.ratios) := by
  have hopen : ∀ l a, 0 ≤ opening perfEventOpen l a := fun _ _ => le_max_left _ _
  obtain ⟨u, hu, hstep⟩ := configure_inStep hopen requests inStep_initial
  obtain rfl := Option.some.inj ((configure_opening h).symm.trans hu)
  rw [hstep.headers, words_headers, hstep.columns]

theorem sectionFields_kinds (n : ℕ) (ratios : ℕ → ℕ) (b e : Reading) :
    (sectionFields n ratios b e).map Field.kind = (List.range n).flatMap (kindsAt ratios) := by
  rw [sectionFields, List.map_flatMap]
  apply List.flatMap_congr
  intro i _
  rw [kindsAt]
  by_cases h : ratios i = 0
  · simp [h, Field.kind]
  · simp [h, Field.kind]

end Options

/-- Whatever the options are, a run that gets past them prints the rows of the selected benchmarks
in order. A section that has run is shown in its own row, with one field of the right kind for each
heading; the rows of sums and of failed tests show no counters. -/
theorem main_prints_table {perfEventOpen : List Attr → Attr → ℤ}
    {strtoulNull : Option (BitVec 64)} {permute : Bool} {argv : List Str} {p : Perf.State}
    (hp : (mainOptions perfEventOpen strtoulNull permute argv).2 = some p)
    (hn : p.nCounters ≤ valsLength) (w : World)
    {testMap : (CMap → Float → State → State × Float) → ℤ → State → State × Float}
    {testPhysics : (State → State) → (State → State) → State → State × Float}
    (hmap : CallsHookTwice testMap) (hphysics : CallsStopwatch testPhysics) (id loops : ℤ) :
    (main w testMap testPhysics id loops p).rows.map (fun row => (row.name, row.counters)) =
        (table w id).map (fun l => (l.1.toList, shown w p.nCounters p.ratios l.2)) ∧
      ∀ row ∈ (main w testMap testPhysics id loops p).rows, row.counters = [] ∨
        row.counters.map Field.kind = (words p.headers).map headingKind := by
  obtain ⟨requests, hrequests⟩ := exists_configure_of_optionLoop hp
  obtain ⟨hc, hsame, -⟩ := configure_eq_some configured_initial hrequests
  have hinit : Printed w p.nCounters p.ratios none [] (initial p) := by
    have htracks := tracks_of_configured hsame.1 hsame.2.1 hsame.2.2 []
    have hnone : Pending [] = False := by
      simp [Pending]
    exact ⟨⟨.zero, .zero, hnone ▸ htracks⟩, rfl⟩
  have hrows := (printed_main hn hc.ratios_zero hinit hmap hphysics id loops).rows
  refine ⟨hrows, ?_⟩
  intro row hrow
  have hmem := List.mem_map_of_mem (f := fun row : Row => (row.name, row.counters)) hrow
  rw [hrows] at hmem
  obtain ⟨⟨name, sec⟩, -, heq⟩ := List.mem_map.mp hmem
  obtain ⟨-, hcounters⟩ := Prod.mk.inj heq
  cases sec with
  | none => exact .inl hcounters.symm
  | some sec =>
    right
    rw [← hcounters, columns_of_configure hrequests]
    exact sectionFields_kinds _ _ _ _

/-- The physics benchmark alone, with instructions and cycles. -/
theorem main_prints_table_physics : ∃ p,
    (mainOptions fileNumber none false ["-i0".toList]).2 = some p ∧
      (main fiveToEight timedMap timedPhysics 614 1 p).rows.map
          (fun row => (row.name, row.counters)) =
        [("614_PHYSICS".toList, [.value 2, .value 3, .ratio 2 3 1])] := by
  have hp : (mainOptions fileNumber none false ["-i0".toList]).2 = some onePair := rfl
  have hmap : CallsHookTwice timedMap := fun loops => ⟨_, _, _, _, (· + ·), fun hook s => rfl⟩
  have hphysics : CallsStopwatch timedPhysics := ⟨_, fun start stop s => rfl⟩
  refine ⟨onePair, hp, ?_⟩
  exact (main_prints_table hp (by decide) fiveToEight hmap hphysics 614 1).1.trans (by decide)

end Rebench.Bench
