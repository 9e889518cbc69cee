import Rebench.Perf.Source

/-!
# main.c: the benchmarks and their rows

Every benchmark times one section, or two, and prints a row for it. `601_GEMM`
and `603_MAP` print a row of sums as well. The kernels, the clock and the
counters are code and hardware outside the source; of the kernels the model has
what their callers look at.
-/
namespace Rebench.Bench
open Text Perf

structure Timeval where
  sec : ℤ
  usec : ℤ

/-- The sections between `begin` and `end` or the stopwatch hooks, each run once at most. -/
inductive Section where
  | fft | sgemm | dgemm | map (idx : ℕ) | png | physics | hash

/-- What the clock and the counters show at the ends of the sections, and what the kernels
return. -/
structure World where
  startTime : Section → Timeval
  stopTime : Section → Timeval
  startReading : Section → Reading
  stopReading : Section → Reading
  testSgemm : Float
  testDgemm : Float
  loadMemPng : ℕ → Float
  sumData : ℕ → Bool

structure Row where
  name : Str
  score : Float
  loops : ℤ
  secs : Float
  counters : List Field

structure State where
  perf : Perf.State
  start : Timeval
  testMapIdx : ℕ
  loopsUnordered : ℤ
  testMapResults : ℕ → Float
  l14f590 : Float
  rows : List Row

def initial (perf : Perf.State) : State where
  perf
  start := ⟨0, 0⟩
  testMapIdx := 0
  loopsUnordered := 0
  testMapResults := fun _ => 0
  l14f590 := 0
  rows := []

/-- The number of iterations of `for (i = 0; i < loops; i++) if (!go(i)) break;`. -/
def iterations (loops : ℤ) (go : ℕ → Bool) : ℕ :=
  ((List.range loops.toNat).takeWhile go).length

section Timing
variable (w : World) (sec : Section)

def begin (s : State) : State :=
  { s with start := w.startTime sec, perf := (perfBegin (w.startReading sec) s.perf).1 }

/-- The difference is computed in `unsigned long`. -/
def «end» (s : State) : State × Float :=
  let s := { s with perf := (perfEnd (w.stopReading sec) s.perf).1 }
  let tv := w.stopTime sec
  let usec := BitVec.ofInt 64 (1000000 * (tv.sec - s.start.sec) + (tv.usec - s.start.usec))
  (s, Float.ofNat usec.toNat / 1000000.0)

def sStartStopwatch (s : State) : State :=
  { s with perf := (perfBegin (w.startReading sec) s.perf).1 }

def sStopStopwatch (s : State) : State :=
  { s with perf := (perfEnd (w.stopReading sec) s.perf).1 }

end Timing

def printScore (name : String) (score : Float) (loops : ℤ) (secs : Float) (s : State) : State :=
  { s with
    perf := (perfPrint s.perf).1
    rows := s.rows ++ [⟨name.toList, score, loops, secs, (perfPrint s.perf).2.1⟩] }

section Benchmarks
variable (w : World)

def test600Fft (loops : ℤ) (s : State) : State :=
  let s := begin w .fft s
  let (s, secs) := «end» w .fft s
  let score := Float.ofInt loops / secs
  printScore "600_FFT" score loops secs s

def test601Sgemm (s : State) : State × Float :=
  if w.testSgemm != -1 then (s, 0)
  else «end» w .sgemm (begin w .sgemm s)

def test601Dgemm (s : State) : State × Float :=
  if w.testDgemm != -1 then (s, 0)
  else «end» w .dgemm (begin w .dgemm s)

def test601Gemm (loops : ℤ) (s : State) : State :=
  let loopsDgemm := if loops > 1 then loops / 2 else 1
  let (s, sgemm) := test601Sgemm w s
  let scoreSgemm := Float.ofInt loops * 335.54432 / sgemm
  let s := printScore "[SGEMM]" scoreSgemm loops sgemm s
  let (s, dgemm) := test601Dgemm w s
  let scoreDgemm := Float.ofInt loopsDgemm * 335.54432 / dgemm
  let s := printScore "[DGEMM]" scoreDgemm loopsDgemm dgemm s
  printScore "601_GEMM" (scoreSgemm + scoreDgemm) loops (sgemm + dgemm) s

/-- The object the map benchmark hands to its timing hook: the answers of its two methods. -/
structure CMap where
  func1 : ℕ → Bool
  func2 : ℤ

/-- `test_const_time(CMapTest&, double)`. -/
def testConstTime (map : CMap) (tm : Float) (s : State) : State × Float :=
  let loops := if s.testMapIdx = 1 then s.loopsUnordered else tm.toInt32.toInt
  let idx := s.testMapIdx
  let s := begin w (.map idx) s
  let i := iterations loops map.func1
  let (s, secs) := «end» w (.map idx) s
  let score := Float.ofInt (i * map.func2) / secs / 1000000.0
  let s := { s with testMapResults := Function.update s.testMapResults idx secs }
  let s := if idx = 0 then printScore "[MAP.ORDERED]" 0 loops (s.testMapResults 0) s
    else printScore "[MAP.UNORDERED]" 0 s.loopsUnordered (s.testMapResults 1) s
  ({ s with testMapIdx := idx + 1 }, score)

section Extern
/- `test_map`, which times through the hook it is given, and `test_physics`, which times through
the two stopwatch hooks. -/
variable (testMap : (CMap → Float → State → State × Float) → ℤ → State → State × Float)
  (testPhysics : (State → State) → (State → State) → State → State × Float)

/-- The loop counts of the two maps are products in `int`. -/
def test603Map (loops : ℤ) (s : State) : State :=
  let s := { s with
    testMapIdx := 0
    loopsUnordered := if loops > 1 then (loops * 10).bmod (2 ^ 32) else 1 }
  let (s, result) := testMap (testConstTime w) ((loops * 2).bmod (2 ^ 32)) s
  let score := result * 10000.0
  printScore "603_MAP" score loops (s.testMapResults 0 + s.testMapResults 1) s

def test609Png (loops : ℤ) (s : State) : State :=
  let s := begin w .png s
  let secs := (List.range loops.toNat).foldl (fun secs i => secs + w.loadMemPng i) 0
  let (s, _) := «end» w .png s
  let score := Float.ofInt loops * 1000.0 / secs
  printScore "609_PNG" score loops secs s

def test614Physics (loops : ℤ) (s : State) : State :=
  let s := { s with l14f590 := 5.0 / Float.ofInt loops }
  let (s, score) := testPhysics (sStartStopwatch w .physics) (sStopStopwatch w .physics) s
  let secs := 60.0 / score
  let score := Float.ofInt loops / secs * 1000.0
  printScore "614_PHYSICS" score loops secs s

def test607Hash (loops : ℤ) (s : State) : State :=
  let s := begin w .hash s
  let i := iterations loops fun i => !w.sumData i
  let (s, secs) := «end» w .hash s
  let score := if (i : ℤ) = loops then Float.ofInt loops * 6 / secs else 0
  printScore "607_HASH" score loops secs s

def select (id n loops default : ℤ) (test : ℤ → State → State) (s : State) : State :=
  if id = 0 ∨ id = n then test (if loops ≠ 0 then loops else default) s else s

/-- `main` behind its option loop, on the configured counters. -/
def main (id loops : ℤ) (perf : Perf.State) : State :=
  let s := initial perf
  let s := select id 600 loops 200000 (test600Fft w) s
  let s := select id 601 loops 1000 (test601Gemm w) s
  let s := select id 603 loops 500 (test603Map w testMap) s
  let s := select id 609 loops 1000 (test609Png w) s
  let s := select id 614 loops 600 (test614Physics w testPhysics) s
  select id 607 loops 5000 (test607Hash w) s

end Extern

end Benchmarks

end Rebench.Bench
