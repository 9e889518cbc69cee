import Rebench.Machine.Run
import Rebench.Text.Ascii

/-!
# perf.c: hardware counters around a timed section

The options configure a group of counters. `perf_begin` and `perf_end` read the
whole group into two static buffers, and `perf_print` prints the differences of
a section that has ended since the last time it printed.
-/
namespace Rebench.Perf
open Text Machine

def maxCounters : ℕ := 10

/-- The length of `vals` in `struct counters_t`. -/
def valsLength : ℕ := 6

structure Counters where
  nr : BitVec 64
  vals : Fin valsLength → BitVec 64

def Counters.size : ℕ := 8 * (1 + valsLength)

/-- The fields of `struct perf_event_attr` that tell two events apart. -/
structure Attr where
  type : ℕ
  config : BitVec 64
  deriving DecidableEq

def perfTypeHardware : ℕ := 0
def perfTypeHwCache : ℕ := 3
def perfTypeRaw : ℕ := 4

def pmuL1dCache : BitVec 32 := 0x04
def pmuL1dCacheRefill : BitVec 32 := 0x03
def pmuInstRetired : BitVec 32 := 0x08
def pmuCpuCycles : BitVec 32 := 0x11
def pmuL2dCache : BitVec 32 := 0x16
def pmuL2dCacheRefill : BitVec 32 := 0x17

structure State where
  fd : ℤ
  headers : Str
  nCounters : ℕ
  ratios : ℕ → ℕ
  countersBegin : Counters
  countersEnd : Counters
  countersValid : Bool
  events : List Attr

def initial : State where
  fd := -1
  headers := []
  nCounters := 0
  ratios := fun _ => 0
  countersBegin := ⟨0, fun _ => 0⟩
  countersEnd := ⟨0, fun _ => 0⟩
  countersValid := false
  events := []

/-! ## Configuration -/

def upperHex (n : ℕ) : Str := (hex n).map Char.toUpper

/-- The heading of a pair: `" %12s %12s %5s"`. -/
def pairHeading (first second ratio : String) : Str :=
  " ".toList ++ padLeft 12 first.toList ++ " ".toList ++ padLeft 12 second.toList ++ " ".toList ++
    padLeft 5 ratio.toList

section Config
/- `perf_event_open` of the kernel: from the events opened before and the new one to the result. -/
variable (perfEventOpen : List Attr → Attr → ℤ)

/-- `none` where the source exits. -/
def perfOpen (type : ℕ) (event : BitVec 32) (s : State) : Option State :=
  let attr : Attr := { type, config := event.signExtend 64 }
  let ret := perfEventOpen s.events attr
  if ret < 0 then none
  else some { s with
    fd := if s.fd = -1 then ret else s.fd
    nCounters := s.nCounters + 1
    events := s.events ++ [attr] }

def setRatio (i ratio : ℕ) (s : State) : State :=
  { s with ratios := Function.update s.ratios i ratio }

def addHeading (buf : Str) (s : State) : State := { s with headers := s.headers ++ buf }

/-- A pair of raw events, the second of which is printed with a ratio as well. -/
def openPair (ratio : ℕ) (first second : BitVec 32) (buf : Str) (s : State) : Option State := do
  let s := setRatio (s.nCounters + 1) ratio s
  let s ← perfOpen perfEventOpen perfTypeRaw first s
  let s ← perfOpen perfEventOpen perfTypeRaw second s
  return addHeading buf s

def perfConfig (type : Char) (event : BitVec 32) (s : State) : Option State :=
  if type = 'i' then
    if s.nCounters + 2 > maxCounters then some s
    else if event = 0 then
      openPair perfEventOpen 1 pmuInstRetired pmuCpuCycles
        (pairHeading "RETIRED" "CYCLES" "IPC") s
    else if event = 1 then
      openPair perfEventOpen 100 pmuL1dCacheRefill pmuL1dCache
        (pairHeading "L1D_REFILL" "L1D" "%") s
    else if event = 2 then
      openPair perfEventOpen 100 pmuL2dCacheRefill pmuL2dCache
        (pairHeading "L2D_REFILL" "L2D" "%") s
    else some s
  else if s.nCounters + 1 > maxCounters then some s
  else do
    let s ← perfOpen perfEventOpen
      (if type = 'h' then perfTypeHardware else if type = 'c' then perfTypeHwCache
        else perfTypeRaw) event s
    let name := " ".toList ++
      (if type = 'h' then "HW" else if type = 'c' then "CACHE" else "RAW").toList ++
      "(0x".toList ++ upperHex event.toNat ++ ")".toList
    return addHeading (" ".toList ++ padLeft 12 name) s

/-- The option loop: one call after the other. -/
def configure (requests : List (Char × BitVec 32)) (s : State) : Option State :=
  requests.foldlM (fun s r => perfConfig perfEventOpen r.1 r.2 s) s

end Config

/-! ## Measuring and printing -/

structure Reading where
  nr : BitVec 64
  val : ℕ → BitVec 64

/-- A use of a buffer: a number of bytes for the kernel to write into a `struct counters_t`, or an
index. -/
inductive Access where
  | read (bytes : ℕ)
  | vals (i : ℤ)
  | ratios (i : ℤ)

/-- A printed field: a value, or a ratio of two values times a factor. -/
inductive Field where
  | value (v : BitVec 64)
  | ratio (val₁ val₂ : BitVec 64) (factor : ℕ)
  deriving DecidableEq

/-- `read` of `bytes` bytes. The words beyond the buffer change other variables, which the model
leaves alone: that it happens shows in the access. -/
def Counters.fill (bytes : ℕ) (r : Reading) (c : Counters) : Counters where
  nr := if 8 ≤ bytes then r.nr else c.nr
  vals i := if 8 * (i.val + 2) ≤ bytes then r.val i else c.vals i

def perfBegin (r : Reading) (s : State) : State × List Access :=
  if s.nCounters = 0 then (s, [])
  else
    let bytes := 8 * (s.nCounters + 1)
    ({ s with countersBegin := s.countersBegin.fill bytes r }, [.read bytes])

def perfEnd (r : Reading) (s : State) : State × List Access :=
  if s.nCounters = 0 then (s, [])
  else
    let bytes := 8 * (s.nCounters + 1)
    ({ s with countersEnd := s.countersEnd.fill bytes r, countersValid := true }, [.read bytes])

/-- `vals[i]`; an index outside the array reads another variable, here zero. -/
def Counters.at (c : Counters) (i : ℤ) : BitVec 64 :=
  if h : 0 ≤ i ∧ i < valsLength then c.vals ⟨i.toNat, by omega⟩ else 0

/-- `counters_end.vals[i] - counters_begin.vals[i]`. -/
def State.diff (s : State) (i : ℤ) : BitVec 64 := s.countersEnd.at i - s.countersBegin.at i

def printCounter (s : State) (i : ℕ) : List Field × List Access :=
  if s.ratios i ≠ 0 then
    ([.value (s.diff i), .ratio (s.diff (i - 1)) (s.diff i) (s.ratios i)],
      [.vals i, .ratios i, .vals (i - 1), .vals i])
  else ([.value (s.diff i)], [.vals i, .ratios i])

def perfPrint (s : State) : State × List Field × List Access :=
  if s.countersValid then
    ({ s with countersValid := false },
      (List.range s.nCounters).flatMap fun i => (printCounter s i).1,
      (List.range s.nCounters).flatMap fun i => (printCounter s i).2)
  else (s, [], [])

/-! ## Sequences of calls -/

inductive Op where
  | begin (r : Reading)
  | done (r : Reading)
  | print

structure Effect where
  fields : List Field
  accesses : List Access

def call (s : State) : Op → State × Effect
  | .begin r => ((perfBegin r s).1, ⟨[], (perfBegin r s).2⟩)
  | .done r => ((perfEnd r s).1, ⟨[], (perfEnd r s).2⟩)
  | .print => ((perfPrint s).1, ⟨(perfPrint s).2.1, (perfPrint s).2.2⟩)

end Rebench.Perf
