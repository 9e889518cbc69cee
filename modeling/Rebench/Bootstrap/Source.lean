import Rebench.Heap.Source

/-!
# bootstrap.c: memory before the libraries are loaded

In the `SEMIHOSTING` build the symbols `malloc`, `calloc`, `realloc` and `free`
are redirected to functions that cut blocks off a static buffer and never take
one back. `bootstrap` moves the break behind the places of the library images
before it loads them.
-/
namespace Rebench.Bootstrap
open Machine Heap

def bufferSize : ℕ := 10240

structure State where
  ptr : Addr
  remaining : BitVec 32

def initial (buffer : Addr) : State := ⟨buffer, BitVec.ofNat 32 bufferSize⟩

/-- `bootstrap_malloc`; `none` where it aborts. The comparison and the subtraction take place in 64
bits, and the difference is stored in 32. -/
def bootstrapMalloc (size : Word) (s : State) : Option (Addr × State) :=
  if size > s.remaining.setWidth 64 then none
  else some (s.ptr, ⟨s.ptr + size, (s.remaining.setWidth 64 - size).setWidth 32⟩)

def bootstrapFree (_ptr : Addr) (s : State) : State := s

/-! ## The break -/

def heapStart : Word := 0x44000000

structure SbrkCall where
  incr : BitVec 32
  result : Addr
  deriving DecidableEq

/-- The calls of `_sbrk` in `bootstrap`, and the break behind them. -/
def bootstrap (ram : Ram) (brk : Addr) : List SbrkCall × Addr :=
  let first := sbrk ram 0x1000 brk
  if first.1 < heapStart - 0x1000 then
    let incr := (heapStart - 0x1000 - first.1).setWidth 32
    let second := sbrk ram incr first.2
    let third := sbrk ram 0 second.2
    ([⟨0x1000, first.1⟩, ⟨incr, second.1⟩, ⟨0, third.1⟩], third.2)
  else ([⟨0x1000, first.1⟩], first.2)

end Rebench.Bootstrap
