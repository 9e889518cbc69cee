import Rebench.Machine.Memory

/-!
# jemalloc.c: the memory calls

The allocator has its memory through three calls. In the Linux build they are
system calls for anonymous pages. In the `SEMIHOSTING` build a mapping is cut
off at the break, and the two other calls do nothing.
-/
namespace Rebench.Heap
open Machine

/-- `MAP_FAILED`, and what `_sbrk` returns when it fails. -/
def mapFailed : Addr := -1

/-! ## The Linux build -/

/-- Memory and the mapped pages, as the kernel keeps them, below the end of user space. -/
structure Kernel where
  mem : Mem
  mapped : ℕ → Bool
  userEnd : Addr

namespace Kernel
variable (k : Kernel)

/-- `mmap` of anonymous pages may be answered with free whole pages or with a failure. -/
def Answers (answer : Addr) (len : Word) : Prop :=
  answer = mapFailed ∨ answer.toNat % pageSize = 0 ∧ answer.toNat + len.toNat ≤ 2 ^ 64 ∧
    ∀ p ∈ pagesOf answer len, k.mapped p = false

instance (answer : Addr) (len : Word) : Decidable (k.Answers answer len) :=
  inferInstanceAs (Decidable (_ ∨ _))

/-- `s_mmap`, with the answer of the kernel. -/
def sMmap (answer : Addr) (len : Word) : Addr × Kernel :=
  if answer = mapFailed then (mapFailed, k)
  else (answer, { k with
    mem := fun x => if PageIn answer len (pageOf x) then 0 else k.mem x
    mapped := fun p => if PageIn answer len p then true else k.mapped p })

/-- `s_madvise` with `MADV_DONTNEED`: the mapped pages of the range lose their contents. -/
def sMadvise (addr : Addr) (len : Word) : ℤ × Kernel :=
  if addr.toNat % pageSize ≠ 0 ∨ 2 ^ 64 < addr.toNat + len.toNat then (-1, k)
  else (if ∀ p ∈ pagesOf addr len, k.mapped p then 0 else -1,
    { k with mem := fun x => if PageIn addr len (pageOf x) ∧ k.mapped (pageOf x) then 0 else k.mem x })

/-- `s_munmap`, which fails for an empty range and for one that leaves user space. -/
def sMunmap (addr : Addr) (len : Word) : ℤ × Kernel :=
  if addr.toNat % pageSize ≠ 0 ∨ len = 0 ∨ k.userEnd.toNat < addr.toNat + len.toNat then (-1, k)
  else (0, { k with mapped := fun p => if PageIn addr len p then false else k.mapped p })

end Kernel

/-! ## The SEMIHOSTING build -/

structure Ram where
  start : ℕ
  stop : ℕ
  stop_lt : stop < 2 ^ 64

/-- `_sbrk`: moves the break by a signed increment and returns the old break, or leaves it where it
is if it would leave RAM. The second component is the break afterwards. -/
def sbrk (ram : Ram) (incr : BitVec 32) (brk : Addr) : Addr × Addr :=
  if ram.start ≤ brk.toNat + incr.toInt ∧ brk.toNat + incr.toInt ≤ ram.stop then
    (brk, BitVec.ofInt 64 (brk.toNat + incr.toInt))
  else (mapFailed, brk)

structure Semi where
  mem : Mem
  brk : Addr

namespace Semi
variable (s : Semi)

/-- `s_mmap`: the length becomes the `int` that `_sbrk` takes. -/
def sMmap (ram : Ram) (len : Word) : Addr × Semi :=
  ((sbrk ram (len.setWidth 32) s.brk).1, { s with brk := (sbrk ram (len.setWidth 32) s.brk).2 })

/-- `s_madvise`. -/
def sMadvise (_addr : Addr) (_len : Word) : ℤ × Semi := (0, s)

/-- `s_munmap`. -/
def sMunmap (_addr : Addr) (_len : Word) : ℤ × Semi := (0, s)

end Semi

end Rebench.Heap
