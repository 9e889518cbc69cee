import Rebench.Machine.Memory

/-!
# reloc.c: loading a library image

The image is copied to its place, the zero-initialized part is cleared, the
pages of the text are made executable, and then the relocation table is run
until its first entry with offset zero.
-/
namespace Rebench.Reloc
open Machine

def rAarch64Abs64 : Word := 257
def rAarch64GlobDat : Word := 1025
def rAarch64JumpSlot : Word := 1026
def rAarch64Relative : Word := 1027

/-- `struct entry`. -/
@[ext] structure Entry where
  offset : Word
  addr : Word
  type : Word
  deriving DecidableEq

/-- `ALIGN(size, PAGE_SIZE)`. -/
def align (size : Word) : Word := size &&& ~~~(4096 - 1)

/-- `ALIGN_UP(size, PAGE_SIZE)`. -/
def alignUp (size : Word) : Word := (size + 4096 - 1) &&& ~~~(4096 - 1)

/-- The list ends at its first zero offset at the latest. -/
def doReloc (start : Word) : List Entry → Mem → Mem
  | [], m => m
  | e :: es, m =>
    if e.offset = 0 then m
    else
      let offset := if e.type = rAarch64Relative then start else 0
      doReloc start es (m.write64 (e.offset + start) (e.addr + offset))

def applied (es : List Entry) : List Entry := es.takeWhile fun e => e.offset ≠ 0

structure Args where
  binStart : Word
  binSize : Word
  addr : Word
  size : Word
  romStart : Word
  textStart : Word
  textSize : Word
  bssStart : Word
  bssSize : Word
  relocs : List Entry

/-- The copy of the image and the cleared range. -/
def loadImage (a : Args) (ptr : Word) (m : Mem) : Mem :=
  (m.copy (ptr + a.romStart) a.binStart a.binSize.toNat).fill (ptr + a.bssStart) 0 a.bssSize.toNat

/-- The address space in which `reloc` runs the table: the image is loaded and its text protected. -/
def mapped (a : Args) (s : Space) : Space :=
  let s := s.mapAnonymous a.addr a.size
  let s := { s with mem := loadImage a a.addr s.mem }
  let relocTextStart := align (a.addr + a.textStart)
  let relocTextEnd := alignUp (a.addr + a.textStart + a.textSize)
  s.mprotect relocTextStart (relocTextEnd - relocTextStart) ⟨true, false, true⟩

/-- The words that `doReloc` stores lie in pages that can be written. -/
def Stores (start : Word) (es : List Entry) (s : Space) : Prop :=
  ∀ e ∈ applied es, ∀ i < 8, (s.prot (pageOf (e.offset + start + BitVec.ofNat 64 i))).write

instance (start : Word) (es : List Entry) (s : Space) : Decidable (Stores start es s) :=
  inferInstanceAs (Decidable (∀ _ ∈ _, ∀ _ < 8, _))

/-- `reloc` with the result `mmapResult` of its `mmap` call; `none` where it exits, or dies of a store
into a page that cannot be written. -/
def reloc (mmapResult : Word) (a : Args) (s : Space) : Option Space :=
  if mmapResult ≠ a.addr then none
  else
    let s := mapped a s
    if Stores a.addr a.relocs s then some { s with mem := doReloc a.addr a.relocs s.mem } else none

/-- `reloc` in the `SEMIHOSTING` build, which neither maps nor protects. -/
def relocSemihosting (a : Args) (m : Mem) : Mem :=
  doReloc a.addr a.relocs (loadImage a a.addr m)

/-! ## The relocation run -/

/-- What `doReloc` stores for an entry, and where. -/
def Entry.target (start : Word) (e : Entry) : Addr × Word :=
  (e.offset + start, e.addr + if e.type = rAarch64Relative then start else 0)

/-- The run is the sequence of the writes of the entries before the terminator. -/
theorem doReloc_eq_writes (start : Word) (es : List Entry) (m : Mem) :
    doReloc start es m = m.writes ((applied es).map (Entry.target start)) := by
  induction es generalizing m with
  | nil => rfl
  | cons e es ih =>
    rw [doReloc, applied]
    by_cases h : e.offset = 0
    · rw [if_pos h, List.takeWhile_cons_of_neg (by simpa using h)]
      rfl
    · rw [if_neg h, List.takeWhile_cons_of_pos (by simpa using h), List.map_cons, writes_cons]
      exact ih _

theorem reloc_eq_some_iff {result : Word} {a : Args} {s t : Space} :
    reloc result a s = some t ↔ result = a.addr ∧ Stores a.addr a.relocs (mapped a s) ∧
      t = { mapped a s with mem := doReloc a.addr a.relocs (mapped a s).mem } := by
  by_cases hresult : result = a.addr
  · rw [reloc, if_neg (not_not.mpr hresult), Option.ite_none_right_eq_some, Option.some_inj]
    exact ⟨fun h => ⟨hresult, h.1, h.2.symm⟩, fun h => ⟨h.2.1, h.2.2.symm⟩⟩
  · rw [reloc, if_pos hresult]
    exact iff_of_false (by simp) fun h => hresult h.1

end Rebench.Reloc
