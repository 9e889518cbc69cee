import Mathlib.Data.List.GetD
import Rebench.Reloc.Relocations
import Rebench.Reloc.Sections

/-!
# Where the bytes of an image land

The binary image of a library begins at the address of its first section. The
loader copies it to the address of the first section of jemalloc.elf, whatever
library it loads.
-/
namespace Rebench.Reloc
open Text Machine

/-! ## Files and images -/

/-- The contents of the section are part of a binary image. -/
def ElfSection.Loaded (s : ElfSection) : Prop := s.alloc = true ∧ s.type ≠ "NOBITS".toList

instance : DecidablePred ElfSection.Loaded := fun _ => inferInstanceAs (Decidable (_ ∧ _))

/-- An ELF file with a section behind the null section. -/
structure Elf where
  null : ElfSection
  first : ElfSection
  others : List ElfSection
  relocs : List Relocation

namespace Elf
variable (e : Elf)

def sections : List ElfSection := e.null :: e.first :: e.others

def imageSize : ℕ :=
  (e.sections.filter fun s => s.Loaded).foldr (fun s n => max (s.start + s.size - e.first.start) n) 0

/-- `objcopy -O binary`: the contents of the loaded sections by link address, from the address of
section 1 on, with zeros between them. -/
def image (content : ℕ → Byte) : List Byte :=
  (List.range e.imageSize).map fun i =>
    if ∃ s ∈ e.sections, s.Loaded ∧ e.first.start + i ∈ s.toSec then content (e.first.start + i) else 0

/-- The byte is one of the contents and stays as it is: neither cleared nor relocated. -/
structure Checked (v : ℕ) : Prop where
  progbits : ∃ s ∈ e.sections, s.alloc = true ∧ s.type = "PROGBITS".toList ∧ v ∈ s.toSec
  not_bss : ∀ s ∈ e.sections, s.name = ".bss".toList → v ∉ s.toSec
  not_relocated : ∀ r ∈ e.relocs, ¬ InRange r.offset 8 (BitVec.ofNat 64 v)

end Elf

/-- A relocated word has a byte in a page that is protected with the text. -/
def Args.Faults (a : Args) : Prop :=
  ∃ e ∈ applied a.relocs, ∃ i < 8, PageIn (align (a.addr + a.textStart))
    (alignUp (a.addr + a.textStart + a.textSize) - align (a.addr + a.textStart))
    (pageOf (e.offset + a.addr + BitVec.ofNat 64 i))

/-- A library in the build: where its image stands in the program, where it is loaded, and the
listings that the script reads. -/
structure Build where
  binStart : Word
  libStart : Word
  libSize : Word
  jemalloc : List Str
  sections : List Str
  relocations : List Str

namespace Build
variable (b : Build) (jem elf : Elf)

/-- The listings are those of the two files, and the library fits its mapping. -/
structure Describes : Prop where
  jemalloc : ListsSections 0 b.jemalloc jem.sections
  sections : ListsSections 0 b.sections elf.sections
  relocations : Lists b.relocations elf.relocs
  jemalloc_lt : jem.first.start < 2 ^ 64
  first_le : ∀ s ∈ elf.sections, s.Loaded → elf.first.start ≤ s.start
  fits : ∀ s ∈ elf.sections, s.alloc = true ∨ s.name = ".bss".toList →
    s.start + s.size ≤ b.libSize.toNat
  mapping_le : b.libStart.toNat + b.libSize.toNat ≤ 2 ^ 64
  apart : ∀ i < elf.imageSize, ¬ PageIn b.libStart b.libSize (pageOf (b.binStart + BitVec.ofNat 64 i))

def args (shim : Str → Word) : Option Args :=
  initArgs shim b.binStart (BitVec.ofNat 64 elf.imageSize) b.libStart b.libSize b.jemalloc b.sections
    b.relocations

def Holds (image : List Byte) (m : Mem) : Prop :=
  ∀ i (h : i < image.length), m (b.binStart + BitVec.ofNat 64 i) = image[i]

/-- Every checked byte is found at its own address in the mapping, and through the pointer that is
exported for a symbol in front of it. -/
structure Placed (content : ℕ → Byte) (m : Mem) : Prop where
  bytes : ∀ v, elf.Checked v → m (b.libStart + BitVec.ofNat 64 v) = content v
  pointers : ∀ digits p, exportedPtr b.libStart digits = some p →
    ∀ k, elf.Checked (hexVal digits + k) → m (p + BitVec.ofNat 64 k) = content (hexVal digits + k)

end Build

/-! ## The loaded bytes -/

section Loaded
variable {b : Build} {jem elf : Elf} {shim : Str → Word} {a : Args} {v : ℕ} {m : Mem}

theorem imageSize_le {s : ElfSection} (hs : s ∈ elf.sections) (hloaded : s.Loaded) :
    s.start + s.size - elf.first.start ≤ elf.imageSize := by
  rw [Elf.imageSize]
  have hmem : s ∈ elf.sections.filter fun s => s.Loaded := List.mem_filter.mpr ⟨hs, by simpa using hloaded⟩
  generalize elf.sections.filter (fun s => s.Loaded) = ss at hmem
  induction ss with
  | nil => simp at hmem
  | cons s' ss ih =>
    rw [List.foldr_cons]
    cases List.mem_cons.mp hmem with
    | inl heq =>
      rw [heq]
      exact le_max_left _ _
    | inr hmem => exact (ih hmem).trans (le_max_right _ _)

theorem imageSize_lt (hb : b.Describes jem elf) : elf.imageSize < 2 ^ 64 := by
  have hlt := b.libSize.isLt
  have hall : ∀ s ∈ elf.sections.filter (fun s => s.Loaded), s.start + s.size ≤ b.libSize.toNat := by
    intro s hs
    obtain ⟨hs, hloaded⟩ := List.mem_filter.mp hs
    rw [decide_eq_true_eq] at hloaded
    exact hb.fits s hs (.inl hloaded.1)
  rw [Elf.imageSize]
  generalize elf.sections.filter (fun s => s.Loaded) = ss at hall
  induction ss with
  | nil => simp
  | cons s ss ih =>
    have hs := hall s (by simp)
    have hss := ih fun s hs => hall s (by simp [hs])
    rw [List.foldr_cons]
    omega

theorem initArgs_eq_some (h : b.args elf shim = some a) :
    a.binStart = b.binStart ∧ a.binSize = BitVec.ofNat 64 elf.imageSize ∧ a.addr = b.libStart ∧
      a.size = b.libSize ∧
      macroValue (processSections b.jemalloc b.sections) "ROM_START" = some a.romStart ∧
      macroValue (processSections b.jemalloc b.sections) "BSS_START" = some a.bssStart ∧
      macroValue (processSections b.jemalloc b.sections) "BSS_SIZE" = some a.bssSize ∧
      relocTable shim b.relocations = some a.relocs := by
  obtain ⟨romStart, hrom, h⟩ := Option.bind_eq_some_iff.mp h
  obtain ⟨textStart, -, h⟩ := Option.bind_eq_some_iff.mp h
  obtain ⟨textSize, -, h⟩ := Option.bind_eq_some_iff.mp h
  obtain ⟨bssStart, hstart, h⟩ := Option.bind_eq_some_iff.mp h
  obtain ⟨bssSize, hsize, h⟩ := Option.bind_eq_some_iff.mp h
  obtain ⟨relocs, hrelocs, h⟩ := Option.bind_eq_some_iff.mp h
  rw [← Option.some.inj h]
  exact ⟨rfl, rfl, rfl, rfl, hrom, hstart, hsize, hrelocs⟩

theorem Elf.Checked.bounds (hb : b.Describes jem elf) (hv : elf.Checked v) :
    elf.first.start ≤ v ∧ v < elf.first.start + elf.imageSize ∧ v < b.libSize.toNat := by
  obtain ⟨s, hs, halloc, htype, hlow, hhigh⟩ := hv.progbits
  have hloaded : s.Loaded := ⟨halloc, by rw [htype]; decide⟩
  have hfirst := hb.first_le s hs hloaded
  have hfits := hb.fits s hs (.inl halloc)
  have hsize := imageSize_le hs hloaded
  omega

theorem doReloc_apply (hb : b.Describes jem elf) (ha : b.args elf shim = some a)
    (hv : elf.Checked v) (m : Mem) :
    doReloc a.addr a.relocs m (b.libStart + BitVec.ofNat 64 v) =
      m (b.libStart + BitVec.ofNat 64 v) := by
  obtain ⟨-, -, haddr, -, -, -, -, htable⟩ := initArgs_eq_some ha
  rw [doReloc_eq_writes, relocTable_eq hb.relocations htable, applied_terminated, haddr]
  apply writes_of_not_inRange
  intro w hw
  obtain ⟨entry, hentry, rfl⟩ := List.mem_map.mp hw
  obtain ⟨r, hr, hentry⟩ := List.mem_filterMap.mp ((List.takeWhile_prefix _).subset hentry)
  have hfree := hv.not_relocated r hr
  rw [InRange] at hfree
  rw [Entry.target, offset_of_entry hentry, InRange]
  have hdist : b.libStart + BitVec.ofNat 64 v - (r.offset + b.libStart) = BitVec.ofNat 64 v - r.offset := by
    ring
  rw [hdist]
  exact hfree

theorem not_cleared (hb : b.Describes jem elf) (ha : b.args elf shim = some a)
    (hv : elf.Checked v) :
    ¬ InRange (a.addr + a.bssStart) a.bssSize.toNat (b.libStart + BitVec.ofNat 64 v) := by
  obtain ⟨-, -, haddr, -, -, hstart, hsize, -⟩ := initArgs_eq_some ha
  obtain ⟨-, s, hs, hname, hstart, hsize⟩ :=
    processSections_values hb.jemalloc rfl hb.sections hstart hsize
  have hmem := hv.not_bss s hs hname
  have hfits := hb.fits s hs (.inr hname)
  have hlt := b.libSize.isLt
  obtain ⟨-, -, hvlt⟩ := hv.bounds hb
  have hdist : b.libStart + BitVec.ofNat 64 v - (a.addr + a.bssStart) =
      BitVec.ofNat 64 v - BitVec.ofNat 64 s.start := by
    rw [haddr, hstart]
    ring
  rw [InRange, hdist, hsize, BitVec.toNat_ofNat, BitVec.toNat_sub, BitVec.toNat_ofNat,
    BitVec.toNat_ofNat]
  intro hin
  apply hmem
  constructor <;> omega

/-- A checked byte comes from the image, as far behind its start as the address is behind
`ROM_START`, or is left as it was. -/
theorem load_apply (hb : b.Describes jem elf) (ha : b.args elf shim = some a)
    (hv : elf.Checked v) (m : Mem) :
    doReloc a.addr a.relocs (loadImage a a.addr m) (b.libStart + BitVec.ofNat 64 v) =
      if (BitVec.ofNat 64 v - BitVec.ofNat 64 jem.first.start : Word).toNat < elf.imageSize then
        m (b.binStart + (BitVec.ofNat 64 v - BitVec.ofNat 64 jem.first.start))
      else m (b.libStart + BitVec.ofNat 64 v) := by
  obtain ⟨hbin, hsize, haddr, -, hrom, hbstart, hbsize, -⟩ := initArgs_eq_some ha
  have hromStart : a.romStart = BitVec.ofNat 64 jem.first.start := by
    rw [(processSections_values hb.jemalloc rfl hb.sections hbstart hbsize).1] at hrom
    exact (Option.some.inj hrom).symm
  have hdist : b.libStart + BitVec.ofNat 64 v - (b.libStart + BitVec.ofNat 64 jem.first.start) =
      BitVec.ofNat 64 v - BitVec.ofNat 64 jem.first.start := by
    ring
  have hin : InRange (a.addr + a.romStart) a.binSize.toNat (b.libStart + BitVec.ofNat 64 v) ↔
      (BitVec.ofNat 64 v - BitVec.ofNat 64 jem.first.start : Word).toNat < elf.imageSize := by
    rw [InRange, haddr, hromStart, hdist, hsize, BitVec.toNat_ofNat,
      Nat.mod_eq_of_lt (imageSize_lt hb)]
  rw [doReloc_apply hb ha hv, loadImage, fill_of_not_inRange (not_cleared hb ha hv)]
  by_cases h : (BitVec.ofNat 64 v - BitVec.ofNat 64 jem.first.start : Word).toNat < elf.imageSize
  · rw [if_pos h, copy_of_inRange (hin.mpr h), haddr, hromStart, hdist, hbin]
  · rw [if_neg h, copy_of_not_inRange fun hx => h (hin.mp hx)]

theorem image_getElem {content : ℕ → Byte} {i : ℕ} (hi : i < (elf.image content).length) :
    (elf.image content)[i] =
      if ∃ s ∈ elf.sections, s.Loaded ∧ elf.first.start + i ∈ s.toSec then
        content (elf.first.start + i)
      else 0 := by
  simp only [Elf.image, List.getElem_map, List.getElem_range]

theorem length_image (content : ℕ → Byte) : (elf.image content).length = elf.imageSize := by
  rw [Elf.image, List.length_map, List.length_range]

/-- A pointer reads its symbol where the bytes of the symbol are. -/
theorem placed_of_bytes {content : ℕ → Byte}
    (h : ∀ v, elf.Checked v → m (b.libStart + BitVec.ofNat 64 v) = content v) :
    b.Placed elf content m := by
  refine ⟨h, fun digits p hp k hk => ?_⟩
  obtain ⟨w, hw, rfl⟩ := Option.map_eq_some_iff.mp hp
  have hsum : w + b.libStart + BitVec.ofNat 64 k =
      b.libStart + BitVec.ofNat 64 (hexVal digits + k) := by
    rw [(hexLiteral_eq_some hw).2, BitVec.ofNat_add]
    ring
  rw [hsum]
  exact h _ hk

/-- With the right `ROM_START` every byte is at its place. -/
theorem placed_of_first_eq (hb : b.Describes jem elf) (ha : b.args elf shim = some a)
    (hfirst : jem.first.start = elf.first.start) {content : ℕ → Byte}
    (hm : b.Holds (elf.image content) m) :
    b.Placed elf content (doReloc a.addr a.relocs (loadImage a a.addr m)) := by
  apply placed_of_bytes
  intro v hv
  obtain ⟨hlow, hhigh, hvlt⟩ := hv.bounds hb
  have hlt := b.libSize.isLt
  have hdist : (BitVec.ofNat 64 v - BitVec.ofNat 64 jem.first.start : Word) =
      BitVec.ofNat 64 (v - elf.first.start) := by
    rw [hfirst, sub_eq_iff_eq_add, ← BitVec.ofNat_add, Nat.sub_add_cancel hlow]
  have hi : v - elf.first.start < (elf.image content).length := by
    rw [length_image]
    omega
  rw [load_apply hb ha hv, hdist, BitVec.toNat_ofNat, Nat.mod_eq_of_lt (by omega),
    if_pos (by omega), hm _ hi, image_getElem, Nat.add_sub_cancel' hlow, if_pos]
  obtain ⟨s, hs, halloc, htype, hmem⟩ := hv.progbits
  exact ⟨s, hs, ⟨halloc, by rw [htype]; decide⟩, hmem⟩

/-- With another `ROM_START` no byte of the image but its own could be found for a checked byte. -/
theorem load_ne (hb : b.Describes jem elf) (ha : b.args elf shim = some a)
    (hfirst : jem.first.start ≠ elf.first.start) (hv : elf.Checked v)
    (hm : b.Holds (elf.image fun x => if x = v then 1 else 0) m)
    (hzero : m (b.libStart + BitVec.ofNat 64 v) = 0) :
    doReloc a.addr a.relocs (loadImage a a.addr m) (b.libStart + BitVec.ofNat 64 v) = 0 := by
  obtain ⟨hlow, hhigh, hvlt⟩ := hv.bounds hb
  have hlt := b.libSize.isLt
  have hjem := hb.jemalloc_lt
  rw [load_apply hb ha hv]
  by_cases h : (BitVec.ofNat 64 v - BitVec.ofNat 64 jem.first.start : Word).toNat < elf.imageSize
  · rw [if_pos h]
    have hi := h
    rw [← length_image (fun x => if x = v then 1 else 0)] at hi
    have hbyte := hm _ hi
    rw [BitVec.ofNat_toNat, BitVec.setWidth_eq, image_getElem] at hbyte
    rw [hbyte]
    have hne : elf.first.start +
        (BitVec.ofNat 64 v - BitVec.ofNat 64 jem.first.start : Word).toNat ≠ v := by
      rw [BitVec.toNat_sub, BitVec.toNat_ofNat, BitVec.toNat_ofNat]
      omega
    rw [if_neg hne, ite_self]
  · rw [if_neg h, hzero]

/-- The image is in the program still when the mapping is made. -/
theorem Build.Holds.mapAnonymous (hb : b.Describes jem elf) (ha : b.args elf shim = some a)
    {content : ℕ → Byte} {s : Space} (h : b.Holds (elf.image content) s.mem) :
    b.Holds (elf.image content) (s.mapAnonymous a.addr a.size).mem := by
  obtain ⟨-, -, haddr, hsize, -⟩ := initArgs_eq_some ha
  intro i hi
  rw [haddr, hsize]
  exact (if_neg (hb.apart i (length_image content ▸ hi))).trans (h i hi)

def Build.loaded (b : Build) (image : List Byte) : Mem := fun x => image.getD (x - b.binStart).toNat 0

theorem holds_loaded (hb : b.Describes jem elf) (content : ℕ → Byte) :
    b.Holds (elf.image content) (b.loaded (elf.image content)) := by
  intro i hi
  have hlt : i < 2 ^ 64 := (length_image content ▸ hi).trans (imageSize_lt hb)
  rw [Build.loaded, sub_toNat_of_add hlt, List.getD_eq_getElem?_getD, List.getElem?_eq_getElem hi,
    Option.getD_some]

theorem loaded_apply (hb : b.Describes jem elf) (hv : v < b.libSize.toNat) (content : ℕ → Byte) :
    b.loaded (elf.image content) (b.libStart + BitVec.ofNat 64 v) = 0 := by
  apply List.getD_eq_default
  by_contra hlt
  rw [length_image, not_le] at hlt
  apply hb.apart _ hlt
  rw [BitVec.ofNat_toNat, BitVec.setWidth_eq, add_sub_cancel]
  exact pageIn_add hv hb.mapping_le

theorem not_placed_of_zero {content : ℕ → Byte} (hv : elf.Checked v) (hone : content v = 1)
    (hzero : m (b.libStart + BitVec.ofNat 64 v) = 0) : ¬ b.Placed elf content m := by
  intro hplaced
  have hbyte := hzero.symm.trans (hplaced.bytes v hv)
  rw [hone] at hbyte
  exact absurd hbyte (by decide)

/-- Where all other pages can be written, the run ends if no word lies in a page of the text. -/
theorem stores_of_not_faults (h : ¬ a.Faults) (mem : Mem) :
    Stores a.addr a.relocs (mapped a ⟨mem, fun _ => ⟨true, true, false⟩⟩) := by
  intro e he i hi
  have hpage : ¬ PageIn (align (a.addr + a.textStart))
      (alignUp (a.addr + a.textStart + a.textSize) - align (a.addr + a.textStart))
      (pageOf (e.offset + a.addr + BitVec.ofNat 64 i)) := fun hin => h ⟨e, he, i, hi, hin⟩
  simp only [mapped, Space.mprotect, Space.mapAnonymous, if_neg hpage, ite_self]

/-- A store into a page of the text is the end. -/
theorem not_stores_of_faults (h : a.Faults) (s : Space) :
    ¬ Stores a.addr a.relocs (mapped a s) := by
  obtain ⟨e, he, i, hi, hin⟩ := h
  intro hstores
  have hwrite := hstores e he i hi
  simp only [mapped, Space.mprotect, if_pos hin] at hwrite
  exact absurd hwrite (by simp)

/-- With another `ROM_START` some contents are not found in the mapping, in either build. -/
theorem exists_not_placed (hb : b.Describes jem elf) (ha : b.args elf shim = some a)
    (hfirst : jem.first.start ≠ elf.first.start) (hv : elf.Checked v) :
    ∃ content m, b.Holds (elf.image content) m ∧
      (∀ prot t, reloc a.addr a ⟨m, prot⟩ = some t → ¬ b.Placed elf content t.mem) ∧
        ¬ b.Placed elf content (relocSemihosting a m) := by
  have hvlt := (hv.bounds hb).2.2
  have hone : (fun x => if x = v then 1 else 0 : ℕ → Byte) v = 1 := if_pos rfl
  refine ⟨_, _, holds_loaded hb fun x => if x = v then 1 else 0, ?_, ?_⟩
  · intro prot t ht
    obtain ⟨-, -, rfl⟩ := reloc_eq_some_iff.mp ht
    apply not_placed_of_zero hv hone
    apply load_ne hb ha hfirst hv ((holds_loaded hb _).mapAnonymous hb ha)
    obtain ⟨-, -, haddr, hsize, -⟩ := initArgs_eq_some ha
    rw [haddr, hsize]
    exact if_pos (pageIn_add hvlt hb.mapping_le)
  · apply not_placed_of_zero hv hone
    exact load_ne hb ha hfirst hv (holds_loaded hb _) (loaded_apply hb hvlt _)

theorem placed_of_first_eq_or (hb : b.Describes jem elf) (ha : b.args elf shim = some a)
    (h : jem.first.start = elf.first.start ∨ ∀ v, ¬ elf.Checked v) {content : ℕ → Byte}
    (hm : b.Holds (elf.image content) m) :
    b.Placed elf content (doReloc a.addr a.relocs (loadImage a a.addr m)) := by
  cases h with
  | inl hfirst => exact placed_of_first_eq hb ha hfirst hm
  | inr hnone => exact placed_of_bytes fun v hv => absurd hv (hnone v)

end Loaded

/-- Whatever the bytes of a library are, they are where its pointers lead whenever `reloc` returns,
exactly if its first section has the address of the first section of jemalloc.elf, or if `reloc` cannot
return since a relocated word is in a page of the text; in the `SEMIHOSTING` build, exactly if the first
sections have one address. -/
theorem image_placed_iff {b : Build} {jem elf : Elf} (hb : b.Describes jem elf)
    {shim : Str → Word} {a : Args} (ha : b.args elf shim = some a) :
    ((∀ content s t, b.Holds (elf.image content) s.mem → reloc a.addr a s = some t →
        b.Placed elf content t.mem) ↔
      (jem.first.start = elf.first.start ∨ ∀ v, ¬ elf.Checked v) ∨ a.Faults) ∧
    ((∀ content m, b.Holds (elf.image content) m → b.Placed elf content (relocSemihosting a m)) ↔
      jem.first.start = elf.first.start ∨ ∀ v, ¬ elf.Checked v) := by
  have hfails : ¬ (jem.first.start = elf.first.start ∨ ∀ v, ¬ elf.Checked v) → ∃ content m,
      b.Holds (elf.image content) m ∧
        (∀ prot t, reloc a.addr a ⟨m, prot⟩ = some t → ¬ b.Placed elf content t.mem) ∧
          ¬ b.Placed elf content (relocSemihosting a m) := by
    intro hnot
    obtain ⟨hfirst, hchecked⟩ := not_or.mp hnot
    obtain ⟨v, hv⟩ := not_forall_not.mp hchecked
    exact exists_not_placed hb ha hfirst hv
  constructor
  · constructor
    · intro h
      by_contra hnot
      obtain ⟨hcond, hfaults⟩ := not_or.mp hnot
      obtain ⟨content, m, hholds, hmapped, -⟩ := hfails hcond
      have hreturn := reloc_eq_some_iff.mpr ⟨rfl, stores_of_not_faults hfaults m, rfl⟩
      exact hmapped _ _ hreturn (h content _ _ hholds hreturn)
    · intro h content s t hholds ht
      obtain ⟨-, hstores, rfl⟩ := reloc_eq_some_iff.mp ht
      cases h with
      | inl h => exact placed_of_first_eq_or hb ha h (hholds.mapAnonymous hb ha)
      | inr hfaults => exact absurd hstores (not_stores_of_faults hfaults s)
  · constructor
    · intro h
      by_contra hnot
      obtain ⟨content, m, hholds, -, hsemihosting⟩ := hfails hnot
      exact hsemihosting (h content m hholds)
    · intro h content m hholds
      exact placed_of_first_eq_or hb ha h hholds

/-! ## Two libraries side by side -/

def sectionLine (i : ℕ) (s : ElfSection) : Str :=
  ' ' :: ' ' :: '[' :: (padLeft 2 (dec i) ++ ']' :: ' ' :: (s.name ++ ' ' :: (s.type ++ ' ' ::
    (hex s.start ++ ' ' :: ("000000".toList ++ ' ' :: (hex s.size ++ " 00   A  0   0  1".toList))))))

def sectionLines : ℕ → List ElfSection → List Str
  | _, [] => []
  | i, s :: ss => sectionLine i s :: sectionLines (i + 1) ss

theorem sectionRow_sectionLine {i : ℕ} {s : ElfSection} (hname : IsToken s.name ∨ i = 0 ∧ s.name = [])
    (htype : IsToken s.type) (hbracket : '[' ∉ s.name ∧ '[' ∉ s.type) :
    SectionRow i (sectionLine i s) s := by
  have hhex : ∀ n, IsRun isHex (hex n) := fun n => ⟨by simp, fun c hc => isHex_of_mem_hex hc⟩
  have hnot : ∀ n, '[' ∉ hex n := fun n hmem => absurd (isHex_of_mem_hex hmem) (by decide)
  refine ⟨[' ', ' '], _, hex s.start, "000000".toList, hex s.size, ["00", "A", "0", "0", "1"].map
    String.toList, rfl, by decide, ?_, by simp; decide, ?_, hname, hhex _, hexVal_hex _, hhex _,
    hexVal_hex _⟩
  · simp only [List.mem_cons, List.mem_append, hbracket.1, hbracket.2, hnot, false_or]
    decide
  · have hfields : words (s.type ++ ' ' :: (hex s.start ++ ' ' :: ("000000".toList ++ ' ' ::
        (hex s.size ++ " 00   A  0   0  1".toList)))) = s.type :: hex s.start :: "000000".toList ::
          hex s.size :: ["00", "A", "0", "0", "1"].map String.toList := by
      rw [words_token_blank htype (by decide), words_token_blank (hhex _).isToken (by decide),
        words_token_blank (by decide) (by decide), words_token_append (hhex _).isToken (by decide)]
      rfl
    rw [words_blank (by decide), ← hfields]
    cases hname with
    | inl hname => rw [words_token_blank hname (by decide), words_token hname, List.singleton_append]
    | inr hnull =>
      rw [hnull.2, List.nil_append, words_blank (by decide)]
      rfl

theorem lists_sectionLines {ss : List ElfSection} (i : ℕ)
    (h : ∀ s ∈ ss, IsToken s.name ∧ IsToken s.type ∧ '[' ∉ s.name ∧ '[' ∉ s.type) :
    ListsSections i (sectionLines i ss) ss := by
  induction ss generalizing i with
  | nil => exact .nil
  | cons s ss ih =>
    obtain ⟨hname, htype, hbracket⟩ := h s (by simp)
    exact .row (sectionRow_sectionLine (.inl hname) htype hbracket)
      (ih (i + 1) fun s hs => h s (by simp [hs]))

def fileAt (interp : ℕ) : Elf where
  null := ⟨⟨0, 0⟩, [], "NULL".toList, false⟩
  first := ⟨⟨interp, 0x15⟩, ".interp".toList, "PROGBITS".toList, true⟩
  others := [⟨⟨0x288, 0x98⟩, ".note.android.ident".toList, "NOTE".toList, true⟩,
    ⟨⟨0x320, 0x270⟩, ".hash".toList, "HASH".toList, true⟩,
    ⟨⟨0x590, 0x4b0⟩, ".dynsym".toList, "DYNSYM".toList, true⟩,
    ⟨⟨0xa40, 0x260⟩, ".dynstr".toList, "STRTAB".toList, true⟩,
    ⟨⟨0xca0, 0x64⟩, ".gnu.version".toList, "VERSYM".toList, true⟩,
    ⟨⟨0xd08, 0x20⟩, ".gnu.version_r".toList, "VERNEED".toList, true⟩,
    ⟨⟨0xd28, 0x2508⟩, ".rela.dyn".toList, "RELA".toList, true⟩,
    ⟨⟨0x3230, 0x360⟩, ".rela.plt".toList, "RELA".toList, true⟩,
    ⟨⟨0x3590, 0x260⟩, ".plt".toList, "PROGBITS".toList, true⟩,
    ⟨⟨0x37f0, 0x250d8⟩, ".text".toList, "PROGBITS".toList, true⟩,
    ⟨⟨0x42000, 0x8f0⟩, ".bss".toList, "NOBITS".toList, true⟩]
  relocs := []

def buildAt (jemalloc : ℕ) : Build where
  binStart := 0x400000
  libStart := 0x42000000
  libSize := 0x200000
  jemalloc := sectionLines 0 (fileAt jemalloc).sections
  sections := sectionLines 0 (fileAt 0x238).sections
  relocations := []

theorem describes_buildAt {jemalloc : ℕ} (h : jemalloc < 2 ^ 64) :
    (buildAt jemalloc).Describes (fileAt jemalloc) (fileAt 0x238) := by
  have hlists : ∀ n, ListsSections 0 (sectionLines 0 (fileAt n).sections) (fileAt n).sections := by
    intro n
    have hnull : SectionRow 0 (sectionLine 0 (fileAt n).null) (fileAt n).null :=
      sectionRow_sectionLine (.inr ⟨rfl, rfl⟩) (show IsToken "NULL".toList by decide)
        ⟨List.not_mem_nil, show '[' ∉ "NULL".toList by decide⟩
    have hfirst : SectionRow 1 (sectionLine 1 (fileAt n).first) (fileAt n).first :=
      sectionRow_sectionLine (.inl (show IsToken ".interp".toList by decide))
        (show IsToken "PROGBITS".toList by decide)
        (show '[' ∉ ".interp".toList ∧ '[' ∉ "PROGBITS".toList by decide)
    have hothers : ∀ s ∈ (fileAt 0).others,
        IsToken s.name ∧ IsToken s.type ∧ '[' ∉ s.name ∧ '[' ∉ s.type := by
      decide
    exact .row hnull (.row hfirst (lists_sectionLines 2 hothers))
  have hsize : (fileAt 0x238).imageSize ≤ 0x40000 := by
    decide
  have hfits : ∀ s ∈ (fileAt 0x238).sections, s.alloc = true ∨ s.name = ".bss".toList →
      s.start + s.size ≤ 0x200000 := by
    decide
  have hmapping : 0x42000000 + 0x200000 ≤ 2 ^ 64 := by
    norm_num
  refine ⟨hlists _, hlists _, .nil, h, by decide, hfits, hmapping, ?_⟩
  intro i hi hin
  have hlow := hin.1
  rw [pageOf, pageSize] at hlow
  simp only [buildAt] at hlow
  bv_omega

theorem checked_fileAt : (fileAt 0x238).Checked 0x37f0 :=
  ⟨by decide, by decide, by simp [fileAt]⟩

theorem image_placed_alike : ∃ a, (buildAt 0x238).args (fileAt 0x238) (fun _ => 0) = some a ∧
    (∀ content s t, (buildAt 0x238).Holds ((fileAt 0x238).image content) s.mem →
      reloc a.addr a s = some t → (buildAt 0x238).Placed (fileAt 0x238) content t.mem) ∧
    ∀ content m, (buildAt 0x238).Holds ((fileAt 0x238).image content) m →
      (buildAt 0x238).Placed (fileAt 0x238) content (relocSemihosting a m) := by
  obtain ⟨a, ha⟩ : ∃ a, (buildAt 0x238).args (fileAt 0x238) (fun _ => 0) = some a :=
    Option.isSome_iff_exists.mp (by decide +kernel)
  obtain ⟨hmapped, hsemihosting⟩ := image_placed_iff (describes_buildAt (by norm_num)) ha
  exact ⟨a, ha, hmapped.mpr (.inl (.inl rfl)), hsemihosting.mpr (.inl rfl)⟩

theorem applied_buildAt {n : ℕ} {a : Args}
    (ha : (buildAt n).args (fileAt 0x238) (fun _ => 0) = some a)
    (hb : (buildAt n).Describes (fileAt n) (fileAt 0x238)) : applied a.relocs = [] := by
  obtain ⟨-, -, -, -, -, -, -, htable⟩ := initArgs_eq_some ha
  rw [relocTable_eq hb.relocations htable, applied_terminated]
  rfl

/-- One program header more in jemalloc.elf, and the text of the other library is misplaced. -/
theorem image_misplaced : ¬ ∀ a, (buildAt 0x270).args (fileAt 0x238) (fun _ => 0) = some a →
    ∀ content s t, (buildAt 0x270).Holds ((fileAt 0x238).image content) s.mem →
      reloc a.addr a s = some t → (buildAt 0x270).Placed (fileAt 0x238) content t.mem := by
  intro h
  obtain ⟨a, ha⟩ : ∃ a, (buildAt 0x270).args (fileAt 0x238) (fun _ => 0) = some a :=
    Option.isSome_iff_exists.mp (by decide +kernel)
  have hb : (buildAt 0x270).Describes (fileAt 0x270) (fileAt 0x238) :=
    describes_buildAt (by norm_num)
  obtain ⟨content, m, hholds, hfails, -⟩ := exists_not_placed hb ha (by decide) checked_fileAt
  have hstores : Stores a.addr a.relocs (mapped a ⟨m, fun _ => ⟨true, true, false⟩⟩) := by
    intro e he
    rw [applied_buildAt ha hb] at he
    exact absurd he (by simp)
  have hreturn := reloc_eq_some_iff.mpr ⟨rfl, hstores, rfl⟩
  exact hfails _ _ hreturn (h a ha content _ _ hholds hreturn)

end Rebench.Reloc
