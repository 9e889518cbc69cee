import Rebench.Machine.Blocks
import Rebench.Reloc.Source

/-!
# The image that `reloc` builds

The copy of the image, the cleared range and the relocated words lie in the
mapping. Where no two words overlap and none lies in the cleared range, every
byte has one origin, and the order of the entries does not matter.
-/
namespace Rebench.Reloc
open Machine

/-- The image, the range to clear and the words to relocate lie in the mapping and the source of the
image outside its pages; the words overlap neither each other nor the cleared range. -/
structure Fits (a : Args) (es : List Entry) : Prop where
  mapping : a.addr.toNat + a.size.toNat ≤ 2 ^ 64
  source : ∀ x, InRange a.binStart a.binSize.toNat x → ¬ PageIn a.addr a.size (pageOf x)
  rom : a.romStart.toNat + a.binSize.toNat ≤ a.size.toNat
  bss : a.bssStart.toNat + a.bssSize.toNat ≤ a.size.toNat
  word : ∀ e ∈ es, e.offset.toNat + 8 ≤ a.size.toNat
  words : es.Pairwise fun e e' => Block.Disjoint ⟨e.offset.toNat, 8⟩ ⟨e'.offset.toNat, 8⟩
  word_bss : ∀ e ∈ es, Block.Disjoint ⟨e.offset.toNat, 8⟩ ⟨a.bssStart.toNat, a.bssSize.toNat⟩

def Entry.Covers (base : Addr) (e : Entry) (x : Addr) : Prop := InRange (e.offset + base) 8 x

/-- The table is the entries, a zero offset, and whatever lies behind it. -/
def Table (es : List Entry) (table : List Entry) : Prop :=
  (∀ e ∈ es, e.offset ≠ 0) ∧ ∃ terminator rest, terminator.offset = 0 ∧
    table = es ++ terminator :: rest

/-- Every byte of `after` by its origin: a relocation, the cleared range, the image in `source`, or the
memory before the copy. -/
structure Built (a : Args) (es : List Entry) (source before after : Mem) : Prop where
  word : ∀ e ∈ es, after.read64 (e.offset + a.addr) =
    if e.type = rAarch64Relative then e.addr + a.addr else e.addr
  bss : ∀ x, InRange (a.bssStart + a.addr) a.bssSize.toNat x → after x = 0
  rom : ∀ x, InRange (a.romStart + a.addr) a.binSize.toNat x →
    ¬ InRange (a.bssStart + a.addr) a.bssSize.toNat x → (∀ e ∈ es, ¬ e.Covers a.addr x) →
      after x = source (a.binStart + (x - (a.romStart + a.addr)))
  other : ∀ x, ¬ InRange (a.romStart + a.addr) a.binSize.toNat x →
    ¬ InRange (a.bssStart + a.addr) a.bssSize.toNat x → (∀ e ∈ es, ¬ e.Covers a.addr x) →
      after x = before x

section Image
variable {a : Args} {es es' table table' : List Entry} {m source : Mem} {x : Addr}

theorem applied_of_table (h : Table es table) : applied table = es := by
  obtain ⟨hne, terminator, rest, hz, rfl⟩ := h
  rw [applied, List.takeWhile_append_of_pos (by simpa using hne),
    List.takeWhile_cons_of_neg (by simpa using hz), List.append_nil]

theorem doReloc_of_table (h : Table es table) :
    doReloc a.addr table m = m.writes (es.map (Entry.target a.addr)) := by
  rw [doReloc_eq_writes, applied_of_table h]

theorem Fits.apart (h : Fits a es) : (es.map (Entry.target a.addr)).Pairwise Apart := by
  rw [List.pairwise_map]
  apply (List.Pairwise.and_mem.mp h.words).imp
  rintro e e' ⟨he, he', hdisj⟩ x hx hx'
  have hsize := a.size.isLt
  have hword := h.word e he
  have hword' := h.word e' he'
  rw [Entry.target, inRange_offset_iff (by omega)] at hx hx'
  exact hdisj _ hx hx'

theorem doReloc_other (htable : Table es table) (hx : ∀ e ∈ es, ¬ e.Covers a.addr x) :
    doReloc a.addr table m x = m x := by
  rw [doReloc_of_table htable]
  apply writes_of_not_inRange
  intro w hw
  obtain ⟨e, he, rfl⟩ := List.mem_map.mp hw
  exact hx e he

theorem loadImage_bss (hx : InRange (a.bssStart + a.addr) a.bssSize.toNat x) :
    loadImage a a.addr m x = 0 := by
  rw [add_comm] at hx
  exact fill_of_inRange hx

theorem loadImage_rom (hrom : InRange (a.romStart + a.addr) a.binSize.toNat x)
    (hbss : ¬ InRange (a.bssStart + a.addr) a.bssSize.toNat x) :
    loadImage a a.addr m x = m (a.binStart + (x - (a.romStart + a.addr))) := by
  rw [add_comm] at hrom hbss
  rw [loadImage, fill_of_not_inRange hbss, copy_of_inRange hrom, add_comm a.addr]

theorem loadImage_other (hrom : ¬ InRange (a.romStart + a.addr) a.binSize.toNat x)
    (hbss : ¬ InRange (a.bssStart + a.addr) a.bssSize.toNat x) :
    loadImage a a.addr m x = m x := by
  rw [add_comm] at hrom hbss
  rw [loadImage, fill_of_not_inRange hbss, copy_of_not_inRange hrom]

/-- The copy, the clearing and the run of the table build the image. -/
theorem built_of_fits (h : Fits a es) (htable : Table es table)
    (hsource : ∀ x, InRange a.binStart a.binSize.toNat x → m x = source x) :
    Built a es source m (doReloc a.addr table (loadImage a a.addr m)) where
  word e he := by
    rw [doReloc_of_table htable]
    have hread := read64_writes_of_apart (m := loadImage a a.addr m) h.apart
      (List.mem_map_of_mem he)
    rw [Entry.target] at hread
    rw [hread]
    split_ifs
    · rfl
    · exact add_zero e.addr
  bss x hx := by
    rw [doReloc_other htable, loadImage_bss hx]
    intro e he hcovers
    have hsize := a.size.isLt
    have hword := h.word e he
    have hbss := h.bss
    rw [Entry.Covers, inRange_offset_iff (by omega)] at hcovers
    rw [inRange_offset_iff (by omega)] at hx
    exact h.word_bss e he _ hcovers hx
  rom x hrom hbss hx := by
    rw [doReloc_other htable hx, loadImage_rom hrom hbss]
    apply hsource
    rw [InRange, add_sub_cancel_left]
    exact hrom
  other x hrom hbss hx := by
    rw [doReloc_other htable hx, loadImage_other hrom hbss]

theorem doReloc_perm (h : Fits a es) (htable : Table es table) (htable' : Table es' table')
    (hperm : es.Perm es') : doReloc a.addr table' m = doReloc a.addr table m := by
  rw [doReloc_of_table htable, doReloc_of_table htable']
  exact writes_perm h.apart (hperm.map _)

theorem stores_iff_of_table (h : Table es table) (s : Space) : Stores a.addr table s ↔
    ∀ e ∈ es, ∀ i < 8, (s.prot (pageOf (e.offset + a.addr + BitVec.ofNat 64 i))).write := by
  rw [Stores, applied_of_table h]

end Image

/-- When `reloc` returns, every byte has its origin, with the memory of the fresh mapping before the
copy, and every permutation of the entries gives the same memory. The `SEMIHOSTING` build does the
same to the memory that it finds. -/
theorem reloc_built (a : Args) (es : List Entry) (hfits : Fits a es) (htable : Table es a.relocs)
    (result : Word) (s t : Space) (hreturn : reloc result a s = some t) :
    (Built a es s.mem (s.mapAnonymous a.addr a.size).mem t.mem ∧
      ∀ es' table', es.Perm es' → Table es' table' →
        ∃ t', reloc result { a with relocs := table' } s = some t' ∧ t'.mem = t.mem) ∧
    Built a es s.mem s.mem (relocSemihosting a s.mem) ∧
      ∀ es' table', es.Perm es' → Table es' table' →
        relocSemihosting { a with relocs := table' } s.mem = relocSemihosting a s.mem := by
  obtain ⟨rfl, hstores, rfl⟩ := reloc_eq_some_iff.mp hreturn
  refine ⟨⟨?_, ?_⟩, ?_, ?_⟩
  · apply built_of_fits hfits htable
    intro x hx
    exact if_neg (hfits.source x hx)
  · intro es' table' hperm htable'
    have hstores' : Stores a.addr table' (mapped a s) := by
      rw [stores_iff_of_table htable] at hstores
      rw [stores_iff_of_table htable']
      exact fun e he => hstores e (hperm.mem_iff.mpr he)
    refine ⟨_, reloc_eq_some_iff.mpr ⟨rfl, hstores', rfl⟩, ?_⟩
    exact doReloc_perm (a := a) hfits htable htable' hperm
  · exact built_of_fits hfits htable fun _ _ => rfl
  · intro es' table' hperm htable'
    change doReloc a.addr table' (loadImage a a.addr s.mem) =
      doReloc a.addr a.relocs (loadImage a a.addr s.mem)
    exact doReloc_perm hfits htable htable' hperm

def twoWords : Args where
  binStart := 0x10000
  binSize := 0x1040
  addr := 0x41000000
  size := 0x2000
  romStart := 0x10
  textStart := 0x10
  textSize := 0x10
  bssStart := 0x1050
  bssSize := 0x10
  relocs := [⟨0x1020, 5, rAarch64Relative⟩, ⟨0x1028, 7, rAarch64JumpSlot⟩, ⟨0, 0, 0⟩]

theorem fits_twoWords :
    Fits twoWords [⟨0x1020, 5, rAarch64Relative⟩, ⟨0x1028, 7, rAarch64JumpSlot⟩] where
  mapping := by decide
  source := by
    intro x hx hpage
    obtain ⟨i, hi, rfl⟩ := exists_of_inRange hx
    have hlow : (0x41000000 : ℕ) / 4096 ≤ (0x10000 + BitVec.ofNat 64 i : Addr).toNat / 4096 := hpage.1
    have hlt : i < 0x1040 := hi
    rw [BitVec.toNat_add, BitVec.toNat_ofNat] at hlow
    have hstart : (0x10000 : Addr).toNat = 0x10000 := rfl
    omega
  rom := by decide
  bss := by decide
  word := by decide
  words := by
    apply List.pairwise_pair.mpr
    exact Block.disjoint_of_le (by decide)
  word_bss := by
    intro e he
    apply Block.disjoint_of_le
    revert e
    decide

theorem reloc_built_twoWords : ∃ t,
    reloc 0x41000000 twoWords ⟨fun _ => 0, fun _ => ⟨false, false, false⟩⟩ = some t ∧
      t.mem.read64 0x41001020 = 0x41000005 := by
  have hstores : Stores 0x41000000 twoWords.relocs
      (mapped twoWords ⟨fun _ => 0, fun _ => ⟨false, false, false⟩⟩) := by
    decide +kernel
  have hreturn := reloc_eq_some_iff.mpr ⟨rfl, hstores, rfl⟩
  refine ⟨_, hreturn, ?_⟩
  exact (reloc_built twoWords [⟨0x1020, 5, rAarch64Relative⟩, ⟨0x1028, 7, rAarch64JumpSlot⟩]
    fits_twoWords ⟨by decide, ⟨0, 0, 0⟩, [], rfl, rfl⟩ 0x41000000
    ⟨fun _ => 0, fun _ => ⟨false, false, false⟩⟩ _ hreturn).1.1.word
    ⟨0x1020, 5, rAarch64Relative⟩ (by simp)

end Rebench.Reloc
