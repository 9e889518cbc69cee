import Rebench.Reloc.Source

/-!
# Page protections of a loaded image

The text is made executable in whole pages before the relocations are written.
Which pages these are decides whether the stubs before the text can run and
whether a relocated word can still be written.
-/
namespace Rebench.Reloc
open Machine

/-! ## Rounding to pages -/

theorem align_eq_shift (w : Word) : align w = (w >>> 12) <<< 12 := by
  have hmask : ∀ i < 64, (~~~(4096 - 1 : Word)).getLsbD i = decide (12 ≤ i) := by
    decide
  apply BitVec.eq_of_getLsbD_eq
  intro i hi
  rw [align, BitVec.getLsbD_and, hmask i hi, BitVec.getLsbD_shiftLeft, BitVec.getLsbD_ushiftRight]
  by_cases h : 12 ≤ i
  · simp [h, hi]
  · simp [h]

theorem align_toNat (w : Word) : (align w).toNat = w.toNat / pageSize * pageSize := by
  have hlt := w.isLt
  rw [align_eq_shift, BitVec.toNat_shiftLeft, BitVec.toNat_ushiftRight, Nat.shiftRight_eq_div_pow,
    Nat.shiftLeft_eq, pageSize]
  omega

theorem alignUp_toNat {w : Word} (h : w.toNat + pageSize ≤ 2 ^ 64) :
    (alignUp w).toNat = (w.toNat + (pageSize - 1)) / pageSize * pageSize := by
  have hsum : (w + 4096 - 1).toNat = w.toNat + (pageSize - 1) := by
    rw [pageSize] at h ⊢
    bv_omega
  rw [← hsum]
  exact align_toNat _

/-! ## Layouts -/

structure Sec where
  start : ℕ
  size : ℕ

namespace Sec

instance : Membership ℕ Sec := ⟨fun s v => s.start ≤ v ∧ v < s.start + s.size⟩

instance (v : ℕ) (s : Sec) : Decidable (v ∈ s) := inferInstanceAs (Decidable (_ ∧ _))

def Disjoint (s t : Sec) : Prop := ∀ v, ¬ (v ∈ s ∧ v ∈ t)

theorem disjoint_of_le {s t : Sec} (h : s.start + s.size ≤ t.start) : s.Disjoint t := by
  intro v hv
  obtain ⟨hs, ht⟩ := hv
  have hlt := hs.2.trans_le h
  exact absurd ht.1 (by omega)

end Sec

/-- The sections of an image inside its mapping, and the relocation table, whose words lie in the
data sections. -/
structure Layout where
  addr : ℕ
  size : ℕ
  plt : Sec
  text : Sec
  data : List Sec
  relocs : List Entry
  addr_aligned : addr % pageSize = 0
  addr_le : addr + size + pageSize ≤ 2 ^ 64
  fits : ∀ s ∈ plt :: text :: data, s.start + s.size ≤ size
  disjoint : (plt :: text :: data).Pairwise Sec.Disjoint
  words : ∀ e ∈ applied relocs, ∃ s ∈ data,
    s.start ≤ e.offset.toNat ∧ e.offset.toNat + 8 ≤ s.start + s.size

namespace Layout
variable (L : Layout)

structure Loads (a : Args) : Prop where
  addr_eq : a.addr = BitVec.ofNat 64 L.addr
  size_eq : a.size = BitVec.ofNat 64 L.size
  textStart_eq : a.textStart = BitVec.ofNat 64 L.text.start
  textSize_eq : a.textSize = BitVec.ofNat 64 L.text.size
  relocs_eq : a.relocs = L.relocs

/-- The page of the byte at link address `v` holds a byte between `ALIGN` of the start and
`ALIGN_UP` of the end of the text. -/
def TextPage (v : ℕ) : Prop :=
  L.text.start / pageSize ≤ v / pageSize ∧
    v / pageSize < (L.text.start + L.text.size + (pageSize - 1)) / pageSize

instance : DecidablePred L.TextPage := fun _ => inferInstanceAs (Decidable (_ ∧ _))

/-- Every byte of an executable section can be read and run, and every relocated word can be
written. -/
def Protected (t : Space) : Prop :=
  (∀ v, v ∈ L.plt ∨ v ∈ L.text →
    (t.prot (pageOf (BitVec.ofNat 64 (L.addr + v)))).read ∧
      (t.prot (pageOf (BitVec.ofNat 64 (L.addr + v)))).exec) ∧
  ∀ e ∈ applied L.relocs, ∀ x, InRange (e.offset + BitVec.ofNat 64 L.addr) 8 x →
    (t.prot (pageOf x)).write

theorem fits_text : L.text.start + L.text.size ≤ L.size := L.fits _ (by simp)

theorem fits_plt : L.plt.start + L.plt.size ≤ L.size := L.fits _ (by simp)

theorem ofNat_toNat {v : ℕ} (hv : v ≤ L.size) :
    (BitVec.ofNat 64 (L.addr + v)).toNat = L.addr + v := by
  have hle := L.addr_le
  rw [pageSize] at hle
  rw [BitVec.toNat_ofNat]
  omega

theorem pageOf_eq {v : ℕ} (hv : v ≤ L.size) :
    pageOf (BitVec.ofNat 64 (L.addr + v)) = L.addr / pageSize + v / pageSize := by
  have haligned := L.addr_aligned
  rw [pageOf, L.ofNat_toNat hv]
  rw [pageSize] at haligned ⊢
  omega

/-- The range given to `mprotect` has exactly the pages of the text. -/
theorem pageIn_text_iff {a : Args} (ha : L.Loads a) {v : ℕ} (hv : v ≤ L.size) :
    PageIn (align (a.addr + a.textStart))
      (alignUp (a.addr + a.textStart + a.textSize) - align (a.addr + a.textStart))
      (pageOf (BitVec.ofNat 64 (L.addr + v))) ↔ L.TextPage v := by
  have hle := L.addr_le
  have hfits := L.fits_text
  have haligned := L.addr_aligned
  have hstart : a.addr + a.textStart = BitVec.ofNat 64 (L.addr + L.text.start) := by
    rw [ha.addr_eq, ha.textStart_eq, BitVec.ofNat_add]
  have hstop : a.addr + a.textStart + a.textSize =
      BitVec.ofNat 64 (L.addr + (L.text.start + L.text.size)) := by
    rw [hstart, ha.textSize_eq, ← BitVec.ofNat_add, Nat.add_assoc]
  have hlow : (align (a.addr + a.textStart)).toNat =
      (L.addr + L.text.start) / pageSize * pageSize := by
    rw [align_toNat, hstart, L.ofNat_toNat (by omega)]
  have hhigh : (alignUp (a.addr + a.textStart + a.textSize)).toNat =
      (L.addr + (L.text.start + L.text.size) + (pageSize - 1)) / pageSize * pageSize := by
    rw [alignUp_toNat, hstop, L.ofNat_toNat (by omega)]
    rw [hstop, L.ofNat_toNat (by omega)]
    omega
  have hlen : (alignUp (a.addr + a.textStart + a.textSize) -
      align (a.addr + a.textStart)).toNat =
      (alignUp (a.addr + a.textStart + a.textSize)).toNat -
        (align (a.addr + a.textStart)).toNat := by
    apply BitVec.toNat_sub_of_le
    rw [BitVec.le_def, hlow, hhigh, pageSize]
    omega
  rw [PageIn, hlen, hlow, hhigh, L.pageOf_eq hv, TextPage]
  rw [pageSize] at haligned ⊢
  omega

theorem pageIn_mapping {a : Args} (ha : L.Loads a) {v : ℕ} (hv : v < L.size) :
    PageIn a.addr a.size (pageOf (BitVec.ofNat 64 (L.addr + v))) := by
  have hle := L.addr_le
  rw [pageSize] at hle
  have haddr : (BitVec.ofNat 64 L.addr).toNat = L.addr := by
    rw [BitVec.toNat_ofNat]
    omega
  have hsize : (BitVec.ofNat 64 L.size).toNat = L.size := by
    rw [BitVec.toNat_ofNat]
    omega
  rw [ha.addr_eq, ha.size_eq, BitVec.ofNat_add]
  apply pageIn_add
  · rw [hsize]
    exact hv
  · rw [haddr, hsize]
    omega

/-- The text pages of the mapping can be run and not written, the others the other way round. -/
theorem prot_eq {a : Args} (ha : L.Loads a) (s : Space) {v : ℕ} (hv : v < L.size) :
    (mapped a s).prot (pageOf (BitVec.ofNat 64 (L.addr + v))) =
      if L.TextPage v then ⟨true, false, true⟩ else ⟨true, true, false⟩ := by
  have htext := L.pageIn_text_iff ha hv.le
  have hmap := L.pageIn_mapping ha hv
  by_cases hp : L.TextPage v
  · rw [if_pos hp]
    exact if_pos (htext.mpr hp)
  · rw [if_neg hp]
    exact (if_neg fun hin => hp (htext.mp hin)).trans (if_pos hmap)

theorem textPage_of_mem_text {v : ℕ} (hv : v ∈ L.text) : L.TextPage v := by
  obtain ⟨hlow, hhigh⟩ := hv
  rw [TextPage, pageSize]
  omega

theorem inRange_word_iff (e : Entry) (x : Addr) :
    InRange (e.offset + BitVec.ofNat 64 L.addr) 8 x ↔
      ∃ i < 8, x = BitVec.ofNat 64 (L.addr + (e.offset.toNat + i)) := by
  have hword : ∀ i, e.offset + BitVec.ofNat 64 L.addr + BitVec.ofNat 64 i =
      BitVec.ofNat 64 (L.addr + (e.offset.toNat + i)) := by
    intro i
    rw [BitVec.ofNat_add, BitVec.ofNat_add, BitVec.ofNat_toNat, BitVec.setWidth_eq]
    ring
  constructor
  · intro h
    obtain ⟨i, hi, hx⟩ := exists_of_inRange h
    exact ⟨i, hi, hx.trans (hword i)⟩
  · intro h
    obtain ⟨i, hi, hx⟩ := h
    rw [hx, ← hword]
    exact inRange_add hi (by norm_num)

theorem word_lt {e : Entry} (he : e ∈ applied L.relocs) {i : ℕ} (hi : i < 8) :
    e.offset.toNat + i < L.size := by
  obtain ⟨d, hd, hlow, hhigh⟩ := L.words e he
  have hfits := L.fits d (by simp [hd])
  omega

/-- The relocated words can be written exactly if none has a byte in a page of the text. -/
theorem writable_iff {a : Args} (ha : L.Loads a) (s : Space) :
    (∀ e ∈ applied L.relocs, ∀ x, InRange (e.offset + BitVec.ofNat 64 L.addr) 8 x →
      ((mapped a s).prot (pageOf x)).write) ↔
        ∀ e ∈ applied L.relocs, ∀ i < 8, ¬ L.TextPage (e.offset.toNat + i) := by
  constructor
  · intro h e he i hi hp
    have hw := h e he _ ((L.inRange_word_iff e _).mpr ⟨i, hi, rfl⟩)
    rw [L.prot_eq ha s (L.word_lt he hi), if_pos hp] at hw
    exact absurd hw (by simp)
  · intro h e he x hx
    obtain ⟨i, hi, rfl⟩ := (L.inRange_word_iff e x).mp hx
    rw [L.prot_eq ha s (L.word_lt he hi), if_neg (h e he i hi)]

theorem stores_iff {a : Args} (ha : L.Loads a) (s : Space) :
    Stores a.addr a.relocs (mapped a s) ↔ ∀ e ∈ applied L.relocs, ∀ x,
      InRange (e.offset + BitVec.ofNat 64 L.addr) 8 x → ((mapped a s).prot (pageOf x)).write := by
  rw [Stores, ha.addr_eq, ha.relocs_eq]
  constructor
  · intro h e he x hx
    obtain ⟨i, hi, rfl⟩ := exists_of_inRange hx
    exact h e he i hi
  · intro h e he i hi
    exact h e he _ (inRange_add hi (by norm_num))

end Layout

/-- The protections with which `reloc` runs the table, and which it leaves when it returns, fit the
image exactly if the stubs lie in the pages of the text and no relocated word does; it returns exactly
if no word does. -/
theorem reloc_protected_iff (L : Layout) (a : Args) (ha : L.Loads a) (s : Space) :
    (L.Protected (mapped a s) ↔ (∀ v ∈ L.plt, L.TextPage v) ∧
      ∀ e ∈ applied L.relocs, ∀ i < 8, ¬ L.TextPage (e.offset.toNat + i)) ∧
    ((∃ t, reloc a.addr a s = some t) ↔
      ∀ e ∈ applied L.relocs, ∀ i < 8, ¬ L.TextPage (e.offset.toNat + i)) ∧
    ∀ t, reloc a.addr a s = some t → t.prot = (mapped a s).prot := by
  refine ⟨?_, ?_, ?_⟩
  · rw [Layout.Protected, L.writable_iff ha s]
    apply and_congr_left
    intro _
    constructor
    · intro hexec v hv
      have hrun := (hexec v (.inl hv)).2
      rw [L.prot_eq ha s (hv.2.trans_le L.fits_plt)] at hrun
      by_contra hp
      rw [if_neg hp] at hrun
      exact absurd hrun (by simp)
    · intro hplt v hv
      have hp : v < L.size ∧ L.TextPage v := by
        cases hv with
        | inl hv => exact ⟨hv.2.trans_le L.fits_plt, hplt v hv⟩
        | inr hv => exact ⟨hv.2.trans_le L.fits_text, L.textPage_of_mem_text hv⟩
      rw [L.prot_eq ha s hp.1, if_pos hp.2]
      exact ⟨rfl, rfl⟩
  · rw [← L.writable_iff ha s, ← L.stores_iff ha s]
    simp only [reloc_eq_some_iff, true_and, exists_and_left, exists_eq, and_true]
  · intro t ht
    rw [(reloc_eq_some_iff.mp ht).2.2]

/-! ## Two layouts -/

def sharedPage : Layout where
  addr := 0x41000000
  size := 0x200000
  plt := ⟨0x3060, 0x260⟩
  text := ⟨0x32c0, 0x250d8⟩
  data := [⟨0x101c80, 0x380⟩]
  relocs := [⟨0x101c80, 0x43000000, rAarch64JumpSlot⟩, ⟨0, 0, 0⟩]
  addr_aligned := by decide
  addr_le := by decide
  fits := by decide
  disjoint := by
    refine .cons ?_ (.cons ?_ (.cons (by simp) .nil))
    · intro s hs
      fin_cases hs <;> exact Sec.disjoint_of_le (by decide)
    · intro s hs
      fin_cases hs
      exact Sec.disjoint_of_le (by decide)
  words := by decide

def stubsBefore : Layout where
  addr := 0x41000000
  size := 0x200000
  plt := ⟨0x1fe0, 0x20⟩
  text := ⟨0x2000, 0x100⟩
  data := []
  relocs := [⟨0, 0, 0⟩]
  addr_aligned := by decide
  addr_le := by decide
  fits := by decide
  disjoint := by
    refine .cons ?_ (.cons (by simp) .nil)
    intro s hs
    fin_cases hs
    exact Sec.disjoint_of_le (by decide)
  words := by decide

def Layout.args (L : Layout) : Args where
  binStart := 0
  binSize := 0
  addr := BitVec.ofNat 64 L.addr
  size := BitVec.ofNat 64 L.size
  romStart := 0
  textStart := BitVec.ofNat 64 L.text.start
  textSize := BitVec.ofNat 64 L.text.size
  bssStart := 0
  bssSize := 0
  relocs := L.relocs

theorem Layout.loads_args (L : Layout) : L.Loads L.args := ⟨rfl, rfl, rfl, rfl, rfl⟩

def noSpace : Space := ⟨fun _ => 0, fun _ => ⟨false, false, false⟩⟩

theorem sharedPage_protected :
    ∃ t, reloc sharedPage.args.addr sharedPage.args noSpace = some t ∧ sharedPage.Protected t := by
  obtain ⟨hiff, hreturns, hprot⟩ :=
    reloc_protected_iff sharedPage sharedPage.args sharedPage.loads_args noSpace
  have hwords : ∀ e ∈ applied sharedPage.relocs, ∀ i < 8,
      ¬ sharedPage.TextPage (e.offset.toNat + i) := by
    decide
  obtain ⟨t, ht⟩ := hreturns.mpr hwords
  refine ⟨t, ht, ?_⟩
  rw [Layout.Protected, hprot t ht]
  refine hiff.mpr ⟨?_, hwords⟩
  intro v hv
  obtain ⟨hlow, hhigh⟩ := hv
  simp only [sharedPage] at hlow hhigh
  simp only [Layout.TextPage, sharedPage, pageSize]
  omega

theorem stubsBefore_not_protected :
    ¬ ∀ t, reloc stubsBefore.args.addr stubsBefore.args noSpace = some t →
      stubsBefore.Protected t := by
  intro h
  have hstores : Stores stubsBefore.args.addr stubsBefore.args.relocs
      (mapped stubsBefore.args noSpace) := by
    decide
  have hexec := ((h _ (reloc_eq_some_iff.mpr ⟨rfl, hstores, rfl⟩)).1 0x1fe0 (.inl (by decide))).2
  change ((mapped stubsBefore.args noSpace).prot _).exec = true at hexec
  rw [stubsBefore.prot_eq stubsBefore.loads_args noSpace (by decide), if_neg (by decide)] at hexec
  exact absurd hexec (by simp)

end Rebench.Reloc
