import Rebench.Bootstrap.HeapStart
import Rebench.Reloc.Image

/-!
# One memory for the libraries and the heap

In the `SEMIHOSTING` build `reloc` neither maps nor protects, and `s_mmap` cuts
its blocks off above the libraries. Each window and each block still behaves as
a memory of its own: it holds what its owner loaded or stored there, and
whatever no one owns stays as it was.
-/
namespace Rebench.Bootstrap
open Machine Heap Reloc

/-! ## Loading in a window -/

/-- The library is loaded in the window, by a table with the entries. -/
structure Loads (w : Block) (a : Args) (es : List Entry) : Prop where
  addr : a.addr.toNat = w.start
  size : a.size.toNat = w.size
  fits : Fits a es
  table : Table es a.relocs

section Windows
variable {w : Block} {a : Args} {es : List Entry} {m m' : Mem} {x : Addr} {off : Word} {n : ℕ}

theorem Loads.mem_of_inRange (h : Loads w a es) (hoff : off.toNat + n ≤ a.size.toNat)
    (hx : InRange (off + a.addr) n x) : x.toNat ∈ w := by
  have hsize := a.size.isLt
  have hmapping := h.fits.mapping
  rw [inRange_offset_iff (by omega)] at hx
  rw [Block.mem_def, Block.stop, ← h.addr, ← h.size]
  rw [BitVec.toNat_sub] at hx
  have hlt := x.isLt
  have haddr := a.addr.isLt
  omega

/-- The bytes outside the window stay as they are. -/
theorem Loads.relocSemihosting_other (h : Loads w a es) (hx : x.toNat ∉ w) :
    relocSemihosting a m x = m x := by
  apply (built_of_fits h.fits h.table fun _ _ => rfl).other
  · exact fun hrom => hx (h.mem_of_inRange h.fits.rom hrom)
  · exact fun hbss => hx (h.mem_of_inRange h.fits.bss hbss)
  · exact fun e he hcovers => hx (h.mem_of_inRange (h.fits.word e he) hcovers)

/-- What stands at an address depends on the image and on what stood there. -/
theorem Loads.relocSemihosting_congr (h : Loads w a es)
    (hsource : ∀ y, InRange a.binStart a.binSize.toNat y → m y = m' y) (hx : m x = m' x) :
    relocSemihosting a m x = relocSemihosting a m' x := by
  have hbuilt : Built a es m m (relocSemihosting a m) :=
    built_of_fits h.fits h.table fun _ _ => rfl
  have hbuilt' : Built a es m m' (relocSemihosting a m') :=
    built_of_fits h.fits h.table fun y hy => (hsource y hy).symm
  by_cases hcovers : ∃ e ∈ es, e.Covers a.addr x
  · obtain ⟨e, he, hcovers⟩ := hcovers
    obtain ⟨i, hi, rfl⟩ := exists_of_inRange hcovers
    have hword := (hbuilt.word e he).trans (hbuilt'.word e he).symm
    have hbyte := congrArg (fun v => byteOf v i) hword
    simp only [byteOf_read64 hi] at hbyte
    exact hbyte
  replace hcovers : ∀ e ∈ es, ¬ e.Covers a.addr x := fun e he hc => hcovers ⟨e, he, hc⟩
  by_cases hbss : InRange (a.bssStart + a.addr) a.bssSize.toNat x
  · rw [hbuilt.bss x hbss, hbuilt'.bss x hbss]
  by_cases hrom : InRange (a.romStart + a.addr) a.binSize.toNat x
  · rw [hbuilt.rom x hrom hbss hcovers, hbuilt'.rom x hrom hbss hcovers]
  · rw [hbuilt.other x hrom hbss hcovers, hbuilt'.other x hrom hbss hcovers, hx]

end Windows

/-! ## Runs -/

/-- The allocator asks for memory or gives it back, or an owner stores a byte. -/
inductive Action
  | mmap (len : Word)
  | madvise (addr len : Word)
  | munmap (addr len : Word)
  | store (owner offset : ℕ) (value : Byte)

def place (b : Block) (offset : ℕ) : Addr := BitVec.ofNat 64 (b.start + offset)

def step (ram : Ram) (h : Trace) : Action → Trace
  | .mmap len => h.mmap ram len
  | .madvise addr len => { h with semi := (h.semi.sMadvise addr len).2 }
  | .munmap addr len => { h with semi := (h.semi.sMunmap addr len).2 }
  | .store owner offset value =>
    match h.blocks[owner]? with
    | some b => { h with semi := { h.semi with mem := h.semi.mem.write8 (place b offset) value } }
    | none => h

/-- The increment of a request is its length or is refused, and an owner stores in its block. -/
def Legal (ram : Ram) (h : Trace) : Action → Prop
  | .mmap len => ExactStep ram h len
  | .madvise _ _ => True
  | .munmap _ _ => True
  | .store owner offset _ => ∃ b, h.blocks[owner]? = some b ∧ offset < b.size

/-- A byte as its owner sees it, in a memory of its own. -/
def seen (owner offset : ℕ) (v : Byte) : Action → Byte
  | .store owner' offset' value => if owner' = owner ∧ offset' = offset then value else v
  | .mmap _ | .madvise _ _ | .munmap _ _ => v

def boot (ram : Ram) (brk : Addr) (mem : Mem) (jemalloc stdlib : Args) : Trace :=
  ⟨⟨relocSemihosting stdlib (relocSemihosting jemalloc mem), (bootstrap ram brk).2⟩,
    [jemallocWindow, stdlibWindow]⟩

/-- What the owner finds in its block: its library as if it were loaded alone, or what stood in
memory before. -/
def found (mem : Mem) (jemalloc stdlib : Args) : ℕ → Mem
  | 0 => relocSemihosting jemalloc mem
  | 1 => relocSemihosting stdlib mem
  | _ + 2 => mem

section Steps
variable {ram : Ram} {h t : Trace} {a : Action} {b c : Block} {i k l lo : ℕ} {x : Addr}

theorem toNat_place (hb : b.stop ≤ 2 ^ 64) (hk : k < b.size) : (place b k).toNat = b.start + k := by
  rw [Block.stop] at hb
  rw [place, BitVec.toNat_ofNat, Nat.mod_eq_of_lt (by omega)]

theorem toNat_place_mem (hb : b.stop ≤ 2 ^ 64) (hk : k < b.size) : (place b k).toNat ∈ b := by
  rw [toNat_place hb hk, Block.mem_def, Block.stop]
  omega

theorem blocks_step (ram : Ram) (h : Trace) (a : Action) : h.blocks <+: (step ram h a).blocks := by
  cases a with
  | mmap len =>
    rw [step, mmap_blocks]
    split_ifs
    · exact List.prefix_rfl
    · exact List.prefix_append _ _
  | madvise addr len => exact List.prefix_rfl
  | munmap addr len => exact List.prefix_rfl
  | store owner offset value =>
    rw [step]
    split <;> exact List.prefix_rfl

theorem blocks_run (ram : Ram) (h : Trace) (as : List Action) :
    h.blocks <+: (as.foldl (step ram) h).blocks := by
  induction as generalizing h with
  | nil => exact List.prefix_rfl
  | cons a as ih => exact (blocks_step ram h a).trans (ih (step ram h a))

theorem getElem?_of_blocks (hle : h.blocks <+: t.blocks) (hb : h.blocks[i]? = some b) :
    t.blocks[i]? = some b := by
  obtain ⟨more, hmore⟩ := hle
  obtain ⟨hi, rfl⟩ := List.getElem?_eq_some_iff.mp hb
  rw [← hmore, List.getElem?_append_left hi, List.getElem?_eq_getElem hi]

theorem stop_le (hs : Stacked lo h) (hb : h.blocks[i]? = some b) : b.stop ≤ 2 ^ 64 := by
  have hbrk := (hs.within b (List.mem_of_getElem? hb)).2
  have hlt := h.semi.brk.isLt
  omega

theorem place_ne (hs : Stacked lo h) (hb : h.blocks[i]? = some b) (hk : k < b.size)
    {j : ℕ} (hc : h.blocks[j]? = some c) (hl : l < c.size) (hne : j ≠ i) : place b k ≠ place c l := by
  intro heq
  have hin := toNat_place_mem (stop_le hs hb) hk
  have hin' := toNat_place_mem (stop_le hs hc) hl
  obtain ⟨hi, rfl⟩ := List.getElem?_eq_some_iff.mp hb
  obtain ⟨hj, rfl⟩ := List.getElem?_eq_some_iff.mp hc
  have hpairs := List.pairwise_iff_getElem.mp hs.pairwise
  rcases lt_or_gt_of_ne hne with hlt | hgt
  · exact hpairs j i hj hi hlt _ hin' (heq ▸ hin)
  · exact hpairs i j hi hj hgt _ hin (heq ▸ hin')

theorem stacked_step (hs : Stacked lo h) (hlo : lo ≤ h.semi.brk.toNat) (hlegal : Legal ram h a) :
    Stacked lo (step ram h a) ∧ lo ≤ (step ram h a).semi.brk.toNat := by
  cases a with
  | mmap len => exact stacked_mmap hs hlo hlegal
  | madvise addr len => exact ⟨⟨hs.within, hs.pairwise⟩, hlo⟩
  | munmap addr len => exact ⟨⟨hs.within, hs.pairwise⟩, hlo⟩
  | store owner offset value =>
    rw [step]
    split
    · exact ⟨⟨hs.within, hs.pairwise⟩, hlo⟩
    · exact ⟨hs, hlo⟩

/-- A byte of a block changes as its owner sees it, also before the block is handed out. -/
theorem mem_step (hs : Stacked lo t) (hle : h.blocks <+: t.blocks) (hlegal : Legal ram h a)
    (hb : t.blocks[i]? = some b) (hk : k < b.size) :
    (step ram h a).semi.mem (place b k) = seen i k (h.semi.mem (place b k)) a := by
  cases a with
  | mmap len => rfl
  | madvise addr len => rfl
  | munmap addr len => rfl
  | store owner offset value =>
    obtain ⟨c, hc, hoffset⟩ := hlegal
    have hc' := getElem?_of_blocks hle hc
    rw [step, hc, seen]
    dsimp only
    by_cases howner : owner = i
    · obtain rfl := howner
      obtain rfl := Option.some.inj (hc'.symm.trans hb)
      by_cases hsame : offset = k
      · rw [if_pos ⟨rfl, hsame⟩, hsame, write8_self]
      · rw [if_neg (hsame ·.2), write8_of_ne]
        intro heq
        have hnat := congrArg BitVec.toNat heq
        rw [toNat_place (stop_le hs hb) hk, toNat_place (stop_le hs hb) hoffset] at hnat
        omega
    · rw [if_neg (howner ·.1), write8_of_ne (place_ne hs hb hk hc' hoffset howner)]

/-- What lies in no block stays. -/
theorem mem_step_other (hs : Stacked lo t) (hle : h.blocks <+: t.blocks) (hlegal : Legal ram h a)
    (hx : ∀ b ∈ t.blocks, x.toNat ∉ b) : (step ram h a).semi.mem x = h.semi.mem x := by
  cases a with
  | mmap len => rfl
  | madvise addr len => rfl
  | munmap addr len => rfl
  | store owner offset value =>
    obtain ⟨c, hc, hoffset⟩ := hlegal
    have hc' := getElem?_of_blocks hle hc
    rw [step, hc]
    apply write8_of_ne
    rintro rfl
    exact hx c (List.mem_of_getElem? hc') (toNat_place_mem (stop_le hs hc') hoffset)

theorem stacked_run {as : List Action} (hs : Stacked lo h) (hlo : lo ≤ h.semi.brk.toNat)
    (hlegal : Always (step ram) (Legal ram) h as) : Stacked lo (as.foldl (step ram) h) :=
  (always_invariant (I := fun h => Stacked lo h ∧ lo ≤ h.semi.brk.toNat)
    (fun _ _ hI hstep => stacked_step hI.1 hI.2 hstep) ⟨hs, hlo⟩ hlegal).1

/-- A byte of a block holds what its owner stored last. -/
theorem mem_run {as : List Action} (hs : Stacked lo (as.foldl (step ram) h))
    (hlegal : Always (step ram) (Legal ram) h as)
    (hb : (as.foldl (step ram) h).blocks[i]? = some b) (hk : k < b.size) :
    (as.foldl (step ram) h).semi.mem (place b k) =
      as.foldl (seen i k) (h.semi.mem (place b k)) := by
  induction as generalizing h with
  | nil => rfl
  | cons a as ih =>
    have hle := blocks_run ram h (a :: as)
    rw [List.foldl_cons, List.foldl_cons, ← mem_step hs hle hlegal.1 hb hk]
    exact ih hs hlegal.2 hb

theorem mem_run_other {as : List Action} (hs : Stacked lo (as.foldl (step ram) h))
    (hlegal : Always (step ram) (Legal ram) h as)
    (hx : ∀ b ∈ (as.foldl (step ram) h).blocks, x.toNat ∉ b) :
    (as.foldl (step ram) h).semi.mem x = h.semi.mem x := by
  induction as generalizing h with
  | nil => rfl
  | cons a as ih =>
    have hle := blocks_run ram h (a :: as)
    rw [List.foldl_cons, ih hs hlegal.2 hx, mem_step_other hs hle hlegal.1 hx]

end Steps

section Boot
variable {ram : Ram} {brk : Addr} {mem : Mem} {jemalloc stdlib : Args} {es es' : List Entry}
  {b : Block} {i k : ℕ} {x : Addr}

theorem heapStart_le (hok : Succeeds (bootstrap ram brk).1) :
    0x44000000 ≤ (bootstrap ram brk).2.toNat := by
  by_cases hlow : brk.toNat < 0x43fff000
  · rw [bootstrap_low hlow hok]
    exact (by decide : 0x44000000 ≤ heapStart.toNat)
  · obtain ⟨hrun, hsum⟩ := bootstrap_high (by omega) hok
    rw [hrun]
    exact hsum ▸ (by omega)

theorem windows_disjoint : jemallocWindow.Disjoint stdlibWindow :=
  Block.disjoint_of_le (by decide)

theorem stacked_boot (hok : Succeeds (bootstrap ram brk).1) :
    Stacked jemallocWindow.start (boot ram brk mem jemalloc stdlib) := by
  have hle := heapStart_le hok
  have hstop : ∀ w ∈ [jemallocWindow, stdlibWindow],
      jemallocWindow.start ≤ w.start ∧ w.stop ≤ 0x44000000 := by
    decide
  constructor
  · intro w hw
    exact ⟨(hstop w hw).1, (hstop w hw).2.trans hle⟩
  · exact List.pairwise_pair.mpr windows_disjoint

theorem boot_other (hjemalloc : Loads jemallocWindow jemalloc es)
    (hstdlib : Loads stdlibWindow stdlib es') (hx : x.toNat ∉ jemallocWindow)
    (hx' : x.toNat ∉ stdlibWindow) :
    (boot ram brk mem jemalloc stdlib).semi.mem x = mem x :=
  (hstdlib.relocSemihosting_other hx').trans (hjemalloc.relocSemihosting_other hx)

/-- Each library stands in its window as if it had been loaded alone. -/
theorem boot_found (hjemalloc : Loads jemallocWindow jemalloc es)
    (hstdlib : Loads stdlibWindow stdlib es')
    (hsource : ∀ y, InRange stdlib.binStart stdlib.binSize.toNat y → y.toNat ∉ jemallocWindow)
    {bs : List Block} (hbs : bs.Pairwise Block.Disjoint)
    (hwindows : [jemallocWindow, stdlibWindow] <+: bs) (hb : bs[i]? = some b) (hx : x.toNat ∈ b) :
    (boot ram brk mem jemalloc stdlib).semi.mem x = found mem jemalloc stdlib i x := by
  obtain ⟨later, rfl⟩ := hwindows
  rw [List.cons_append, List.cons_append, List.nil_append, List.pairwise_cons,
    List.pairwise_cons] at hbs
  match i with
  | 0 =>
    obtain rfl := Option.some.inj hb
    exact hstdlib.relocSemihosting_other (windows_disjoint _ hx)
  | 1 =>
    obtain rfl := Option.some.inj hb
    apply hstdlib.relocSemihosting_congr
    · intro y hy
      exact hjemalloc.relocSemihosting_other (hsource y hy)
    · exact hjemalloc.relocSemihosting_other (windows_disjoint.symm _ hx)
  | i + 2 =>
    have hlater : b ∈ later := List.mem_of_getElem? hb
    apply boot_other hjemalloc hstdlib
    · exact (hbs.1 b (List.mem_cons_of_mem _ hlater)).symm _ hx
    · exact (hbs.2.1 b hlater).symm _ hx

/-- Behind every run of requests and stores the windows and the blocks are apart. Every byte of one
holds what its owner stored there last, or its library as if it were loaded alone, or what stood there
before; every byte of none is as before `bootstrap`. -/
theorem boot_isolated (hok : Succeeds (bootstrap ram brk).1)
    (hjemalloc : Loads jemallocWindow jemalloc es) (hstdlib : Loads stdlibWindow stdlib es')
    (hsource : ∀ y, InRange stdlib.binStart stdlib.binSize.toNat y → y.toNat ∉ jemallocWindow)
    (actions : List Action)
    (hlegal : Always (step ram) (Legal ram) (boot ram brk mem jemalloc stdlib) actions)
    {h : Trace} (hrun : actions.foldl (step ram) (boot ram brk mem jemalloc stdlib) = h) :
    [jemallocWindow, stdlibWindow] <+: h.blocks ∧ h.blocks.Pairwise Block.Disjoint ∧
      (∀ i b k, h.blocks[i]? = some b → k < b.size → h.semi.mem (place b k) =
        actions.foldl (seen i k) (found mem jemalloc stdlib i (place b k))) ∧
      ∀ x, (∀ b ∈ h.blocks, x.toNat ∉ b) → h.semi.mem x = mem x := by
  have hstart : Stacked jemallocWindow.start (boot ram brk mem jemalloc stdlib) := stacked_boot hok
  have hlo : jemallocWindow.start ≤ (boot ram brk mem jemalloc stdlib).semi.brk.toNat :=
    le_trans (by decide) (heapStart_le hok)
  have hs := stacked_run hstart hlo hlegal
  have hwindows : [jemallocWindow, stdlibWindow] <+: h.blocks :=
    hrun ▸ blocks_run ram (boot ram brk mem jemalloc stdlib) actions
  rw [hrun] at hs
  refine ⟨hwindows, hs.pairwise, ?_, ?_⟩
  · intro i b k hb hk
    have hin := toNat_place_mem (stop_le hs hb) hk
    rw [← boot_found hjemalloc hstdlib hsource hs.pairwise hwindows hb hin]
    rw [← hrun] at hs hb ⊢
    exact mem_run hs hlegal hb hk
  · intro x hx
    have hboot : (boot ram brk mem jemalloc stdlib).semi.mem x = mem x :=
      boot_other hjemalloc hstdlib (hx _ (hwindows.subset (by simp)))
        (hx _ (hwindows.subset (by simp)))
    rw [← hboot]
    rw [← hrun] at hs hx ⊢
    exact mem_run_other hs hlegal hx

end Boot

def oneWord (addr : Word) : Args where
  binStart := 0x10000
  binSize := 0x40
  addr := addr
  size := 0x00200000
  romStart := 0x10
  textStart := 0x10
  textSize := 0x10
  bssStart := 0x50
  bssSize := 0x10
  relocs := [⟨0x20, 5, rAarch64Relative⟩, ⟨0, 0, 0⟩]

theorem loads_oneWord {w : Block} (hw : w = jemallocWindow ∨ w = stdlibWindow) :
    Loads w (oneWord (BitVec.ofNat 64 w.start)) [⟨0x20, 5, rAarch64Relative⟩] := by
  have hfits : Fits (oneWord (BitVec.ofNat 64 w.start)) [⟨0x20, 5, rAarch64Relative⟩] := by
    constructor
    · rcases hw with rfl | rfl <;> decide
    · intro x hx hpage
      obtain ⟨i, hi, rfl⟩ := exists_of_inRange hx
      have hlow := hpage.1
      have hlt : i < 0x40 := hi
      have hstart : (0x10000 : Addr).toNat = 0x10000 := rfl
      have hpageOf : pageOf ((0x10000 : Addr) + BitVec.ofNat 64 i) = 16 := by
        rw [pageOf, BitVec.toNat_add, BitVec.toNat_ofNat, hstart, pageSize]
        omega
      replace hlow : pageOf (BitVec.ofNat 64 w.start) ≤
        pageOf ((0x10000 : Addr) + BitVec.ofNat 64 i) := hlow
      rw [hpageOf] at hlow
      rcases hw with rfl | rfl <;> exact absurd hlow (by decide)
    · rcases hw with rfl | rfl <;> decide
    · rcases hw with rfl | rfl <;> decide
    · exact List.forall_mem_singleton.mpr (by rcases hw with rfl | rfl <;> decide)
    · exact List.pairwise_singleton _ _
    · intro e he
      rw [List.mem_singleton.mp he]
      apply Block.disjoint_of_le
      rcases hw with rfl | rfl <;> decide
  refine ⟨?_, ?_, hfits, by decide, ⟨0, 0, 0⟩, [], rfl, rfl⟩
  · rcases hw with rfl | rfl <;> rfl
  · rcases hw with rfl | rfl <;> rfl

def storing : List Action := [.mmap 0x1000, .store 2 5 7, .munmap 0x44000000 0x1000, .store 0 5 8]

theorem boot_isolated_storing :
    (storing.foldl (step ⟨0x40000000, 0x60000000, by decide⟩)
      (boot ⟨0x40000000, 0x60000000, by decide⟩ 0x40200000 (fun _ => 0) (oneWord 0x41000000)
        (oneWord 0x42000000))).semi.mem 0x44000005 = 7 := by
  have hlegal : Always (step ⟨0x40000000, 0x60000000, by decide⟩)
      (Legal ⟨0x40000000, 0x60000000, by decide⟩)
      (boot ⟨0x40000000, 0x60000000, by decide⟩ 0x40200000 (fun _ => 0) (oneWord 0x41000000)
        (oneWord 0x42000000)) storing := by
    refine ⟨.inl (by decide), ⟨⟨0x44000000, 0x1000⟩, ?_, by decide⟩, trivial,
      ⟨jemallocWindow, rfl, by decide⟩, trivial⟩
    decide +kernel
  refine (boot_isolated (by decide +kernel) (loads_oneWord (.inl rfl)) (loads_oneWord (.inr rfl)) ?_
    storing hlegal rfl).2.2.1 2 ⟨0x44000000, 0x1000⟩ 5 (by decide +kernel) (by decide)
  intro y hy
  obtain ⟨i, hi, rfl⟩ := exists_of_inRange hy
  have hlt : i < 0x40 := hi
  have hstart : (0x10000 : Addr).toNat = 0x10000 := rfl
  rw [Block.mem_def, BitVec.toNat_add, BitVec.toNat_ofNat]
  change ¬ (0x41000000 ≤ _ ∧ _)
  change ¬ (0x41000000 ≤ ((0x10000 : Addr).toNat + _) % _ ∧ _)
  omega

end Rebench.Bootstrap
