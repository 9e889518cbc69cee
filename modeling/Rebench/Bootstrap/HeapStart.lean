import Rebench.Bootstrap.Source
import Rebench.Heap.FreshBlocks

/-!
# Where the heap begins

`bootstrap` leaves the break at `HEAP_START` or above, so that the blocks of the
allocator lie behind the windows of the two libraries.
-/
namespace Rebench.Bootstrap
open Machine Heap

/-- `[LIB_START, LIB_START + LIB_SIZE)` of jemalloc.c. -/
def jemallocWindow : Block := ⟨0x41000000, 0x00200000⟩

/-- `[LIB_START, LIB_START + LIB_SIZE)` of stdlib.c. -/
def stdlibWindow : Block := ⟨0x42000000, 0x00200000⟩

def Succeeds (calls : List SbrkCall) : Prop := ∀ c ∈ calls, c.result ≠ mapFailed

instance : DecidablePred Succeeds := fun _ => inferInstanceAs (Decidable (∀ _ ∈ _, _))

section Break
variable {ram : Ram} {brk : Addr} {incr : BitVec 32}

theorem sbrk_moves {p b : Addr} (hcall : sbrk ram incr brk = (p, b)) (hne : p ≠ mapFailed) :
    p = brk ∧ (b.toNat : ℤ) = brk.toNat + incr.toInt := by
  cases sbrk_cases ram incr brk with
  | inl hfail =>
    rw [hcall] at hfail
    exact absurd (congrArg Prod.fst hfail) hne
  | inr hmove =>
    rw [hcall] at hmove
    exact hmove

theorem toNat_add_page (h : brk.toNat + 0x1000 < 2 ^ 64) :
    (brk + 0x1000).toNat = brk.toNat + 0x1000 :=
  BitVec.toNat_add_of_lt h

theorem toNat_limit : (heapStart - 0x1000).toNat = 0x43fff000 := by decide

theorem lt_limit_iff : brk < heapStart - 0x1000 ↔ brk.toNat < 0x43fff000 := by
  rw [BitVec.lt_def, toNat_limit]

/-- The second increment is the distance to the start of the heap, less a page. -/
theorem toInt_distance (hlow : brk.toNat < 0x43fff000) :
    ((heapStart - 0x1000 - brk).setWidth 32).toInt = 0x43fff000 - brk.toNat := by
  have hdiff : (heapStart - 0x1000 - brk).toNat = 0x43fff000 - brk.toNat := by
    rw [BitVec.toNat_sub_of_le, toNat_limit]
    rw [BitVec.le_def, toNat_limit]
    omega
  rw [toInt_setWidth (by omega), hdiff]
  omega

theorem bootstrap_of_lt {p b₁ : Addr} (hfirst : sbrk ram 0x1000 brk = (p, b₁))
    (hlt : p < heapStart - 0x1000) :
    ∃ q r b₂ b₃, sbrk ram ((heapStart - 0x1000 - p).setWidth 32) b₁ = (q, b₂) ∧
      sbrk ram 0 b₂ = (r, b₃) ∧ bootstrap ram brk =
        ([⟨0x1000, p⟩, ⟨(heapStart - 0x1000 - p).setWidth 32, q⟩, ⟨0, r⟩], b₃) := by
  obtain ⟨incr, hincr⟩ : ∃ x, (heapStart - 0x1000 - p).setWidth 32 = x := ⟨_, rfl⟩
  obtain ⟨⟨q, b₂⟩, hsecond⟩ : ∃ x, sbrk ram incr b₁ = x := ⟨_, rfl⟩
  obtain ⟨⟨r, b₃⟩, hthird⟩ : ∃ x, sbrk ram 0 b₂ = x := ⟨_, rfl⟩
  rw [hincr]
  refine ⟨q, r, b₂, b₃, hsecond, hthird, ?_⟩
  rw [bootstrap, hfirst]
  dsimp only
  rw [if_pos hlt, hincr, hsecond]
  dsimp only
  rw [hthird]

theorem bootstrap_of_ge {p b₁ : Addr} (hfirst : sbrk ram 0x1000 brk = (p, b₁))
    (hge : ¬ p < heapStart - 0x1000) : bootstrap ram brk = ([⟨0x1000, p⟩], b₁) := by
  rw [bootstrap, hfirst]
  exact if_neg hge

theorem succeeds_cons {c : SbrkCall} {cs : List SbrkCall} :
    Succeeds (c :: cs) ↔ c.result ≠ mapFailed ∧ Succeeds cs :=
  List.forall_mem_cons

theorem sbrk_first {p b₁ : Addr} (hfirst : sbrk ram 0x1000 brk = (p, b₁))
    (hok : Succeeds (bootstrap ram brk).1) : p = brk ∧ (b₁.toNat : ℤ) = brk.toNat + 0x1000 := by
  have hne : p ≠ mapFailed := by
    by_cases hlt : p < heapStart - 0x1000
    · obtain ⟨q, r, b₂, b₃, -, -, hrun⟩ := bootstrap_of_lt hfirst hlt
      rw [hrun] at hok
      exact (succeeds_cons.mp hok).1
    · rw [bootstrap_of_ge hfirst hlt] at hok
      exact (succeeds_cons.mp hok).1
  exact sbrk_moves hfirst hne

/-- Below `HEAP_START - 0x1000` the second call moves the break to `HEAP_START`. -/
theorem bootstrap_low (hlow : brk.toNat < 0x43fff000) (hok : Succeeds (bootstrap ram brk).1) :
    bootstrap ram brk = ([⟨0x1000, brk⟩, ⟨(heapStart - 0x1000 - brk).setWidth 32, brk + 0x1000⟩,
      ⟨0, heapStart⟩], heapStart) := by
  obtain ⟨⟨p, b₁⟩, hfirst⟩ : ∃ x, sbrk ram 0x1000 brk = x := ⟨_, rfl⟩
  obtain ⟨rfl, hb₁⟩ := sbrk_first hfirst hok
  obtain ⟨q, r, b₂, b₃, hsecond, hthird, hrun⟩ := bootstrap_of_lt hfirst (lt_limit_iff.mpr hlow)
  rw [hrun] at hok
  have htail := (succeeds_cons.mp hok).2
  obtain ⟨rfl, hb₂⟩ := sbrk_moves hsecond (succeeds_cons.mp htail).1
  obtain ⟨rfl, hb₃⟩ := sbrk_moves hthird (succeeds_cons.mp (succeeds_cons.mp htail).2).1
  have hzero : (0 : BitVec 32).toInt = 0 := rfl
  have hstart : heapStart.toNat = 0x44000000 := by decide
  rw [toInt_distance hlow] at hb₂
  rw [hzero] at hb₃
  have hpage : q = p + 0x1000 := by
    apply BitVec.eq_of_toNat_eq
    rw [toNat_add_page (by omega)]
    omega
  have hsecond : r = heapStart := BitVec.eq_of_toNat_eq (by omega)
  have hthird : b₃ = heapStart := BitVec.eq_of_toNat_eq (by omega)
  rw [hrun, hpage, hsecond, hthird]

theorem bootstrap_high (hhigh : 0x43fff000 ≤ brk.toNat) (hok : Succeeds (bootstrap ram brk).1) :
    bootstrap ram brk = ([⟨0x1000, brk⟩], brk + 0x1000) ∧
      (brk + 0x1000).toNat = brk.toNat + 0x1000 := by
  obtain ⟨⟨p, b₁⟩, hfirst⟩ : ∃ x, sbrk ram 0x1000 brk = x := ⟨_, rfl⟩
  obtain ⟨rfl, hb₁⟩ := sbrk_first hfirst hok
  have hge : ¬ p < heapStart - 0x1000 := by
    rw [lt_limit_iff]
    omega
  have hlt := b₁.isLt
  have hsum : (p + 0x1000).toNat = p.toNat + 0x1000 := toNat_add_page (by omega)
  have hpage : b₁ = p + 0x1000 := BitVec.eq_of_toNat_eq (by omega)
  exact ⟨by rw [bootstrap_of_ge hfirst hge, hpage], hsum⟩

/-- Short requests keep the blocks between the first break and the last. -/
theorem stacked_of_short (ram : Ram) {lo : ℕ} {h : Trace} (hs : Stacked lo h)
    (hlo : lo ≤ h.semi.brk.toNat) {lens : List Word} (hlens : ∀ len ∈ lens, len.toNat < 2 ^ 31) :
    Stacked lo (lens.foldl (Trace.mmap ram) h) := by
  have hexact : Always (Trace.mmap ram) (ExactStep ram) h lens := by
    apply always_of_forall
    intro len hlen h
    exact .inl (hlens len hlen)
  have hend := always_invariant (I := fun h => Stacked lo h ∧ lo ≤ h.semi.brk.toNat)
    (fun _ _ hI hstep => stacked_mmap hI.1 hI.2 hstep) ⟨hs, hlo⟩ hexact
  exact hend.1

end Break

/-- If no call of `_sbrk` fails, `bootstrap` makes three calls where the break is more than a page
below `HEAP_START`, the second with the distance to the last page below, and one elsewhere. It leaves
the break at `HEAP_START` or above, exactly there if it began a page or more below, and the blocks of
all later short requests overlap neither each other nor a library window. -/
theorem bootstrap_heapStart (ram : Ram) (brk : Addr) (mem : Mem)
    (hok : Succeeds (bootstrap ram brk).1) :
    (brk.toNat < heapStart.toNat - 0x1000 → ∃ incr,
        incr.toInt = (heapStart.toNat : ℤ) - 0x1000 - brk.toNat ∧ bootstrap ram brk =
          ([⟨0x1000, brk⟩, ⟨incr, brk + 0x1000⟩, ⟨0, heapStart⟩], heapStart)) ∧
      (heapStart.toNat - 0x1000 ≤ brk.toNat →
        bootstrap ram brk = ([⟨0x1000, brk⟩], brk + 0x1000) ∧
          (bootstrap ram brk).2.toNat = brk.toNat + 0x1000) ∧
      heapStart.toNat ≤ (bootstrap ram brk).2.toNat ∧
      ((bootstrap ram brk).2 = heapStart ↔ brk.toNat ≤ heapStart.toNat - 0x1000) ∧
      ∀ lens : List Word, (∀ len ∈ lens, len.toNat < 2 ^ 31) →
        (lens.foldl (Trace.mmap ram) ⟨⟨mem, (bootstrap ram brk).2⟩, []⟩).blocks.Pairwise
            Block.Disjoint ∧
          ∀ b ∈ (lens.foldl (Trace.mmap ram) ⟨⟨mem, (bootstrap ram brk).2⟩, []⟩).blocks,
            b.Disjoint jemallocWindow ∧ b.Disjoint stdlibWindow := by
  have hstart : heapStart.toNat = 0x44000000 := by decide
  have hlow : brk.toNat < heapStart.toNat - 0x1000 → ∃ incr,
      incr.toInt = (heapStart.toNat : ℤ) - 0x1000 - brk.toNat ∧ bootstrap ram brk =
        ([⟨0x1000, brk⟩, ⟨incr, brk + 0x1000⟩, ⟨0, heapStart⟩], heapStart) := by
    rw [hstart]
    intro h
    exact ⟨_, toInt_distance h, bootstrap_low h hok⟩
  have hhigh : heapStart.toNat - 0x1000 ≤ brk.toNat →
      bootstrap ram brk = ([⟨0x1000, brk⟩], brk + 0x1000) ∧
        (bootstrap ram brk).2.toNat = brk.toNat + 0x1000 := by
    rw [hstart]
    intro h
    obtain ⟨hrun, hsum⟩ := bootstrap_high h hok
    exact ⟨hrun, hrun ▸ hsum⟩
  have hbreak : heapStart.toNat ≤ (bootstrap ram brk).2.toNat ∧
      ((bootstrap ram brk).2 = heapStart ↔ brk.toNat ≤ heapStart.toNat - 0x1000) := by
    rw [BitVec.toNat_eq]
    rcases Nat.lt_or_ge brk.toNat (heapStart.toNat - 0x1000) with h | h
    · obtain ⟨incr, -, hrun⟩ := hlow h
      rw [hrun]
      exact ⟨le_rfl, iff_of_true rfl h.le⟩
    · have hsum := (hhigh h).2
      omega
  refine ⟨hlow, hhigh, hbreak.1, hbreak.2, ?_⟩
  intro lens hlens
  have hs : Stacked heapStart.toNat ⟨⟨mem, (bootstrap ram brk).2⟩, []⟩ :=
    ⟨by simp, List.Pairwise.nil⟩
  have hstacked := stacked_of_short ram hs hbreak.1 hlens
  refine ⟨hstacked.pairwise, ?_⟩
  intro b hb
  have hin := (hstacked.within b hb).1
  have hjemalloc : jemallocWindow.stop ≤ heapStart.toNat := by decide
  have hstdlib : stdlibWindow.stop ≤ heapStart.toNat := by decide
  constructor
  · exact (Block.disjoint_of_le (hjemalloc.trans hin)).symm
  · exact (Block.disjoint_of_le (hstdlib.trans hin)).symm

/-- A program that ends at 0x40200000. -/
theorem bootstrap_heapStart_small :
    (bootstrap ⟨0x40000000, 0x60000000, by decide⟩ 0x40200000).2 = heapStart :=
  (bootstrap_heapStart ⟨0x40000000, 0x60000000, by decide⟩ 0x40200000 (fun _ => 0)
    (by decide +kernel)).2.2.2.1.mpr (by decide)

end Rebench.Bootstrap
