import Rebench.Heap.Source
import Rebench.Machine.Run

/-!
# Zero pages in the two builds

One history of calls and writes is run in both builds at once, and every mapped
page of the Linux build is linked to the page of the `SEMIHOSTING` build that
stands for it. There a page holds what was last written to it, whether or not it
was given up in between.
-/
namespace Rebench.Heap
open Machine

/-! ## Histories in lockstep -/

inductive Event where
  | mmap (answer : Addr) (len : Word)
  | madvise (addr : Addr) (len : Word)
  | munmap (addr : Addr) (len : Word)
  | write (x : Addr) (v : Byte)

/-- The two builds, and the start of the page that stands for a page of the Linux build. -/
structure Pair where
  linux : Kernel
  semi : Semi
  twin : ℕ → Option Addr

namespace Pair
variable (ram : Ram) (s : Pair)

def twinByte (x : Addr) : Option Addr :=
  (s.twin (pageOf x)).map (· + BitVec.ofNat 64 (x.toNat % pageSize))

/-- An event in both builds. The application writes to mapped pages only, and the kernel answers
with free pages; a page is linked if both builds had memory for it. -/
def step (s : Pair) (e : Event) : Except Event Pair :=
  match e with
  | .mmap answer len =>
    if s.linux.Answers answer len then
      let l := s.linux.sMmap answer len
      let m := s.semi.sMmap ram len
      .ok {
        linux := l.2
        semi := m.2
        twin := fun p =>
          if l.1 ≠ mapFailed ∧ m.1 ≠ mapFailed ∧ PageIn l.1 len p then
            some (m.1 + BitVec.ofNat 64 ((p - l.1.toNat / pageSize) * pageSize))
          else s.twin p }
    else .error e
  | .madvise addr len =>
    .ok { s with linux := (s.linux.sMadvise addr len).2, semi := (s.semi.sMadvise addr len).2 }
  | .munmap addr len =>
    let l := s.linux.sMunmap addr len
    .ok {
      linux := l.2
      semi := (s.semi.sMunmap addr len).2
      twin := fun p => if l.1 = 0 ∧ PageIn addr len p then none else s.twin p }
  | .write x v =>
    if s.linux.mapped (pageOf x) then
      .ok { s with
        linux := { s.linux with mem := s.linux.mem.write8 x v }
        semi :=
          match s.twinByte x with
          | some y => { s.semi with mem := s.semi.mem.write8 y v }
          | none => s.semi }
    else .error e

def Returns (s : Pair) : Event → ℕ → Prop
  | .mmap answer len, p => answer ≠ mapFailed ∧ PageIn answer len p
  | .madvise addr len, p => (s.linux.sMadvise addr len).1 = 0 ∧ PageIn addr len p
  | _, _ => False

def ZeroAlike (p : ℕ) : Prop :=
  (∀ x, pageOf x = p → s.linux.mem x = 0) →
    ∀ x y, pageOf x = p → s.twinByte x = some y → s.semi.mem y = 0

structure Initial : Prop where
  mapped : ∀ p, s.linux.mapped p = false
  twin : ∀ p, s.twin p = none
  brk_le : s.semi.brk.toNat ≤ ram.stop
  zero : ∀ x : Addr, s.semi.brk.toNat ≤ x.toNat → x.toNat < ram.stop → s.semi.mem x = 0

end Pair

/-- What the application has stored since the page was mapped, zero where it has stored nothing. -/
def note (m : Mem) : Event → Mem
  | .mmap answer len => fun x =>
    if answer ≠ mapFailed ∧ PageIn answer len (pageOf x) then 0 else m x
  | .write x v => m.write8 x v
  | _ => m

theorem note_mmap (m : Mem) (answer x : Addr) (len : Word) : note m (.mmap answer len) x =
    if answer ≠ mapFailed ∧ PageIn answer len (pageOf x) then 0 else m x := rfl

def stored (es : List Event) : Mem := es.foldl note fun _ => 0

/-- The length of a mapping is one of whole pages and an `int`. -/
def Event.Fits : Event → Prop
  | .mmap _ len => len.toNat % pageSize = 0 ∧ len.toNat < 2 ^ 31
  | _ => True

instance : DecidablePred Event.Fits
  | .mmap _ _ => inferInstanceAs (Decidable (_ ∧ _))
  | .madvise _ _ | .munmap _ _ | .write _ _ => inferInstanceAs (Decidable True)

/-! ## The link between the builds -/

/-- The linked pages lie apart and below the break, above which nothing was written; they hold what
the application has stored. -/
structure Linked (ram : Ram) (m : Mem) (s : Pair) : Prop where
  brk_le : s.semi.brk.toNat ≤ ram.stop
  zero : ∀ x : Addr, s.semi.brk.toNat ≤ x.toNat → x.toNat < ram.stop → s.semi.mem x = 0
  below : ∀ p a, s.twin p = some a → a.toNat + pageSize ≤ s.semi.brk.toNat
  apart : ∀ p q a b, s.twin p = some a → s.twin q = some b → p ≠ q →
    a.toNat + pageSize ≤ b.toNat ∨ b.toNat + pageSize ≤ a.toNat
  mapped : ∀ p a, s.twin p = some a → s.linux.mapped p
  agree : ∀ x y, s.twinByte x = some y → s.semi.mem y = m x

section Linked
variable {ram : Ram} {m : Mem} {s t : Pair} {x y : Addr} {p : ℕ} {a : Addr} {len : Word}

theorem linked_initial (h : s.Initial ram) : Linked ram (stored []) s where
  brk_le := h.brk_le
  zero := h.zero
  below p a hp := by
    rw [h.twin] at hp
    exact absurd hp (by simp)
  apart p q a b hp := by
    rw [h.twin] at hp
    exact absurd hp (by simp)
  mapped p a hp := by
    rw [h.twin] at hp
    exact absurd hp (by simp)
  agree x y hy := by
    rw [Pair.twinByte, h.twin] at hy
    exact absurd hy (by simp)

theorem eq_of_page (hpage : pageOf x = pageOf y) (hoff : x.toNat % pageSize = y.toNat % pageSize) :
    x = y := by
  apply BitVec.eq_of_toNat_eq
  rw [← Nat.div_add_mod x.toNat pageSize, ← Nat.div_add_mod y.toNat pageSize, hoff]
  rw [pageOf, pageOf] at hpage
  rw [hpage]

theorem Linked.exists_twin (h : Linked ram m s) (hy : s.twinByte x = some y) :
    ∃ a, s.twin (pageOf x) = some a ∧ y.toNat = a.toNat + x.toNat % pageSize := by
  obtain ⟨a, ha, rfl⟩ := Option.map_eq_some_iff.mp hy
  refine ⟨a, ha, ?_⟩
  have hbelow := h.below _ _ ha
  have hle := h.brk_le
  have hlt := ram.stop_lt
  rw [pageSize] at hbelow ⊢
  rw [BitVec.toNat_add, BitVec.toNat_ofNat]
  omega

theorem Linked.twinByte_lt (h : Linked ram m s) (hy : s.twinByte x = some y) :
    y.toNat < s.semi.brk.toNat := by
  obtain ⟨a, ha, hsum⟩ := h.exists_twin hy
  have hbelow := h.below _ _ ha
  rw [pageSize] at hbelow hsum
  omega

theorem Linked.twinByte_injective (h : Linked ram m s) {x' : Addr} (hx : s.twinByte x = some y)
    (hx' : s.twinByte x' = some y) : x = x' := by
  obtain ⟨a, ha, hsum⟩ := h.exists_twin hx
  obtain ⟨b, hb, hsum'⟩ := h.exists_twin hx'
  have hpage : pageOf x = pageOf x' := by
    by_contra hne
    have hapart := h.apart _ _ _ _ ha hb hne
    rw [pageSize] at hapart hsum hsum'
    omega
  rw [hpage, hb, Option.some_inj] at ha
  rw [← ha] at hsum
  exact eq_of_page hpage (by omega)

/-! ## One event -/

theorem linked_madvise (h : Linked ram m s) {addr : Addr}
    (ht : s.step ram (.madvise addr len) = .ok t) : Linked ram m t := by
  rw [Pair.step, Except.ok.injEq] at ht
  subst ht
  have hmapped : (s.linux.sMadvise addr len).2.mapped = s.linux.mapped := by
    rw [Kernel.sMadvise]
    split_ifs <;> rfl
  exact ⟨h.brk_le, h.zero, h.below, h.apart, fun p a hp => by rw [hmapped, h.mapped p a hp], h.agree⟩

theorem linked_munmap (h : Linked ram m s) {addr : Addr}
    (ht : s.step ram (.munmap addr len) = .ok t) : Linked ram m t := by
  rw [Pair.step, Except.ok.injEq] at ht
  subst ht
  -- links are only taken away
  have hsub : ∀ p a, (if (s.linux.sMunmap addr len).1 = 0 ∧ PageIn addr len p then none
      else s.twin p) = some a →
      s.twin p = some a ∧ ¬ ((s.linux.sMunmap addr len).1 = 0 ∧ PageIn addr len p) := by
    intro p a hp
    split_ifs at hp with hin
    exact ⟨hp, hin⟩
  constructor
  · exact h.brk_le
  · exact h.zero
  · exact fun p a hp => h.below p a (hsub p a hp).1
  · exact fun p q a b hp hq => h.apart p q a b (hsub p a hp).1 (hsub q b hq).1
  · intro p a hp
    obtain ⟨hp, hin⟩ := hsub p a hp
    have hmapped := h.mapped p a hp
    rw [Kernel.sMunmap] at hin ⊢
    split_ifs at hin ⊢ with hbad
    · exact hmapped
    · exact (congrArg (· = true) (if_neg fun hpage => hin ⟨rfl, hpage⟩)).mpr hmapped
  · intro x y hy
    obtain ⟨a, ha, rfl⟩ := Option.map_eq_some_iff.mp hy
    apply h.agree
    rw [Pair.twinByte, (hsub _ _ ha).1]
    rfl

theorem linked_write (h : Linked ram m s) {v : Byte} (ht : s.step ram (.write x v) = .ok t) :
    Linked ram (m.write8 x v) t := by
  rw [Pair.step] at ht
  split_ifs at ht with hmapped
  cases htwin : s.twinByte x with
  | none =>
    simp only [htwin, Except.ok.injEq] at ht
    subst ht
    refine ⟨h.brk_le, h.zero, h.below, h.apart, h.mapped, fun x' y hy => ?_⟩
    have hne : x' ≠ x := by
      rintro rfl
      exact absurd (htwin.symm.trans hy) (by simp)
    rw [write8_of_ne hne]
    exact h.agree x' y hy
  | some z =>
    simp only [htwin, Except.ok.injEq] at ht
    subst ht
    refine ⟨h.brk_le, fun y hle hlt => ?_, h.below, h.apart, h.mapped, fun x' y hy => ?_⟩
    · have hbelow := h.twinByte_lt htwin
      have hne : y ≠ z := by
        rintro rfl
        exact absurd hbelow (Nat.not_lt.mpr hle)
      exact (write8_of_ne hne).trans (h.zero y hle hlt)
    · have hy' : s.twinByte x' = some y := hy
      by_cases hx : x' = x
      · rw [hx, htwin, Option.some_inj] at hy'
        rw [hx, ← hy', write8_self]
        exact write8_self
      · have hne : y ≠ z := by
          rintro rfl
          exact hx (h.twinByte_injective hy' htwin)
        rw [write8_of_ne hx]
        exact (write8_of_ne hne).trans (h.agree x' y hy')

/-! ## Mapping -/

/-- A request that fits an `int` is cut off at the break or refused. -/
theorem sMmap_cases (ram : Ram) (hlen : len.toNat < 2 ^ 31) (s : Semi) :
    s.sMmap ram len = (mapFailed, s) ∨ ∃ next, s.sMmap ram len = (s.brk, { s with brk := next }) ∧
      next.toNat = s.brk.toNat + len.toNat ∧ next.toNat ≤ ram.stop := by
  have hincr : (len.setWidth 32).toInt = len.toNat := by
    have hnat : (len.setWidth 32).toNat = len.toNat := by
      rw [BitVec.toNat_setWidth]
      omega
    rw [BitVec.toInt_eq_toNat_of_lt (by omega), hnat]
  have hlt := ram.stop_lt
  rw [Semi.sMmap, sbrk, hincr]
  split_ifs with h
  · refine .inr ⟨_, rfl, ?_⟩
    have hnext : (BitVec.ofInt 64 (s.brk.toNat + len.toNat) : Addr).toNat = s.brk.toNat + len.toNat := by
      rw [← Int.natCast_add, BitVec.ofInt_natCast, BitVec.toNat_ofNat]
      omega
    rw [hnext]
    omega
  · exact .inl rfl

theorem newPage_toNat {answer : Addr} (brk : Addr) (halign : answer.toNat % pageSize = 0)
    (hlen : len.toNat % pageSize = 0) (hp : PageIn answer len p)
    (hlt : brk.toNat + len.toNat < 2 ^ 64) :
    (brk + BitVec.ofNat 64 ((p - answer.toNat / pageSize) * pageSize)).toNat =
        brk.toNat + (p - answer.toNat / pageSize) * pageSize ∧
      (p - answer.toNat / pageSize) * pageSize + pageSize ≤ len.toNat := by
  obtain ⟨hlow, hhigh⟩ := hp
  rw [pageSize] at *
  have hroom : (p - answer.toNat / 4096) * 4096 + 4096 ≤ len.toNat := by
    omega
  refine ⟨?_, hroom⟩
  rw [BitVec.toNat_add, BitVec.toNat_ofNat]
  omega

/-- What a mapping changes: the break goes up, and pages are linked if both builds gave memory. -/
theorem step_mmap {answer : Addr} (hlen : len.toNat < 2 ^ 31) (hbrk : s.semi.brk.toNat ≤ ram.stop)
    (ht : s.step ram (.mmap answer len) = .ok t) :
    s.linux.Answers answer len ∧ t.linux = (s.linux.sMmap answer len).2 ∧
      t.semi.mem = s.semi.mem ∧ s.semi.brk.toNat ≤ t.semi.brk.toNat ∧
      t.semi.brk.toNat ≤ ram.stop ∧
      (t.twin = s.twin ∨ answer ≠ mapFailed ∧
        t.semi.brk.toNat = s.semi.brk.toNat + len.toNat ∧
        t.twin = fun p => if PageIn answer len p then
          some (s.semi.brk + BitVec.ofNat 64 ((p - answer.toNat / pageSize) * pageSize))
        else s.twin p) := by
  rw [Pair.step] at ht
  split_ifs at ht with hanswers
  rw [Except.ok.injEq] at ht
  subst ht
  have hfirst : (s.linux.sMmap answer len).1 = answer := by
    rw [Kernel.sMmap]
    split_ifs with hfailed
    · exact hfailed.symm
    · rfl
  cases sMmap_cases ram hlen s.semi with
  | inl hfail =>
    simp only [hfail, ne_eq, not_true_eq_false, false_and, and_false, if_false]
    exact ⟨hanswers, trivial, trivial, le_rfl, hbrk, .inl trivial⟩
  | inr hok =>
    obtain ⟨next, hok, hnext, hstop⟩ := hok
    simp only [hok, hfirst]
    refine ⟨hanswers, trivial, trivial, by omega, hstop, ?_⟩
    by_cases hboth : answer ≠ mapFailed ∧ s.semi.brk ≠ mapFailed
    · exact .inr ⟨hboth.1, hnext, by simp only [hboth.1, hboth.2, ne_eq, not_false_eq_true, true_and]⟩
    · refine .inl (funext fun p => if_neg fun h => hboth ⟨h.1, h.2.1⟩)

/-- A linked page is mapped, so no answer covers it. -/
theorem Linked.not_pageIn (h : Linked ram m s) {answer : Addr} (hanswers : s.linux.Answers answer len)
    (hne : answer ≠ mapFailed) (hp : s.twin p = some a) : ¬ PageIn answer len p := by
  intro hin
  have hfree := (hanswers.resolve_left hne).2.2 p (mem_pagesOf.mpr hin)
  rw [h.mapped p a hp] at hfree
  exact absurd hfree (by simp)

/-- Behind a mapping a link is an old one, or it leads from a page of the mapping to its place between
the old break and the new one. -/
theorem twin_mmap (h : Linked ram m s) {answer : Addr} (hfits : (Event.mmap answer len).Fits)
    (ht : s.step ram (.mmap answer len) = .ok t) (hp : t.twin p = some a) :
    s.twin p = some a ∨ (answer ≠ mapFailed ∧ PageIn answer len p) ∧
      a.toNat = s.semi.brk.toNat + (p - answer.toNat / pageSize) * pageSize ∧
      a.toNat + pageSize ≤ t.semi.brk.toNat := by
  obtain ⟨hpages, hint⟩ := hfits
  obtain ⟨hanswers, -, -, -, hstop, htwin⟩ := step_mmap hint h.brk_le ht
  cases htwin with
  | inl hsame =>
    rw [hsame] at hp
    exact .inl hp
  | inr hnew =>
    obtain ⟨hne, hbrk, hnew⟩ := hnew
    have hram := ram.stop_lt
    rw [hnew] at hp
    simp only at hp
    split_ifs at hp with hin
    · right
      obtain ⟨hplace, hroom⟩ :=
        newPage_toNat s.semi.brk (hanswers.resolve_left hne).1 hpages hin (by omega)
      rw [← Option.some.inj hp, hplace]
      exact ⟨⟨hne, hin⟩, rfl, by omega⟩
    · exact .inl hp

theorem linked_mmap (h : Linked ram m s) {answer : Addr} (hfits : (Event.mmap answer len).Fits)
    (ht : s.step ram (.mmap answer len) = .ok t) : Linked ram (note m (.mmap answer len)) t := by
  obtain ⟨hanswers, hlinux, hmem, hup, hstop, -⟩ := step_mmap hfits.2 h.brk_le ht
  have hram := ram.stop_lt
  refine ⟨hstop, ?_, ?_, ?_, ?_, ?_⟩
  · intro x hle hlt
    rw [hmem]
    exact h.zero x (hup.trans hle) hlt
  · intro p a hp
    rcases twin_mmap h hfits ht hp with hold | ⟨-, -, hroom⟩
    · exact (h.below p a hold).trans hup
    · exact hroom
  · intro p q a b hp hq hpq
    rcases twin_mmap h hfits ht hp with hold | ⟨⟨-, hlow, -⟩, hplace, -⟩
    · rcases twin_mmap h hfits ht hq with hold' | ⟨-, hplace', -⟩
      · exact h.apart p q a b hold hold' hpq
      · have hbelow := h.below p a hold
        omega
    · rcases twin_mmap h hfits ht hq with hold' | ⟨⟨-, hlow', -⟩, hplace', -⟩
      · have hbelow := h.below q b hold'
        omega
      · rw [pageSize] at hlow hlow' hplace hplace' ⊢
        omega
  · intro p a hp
    rw [hlinux, Kernel.sMmap]
    rcases twin_mmap h hfits ht hp with hold | ⟨⟨hne, hin⟩, -, -⟩
    · split_ifs
      · exact h.mapped p a hold
      · simp only [h.mapped p a hold, ite_self]
    · rw [if_neg hne]
      exact if_pos hin
  · intro x y hy
    obtain ⟨a, ha, rfl⟩ := Option.map_eq_some_iff.mp hy
    rw [note_mmap, hmem]
    rcases twin_mmap h hfits ht ha with hold | ⟨hnew, hplace, hroom⟩
    · -- no answer covers a linked page
      rw [if_neg fun hin => h.not_pageIn hanswers hin.1 hold hin.2]
      apply h.agree
      rw [Pair.twinByte, hold]
      rfl
    · -- a new page is above the old break
      rw [if_pos hnew]
      have hmod : x.toNat % pageSize < pageSize := Nat.mod_lt _ (by decide)
      have hsum : (a + BitVec.ofNat 64 (x.toNat % pageSize)).toNat = a.toNat + x.toNat % pageSize := by
        rw [BitVec.toNat_add, BitVec.toNat_ofNat]
        omega
      apply h.zero <;> omega

theorem linked_step (h : Linked ram m s) {e : Event} (hfits : e.Fits) (ht : s.step ram e = .ok t) :
    Linked ram (note m e) t := by
  cases e with
  | mmap answer len => exact linked_mmap h hfits ht
  | madvise addr len => exact linked_madvise h ht
  | munmap addr len => exact linked_munmap h ht
  | write x v => exact linked_write h ht

/-- In every run the linked pages hold what the application has stored. -/
theorem linked_run (h : s.Initial ram) {es : List Event} (hfits : ∀ e ∈ es, e.Fits)
    (ht : es.foldlM (Pair.step ram) s = .ok t) : Linked ram (stored es) t := by
  induction es using List.reverseRecOn generalizing t with
  | nil =>
    cases ht
    exact linked_initial h
  | append_singleton es e ih =>
    obtain ⟨u, hu, ht⟩ := foldlM_eq_ok_append_singleton.mp ht
    rw [stored, List.foldl_append]
    exact linked_step (ih (fun e he => hfits e (by simp [he])) hu) (hfits e (by simp)) ht

/-- A mapping hands out pages that are zero in both builds. -/
theorem zeroAlike_mmap {answer : Addr} (h : Linked ram (note m (.mmap answer len)) t)
    (hp : s.Returns (.mmap answer len) p) : t.ZeroAlike p := by
  obtain ⟨hne, hin⟩ := hp
  intro _ x y hx hy
  rw [h.agree x y hy, note_mmap, hx, if_pos ⟨hne, hin⟩]

theorem sMadvise_mem {addr : Addr} (hp : s.Returns (.madvise addr len) p) (hx : pageOf x = p) :
    (s.linux.sMadvise addr len).2.mem x = 0 := by
  obtain ⟨hok, hin⟩ := hp
  rw [Kernel.sMadvise] at hok ⊢
  have hfail : (-1 : ℤ) ≠ 0 := by
    decide
  split_ifs at hok ⊢ with hbad hmapped
  · exact absurd hok hfail
  · have hpage : PageIn addr len (pageOf x) ∧ s.linux.mapped (pageOf x) := by
      rw [hx]
      exact ⟨hin, hmapped p (mem_pagesOf.mpr hin)⟩
    exact if_pos hpage
  · exact absurd hok hfail

/-- A purged page is zero in both builds exactly if the application has left nothing in it. -/
theorem zeroAlike_madvise_iff (h : Linked ram m s) {addr : Addr}
    (ht : s.step ram (.madvise addr len) = .ok t) (hp : s.Returns (.madvise addr len) p) :
    t.ZeroAlike p ↔ (s.twin p ≠ none → ∀ x, pageOf x = p → m x = 0) := by
  rw [Pair.step, Except.ok.injEq] at ht
  subst ht
  constructor
  · intro hzero htwin x hx
    obtain ⟨a, ha⟩ := Option.ne_none_iff_exists'.mp htwin
    have hy : s.twinByte x = some (a + BitVec.ofNat 64 (x.toNat % pageSize)) := by
      rw [Pair.twinByte, hx, ha]
      rfl
    rw [← h.agree x _ hy]
    exact hzero (fun x hx => sMadvise_mem hp hx) x _ hx hy
  · intro hzero _ x y hx hy
    obtain ⟨a, ha, -⟩ := h.exists_twin hy
    have htwin : s.twin p ≠ none := by
      rw [← hx, ha]
      simp
    exact (h.agree x y hy).trans (hzero htwin x hx)

end Linked

/-! ## Every history -/

section Histories
variable (ram : Ram) (start : Pair) (es : List Event)

/-- After every event the pages that it handed out and that are zero in the Linux build are zero in
the other one. -/
def ZeroPages : Prop :=
  ∀ pre e s t, pre ++ [e] <+: es → pre.foldlM (Pair.step ram) start = .ok s →
    s.step ram e = .ok t → ∀ p, s.Returns e p → t.ZeroAlike p

/-- The allocator purges only pages in which the application has left nothing but zeros. -/
def PurgesZeros : Prop :=
  ∀ pre addr len s, pre ++ [.madvise addr len] <+: es → pre.foldlM (Pair.step ram) start = .ok s →
    ∀ p, s.Returns (.madvise addr len) p → s.twin p ≠ none → ∀ x, pageOf x = p → stored pre x = 0

variable {ram start es}

/-- The two builds agree on zero pages, after every event of a history of mappings of whole pages,
exactly if nothing but zeros is purged. -/
theorem zeroPages_iff (h : start.Initial ram) (hfits : ∀ e ∈ es, e.Fits) :
    ZeroPages ram start es ↔ PurgesZeros ram start es := by
  have hlinked : ∀ pre e s, pre ++ [e] <+: es → pre.foldlM (Pair.step ram) start = .ok s →
      Linked ram (stored pre) s := by
    intro pre e s hpre hs
    exact linked_run h (fun e he => hfits e (hpre.subset (by simp [he]))) hs
  constructor
  · intro hzero pre addr len s hpre hs p hp
    exact (zeroAlike_madvise_iff (hlinked _ _ _ hpre hs) rfl hp).mp (hzero _ _ _ _ hpre hs rfl p hp)
  · intro hpurges pre e s t hpre hs ht p hp
    have hl := hlinked pre e s hpre hs
    cases e with
    | mmap answer len =>
      exact zeroAlike_mmap (linked_step hl (hfits _ (hpre.subset (by simp))) ht) hp
    | madvise addr len =>
      exact (zeroAlike_madvise_iff hl ht hp).mpr (hpurges pre addr len s hpre hs p hp)
    | munmap addr len => exact hp.elim
    | write x v => exact hp.elim

end Histories

/-! ## Two histories -/

def board : Ram := ⟨0x44000000, 0x48000000, by norm_num⟩

def fresh : Pair where
  linux := ⟨fun _ => 0, fun _ => false, 0x1000000000000⟩
  semi := ⟨fun _ => 0, 0x44000000⟩
  twin := fun _ => none

theorem initial_fresh : fresh.Initial board :=
  ⟨fun _ => rfl, fun _ => rfl, by decide, fun _ _ _ => rfl⟩

def mapAgain : List Event :=
  [.mmap 0x7f0000000000 0x1000, .madvise 0x7f0000000000 0x1000, .write 0x7f0000000010 1,
    .munmap 0x7f0000000000 0x1000, .mmap 0x7f0000000000 0x1000]

theorem zeroPages_mapAgain : ZeroPages board fresh mapAgain := by
  refine (zeroPages_iff initial_fresh (by decide)).mpr ?_
  intro pre addr len s hpre hs p hp htwin x hx
  have hfirst : pre = [.mmap 0x7f0000000000 0x1000] := by
    match pre, hpre with
    | [e], hpre =>
      simp only [mapAgain, List.singleton_append, List.cons_prefix_cons] at hpre
      rw [hpre.1]
    | [], hpre | [_, _], hpre | [_, _, _], hpre | [_, _, _, _], hpre => simp [mapAgain] at hpre
    | _ :: _ :: _ :: _ :: _ :: _, hpre => simp [mapAgain] at hpre
  rw [hfirst, stored, List.foldl_cons, List.foldl_nil, note_mmap, ite_self]

def purgeWritten : List Event :=
  [.mmap 0x7f0000000000 0x1000, .write 0x7f0000000010 1, .madvise 0x7f0000000000 0x1000]

theorem purgeWritten_not_zeroPages : ¬ ZeroPages board fresh purgeWritten := by
  intro h
  obtain ⟨s, hs, hret, htwin⟩ : ∃ s, (purgeWritten.take 2).foldlM (Pair.step board) fresh = .ok s ∧
      s.Returns (.madvise 0x7f0000000000 0x1000) 0x7f0000000 ∧ s.twin 0x7f0000000 ≠ none :=
    ⟨_, rfl, ⟨by decide, by decide⟩, by decide⟩
  have hl := linked_run initial_fresh (by decide) hs
  have hzero := h _ _ _ _ List.prefix_rfl hs rfl _ hret
  have hbyte := (zeroAlike_madvise_iff hl rfl hret).mp hzero htwin 0x7f0000000010 (by decide)
  exact absurd hbyte (by decide)

end Rebench.Heap
