import Mathlib.Data.List.GetD
import Rebench.Machine.Ledger
import Rebench.Machine.Memory
import Rebench.Machine.Run

/-!
# main.c: the pointer table of `601_GEMM`

The library allocates and frees through `gemm_malloc` and `gemm_free`. Freeing
is left to `gemm_cleanup`, since the kernels run on the pointers that the set-up
call has given back. What the library calls is code outside the source, and so
is `s_malloc`, whose answer may depend on everything before it.
-/
namespace Rebench.Bench.Gemm
open Machine

/-- A call of `s_malloc` with its result, a call of `s_free`, or the end of a `gemm_cleanup`. -/
inductive Event where
  | malloc (size : Word) (ptr : Addr)
  | free (ptr : Addr)
  | cleanup
  deriving DecidableEq

structure State where
  ptrs : Fin 3 → Addr
  idx : ℕ
  log : List Event

def initial : State := ⟨fun _ => 0, 0, []⟩

/-- The blocks behind the pointers other than `NULL`. -/
def entry : Event → Option (Entry Addr)
  | .malloc _ ptr => if ptr = 0 then none else some (.alloc ptr)
  | .free ptr => if ptr = 0 then none else some (.free ptr)
  | .cleanup => none

def entries (log : List Event) : List (Entry Addr) := log.filterMap entry

def handedOut (log : List Event) : List Addr :=
  (log.reverse.takeWhile (· ≠ .cleanup)).reverse.filterMap fun e => match e with
    | .malloc _ ptr => some ptr
    | _ => none

section Calls
variable (sMalloc : List Event → Word → Addr)

/-- `gemm_malloc`; the error is the state in which the program exits. -/
def gemmMalloc (size : Word) (s : State) : Except State (Addr × State) :=
  if h : s.idx < 3 then
    let ptr := sMalloc s.log size
    .ok (ptr, {
      ptrs := Function.update s.ptrs ⟨s.idx, h⟩ ptr
      idx := s.idx + 1
      log := s.log ++ [.malloc size ptr] })
  else .error s

def gemmFree (_ptr : Addr) (s : State) : State := s

/-- `s_free(gemm_ptrs[i]); gemm_ptrs[i] = NULL;`. -/
def release (s : State) (i : Fin 3) : State :=
  { s with
    ptrs := Function.update s.ptrs i 0
    log := s.log ++ [.free (s.ptrs i)] }

def gemmCleanup (s : State) : State :=
  let s := (List.finRange 3).foldl release s
  { s with idx := 0, log := s.log ++ [.cleanup] }

inductive Call where
  | malloc (size : Word)
  | free (ptr : Addr)
  | cleanup

def call (s : State) : Call → Except State State
  | .malloc size => (gemmMalloc sMalloc size s).map Prod.snd
  | .free ptr => .ok (gemmFree ptr s)
  | .cleanup => .ok (gemmCleanup s)

/-- The calls in order, up to the exit of the program. -/
def calls (s : State) (cs : List Call) : Except State State := cs.foldlM (call sMalloc) s

/-- What the library does: the calls of its two set-up functions with their results, and the calls
of its two kernels in each iteration. -/
structure Library where
  testSgemm : State → List Call × Float
  sgemm : ℕ → State → List Call
  testDgemm : State → List Call × Float
  dgemm : ℕ → State → List Call

variable (lib : Library)

def test601Sgemm (loops : ℤ) (s : State) : Except State State := do
  let (cs, result) := lib.testSgemm s
  let s ← calls sMalloc s cs
  if result != -1 then return s
  (List.range loops.toNat).foldlM (fun s i => calls sMalloc s (lib.sgemm i s)) s

def test601Dgemm (loops : ℤ) (s : State) : Except State State := do
  let (cs, result) := lib.testDgemm s
  let s ← calls sMalloc s cs
  if result != -1 then return s
  (List.range loops.toNat).foldlM (fun s i => calls sMalloc s (lib.dgemm i s)) s

def test601Gemm (loops : ℤ) (s : State) : Except State State := do
  let loopsDgemm := if loops > 1 then loops / 2 else 1
  let s ← test601Sgemm sMalloc lib loops s
  let s := gemmCleanup s
  let s ← test601Dgemm sMalloc lib loopsDgemm s
  return gemmCleanup s

end Calls

section Logs
variable {log : List Event} {size : Word} {ptr p : Addr}

@[simp] theorem entries_nil : entries [] = [] := rfl

@[simp] theorem entries_append (log log' : List Event) :
    entries (log ++ log') = entries log ++ entries log' :=
  List.filterMap_append

theorem entries_malloc_zero : entries [.malloc size 0] = [] := rfl

theorem entries_malloc (h : ptr ≠ 0) : entries [.malloc size ptr] = [.alloc ptr] := by
  have he : entry (.malloc size ptr) = some (.alloc ptr) := if_neg h
  rw [entries, List.filterMap_cons_some he, List.filterMap_nil]

theorem entries_free_zero : entries [.free 0] = [] := rfl

theorem entries_free (h : ptr ≠ 0) : entries [.free ptr] = [.free ptr] := by
  have he : entry (.free ptr) = some (.free ptr) := if_neg h
  rw [entries, List.filterMap_cons_some he, List.filterMap_nil]

@[simp] theorem entries_cleanup : entries [.cleanup] = [] := rfl

theorem ne_zero_of_mem (h : .alloc p ∈ entries log) : p ≠ 0 := by
  obtain ⟨e, -, he⟩ := List.mem_filterMap.mp h
  cases e with
  | malloc size ptr =>
    rw [entry] at he
    split_ifs at he with hptr
    cases he
    exact hptr
  | free ptr =>
    rw [entry] at he
    split_ifs at he
    cases he
  | cleanup => cases he

@[simp] theorem handedOut_nil : handedOut [] = [] := rfl

@[simp] theorem handedOut_malloc :
    handedOut (log ++ [.malloc size ptr]) = handedOut log ++ [ptr] := by
  simp [handedOut]

@[simp] theorem handedOut_free : handedOut (log ++ [.free ptr]) = handedOut log := by
  simp [handedOut]

@[simp] theorem handedOut_cleanup : handedOut (log ++ [.cleanup]) = [] := by
  simp [handedOut]

end Logs

/-- The table holds what was handed out since the last cleanup, and `NULL` behind it. -/
structure Filled (s : State) : Prop where
  le : s.idx ≤ 3
  idx : s.idx = (handedOut s.log).length
  ptrs : ∀ i : Fin 3, s.ptrs i = (handedOut s.log).getD i 0

/-- The table owns the live blocks. -/
def Owned (s : State) : Prop := Owns 0 s.ptrs (entries s.log)

/-- The allocations in the log are the answers of `s_malloc` to what was before them. -/
def Answered (sMalloc : List Event → Word → Addr) (log : List Event) : Prop :=
  ∀ before size ptr after, log = before ++ .malloc size ptr :: after → ptr = sMalloc before size

/-- `s_malloc` returns `NULL` or a block that is not live. -/
def MallocSpec (sMalloc : List Event → Word → Addr) : Prop :=
  ∀ log size, sMalloc log size = 0 ∨ live (entries log) (sMalloc log size) = false

section Steps
variable {sMalloc : List Event → Word → Addr} {s t : State} {size : Word} {ptr : Addr}

theorem filled_initial : Filled initial := ⟨by simp [initial], rfl, fun _ => by simp [initial]⟩

theorem owned_initial : Owned initial where
  live_iff := by
    intro p hp
    apply iff_of_false
    · exact Bool.false_ne_true
    · rintro ⟨i, hi⟩
      exact hp hi.symm
  distinct := by
    intro i j _ hne
    exact absurd rfl hne
  sound := sound_nil

theorem gemmCleanup_eq : gemmCleanup s =
    { release (release (release s 0) 1) 2 with
      idx := 0
      log := (release (release (release s 0) 1) 2).log ++ [.cleanup] } := rfl

@[simp] theorem gemmCleanup_ptrs (i : Fin 3) : (gemmCleanup s).ptrs i = 0 := by
  rw [gemmCleanup_eq]
  fin_cases i <;> simp [release]

/-- With a free slot `gemm_malloc` returns what `s_malloc` answers. -/
theorem gemmMalloc_of_lt (hlt : s.idx < 3) : gemmMalloc sMalloc size s = .ok (sMalloc s.log size,
    ⟨Function.update s.ptrs ⟨s.idx, hlt⟩ (sMalloc s.log size), s.idx + 1,
      s.log ++ [.malloc size (sMalloc s.log size)]⟩) := by
  rw [gemmMalloc, dif_pos hlt]

theorem gemmMalloc_eq_ok {r : Addr × State} (h : gemmMalloc sMalloc size s = .ok r) :
    ∃ hlt : s.idx < 3, r.1 = sMalloc s.log size ∧ r.2 =
      ⟨Function.update s.ptrs ⟨s.idx, hlt⟩ (sMalloc s.log size), s.idx + 1,
        s.log ++ [.malloc size (sMalloc s.log size)]⟩ := by
  rw [gemmMalloc] at h
  split_ifs at h with hlt
  cases h
  exact ⟨hlt, rfl, rfl⟩

theorem gemmMalloc_eq_error (h : 3 ≤ s.idx) : gemmMalloc sMalloc size s = .error s := by
  rw [gemmMalloc, dif_neg (by omega)]

/-- A call that does not return leaves everything as it is. -/
theorem call_eq_error {c : Call} (h : call sMalloc s c = .error t) : t = s := by
  cases c with
  | malloc size =>
    rw [call, gemmMalloc] at h
    split_ifs at h
    · cases h
    · cases h
      rfl
  | free ptr => cases h
  | cleanup => cases h

theorem filled_malloc (hs : Filled s) (hlt : s.idx < 3) :
    Filled ⟨Function.update s.ptrs ⟨s.idx, hlt⟩ ptr, s.idx + 1, s.log ++ [.malloc size ptr]⟩ where
  le := hlt
  idx := by rw [handedOut_malloc, List.length_append, ← hs.idx, List.length_singleton]
  ptrs := by
    intro i
    change Function.update s.ptrs ⟨s.idx, hlt⟩ ptr i = _
    rw [handedOut_malloc]
    by_cases hi : i = ⟨s.idx, hlt⟩
    · rw [hi, Function.update_self, List.getD_append_right _ _ _ _ hs.idx.ge]
      simp [hs.idx]
    · have hne : (i : ℕ) ≠ s.idx := fun h => hi (Fin.ext h)
      rw [Function.update_of_ne hi, hs.ptrs i]
      by_cases hl : (i : ℕ) < (handedOut s.log).length
      · rw [List.getD_append _ _ _ _ hl]
      · rw [hs.idx] at hne
        rw [List.getD_eq_default _ _ (by omega), List.getD_eq_default]
        rw [List.length_append, List.length_singleton]
        omega

theorem filled_cleanup : Filled (gemmCleanup s) where
  le := Nat.zero_le _
  idx := by
    rw [gemmCleanup_eq]
    simp
  ptrs := by
    intro i
    rw [gemmCleanup_ptrs, gemmCleanup_eq]
    simp

theorem owned_malloc (hs : Owned s) {i : Fin 3} (hi : s.ptrs i = 0) {n : ℕ}
    (hptr : ptr = 0 ∨ live (entries s.log) ptr = false) :
    Owned ⟨Function.update s.ptrs i ptr, n, s.log ++ [.malloc size ptr]⟩ := by
  rw [Owned, entries_append]
  by_cases hnull : ptr = 0
  · have hsame : Function.update s.ptrs i ptr = s.ptrs := by
      rw [hnull, ← hi]
      exact Function.update_eq_self i s.ptrs
    rw [hsame, hnull, entries_malloc_zero, List.append_nil]
    exact hs
  · rw [entries_malloc hnull]
    exact hs.store hi hnull (hptr.resolve_left hnull)

theorem owned_release (hs : Owned s) (i : Fin 3) : Owned (release s i) := by
  rw [Owned, release, entries_append]
  by_cases hnull : s.ptrs i = 0
  · have hsame : Function.update s.ptrs i 0 = s.ptrs := by
      rw [← hnull]
      exact Function.update_eq_self i s.ptrs
    rw [hsame, hnull, entries_free_zero, List.append_nil]
    exact hs
  · rw [entries_free hnull]
    exact Owns.release hs hnull

theorem owned_cleanup (hs : Owned s) : Owned (gemmCleanup s) := by
  have hreleased := owned_release (owned_release (owned_release hs 0) 1) 2
  rw [gemmCleanup_eq, Owned, entries_append, entries_cleanup, List.append_nil]
  exact hreleased

theorem answered_nil : Answered sMalloc [] := by
  intro before size ptr after h
  exact absurd h (by simp)

theorem answered_concat {log : List Event} {e : Event} (h : Answered sMalloc log)
    (he : ∀ size ptr, e = .malloc size ptr → ptr = sMalloc log size) :
    Answered sMalloc (log ++ [e]) := by
  intro before size ptr after heq
  rcases List.eq_nil_or_concat after with rfl | ⟨after, e', rfl⟩
  · obtain ⟨rfl, hevent⟩ := List.append_inj' heq rfl
    exact he size ptr (List.singleton_inj.mp hevent)
  · rw [List.concat_eq_append, ← List.cons_append, ← List.append_assoc] at heq
    exact h before size ptr after (List.append_inj' heq rfl).1

theorem answered_cleanup (h : Answered sMalloc s.log) : Answered sMalloc (gemmCleanup s).log := by
  have hrelease : ∀ {s : State} {i : Fin 3}, Answered sMalloc s.log →
      Answered sMalloc (release s i).log := fun h => answered_concat h (by simp)
  exact answered_concat (hrelease (hrelease (hrelease h))) (by simp)

structure Invariant (sMalloc : List Event → Word → Addr) (s : State) : Prop where
  filled : Filled s
  owned : Owned s
  answered : Answered sMalloc s.log

theorem invariant_initial : Invariant sMalloc initial :=
  ⟨filled_initial, owned_initial, answered_nil⟩

/-- One call keeps the invariants. -/
theorem call_invariant (hmalloc : MallocSpec sMalloc) {c : Call} (hs : Invariant sMalloc s)
    (h : call sMalloc s c = .ok t) : Invariant sMalloc t := by
  cases c with
  | malloc size =>
    rw [call] at h
    cases hr : gemmMalloc sMalloc size s with
    | error e =>
      rw [hr] at h
      cases h
    | ok r =>
      rw [hr] at h
      obtain ⟨hlt, -, heq⟩ := gemmMalloc_eq_ok hr
      cases h
      rw [heq]
      refine ⟨filled_malloc hs.filled hlt, ?_, answered_concat hs.answered ?_⟩
      · apply owned_malloc hs.owned _ (hmalloc s.log size)
        rw [hs.filled.ptrs, List.getD_eq_default]
        rw [← hs.filled.idx]
      · rintro _ _ ⟨⟩
        rfl
  | free ptr =>
    cases h
    exact hs
  | cleanup =>
    cases h
    exact ⟨filled_cleanup, owned_cleanup hs.owned, answered_cleanup hs.answered⟩

theorem calls_invariant (hmalloc : MallocSpec sMalloc) {cs : List Call} (hs : Invariant sMalloc s)
    (h : calls sMalloc s cs = .ok t) : Invariant sMalloc t :=
  foldlM_invariant (P := Invariant sMalloc) (fun _ _ _ => call_invariant hmalloc) hs h

/-- The invariants hold where the run ends, and where the program exits. -/
theorem calls_end_invariant (hmalloc : MallocSpec sMalloc) {cs : List Call}
    (hs : Invariant sMalloc s)
    (h : calls sMalloc s cs = .ok t ∨ calls sMalloc s cs = .error t) : Invariant sMalloc t := by
  cases h with
  | inl h => exact calls_invariant hmalloc hs h
  | inr h =>
    obtain ⟨before, c, after, u, -, hu, hc⟩ := foldlM_eq_error.mp h
    rw [call_eq_error hc]
    exact calls_invariant hmalloc hs hu

theorem call_log {c : Call} (h : call sMalloc s c = .ok t) : ∃ new, t.log = s.log ++ new := by
  cases c with
  | malloc size =>
    rw [call] at h
    cases hr : gemmMalloc sMalloc size s with
    | error e =>
      rw [hr] at h
      cases h
    | ok r =>
      rw [hr] at h
      obtain ⟨hlt, -, heq⟩ := gemmMalloc_eq_ok hr
      cases h
      rw [heq]
      exact ⟨_, rfl⟩
  | free ptr =>
    cases h
    exact ⟨[], by simp [gemmFree]⟩
  | cleanup =>
    cases h
    rw [gemmCleanup_eq]
    exact ⟨_, by simp only [release, List.append_assoc]; rfl⟩

theorem calls_log {cs : List Call} (h : calls sMalloc s cs = .ok t) :
    ∃ new, t.log = s.log ++ new := by
  induction cs generalizing s with
  | nil =>
    cases h
    exact ⟨[], by simp⟩
  | cons c cs ih =>
    obtain ⟨u, hu, ht⟩ := foldlM_eq_ok_cons.mp h
    obtain ⟨new, hnew⟩ := call_log hu
    obtain ⟨new', hnew'⟩ := ih ht
    exact ⟨new ++ new', by rw [hnew', hnew, List.append_assoc]⟩

/-- The set-up function and the iterations of a kernel are a run of calls. -/
theorem kernel_calls {g : ℕ → State → List Call} {is : List ℕ}
    (h : is.foldlM (fun s i => calls sMalloc s (g i s)) s = Except.ok t) :
    ∃ cs, calls sMalloc s cs = .ok t := by
  induction is generalizing s with
  | nil =>
    cases h
    exact ⟨[], rfl⟩
  | cons i is ih =>
    obtain ⟨u, hu, ht⟩ := foldlM_eq_ok_cons.mp h
    obtain ⟨cs, hcs⟩ := ih ht
    exact ⟨g i s ++ cs, foldlM_eq_ok_append.mpr ⟨u, hu, hcs⟩⟩

theorem bind_eq_ok {α β ε : Type} {x : Except ε α} {f : α → Except ε β} {r : β}
    (h : (x >>= f) = .ok r) : ∃ a, x = .ok a ∧ f a = .ok r := by
  cases x with
  | error e => cases h
  | ok a => exact ⟨a, rfl, h⟩

/-- One half of the benchmark is a run of calls, whether or not its set-up function fails. -/
theorem half_calls {cs : List Call} {failed : Bool} {g : ℕ → State → List Call} {is : List ℕ}
    (h : (calls sMalloc s cs >>= fun u => if failed then pure u
      else is.foldlM (fun s i => calls sMalloc s (g i s)) u) = .ok t) :
    ∃ cs, calls sMalloc s cs = .ok t := by
  obtain ⟨u, hu, ht⟩ := bind_eq_ok h
  split_ifs at ht
  · cases ht
    exact ⟨cs, hu⟩
  · obtain ⟨ds, hds⟩ := kernel_calls ht
    exact ⟨cs ++ ds, foldlM_eq_ok_append.mpr ⟨u, hu, hds⟩⟩

/-- The benchmark is a run of calls that ends with a cleanup. -/
theorem test601Gemm_calls {lib : Library} {loops : ℤ}
    (h : test601Gemm sMalloc lib loops s = .ok t) :
    ∃ cs u, calls sMalloc s cs = .ok u ∧ t = gemmCleanup u := by
  obtain ⟨u, hu, ht⟩ := bind_eq_ok h
  obtain ⟨v, hv, ht⟩ := bind_eq_ok ht
  cases ht
  obtain ⟨cs, hcs⟩ := half_calls hu
  obtain ⟨ds, hds⟩ := half_calls hv
  refine ⟨cs ++ .cleanup :: ds, v, ?_, rfl⟩
  exact foldlM_eq_ok_append.mpr ⟨u, hcs, foldlM_eq_ok_cons.mpr ⟨gemmCleanup u, rfl, hds⟩⟩

theorem live_cleanup (hs : Owned s) (p : Addr) (hp : p ≠ 0) :
    live (entries (gemmCleanup s).log) p = false := by
  rw [← Bool.not_eq_true, (owned_cleanup hs).live_iff p hp]
  rintro ⟨i, hi⟩
  rw [gemmCleanup_ptrs] at hi
  exact hp hi.symm

end Steps

/-- Behind every sequence of calls, and where the program exits, the index is in range, the table
holds the pointers handed out since the last cleanup in order and `NULL` behind them, every allocation
is an answer of `s_malloc`, and no block is freed twice without an allocation in between. An allocation
returns the answer of one call of `s_malloc` and stores it in the next slot; a fourth one exits before
it calls `s_malloc`. When the benchmark returns, every block that it obtained has been freed once. -/
theorem gemm_table (sMalloc : List Event → Word → Addr) (hmalloc : MallocSpec sMalloc) :
    (∀ cs s, calls sMalloc initial cs = .ok s ∨ calls sMalloc initial cs = .error s →
      s.idx ≤ 3 ∧ s.idx = (handedOut s.log).length ∧
        (∀ i : Fin 3, s.ptrs i = (handedOut s.log).getD i 0) ∧
        (∀ before size ptr after, s.log = before ++ .malloc size ptr :: after →
          ptr = sMalloc before size) ∧
        ∀ before p mid after,
          entries s.log = before ++ .free p :: (mid ++ .free p :: after) → .alloc p ∈ mid) ∧
      (∀ cs s, calls sMalloc initial cs = .ok s → (handedOut s.log).length < 3 → ∀ size, ∃ t,
        gemmMalloc sMalloc size s = .ok (sMalloc s.log size, t) ∧ t.idx = s.idx + 1 ∧
          t.log = s.log ++ [.malloc size (sMalloc s.log size)] ∧
          ∀ i : Fin 3, t.ptrs i = if i = s.idx then sMalloc s.log size else s.ptrs i) ∧
      (∀ cs s, calls sMalloc initial cs = .ok s → (handedOut s.log).length = 3 →
        ∀ size, gemmMalloc sMalloc size s = .error s) ∧
      ∀ lib loops cs s t, calls sMalloc initial cs = .ok s →
        test601Gemm sMalloc lib loops s = .ok t →
        ∃ new, entries t.log = entries s.log ++ new ∧ ∀ before p after,
          new = before ++ .alloc p :: after →
            (after.takeWhile (· ≠ .alloc p)).count (.free p) = 1 := by
  refine ⟨?_, ?_, ?_, ?_⟩
  · intro cs s h
    obtain ⟨hfilled, howned, hanswered⟩ := calls_end_invariant hmalloc invariant_initial h
    exact ⟨hfilled.le, hfilled.idx, hfilled.ptrs, hanswered,
      fun before p mid after heq => howned.sound.alloc_between heq⟩
  · intro cs s h hfree size
    have hlt : s.idx < 3 := by
      rwa [(calls_invariant hmalloc invariant_initial h).filled.idx]
    refine ⟨_, gemmMalloc_of_lt hlt, rfl, rfl, fun i => ?_⟩
    simp only [Function.update_apply, Fin.ext_iff]
  · intro cs s h hfull size
    have hfilled := (calls_invariant hmalloc invariant_initial h).filled
    apply gemmMalloc_eq_error
    rw [hfilled.idx, hfull]
  · intro lib loops cs s t h htest
    have hs := calls_invariant hmalloc invariant_initial h
    obtain ⟨ds, u, hu, rfl⟩ := test601Gemm_calls htest
    have howned := (calls_invariant hmalloc hs hu).owned
    have hrun : calls sMalloc s (ds ++ [.cleanup]) = .ok (gemmCleanup u) :=
      foldlM_eq_ok_append_singleton.mpr ⟨u, hu, rfl⟩
    obtain ⟨new, hnew⟩ := calls_log hrun
    refine ⟨entries new, by rw [hnew, entries_append], ?_⟩
    intro before p after heq
    have hmem : .alloc p ∈ entries new := by
      rw [heq]
      simp
    have hsplit : entries (gemmCleanup u).log = (entries s.log ++ before) ++ .alloc p :: after := by
      rw [hnew, entries_append, heq, List.append_assoc]
    exact (owned_cleanup howned).sound.freed_once (live_cleanup howned p (ne_zero_of_mem hmem)) hsplit

def pageMalloc (log : List Event) (_size : Word) : Addr :=
  let page := BitVec.ofNat 64 (0x1000 * (log.length + 1))
  if live (entries log) page then 0 else page

theorem pageMalloc_spec : MallocSpec pageMalloc := by
  intro log size
  rw [pageMalloc]
  by_cases h : live (entries log) (BitVec.ofNat 64 (0x1000 * (log.length + 1)))
  · exact .inl (if_pos h)
  · right
    rw [if_neg h]
    exact Bool.eq_false_iff.mpr h

theorem gemm_table_full :
    ∃ s, calls pageMalloc initial [.malloc 8, .free 0x1000, .malloc 8, .malloc 8] = .ok s ∧
      gemmMalloc pageMalloc 8 s = .error s := by
  refine ⟨_, rfl, ?_⟩
  exact (gemm_table pageMalloc pageMalloc_spec).2.2.1
    [.malloc 8, .free 0x1000, .malloc 8, .malloc 8] _ rfl (by decide +kernel) 8

end Rebench.Bench.Gemm
