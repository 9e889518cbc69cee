import Mathlib.Data.List.DropRight
import Mathlib.Data.List.Infix
import Mathlib.Data.List.TakeWhile
import Mathlib.Tactic

/-!
# Backtracking patterns by the list of their successes

A pattern reads a prefix of a sequence and reports the named parts of what it
read. A repetition is greedy: the longest reading comes first and the shorter
ones are what a backtracking matcher falls back to. `successes` lists every
success in that order, so that the first of them is the result of the matcher;
`Reads` says the same without an order.
-/
namespace Rebench.Text

variable {α ν : Type*}

/-- A run: a nonempty sequence of members of one class. -/
def IsRun (p : α → Bool) (w : List α) : Prop := w ≠ [] ∧ ∀ x ∈ w, p x

instance (p : α → Bool) [DecidableEq α] : DecidablePred (IsRun p) :=
  fun _ => inferInstanceAs (Decidable (_ ∧ _))

/-- Sequences, literals, character classes, greedy repetition and named groups. -/
inductive Pattern (α ν : Type*) where
  | lit (cs : List α)
  | exactly (n : ℕ) (p : α → Bool)
  | plus (p : α → Bool)
  | seq (a b : Pattern α ν)
  | named (name : ν) (a : Pattern α ν)

/-- The named parts of a success, in the order of their opening. -/
abbrev Captures (α ν : Type*) := List (ν × List α)

namespace Captures

/-- The text of a named group. A pattern's own groups all take part in its successes. -/
def group [BEq ν] (m : Captures α ν) (name : ν) : List α := (m.lookup name).getD []

section Group
variable [BEq ν] (w : List α) (m : Captures α ν) {n k : ν}

@[simp] theorem group_cons_self [ReflBEq ν] : group ((n, w) :: m) n = w := by
  simp [group]

@[simp] theorem group_cons_of_ne (h : (k == n) = false) :
    group ((n, w) :: m) k = group m k := by
  simp [group, List.lookup_cons, h]

end Group

end Captures

namespace Pattern

instance : Append (Pattern α ν) := ⟨seq⟩

/-- Every success on a prefix of the input, in the order a backtracking matcher tries them. -/
def successes [DecidableEq α] : Pattern α ν → List α → List (Captures α ν × List α)
  | lit cs, s => if cs <+: s then [([], s.drop cs.length)] else []
  | exactly n p, s =>
    if n ≤ s.length ∧ (s.take n).all p then [([], s.drop n)] else []
  | plus p, s =>
    (List.range (s.takeWhile p).length).map fun k => ([], s.drop ((s.takeWhile p).length - k))
  | seq a b, s =>
    (a.successes s).flatMap fun x => (b.successes x.2).map fun y => (x.1 ++ y.1, y.2)
  | named name a, s =>
    (a.successes s).map fun x => ((name, s.take (s.length - x.2.length)) :: x.1, x.2)

/-- The success a backtracking matcher stops at, with the input left over. -/
def first [DecidableEq α] (p : Pattern α ν) (s : List α) : Option (Captures α ν × List α) :=
  (p.successes s).head?

def match? [DecidableEq α] (p : Pattern α ν) (s : List α) : Option (Captures α ν) :=
  (p.first s).map Prod.fst

/-- `p.Reads w m`: the pattern can read exactly `w`, with the captures `m`. -/
def Reads : Pattern α ν → List α → Captures α ν → Prop
  | lit cs, w, m => w = cs ∧ m = []
  | exactly n p, w, m => w.length = n ∧ (∀ x ∈ w, p x) ∧ m = []
  | plus p, w, m => IsRun p w ∧ m = []
  | seq a b, w, m => ∃ u v, w = u ++ v ∧ ∃ c d, m = c ++ d ∧ a.Reads u c ∧ b.Reads v d
  | named name a, w, m => ∃ c, m = (name, w) :: c ∧ a.Reads w c

section Reads
variable {w : List α} {m : Captures α ν}

@[simp] theorem reads_lit {cs : List α} :
    (lit cs : Pattern α ν).Reads w m ↔ w = cs ∧ m = [] := Iff.rfl

@[simp] theorem reads_exactly {n : ℕ} {p : α → Bool} :
    (exactly n p : Pattern α ν).Reads w m ↔ w.length = n ∧ (∀ x ∈ w, p x) ∧ m = [] := Iff.rfl

@[simp] theorem reads_plus {p : α → Bool} :
    (plus p : Pattern α ν).Reads w m ↔ IsRun p w ∧ m = [] := Iff.rfl

@[simp] theorem reads_append {a b : Pattern α ν} :
    (a ++ b).Reads w m ↔
      ∃ u v, w = u ++ v ∧ ∃ c d, m = c ++ d ∧ a.Reads u c ∧ b.Reads v d := Iff.rfl

@[simp] theorem reads_named {name : ν} {a : Pattern α ν} :
    (named name a).Reads w m ↔ ∃ c, m = (name, w) :: c ∧ a.Reads w c := Iff.rfl

end Reads

section Successes
variable [DecidableEq α]

theorem mem_successes_lit {cs s r : List α} {m : Captures α ν} :
    (m, r) ∈ (lit cs : Pattern α ν).successes s ↔ s = cs ++ r ∧ m = [] := by
  simp only [successes]
  split_ifs with h
  · obtain ⟨t, rfl⟩ := h
    simp [and_comm, eq_comm]
  · simp only [List.not_mem_nil, false_iff, not_and]
    rintro rfl
    exact absurd (List.prefix_append cs r) h

theorem mem_successes_exactly {n : ℕ} {p : α → Bool} {s r : List α} {m : Captures α ν} :
    (m, r) ∈ (exactly n p : Pattern α ν).successes s ↔
      ∃ w, s = w ++ r ∧ w.length = n ∧ (∀ x ∈ w, p x) ∧ m = [] := by
  simp only [successes]
  split_ifs with h
  · simp only [List.mem_singleton, Prod.mk.injEq]
    constructor
    · rintro ⟨rfl, rfl⟩
      exact ⟨s.take n, (List.take_append_drop n s).symm, by simpa using h.1,
        List.all_eq_true.mp h.2, rfl⟩
    · rintro ⟨w, rfl, rfl, -, rfl⟩
      simp
  · simp only [List.not_mem_nil, false_iff, not_exists]
    rintro w ⟨rfl, rfl, hw, -⟩
    exact h ⟨by simp, by simpa using hw⟩

omit [DecidableEq α] in
theorem length_le_takeWhile {p : α → Bool} {w r : List α} (hw : ∀ x ∈ w, p x) :
    w.length ≤ ((w ++ r).takeWhile p).length := by
  rw [List.takeWhile_append_of_pos (by simpa using hw)]
  simp

theorem mem_successes_plus {p : α → Bool} {s r : List α} {m : Captures α ν} :
    (m, r) ∈ (plus p : Pattern α ν).successes s ↔
      ∃ w, s = w ++ r ∧ IsRun p w ∧ m = [] := by
  simp only [successes, List.mem_map, List.mem_range, Prod.mk.injEq]
  constructor
  · rintro ⟨k, hk, rfl, rfl⟩
    set n := (s.takeWhile p).length with hn
    have hle : n ≤ s.length := (List.takeWhile_prefix p).length_le
    have hpre : s.take (n - k) <+: s.takeWhile p := by
      rw [List.prefix_iff_eq_take.mp (List.takeWhile_prefix p (l := s)), ← hn]
      exact (List.take_prefix_take_left (by omega))
    refine ⟨s.take (n - k), (List.take_append_drop _ s).symm, ⟨?_, ?_⟩, rfl⟩
    · intro h
      have hlen := congrArg List.length h
      rw [List.length_take, List.length_nil] at hlen
      omega
    · intro x hx
      exact List.mem_takeWhile_imp (hpre.subset hx)
  · rintro ⟨w, rfl, ⟨hne, hw⟩, rfl⟩
    have hle := length_le_takeWhile (r := r) hw
    have hpos := List.length_pos_of_ne_nil hne
    refine ⟨((w ++ r).takeWhile p).length - w.length, by omega, rfl, ?_⟩
    rw [Nat.sub_sub_self hle, List.drop_left]

theorem mem_successes {p : Pattern α ν} {s r : List α} {m : Captures α ν} :
    (m, r) ∈ p.successes s ↔ ∃ w, s = w ++ r ∧ p.Reads w m := by
  induction p generalizing s r m with
  | lit cs => simp [mem_successes_lit]
  | exactly n p => simpa [Reads] using mem_successes_exactly
  | plus p => simpa [Reads] using mem_successes_plus
  | seq a b iha ihb =>
    simp only [successes, List.mem_flatMap, List.mem_map, Prod.mk.injEq, Prod.exists]
    constructor
    · rintro ⟨c, t, hc, d, r', hd, rfl, rfl⟩
      obtain ⟨u, rfl, hu⟩ := iha.mp hc
      obtain ⟨v, rfl, hv⟩ := ihb.mp hd
      exact ⟨u ++ v, by simp, u, v, rfl, c, d, rfl, hu, hv⟩
    · rintro ⟨w, rfl, u, v, rfl, c, d, rfl, hu, hv⟩
      exact ⟨c, v ++ r, iha.mpr ⟨u, by simp, hu⟩, d, r, ihb.mpr ⟨v, rfl, hv⟩, rfl, rfl⟩
  | named name a ih =>
    simp only [successes, List.mem_map, Prod.mk.injEq, Prod.exists]
    constructor
    · rintro ⟨c, r', hc, rfl, rfl⟩
      obtain ⟨w, rfl, hw⟩ := ih.mp hc
      exact ⟨w, rfl, c, by simp, hw⟩
    · rintro ⟨w, rfl, c, rfl, hw⟩
      exact ⟨c, r, ih.mpr ⟨w, rfl, hw⟩, by simp, rfl⟩

theorem exists_reads_of_match? {p : Pattern α ν} {s : List α} {m : Captures α ν}
    (h : p.match? s = some m) : ∃ w r, s = w ++ r ∧ p.Reads w m := by
  simp only [match?, first, Option.map_eq_some_iff, Prod.exists, exists_and_right,
    exists_eq_right] at h
  obtain ⟨r, hr⟩ := h
  obtain ⟨w, hs, hw⟩ := mem_successes.mp (List.mem_of_head? hr)
  exact ⟨w, r, hs, hw⟩

theorem match?_eq_none {p : Pattern α ν} {s : List α} :
    p.match? s = none ↔ ∀ w r m, s = w ++ r → ¬ p.Reads w m := by
  simp only [match?, first, Option.map_eq_none_iff, List.head?_eq_none_iff, List.eq_nil_iff_forall_not_mem,
    Prod.forall, mem_successes, not_exists, not_and]
  exact ⟨fun h w r m => h m r w, fun h m r w => h w r m⟩

theorem match?_isSome {p : Pattern α ν} {w r : List α} {m : Captures α ν} (h : p.Reads w m) :
    (p.match? (w ++ r)).isSome := by
  rw [Option.isSome_iff_ne_none, Ne, match?_eq_none]
  exact fun hn => hn w r m rfl h

/-- Where all readings of the input's prefixes agree on their captures, the matcher finds them. -/
theorem match?_eq_some_of_unique {p : Pattern α ν} {w r : List α} {m : Captures α ν}
    (h : p.Reads w m)
    (huniq : ∀ w' r' m', w ++ r = w' ++ r' → p.Reads w' m' → m' = m) :
    p.match? (w ++ r) = some m := by
  obtain ⟨m', hm'⟩ := Option.isSome_iff_exists.mp (match?_isSome (r := r) h)
  obtain ⟨w', r', hs, hr⟩ := exists_reads_of_match? hm'
  rw [hm', huniq w' r' m' hs hr]

/-! ## The order of the successes -/

/-- Sequencing is associative, in the order of the successes too. -/
theorem successes_append_assoc (a b c : Pattern α ν) (s : List α) :
    (a ++ b ++ c).successes s = (a ++ (b ++ c)).successes s := by
  change (seq (seq a b) c).successes s = (seq a (seq b c)).successes s
  simp only [successes, List.flatMap_assoc, List.flatMap_map, List.map_flatMap, List.map_map,
    Function.comp_def, List.append_assoc]

theorem first_append_assoc (a b c : Pattern α ν) (s : List α) :
    (a ++ b ++ c).first s = (a ++ (b ++ c)).first s := by
  rw [first, successes_append_assoc, first]

theorem first_append (a b : Pattern α ν) (s : List α) :
    (a ++ b).first s =
      (a.successes s).findSome? fun x => (b.first x.2).map fun y => (x.1 ++ y.1, y.2) := by
  change ((seq a b).successes s).head? = _
  simp only [successes, List.head?_flatMap, List.head?_map, first]

/-- The first success of the first part stands if the second part has one behind it. -/
theorem first_append_of_first {a b : Pattern α ν} {s r t : List α} {c d : Captures α ν}
    (ha : a.first s = some (c, r)) (hb : b.first r = some (d, t)) :
    (a ++ b).first s = some (c ++ d, t) := by
  rw [first_append]
  obtain ⟨l, hl⟩ := List.head?_eq_some_iff.mp ha
  rw [hl, List.findSome?_cons, hb]
  rfl

theorem first_lit (cs s : List α) : (lit cs : Pattern α ν).first (cs ++ s) = some ([], s) := by
  simp [first, successes]

theorem first_exactly {n : ℕ} {p : α → Bool} {w : List α} (s : List α) (hn : w.length = n)
    (hw : ∀ x ∈ w, p x) : (exactly n p : Pattern α ν).first (w ++ s) = some ([], s) := by
  subst hn
  simp [first, successes, if_pos hw]

theorem first_named {n : ν} {a : Pattern α ν} {w s : List α} {c : Captures α ν}
    (h : a.first (w ++ s) = some (c, s)) :
    (named n a).first (w ++ s) = some ((n, w) :: c, s) := by
  rw [first] at h ⊢
  rw [successes, List.head?_map, h]
  simp

theorem first_append_lit {a : Pattern α ν} {c : Captures α ν} {s cs t : List α}
    (ha : a.first s = some (c, cs ++ t)) : (a ++ lit cs).first s = some (c, t) := by
  rw [first_append_of_first ha (first_lit cs t), List.append_nil]

theorem successes_plus {p : α → Bool} {w s : List α} (hw : ∀ x ∈ w, p x)
    (hs : ∀ x ∈ s.head?, p x = false) : (plus p : Pattern α ν).successes (w ++ s) =
      (List.range w.length).map fun k => ([], (w ++ s).drop (w.length - k)) := by
  have htake : (w ++ s).takeWhile p = w := by
    rw [List.takeWhile_append_of_pos (by simpa using hw)]
    cases s with
    | nil => simp
    | cons x s => simp [hs x (by simp)]
  rw [successes, htake]

/-- A repetition first reads its whole run. -/
theorem first_plus {p : α → Bool} {w s : List α} (hw : IsRun p w)
    (hs : ∀ x ∈ s.head?, p x = false) :
    (plus p : Pattern α ν).first (w ++ s) = some ([], s) := by
  rw [first, successes_plus hw.2 hs, List.head?_map, List.head?_range,
    if_neg (by simpa using hw.1)]
  simp

theorem first_append_run {a : Pattern α ν} {c : Captures α ν} {n : ν} {p : α → Bool}
    {s w t : List α} (ha : a.first s = some (c, w ++ t)) (hw : IsRun p w)
    (ht : ∀ x ∈ t.head?, p x = false) :
    (a ++ named n (plus p)).first s = some (c ++ [(n, w)], t) :=
  first_append_of_first ha (first_named (first_plus hw ht))

/-- A repetition gives back no more than what the rest of the pattern needs. -/
theorem first_named_plus_append {p : α → Bool} {name : ν} {q : Pattern α ν} {w s t : List α}
    {d : Captures α ν} (hw : IsRun p w) (hq : q.first s = some (d, t))
    (hlonger : ∀ u v, s = u ++ v → IsRun p u → q.first v = none) :
    (named name (plus p) ++ q).first (w ++ s) = some ((name, w) :: d, t) := by
  set n := ((w ++ s).takeWhile p).length with hn
  have hle : w.length ≤ n := length_le_takeWhile hw.2
  have hpos := List.length_pos_of_ne_nil hw.1
  have hmem : ∀ x ∈ (w ++ s).take n, p x := by
    intro x hx
    rw [hn, ← List.prefix_iff_eq_take.mp (List.takeWhile_prefix p)] at hx
    exact List.mem_takeWhile_imp hx
  have hsplit : List.range n =
      List.range (n - w.length) ++ (List.range w.length).map (n - w.length + ·) := by
    rw [← List.range_add, Nat.sub_add_cancel hle]
  obtain ⟨m, hm⟩ : ∃ m, w.length = m + 1 := ⟨w.length - 1, by omega⟩
  rw [first_append, successes, successes, ← hn, hsplit, hm, List.range_succ_eq_map, ← hm]
  apply List.findSome?_eq_some_iff.mpr
  refine ⟨_, _, _, by rw [List.map_map, List.map_append, List.map_cons, List.map_cons], ?_, ?_⟩
  · simp [Nat.sub_sub_self hle, hq]
  · -- a longer run leaves the rest of the pattern without a success
    intro x hx
    obtain ⟨k, hk, rfl⟩ := List.mem_map.mp hx
    have hk : k < n - w.length := List.mem_range.mp hk
    have hs : s = s.take (n - k - w.length) ++ s.drop (n - k - w.length) :=
      (List.take_append_drop _ s).symm
    have hdrop : (w ++ s).drop (n - k) = s.drop (n - k - w.length) := by
      rw [List.drop_append, List.drop_eq_nil_of_le (by omega), List.nil_append]
    have hnle : n ≤ (w ++ s).length := (List.takeWhile_prefix p).length_le
    have hrun : IsRun p (s.take (n - k - w.length)) := by
      refine ⟨?_, fun x hx => hmem x ?_⟩
      · rw [← List.length_pos_iff, List.length_take]
        rw [List.length_append] at hnle
        omega
      · rw [List.take_append]
        exact List.mem_append_right _ ((List.take_prefix_take_left (by omega)).subset hx)
    simp [Function.comp_apply, hdrop, hlonger _ _ hs hrun]

end Successes

end Pattern

/-! ## Maximal runs -/

/-- Two splittings of one sequence at the end of a run of class members agree. -/
theorem run_unique {p : α → Bool} {a a' b b' : List α} (ha : ∀ x ∈ a, p x) (ha' : ∀ x ∈ a', p x)
    (hb : ∀ x ∈ b.head?, p x = false) (hb' : ∀ x ∈ b'.head?, p x = false)
    (h : a ++ b = a' ++ b') : a = a' ∧ b = b' := by
  have htake : ∀ {c d : List α}, (∀ x ∈ c, p x) → (∀ x ∈ d.head?, p x = false) →
      (c ++ d).takeWhile p = c := by
    intro c d hc hd
    rw [List.takeWhile_append_of_pos (by simpa using hc)]
    cases d with
    | nil => simp
    | cons x d => simp [hd x (by simp)]
  have heq : a = a' := by rw [← htake ha hb, h, htake ha' hb']
  exact ⟨heq, by simpa [heq] using h⟩

/-- The same at the right end. -/
theorem run_unique_right {p : α → Bool} {a a' b b' : List α} (hb : ∀ x ∈ b, p x)
    (hb' : ∀ x ∈ b', p x) (ha : ∀ x ∈ a.getLast?, p x = false)
    (ha' : ∀ x ∈ a'.getLast?, p x = false) (h : a ++ b = a' ++ b') : a = a' ∧ b = b' := by
  have hrev := congrArg List.reverse h
  rw [List.reverse_append, List.reverse_append] at hrev
  obtain ⟨hbb, haa⟩ := run_unique (p := p) (by simpa using hb) (by simpa using hb')
    (by simpa using ha) (by simpa using ha') hrev
  exact ⟨List.reverse_injective haa, List.reverse_injective hbb⟩

/-- A run at the beginning is the one that is taken there. -/
theorem takeWhile_run {p : α → Bool} {a b : List α} (ha : ∀ x ∈ a, p x)
    (hb : ∀ x ∈ b.head?, p x = false) : (a ++ b).takeWhile p = a ∧ (a ++ b).dropWhile p = b := by
  apply run_unique (fun x hx => List.mem_takeWhile_imp hx) ha _ hb
  · exact List.takeWhile_append_dropWhile
  · intro x hx
    have hhead := List.head?_dropWhile_not p (a ++ b)
    rw [hx] at hhead
    simpa using hhead

/-- The same at the right end. -/
theorem rtakeWhile_run {p : α → Bool} {a b : List α} (ha : ∀ x ∈ a.getLast?, p x = false)
    (hb : ∀ x ∈ b, p x) : (a ++ b).rtakeWhile p = b ∧ (a ++ b).rdropWhile p = a := by
  apply And.symm
  apply run_unique_right (fun x hx => List.mem_rtakeWhile_imp hx) hb _ ha
  · exact List.rdropWhile_append_rtakeWhile
  · intro x hx
    obtain ⟨hne, rfl⟩ := List.mem_getLast?_eq_getLast hx
    exact Bool.eq_false_iff.mpr (List.rdropWhile_last_not p (a ++ b) hne)

/-- Two splittings of one sequence at its only occurrence of an element agree. -/
theorem split_unique {x : α} {a a' b b' : List α} (ha : x ∉ a) (hb : x ∉ b)
    (h : a ++ x :: b = a' ++ x :: b') : a = a' ∧ b = b' := by
  classical
  have hcount := congrArg (List.count x) h
  simp only [List.count_append, List.count_cons_self, List.count_eq_zero_of_not_mem ha,
    List.count_eq_zero_of_not_mem hb] at hcount
  have ha' : x ∉ a' := List.count_eq_zero.mp (by omega)
  have hother : ∀ {c : List α}, x ∉ c → ∀ y ∈ c, (y != x) = true := by
    intro c hc y hy
    exact bne_iff_ne.mpr fun hyx => hc (hyx ▸ hy)
  obtain ⟨haa, hbb⟩ := run_unique (p := fun y => y != x) (hother ha) (hother ha') (by simp)
    (by simp) h
  exact ⟨haa, List.tail_eq_of_cons_eq hbb⟩

namespace IsRun
variable {p : α → Bool} {w : List α}

theorem head_mem (h : IsRun p w) (r : List α) : ∃ x, (w ++ r).head? = some x ∧ p x := by
  obtain ⟨hne, hw⟩ := h
  cases w with
  | nil => exact absurd rfl hne
  | cons x w => exact ⟨x, rfl, hw x (by simp)⟩

theorem head_not_mem {q : α → Bool} (h : IsRun q w) (hpq : ∀ x, q x → p x = false) (r : List α) :
    ∀ x ∈ (w ++ r).head?, p x = false := by
  intro x hx
  obtain ⟨y, hy, hq⟩ := h.head_mem r
  rw [hy] at hx
  exact hpq x (Option.some.inj hx ▸ hq)

theorem exists_maximal (h : IsRun p w) (r : List α) :
    ∃ v s, w ++ r = v ++ s ∧ IsRun p v ∧ ∀ x ∈ s.head?, p x = false := by
  refine ⟨w ++ r.takeWhile p, r.dropWhile p, ?_, ⟨?_, ?_⟩, ?_⟩
  · rw [List.append_assoc, List.takeWhile_append_dropWhile]
  · simp [h.1]
  · intro x hx
    cases List.mem_append.mp hx with
    | inl hx => exact h.2 x hx
    | inr hx => exact List.mem_takeWhile_imp hx
  · intro x hx
    have hhead := List.head?_dropWhile_not p r
    rw [hx] at hhead
    simpa using hhead

end IsRun

end Rebench.Text
