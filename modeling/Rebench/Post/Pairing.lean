import Rebench.Machine.Run
import Rebench.Post.Lines

/-!
# Which lines are paired

The loop is followed line by line through the whole file: for every register it
awaits the first use of the last page loaded, and forgets the pages where grep
leaves lines out. What it emits for a line depends on the pairing alone.
-/
namespace Rebench.Post
open Text Machine

/-! ## What the loop sees of a line -/

def adrpOf (line : Str) : Option (Str × Adrp) :=
  (Pat.adrp.match? line).map fun mo => (mo.group .reg, ⟨mo.group .label, mo.group .addr⟩)

def useOf (line : Str) : Option Use :=
  [Kind.add, Kind.ldr, Kind.ldrBase].findSome? fun k =>
    (k.pat.match? line).map fun mo => ⟨k, mo.group .label, mo.group .reg2, mo.group .offset⟩

namespace Use

def disp (u : Use) : ℕ :=
  match u.kind with
  | .add => hexVal u.offset
  | .ldr => decVal u.offset
  | .ldrBase => 0

def target (u : Use) (p : Adrp) : Str := Post.label (hexVal p.addr + u.disp)

def edit (u : Use) (target : Str) : List Sed :=
  match u.kind with
  | .add => [⟨u.label, "#0x".toList ++ u.offset, "#:lo12:".toList ++ target⟩]
  | .ldr => [⟨u.label, '#' :: u.offset, "#:lo12:".toList ++ target⟩]
  | .ldrBase => []

def Readable (u : Use) : Prop := u.kind = .ldr → IsRun isDec u.offset

instance : DecidablePred Readable := fun _ => inferInstanceAs (Decidable (_ → _))

end Use

section Lines
variable {line reg rest : Str} {u : Use} {p : Adrp} {k : Kind}

theorem adrpOf_eq_some :
    adrpOf line = some (reg, p) ↔ ∃ rest, IsAdrp line p.label reg p.addr rest := by
  constructor
  · intro h
    obtain ⟨m, hm, h⟩ := Option.map_eq_some_iff.mp h
    obtain ⟨label, reg', addr, rest, hadrp⟩ := exists_isAdrp hm
    rw [hadrp.match?, Option.some_inj] at hm
    rw [← hm, Prod.mk.injEq] at h
    obtain ⟨hreg, hp⟩ := h
    rw [← hreg, ← hp]
    exact ⟨rest, hadrp⟩
  · intro h
    obtain ⟨rest, h⟩ := h
    rw [adrpOf, h.match?]
    rfl

theorem IsUse.match?_of_ne (h : IsUse line u reg rest) (hk : k ≠ u.kind) :
    k.pat.match? line = none := by
  by_contra hsome
  obtain ⟨m, hm⟩ := Option.ne_none_iff_exists'.mp hsome
  obtain ⟨u', reg', rest', h', hkind⟩ := exists_isUse hm
  exact hk (hkind.symm.trans (congrArg Use.kind (h'.unique h).1))

theorem group_captures (h : IsUse line u reg rest) :
    (u.captures reg).group .label = u.label ∧ (u.captures reg).group .reg2 = u.base ∧
      (u.captures reg).group .offset = u.offset := by
  refine ⟨rfl, rfl, ?_⟩
  have hoff := h.offset
  rw [Use.captures]
  by_cases hb : u.kind = .ldrBase
  · rw [if_pos hb] at hoff ⊢
    exact hoff.symm
  · rw [if_neg hb]
    rfl

theorem useOf_eq_some : useOf line = some u ↔ ∃ reg rest, IsUse line u reg rest := by
  constructor
  · intro h
    obtain ⟨k, -, h⟩ := List.exists_of_findSome?_eq_some h
    obtain ⟨m, hm, h⟩ := Option.map_eq_some_iff.mp h
    obtain ⟨u', reg, rest, huse, rfl⟩ := exists_isUse hm
    rw [huse.match?, Option.some_inj] at hm
    obtain ⟨hlabel, hbase, hoffset⟩ := group_captures huse
    rw [← hm, hlabel, hbase, hoffset] at h
    rw [← h]
    exact ⟨reg, rest, huse⟩
  · intro h
    obtain ⟨reg, rest, h⟩ := h
    obtain ⟨hlabel, hbase, hoffset⟩ := group_captures h
    have hsame : (u.kind.pat.match? line).map (fun mo =>
        (⟨u.kind, mo.group .label, mo.group .reg2, mo.group .offset⟩ : Use)) = some u := by
      rw [h.match?, Option.map_some, hlabel, hbase, hoffset]
    have hother : ∀ k, k ≠ u.kind → (k.pat.match? line).map (fun mo =>
        (⟨k, mo.group .label, mo.group .reg2, mo.group .offset⟩ : Use)) = none := by
      intro k hk
      rw [h.match?_of_ne hk]
      rfl
    rw [useOf]
    cases hkind : u.kind with
    | add =>
      rw [hkind] at hsame
      rw [List.findSome?_cons, hsame]
    | ldr =>
      rw [hkind] at hsame hother
      rw [List.findSome?_cons, hother .add (by decide), List.findSome?_cons, hsame]
    | ldrBase =>
      rw [hkind] at hsame hother
      rw [List.findSome?_cons, hother .add (by decide), List.findSome?_cons,
        hother .ldr (by decide), List.findSome?_cons, hsame]

theorem useOf_eq_none (h : useOf line = none) (k : Kind) : k.pat.match? line = none := by
  have hk : k ∈ [Kind.add, Kind.ldr, Kind.ldrBase] := by
    cases k <;> decide
  exact Option.map_eq_none_iff.mp (List.findSome?_eq_none_iff.mp h k hk)

theorem useOf_of_adrpOf {a : Str × Adrp} (h : adrpOf line = some a) : useOf line = none := by
  by_contra hsome
  obtain ⟨u, hu⟩ := Option.ne_none_iff_exists'.mp hsome
  obtain ⟨reg, rest, huse⟩ := useOf_eq_some.mp hu
  obtain ⟨rest', hadrp⟩ := adrpOf_eq_some.mp h
  exact hadrp.not_isUse huse

end Lines

/-! ## One step of the loop -/

section Step
variable {s : State} {line : Str} {u : Use} {p : Adrp}

theorem step_dashes (h : "--".toList <+: line) :
    step s line = .ok { s with tmp := fun _ => none } := if_pos h

theorem step_adrp (hd : ¬ "--".toList <+: line) {reg : Str} (h : adrpOf line = some (reg, p)) :
    step s line = .ok { s with tmp := Function.update s.tmp reg (some p) } := by
  obtain ⟨m, hm, h⟩ := Option.map_eq_some_iff.mp h
  rw [Prod.mk.injEq] at h
  rw [step, if_neg hd, hm, ← h.1, ← h.2]

/-- The state behind a use, which is paired if a page is awaited. -/
def State.afterUse (s : State) (u : Use) : State :=
  match s.tmp u.base with
  | some p => s.pair u.base p (u.target p) (u.edit (u.target p))
  | none => s

theorem addCase_of_none (h : Pat.add.match? line = none) : addCase s line = s := by
  rw [addCase, h]

theorem ldrCase_of_none (h : Pat.ldr.match? line = none) : ldrCase s line = .ok s := by
  rw [ldrCase, h]
  rfl

theorem ldrBaseCase_of_none (h : Pat.ldrBase.match? line = none) : ldrBaseCase s line = s := by
  rw [ldrBaseCase, h]

theorem addCase_of_use {reg rest : Str} (h : IsUse line u reg rest) (hk : u.kind = .add) :
    addCase s line = s.afterUse u := by
  obtain ⟨hlabel, hbase, hoffset⟩ := group_captures h
  have hmatch := h.match?
  rw [hk, Kind.pat] at hmatch
  simp only [addCase, hmatch, hlabel, hbase, hoffset]
  cases htmp : s.tmp u.base with
  | none => simp only [State.afterUse, htmp]
  | some p => simp only [State.afterUse, htmp, Use.target, Use.disp, Use.edit, hk]

theorem ldrCase_of_use {reg rest : Str} (h : IsUse line u reg rest) (hk : u.kind = .ldr) :
    ldrCase s line = if s.tmp u.base = none ∨ IsRun isDec u.offset then .ok (s.afterUse u)
      else .error ⟨u.offset⟩ := by
  obtain ⟨hlabel, hbase, hoffset⟩ := group_captures h
  have hmatch := h.match?
  rw [hk, Kind.pat] at hmatch
  simp only [ldrCase, hmatch, hlabel, hbase, hoffset]
  cases htmp : s.tmp u.base with
  | none =>
    simp only [State.afterUse, htmp]
    rfl
  | some p =>
    simp only [State.afterUse, htmp, Use.target, Use.disp, Use.edit, hk]
    by_cases hdec : IsRun isDec u.offset
    · rw [if_pos (.inr hdec), int, if_pos hdec]
      rfl
    · rw [if_neg (by simp [hdec]), int, if_neg hdec]
      rfl

theorem ldrBaseCase_of_use {reg rest : Str} (h : IsUse line u reg rest) (hk : u.kind = .ldrBase) :
    ldrBaseCase s line = s.afterUse u := by
  obtain ⟨-, hbase, -⟩ := group_captures h
  have hmatch := h.match?
  rw [hk, Kind.pat] at hmatch
  simp only [ldrBaseCase, hmatch, hbase]
  cases htmp : s.tmp u.base with
  | none => simp only [State.afterUse, htmp]
  | some p => simp only [State.afterUse, htmp, Use.target, Use.disp, Use.edit, hk, add_zero]

theorem step_use (hd : ¬ "--".toList <+: line) (hu : useOf line = some u) :
    step s line = match s.tmp u.base with
      | none => .ok s
      | some p =>
        if u.Readable then .ok (s.pair u.base p (u.target p) (u.edit (u.target p)))
        else .error ⟨u.offset⟩ := by
  have hadrp : Pat.adrp.match? line = none := by
    by_contra hsome
    obtain ⟨m, hm⟩ := Option.ne_none_iff_exists'.mp hsome
    have hnone : useOf line = none := useOf_of_adrpOf (by rw [adrpOf, hm]; rfl)
    rw [hu] at hnone
    exact absurd hnone (by simp)
  obtain ⟨reg, rest, h⟩ := useOf_eq_some.mp hu
  have hcases : step s line = if s.tmp u.base = none ∨ u.Readable then .ok (s.afterUse u)
      else .error ⟨u.offset⟩ := by
    rw [step, if_neg hd, hadrp]
    cases hkind : u.kind with
    | add =>
      have hread : u.Readable := fun hk => absurd (hkind.symm.trans hk) (by decide)
      rw [addCase_of_use h hkind, ldrCase_of_none (h.match?_of_ne (k := .ldr) (by simp [hkind])),
        if_pos (.inr hread)]
      exact congrArg Except.ok (ldrBaseCase_of_none (h.match?_of_ne (k := .ldrBase) (by simp [hkind])))
    | ldr =>
      have hread : u.Readable ↔ IsRun isDec u.offset := ⟨fun hu => hu hkind, fun hdec _ => hdec⟩
      rw [addCase_of_none (h.match?_of_ne (k := .add) (by simp [hkind])), ldrCase_of_use h hkind]
      simp only [hread]
      split_ifs
      · exact congrArg Except.ok
          (ldrBaseCase_of_none (h.match?_of_ne (k := .ldrBase) (by simp [hkind])))
      · rfl
    | ldrBase =>
      have hread : u.Readable := fun hk => absurd (hkind.symm.trans hk) (by decide)
      rw [addCase_of_none (h.match?_of_ne (k := .add) (by simp [hkind])),
        ldrCase_of_none (h.match?_of_ne (k := .ldr) (by simp [hkind])), if_pos (.inr hread)]
      exact congrArg Except.ok (ldrBaseCase_of_use h hkind)
  rw [hcases, State.afterUse]
  cases s.tmp u.base with
  | none => rfl
  | some p => simp

theorem step_other (hd : ¬ "--".toList <+: line) (ha : adrpOf line = none)
    (hu : useOf line = none) : step s line = .ok s := by
  have hnone := useOf_eq_none hu
  have hadd : Pat.add.match? line = none := hnone .add
  have hldr : Pat.ldr.match? line = none := hnone .ldr
  have hldrBase : Pat.ldrBase.match? line = none := hnone .ldrBase
  rw [step, if_neg hd, Option.map_eq_none_iff.mp ha]
  simp only [addCase, hadd, ldrCase, hldr, ldrBaseCase, hldrBase]
  rfl

end Step

/-! ## The whole file -/

/-- The number of the next line, the lines that grep still shows, and for every register the last
page loaded into it, with the number of its line. -/
structure Tracker where
  next : ℕ
  left : ℕ
  await : Str → Option (ℕ × Adrp)

structure Pairing where
  first : ℕ
  adrp : Adrp
  use : Use
  deriving DecidableEq

def Pairing.target (q : Pairing) : Str := q.use.target q.adrp

def Pairing.commands (q : Pairing) : List Sed :=
  ⟨q.adrp.label, '?' :: q.adrp.addr, q.target⟩ :: q.use.edit q.target

namespace Tracker
variable (t : Tracker)

def read (line : Str) : (Str → Option (ℕ × Adrp)) × Option Pairing :=
  if "--".toList <+: line then (fun _ => none, none)
  else match adrpOf line with
  | some (reg, p) => (Function.update t.await reg (some (t.next, p)), none)
  | none =>
    match useOf line with
    | some u =>
      match t.await u.base with
      | some (i, p) => (Function.update t.await u.base none, some ⟨i, p, u⟩)
      | none => (t.await, none)
    | none => (t.await, none)

/-- A line of the file, with the pair it completes. -/
def watch (line : Str) : Tracker × Option Pairing :=
  if "adrp".toList <:+: line then ({ next := t.next + 1, left := 7, await := (t.read line).1 }, (t.read line).2)
  else
    match t.left with
    | 0 => ({ next := t.next + 1, left := 0, await := fun _ => none }, none)
    | left + 1 => ({ next := t.next + 1, left, await := (t.read line).1 }, (t.read line).2)

end Tracker

def pairings (file : List Str) : List (Option Pairing) :=
  (transduce Tracker.watch ⟨0, 0, fun _ => none⟩ file).2

def Paired (file : List Str) (j : ℕ) (q : Pairing) : Prop := (pairings file)[j]? = some (some q)

def commands (qs : List (Option Pairing)) : List Sed := qs.flatMap fun q => q.elim [] Pairing.commands

section Grep
variable {left : ℕ} {printed gap : Bool} {l : Str} {ls : List Str}

theorem grepFrom_adrp (h : "adrp".toList <:+: l) : grepFrom left printed gap (l :: ls) =
    (if printed && gap then ["--".toList] else []) ++ l :: grepFrom 7 true false ls := by
  cases left <;> exact if_pos h

theorem grepFrom_left_out (h : ¬ "adrp".toList <:+: l) :
    grepFrom 0 printed gap (l :: ls) = grepFrom 0 printed true ls := if_neg h

theorem grepFrom_shown (h : ¬ "adrp".toList <:+: l) :
    grepFrom (left + 1) printed gap (l :: ls) = l :: grepFrom left printed false ls := if_neg h

end Grep

theorem foldl_map_apply (cs : List Sed) (file : List Str) :
    cs.foldl (fun ls c => ls.map c.apply) file =
      file.map fun l => cs.foldl (fun l c => c.apply l) l := by
  induction cs generalizing file with
  | nil => simp
  | cons c cs ih =>
    rw [List.foldl_cons, ih, List.map_map]
    rfl

section Loop
variable {s s' : State} {t : Tracker} {line : Str}

/-- The loop and the tracker read a line alike. -/
theorem step_read (htmp : ∀ r, s.tmp r = (t.await r).map Prod.snd) (h : step s line = .ok s') :
    (∀ r, s'.tmp r = ((t.read line).1 r).map Prod.snd) ∧
      s'.replaces = s.replaces ++ (t.read line).2.elim [] Pairing.commands ∧
      ∀ q, (t.read line).2 = some q → q.use.Readable := by
  have hupdate : ∀ (f : Str → Option Adrp) (g : Str → Option (ℕ × Adrp)) (r : Str)
      (x : Option (ℕ × Adrp)), (∀ r, f r = (g r).map Prod.snd) → ∀ r',
        Function.update f r (x.map Prod.snd) r' = (Function.update g r x r').map Prod.snd := by
    intro f g r x hfg r'
    by_cases hr : r' = r
    · rw [hr, Function.update_self, Function.update_self]
    · rw [Function.update_of_ne hr, Function.update_of_ne hr, hfg]
  rw [Tracker.read]
  by_cases hd : "--".toList <+: line
  · rw [step_dashes hd, Except.ok.injEq] at h
    rw [if_pos hd, ← h]
    exact ⟨fun _ => rfl, (List.append_nil _).symm, fun q hq => absurd hq (by simp)⟩
  · rw [if_neg hd]
    cases ha : adrpOf line with
    | some a =>
      obtain ⟨reg, p⟩ := a
      rw [step_adrp hd ha, Except.ok.injEq] at h
      rw [← h]
      exact ⟨hupdate _ _ reg (some (t.next, p)) htmp, (List.append_nil _).symm,
        fun q hq => absurd hq (by simp)⟩
    | none =>
      cases hu : useOf line with
      | none =>
        rw [step_other hd ha hu, Except.ok.injEq] at h
        rw [← h]
        exact ⟨htmp, (List.append_nil _).symm, fun q hq => absurd hq (by simp)⟩
      | some u =>
        rw [step_use hd hu, htmp u.base] at h
        cases hawait : t.await u.base with
        | none =>
          simp only [hawait, Option.map_none, Except.ok.injEq] at h ⊢
          rw [← h]
          exact ⟨htmp, (List.append_nil _).symm, fun q hq => absurd hq (by simp)⟩
        | some x =>
          obtain ⟨i, p⟩ := x
          simp only [hawait, Option.map_some] at h ⊢
          split_ifs at h with hread
          rw [Except.ok.injEq] at h
          rw [← h]
          refine ⟨hupdate _ _ u.base none htmp, rfl, fun q hq => ?_⟩
          rw [← Option.some.inj hq]
          exact hread

theorem step_ok (htmp : ∀ r, s.tmp r = (t.await r).map Prod.snd)
    (hread : ∀ q, (t.read line).2 = some q → q.use.Readable) : ∃ s', step s line = .ok s' := by
  rw [Tracker.read] at hread
  by_cases hd : "--".toList <+: line
  · exact ⟨_, step_dashes hd⟩
  · rw [if_neg hd] at hread
    cases ha : adrpOf line with
    | some a => exact ⟨_, step_adrp hd ha⟩
    | none =>
      cases hu : useOf line with
      | none => exact ⟨_, step_other hd ha hu⟩
      | some u =>
        rw [step_use hd hu, htmp u.base]
        cases hawait : t.await u.base with
        | none => exact ⟨s, rfl⟩
        | some x =>
          simp only [ha, hu, hawait] at hread
          exact ⟨_, if_pos (hread _ rfl)⟩

/-- The table and the tracker agree, except that the table is cleared late, at the next separator. -/
structure Related (t : Tracker) (s : State) (printed gap : Bool) : Prop where
  tmp : (printed && gap) = false → ∀ r, s.tmp r = (t.await r).map Prod.snd
  await : (printed && gap) = true → ∀ r, t.await r = none
  shown : t.left ≠ 0 → printed = true ∧ gap = false
  clear : printed = false → ∀ r, s.tmp r = none

/-- A line that grep shows is read in a state that agrees with the tracker; a line that it leaves out
is forgotten with all pages. -/
theorem Related.follow {printed gap : Bool} (hr : Related t s printed gap) (l : Str) :
    (t.watch l = (⟨t.next + 1, 0, fun _ => none⟩, none) ∧
        Related ⟨t.next + 1, 0, fun _ => none⟩ s printed true ∧
        ∀ ls, grepFrom t.left printed gap (l :: ls) = grepFrom 0 printed true ls) ∨
      ∃ v left, t.watch l = (⟨t.next + 1, left, (t.read l).1⟩, (t.read l).2) ∧
        (∀ r, v.tmp r = (t.await r).map Prod.snd) ∧ v.replaces = s.replaces ∧
        ∀ ls, (grepFrom t.left printed gap (l :: ls)).foldlM step s =
          (l :: grepFrom left true false ls).foldlM step v := by
  by_cases hadrp : "adrp".toList <:+: l
  · right
    have hwatch : t.watch l = (⟨t.next + 1, 7, (t.read l).1⟩, (t.read l).2) := by
      rw [Tracker.watch, if_pos hadrp]
    by_cases hsep : (printed && gap) = true
    · refine ⟨{ s with tmp := fun _ => none }, 7, hwatch, fun r => ?_, rfl, fun ls => ?_⟩
      · rw [hr.await hsep r]
        rfl
      · rw [grepFrom_adrp hadrp, if_pos hsep, List.singleton_append, List.foldlM_cons,
          step_dashes List.prefix_rfl]
        rfl
    · refine ⟨s, 7, hwatch, hr.tmp (by simpa using hsep), rfl, fun ls => ?_⟩
      rw [grepFrom_adrp hadrp, if_neg hsep, List.nil_append]
  · cases hleft : t.left with
    | zero =>
      left
      refine ⟨?_, ⟨fun hp r => ?_, fun _ _ => rfl, fun hne => absurd rfl hne, hr.clear⟩, fun ls => ?_⟩
      · rw [Tracker.watch, if_neg hadrp, hleft]
      · rw [Bool.and_true] at hp
        exact hr.clear hp r
      · exact grepFrom_left_out hadrp
    | succ left =>
      right
      obtain ⟨rfl, rfl⟩ := hr.shown (by rw [hleft]; exact Nat.succ_ne_zero left)
      refine ⟨s, left, ?_, hr.tmp rfl, rfl, fun ls => ?_⟩
      · rw [Tracker.watch, if_neg hadrp, hleft]
      · rw [grepFrom_shown hadrp]

theorem related_read {v : State} {l : Str} {left : ℕ}
    (htmp : ∀ r, v.tmp r = (t.await r).map Prod.snd) (h : step v l = .ok s') :
    Related ⟨t.next + 1, left, (t.read l).1⟩ s' true false where
  tmp := fun _ => (step_read htmp h).1
  await := fun h => absurd h (by simp)
  shown := fun _ => ⟨rfl, rfl⟩
  clear := fun h => absurd h (by simp)

/-- A loop that ends has collected the commands of the pairs. -/
theorem loop_commands {ls : List Str} {printed gap : Bool} (hr : Related t s printed gap)
    (h : (grepFrom t.left printed gap ls).foldlM step s = .ok s') :
    s'.replaces = s.replaces ++ commands (transduce Tracker.watch t ls).2 ∧
      ∀ q, some q ∈ (transduce Tracker.watch t ls).2 → q.use.Readable := by
  induction ls generalizing t s printed gap with
  | nil =>
    cases h
    exact ⟨(List.append_nil _).symm, fun q hq => absurd hq (by simp)⟩
  | cons l ls ih =>
    rcases hr.follow l with ⟨hwatch, hr', hgrep⟩ | ⟨v, left, hwatch, htmp, hreplaces, hrun⟩
    · rw [hgrep] at h
      obtain ⟨hrest, hreadable⟩ := ih hr' h
      rw [transduce_cons, hwatch, hrest]
      refine ⟨rfl, fun q hq => ?_⟩
      cases List.mem_cons.mp hq with
      | inl hq => exact absurd hq (by simp)
      | inr hq => exact hreadable q hq
    · rw [hrun] at h
      obtain ⟨s₁, hs₁, h⟩ := foldlM_eq_ok_cons.mp h
      obtain ⟨-, hreplaces₁, hread⟩ := step_read htmp hs₁
      obtain ⟨hrest, hreadable⟩ := ih (related_read htmp hs₁) h
      rw [transduce_cons, hwatch, hrest, hreplaces₁, hreplaces, List.append_assoc]
      refine ⟨rfl, fun q hq => ?_⟩
      cases List.mem_cons.mp hq with
      | inl hq => exact hread q hq.symm
      | inr hq => exact hreadable q hq

theorem loop_ok {ls : List Str} {printed gap : Bool} (hr : Related t s printed gap)
    (hread : ∀ q, some q ∈ (transduce Tracker.watch t ls).2 → q.use.Readable) :
    ∃ s', (grepFrom t.left printed gap ls).foldlM step s = .ok s' := by
  induction ls generalizing t s printed gap with
  | nil => exact ⟨s, rfl⟩
  | cons l ls ih =>
    rw [transduce_cons] at hread
    rcases hr.follow l with ⟨hwatch, hr', hgrep⟩ | ⟨v, left, hwatch, htmp, -, hrun⟩
    · rw [hwatch] at hread
      rw [hgrep]
      exact ih hr' fun q hq => hread q (List.mem_cons_of_mem _ hq)
    · rw [hwatch] at hread
      obtain ⟨s₁, hs₁⟩ := step_ok htmp fun q hq => hread q (List.mem_cons.mpr (.inl hq.symm))
      obtain ⟨s', hs'⟩ := ih (related_read htmp hs₁) fun q hq => hread q (List.mem_cons_of_mem _ hq)
      rw [hrun]
      exact ⟨s', foldlM_eq_ok_cons.mpr ⟨s₁, hs₁, hs'⟩⟩

theorem related_start : Related ⟨0, 0, fun _ => none⟩ start false false :=
  ⟨fun _ _ => rfl, fun h => absurd h (by simp), fun h => absurd rfl h, fun _ _ => rfl⟩

theorem grep_ok {file : List Str} (h : ∀ q, some q ∈ pairings file → q.use.Readable) :
    ∃ s, (grep file).foldlM step start = .ok s ∧ s.replaces = commands (pairings file) := by
  obtain ⟨s, hs⟩ := loop_ok related_start h
  exact ⟨s, hs, (loop_commands related_start hs).1⟩

/-- The file afterwards has its lines edited by the commands of the pairs. -/
theorem post_eq_ok {path : Str} {file out : List Str} (h : post path file = .ok out) :
    out = file.map (fun l => (commands (pairings file)).foldl (fun l c => c.apply l) l) ++
        [[], includeLine path] ∧
      ∀ q, some q ∈ pairings file → q.use.Readable := by
  rw [post] at h
  cases hrun : (grep file).foldlM step start with
  | error e =>
    rw [hrun] at h
    exact absurd h (by simp [bind, Except.bind])
  | ok s =>
    rw [hrun] at h
    obtain ⟨hreplaces, hreadable⟩ := loop_commands related_start hrun
    refine ⟨?_, hreadable⟩
    rw [← Except.ok.inj h, hreplaces]
    congr 1
    exact foldl_map_apply _ _

end Loop

/-! ## The lines of a pair -/

/-- Line `k` is an `adrp` line or among the seven lines behind one. -/
def Shown (file : List Str) (k : ℕ) : Prop :=
  ∃ i l, file[i]? = some l ∧ "adrp".toList <:+: l ∧ i ≤ k ∧ k ≤ i + 7

/-- The line neither loads the register with `adrp` nor uses it, and it is no separator. -/
def Passes (reg line : Str) : Prop :=
  ¬ "--".toList <+: line ∧ (∀ p, adrpOf line ≠ some (reg, p)) ∧
    ∀ u, useOf line = some u → u.base ≠ reg

/-- The lines of a pair: the register is loaded in the first one and used in the second one, and the
lines between them pass it by; grep shows all of them. -/
structure Pair (file : List Str) (j : ℕ) (q : Pairing) (line line' : Str) : Prop where
  lt : q.first < j
  first : file[q.first]? = some line
  second : file[j]? = some line'
  adrp : adrpOf line = some (q.use.base, q.adrp)
  use : useOf line' = some q.use
  between : ∀ k l, q.first < k → k < j → file[k]? = some l → Passes q.use.base l
  shown : ∀ k, q.first < k → k ≤ j → Shown file k

/-- The tracker after some lines: it counts the lines and those that grep still shows, and a page is
awaited if it was loaded by the last `adrp` of the register and no line behind it has used it. -/
structure Tracks (ls : List Str) (t : Tracker) : Prop where
  next : t.next = ls.length
  left : ∀ m, m < t.left ↔
    ∃ i l, ls[i]? = some l ∧ "adrp".toList <:+: l ∧ ls.length + m ≤ i + 7
  await : ∀ r i p, t.await r = some (i, p) ↔ ∃ line, ls[i]? = some line ∧
    adrpOf line = some (r, p) ∧ ∀ k l, i < k → ls[k]? = some l → Passes r l ∧ Shown ls k

section Reading
variable {ls file : List Str} {t : Tracker} {l line r : Str} {p : Adrp} {q : Pairing} {i j k : ℕ}

theorem not_dashes (s : Str) : ¬ "--".toList <+: 'L' :: s := by
  intro h
  exact absurd (List.cons_prefix_cons.mp h).1 (by decide)

theorem not_dashes_of_adrpOf {a : Str × Adrp} (h : adrpOf l = some a) : ¬ "--".toList <+: l := by
  obtain ⟨rest, hadrp⟩ := adrpOf_eq_some.mp h
  rw [hadrp.text]
  exact not_dashes _

theorem not_dashes_of_useOf {u : Use} (h : useOf l = some u) : ¬ "--".toList <+: l := by
  obtain ⟨reg, rest, huse⟩ := useOf_eq_some.mp h
  rw [huse.text]
  exact not_dashes _

theorem isInfix_of_adrpOf {a : Str × Adrp} (h : adrpOf l = some a) : "adrp".toList <:+: l := by
  obtain ⟨rest, hadrp⟩ := adrpOf_eq_some.mp h
  refine ⟨'L' :: (a.2.label ++ [':', '\t']), ' ' :: (a.1 ++ (", ?".toList ++ (a.2.addr ++ rest))), ?_⟩
  rw [hadrp.text, show "\tadrp ".toList = '\t' :: ("adrp".toList ++ [' ']) from rfl]
  simp

/-- A line that is read completes a pair if it uses an awaited page. -/
theorem read_pair : (t.read l).2 = some q ↔
    useOf l = some q.use ∧ t.await q.use.base = some (q.first, q.adrp) := by
  rw [Tracker.read]
  by_cases hd : "--".toList <+: l
  · rw [if_pos hd]
    exact iff_of_false (by simp) fun h => not_dashes_of_useOf h.1 hd
  · rw [if_neg hd]
    cases ha : adrpOf l with
    | some a =>
      rw [useOf_of_adrpOf ha]
      exact iff_of_false (by simp) (by simp)
    | none =>
      cases hu : useOf l with
      | none => simp
      | some u =>
        cases hawait : t.await u.base with
        | none =>
          refine iff_of_false (by simp [hawait]) fun h => ?_
          rw [← Option.some.inj h.1, hawait] at h
          exact absurd h.2 (by simp)
        | some x =>
          simp only [hawait, Option.some_inj]
          constructor
          · rintro rfl
            exact ⟨rfl, hawait⟩
          · rintro ⟨rfl, h⟩
            rw [hawait, Option.some_inj] at h
            rw [h]

theorem passes_of_adrpOf {reg : Str} (h : adrpOf l = some (reg, p)) : Passes r l ↔ r ≠ reg := by
  constructor
  · rintro ⟨-, hpass, -⟩ rfl
    exact hpass p h
  · intro hr
    refine ⟨not_dashes_of_adrpOf h, fun p' h' => ?_, fun u hu => ?_⟩
    · rw [h, Option.some_inj, Prod.mk.injEq] at h'
      exact hr h'.1.symm
    · rw [useOf_of_adrpOf h] at hu
      cases hu

theorem passes_of_useOf {u : Use} (h : useOf l = some u) : Passes r l ↔ r ≠ u.base := by
  constructor
  · rintro ⟨-, -, hpass⟩
    exact (hpass u h).symm
  · intro hr
    refine ⟨not_dashes_of_useOf h, fun p hp => ?_, fun u' hu' => ?_⟩
    · rw [useOf_of_adrpOf hp] at h
      cases h
    · rw [h, Option.some_inj] at hu'
      exact hu' ▸ hr.symm

theorem passes_of_none (hd : ¬ "--".toList <+: l) (ha : adrpOf l = none) (hu : useOf l = none) :
    Passes r l :=
  ⟨hd, by simp [ha], by simp [hu]⟩

/-- After a line that is read, it awaits the page that the line loads, and the pages of the
registers that the line passes by. -/
theorem read_await : (t.read l).1 r = some (i, p) ↔
    i = t.next ∧ adrpOf l = some (r, p) ∨ t.await r = some (i, p) ∧ Passes r l := by
  rw [Tracker.read]
  by_cases hd : "--".toList <+: l
  · rw [if_pos hd]
    refine iff_of_false (by simp) fun h => ?_
    cases h with
    | inl h => exact not_dashes_of_adrpOf h.2 hd
    | inr h => exact h.2.1 hd
  · rw [if_neg hd]
    cases ha : adrpOf l with
    | some a =>
      obtain ⟨reg, p'⟩ := a
      rw [passes_of_adrpOf ha]
      by_cases hr : r = reg
      · subst hr
        simp [eq_comm]
      · simp [hr, Ne.symm hr]
    | none =>
      cases hu : useOf l with
      | none =>
        rw [and_iff_left (passes_of_none hd ha hu)]
        simp
      | some u =>
        rw [passes_of_useOf hu]
        cases hawait : t.await u.base with
        | none =>
          -- a register without a page is not the one that is asked for
          have hne : t.await r = some (i, p) → r ≠ u.base := by
            rintro h rfl
            rw [hawait] at h
            cases h
          rw [and_iff_left_of_imp hne]
          simp [hawait]
        | some x =>
          by_cases hr : r = u.base
          · subst hr
            simp [hawait]
          · simp [hawait, hr]

theorem shown_congr (h : ∀ i ≤ k, ls[i]? = file[i]?) : Shown ls k ↔ Shown file k := by
  constructor
  · rintro ⟨i, l, hl, hadrp, hik, hki⟩
    exact ⟨i, l, h i hik ▸ hl, hadrp, hik, hki⟩
  · rintro ⟨i, l, hl, hadrp, hik, hki⟩
    exact ⟨i, l, (h i hik).trans hl, hadrp, hik, hki⟩

theorem getElem?_concat_iff : (ls ++ [l])[i]? = some line ↔
    ls[i]? = some line ∨ i = ls.length ∧ line = l := by
  by_cases hi : i < ls.length
  · rw [List.getElem?_append_left hi]
    exact ⟨.inl, fun h => h.resolve_right fun h => absurd h.1 (by omega)⟩
  · rw [List.getElem?_append_right (by omega), List.getElem?_singleton,
      List.getElem?_eq_none (by omega)]
    by_cases hn : i = ls.length
    · simp [hn, eq_comm]
    · simp [hn, show i - ls.length ≠ 0 by omega]

theorem watch_next : (t.watch l).1.next = t.next + 1 := by
  rw [Tracker.watch]
  by_cases hadrp : "adrp".toList <:+: l
  · rw [if_pos hadrp]
  · rw [if_neg hadrp]
    cases t.left <;> rfl

theorem watch_left :
    (t.watch l).1.left = if "adrp".toList <:+: l then 7 else t.left - 1 := by
  rw [Tracker.watch]
  by_cases hadrp : "adrp".toList <:+: l
  · rw [if_pos hadrp, if_pos hadrp]
  · rw [if_neg hadrp, if_neg hadrp]
    cases t.left <;> rfl

theorem watch_await : (t.watch l).1.await r = some (i, p) ↔
    ("adrp".toList <:+: l ∨ 0 < t.left) ∧ (t.read l).1 r = some (i, p) := by
  rw [Tracker.watch]
  by_cases hadrp : "adrp".toList <:+: l
  · rw [if_pos hadrp]
    exact (and_iff_right (.inl hadrp)).symm
  · rw [if_neg hadrp, or_iff_right hadrp]
    cases t.left <;> simp

theorem watch_pair : (t.watch l).2 = some q ↔
    ("adrp".toList <:+: l ∨ 0 < t.left) ∧ (t.read l).2 = some q := by
  rw [Tracker.watch]
  by_cases hadrp : "adrp".toList <:+: l
  · rw [if_pos hadrp]
    exact (and_iff_right (.inl hadrp)).symm
  · rw [if_neg hadrp, or_iff_right hadrp]
    cases t.left <;> simp

theorem Tracks.shown (h : Tracks ls t) :
    ("adrp".toList <:+: l ∨ 0 < t.left) ↔ Shown (ls ++ [l]) ls.length := by
  rw [h.left]
  constructor
  · rintro (hadrp | ⟨i, l', hl', hadrp, hi⟩)
    · exact ⟨ls.length, l, getElem?_concat_iff.mpr (.inr ⟨rfl, rfl⟩), hadrp, le_rfl, by omega⟩
    · have hlt := (List.getElem?_eq_some_iff.mp hl').1
      exact ⟨i, l', getElem?_concat_iff.mpr (.inl hl'), hadrp, hlt.le, hi⟩
  · rintro ⟨i, l', hl', hadrp, -, hi⟩
    cases getElem?_concat_iff.mp hl' with
    | inl hl' => exact .inr ⟨i, l', hl', hadrp, hi⟩
    | inr hl' => exact .inl (hl'.2 ▸ hadrp)

theorem Tracks.watch_left (h : Tracks ls t) (m : ℕ) : m < (t.watch l).1.left ↔
    ∃ i l', (ls ++ [l])[i]? = some l' ∧ "adrp".toList <:+: l' ∧ ls.length + 1 + m ≤ i + 7 := by
  rw [Post.watch_left]
  by_cases hadrp : "adrp".toList <:+: l
  · rw [if_pos hadrp]
    constructor
    · intro hm
      exact ⟨ls.length, l, getElem?_concat_iff.mpr (.inr ⟨rfl, rfl⟩), hadrp, by omega⟩
    · rintro ⟨i, l', hl', -, hi⟩
      have hlt := (List.getElem?_eq_some_iff.mp hl').1
      rw [List.length_append, List.length_singleton] at hlt
      omega
  · rw [if_neg hadrp, Nat.lt_sub_iff_add_lt, h.left]
    constructor
    · rintro ⟨i, l', hl', hadrp', hi⟩
      exact ⟨i, l', getElem?_concat_iff.mpr (.inl hl'), hadrp', by omega⟩
    · rintro ⟨i, l', hl', hadrp', hi⟩
      cases getElem?_concat_iff.mp hl' with
      | inl hl' => exact ⟨i, l', hl', hadrp', by omega⟩
      | inr hl' => exact absurd (hl'.2 ▸ hadrp') hadrp

/-- One more line is awaited itself, or shown and passed by. -/
theorem Tracks.watch_await (h : Tracks ls t) : (t.watch l).1.await r = some (i, p) ↔
    ∃ line, (ls ++ [l])[i]? = some line ∧ adrpOf line = some (r, p) ∧
      ∀ k l', i < k → (ls ++ [l])[k]? = some l' → Passes r l' ∧ Shown (ls ++ [l]) k := by
  have hshown : ∀ k < ls.length, (Shown (ls ++ [l]) k ↔ Shown ls k) := by
    intro k hk
    exact shown_congr fun i hi => List.getElem?_append_left (by omega)
  rw [Post.watch_await, read_await, h.shown, h.next, h.await]
  constructor
  · rintro ⟨hl, ⟨rfl, hadrp⟩ | ⟨⟨line, hline, hadrp, hbehind⟩, hpass⟩⟩
    · refine ⟨l, getElem?_concat_iff.mpr (.inr ⟨rfl, rfl⟩), hadrp, fun k l' hk hl' => ?_⟩
      have hlt := (List.getElem?_eq_some_iff.mp hl').1
      rw [List.length_append, List.length_singleton] at hlt
      omega
    · refine ⟨line, getElem?_concat_iff.mpr (.inl hline), hadrp, fun k l' hk hl' => ?_⟩
      cases getElem?_concat_iff.mp hl' with
      | inl hl' =>
        have hlt := (List.getElem?_eq_some_iff.mp hl').1
        rw [hshown k hlt]
        exact hbehind k l' hk hl'
      | inr hl' =>
        rw [hl'.1, hl'.2]
        exact ⟨hpass, hl⟩
  · rintro ⟨line, hline, hadrp, hbehind⟩
    cases getElem?_concat_iff.mp hline with
    | inl hline =>
      have hlt := (List.getElem?_eq_some_iff.mp hline).1
      obtain ⟨hpass, hl⟩ := hbehind _ l hlt (getElem?_concat_iff.mpr (.inr ⟨rfl, rfl⟩))
      refine ⟨hl, .inr ⟨⟨line, hline, hadrp, fun k l' hk hl' => ?_⟩, hpass⟩⟩
      rw [← hshown k (List.getElem?_eq_some_iff.mp hl').1]
      exact hbehind k l' hk (getElem?_concat_iff.mpr (.inl hl'))
    | inr hline =>
      rw [hline.1, ← hline.2]
      refine ⟨⟨ls.length, line, ?_, isInfix_of_adrpOf hadrp, le_rfl, by omega⟩, .inl ⟨rfl, hadrp⟩⟩
      exact getElem?_concat_iff.mpr (.inr ⟨rfl, rfl⟩)

theorem tracks_watch (h : Tracks ls t) : Tracks (ls ++ [l]) (t.watch l).1 := by
  have hlength : (ls ++ [l]).length = ls.length + 1 := by simp
  constructor
  · rw [watch_next, h.next, hlength]
  · rw [hlength]
    exact h.watch_left
  · exact fun r i p => h.watch_await

theorem tracks_run (file : List Str) :
    Tracks file (transduce Tracker.watch ⟨0, 0, fun _ => none⟩ file).1 := by
  induction file using List.reverseRecOn with
  | nil => exact ⟨rfl, fun m => by simp, fun r i p => by simp⟩
  | append_singleton ls l ih =>
    rw [transduce_append]
    exact tracks_watch ih

/-- The pair of a line is what the tracker behind the lines before it finds. -/
theorem paired_iff_watch (hj : j < file.length) : Paired file j q ↔
    ((transduce Tracker.watch ⟨0, 0, fun _ => none⟩ (file.take j)).1.watch file[j]).2 = some q := by
  have hsplit : file = file.take j ++ file[j] :: file.drop (j + 1) := by
    rw [List.getElem_cons_drop, List.take_append_drop]
  have htake : (file.take j).length = j := by
    rw [List.length_take]
    omega
  conv_lhs => rw [Paired, pairings, hsplit]
  rw [transduce_append, List.getElem?_append_right (by rw [length_transduce, htake]),
    length_transduce, htake, Nat.sub_self, transduce_cons, List.getElem?_cons_zero,
    Option.some_inj]

/-- The loop pairs a line with the page that it is the first to use. -/
theorem paired_iff : Paired file j q ↔ ∃ line line', Pair file j q line line' := by
  by_cases hj : j < file.length
  · have htake : (file.take j).length = j := by
      rw [List.length_take]
      omega
    have hshown : ∀ k ≤ j, (Shown (file.take j ++ [file[j]]) k ↔ Shown file k) := by
      intro k hk
      rw [List.take_append_getElem]
      exact shown_congr fun i hi => List.getElem?_take_of_lt (by omega)
    have hbefore : ∀ k < j, (Shown (file.take j) k ↔ Shown file k) := by
      intro k hk
      exact shown_congr fun i hi => List.getElem?_take_of_lt (by omega)
    have htracks := tracks_run (file.take j)
    rw [paired_iff_watch hj, watch_pair, htracks.shown, read_pair, htracks.await, htake, hshown j le_rfl]
    constructor
    · rintro ⟨hshown, huse, line, hfirst, hadrp, hbetween⟩
      have hlt := (List.getElem?_eq_some_iff.mp hfirst).1
      rw [htake] at hlt
      rw [List.getElem?_take_of_lt hlt] at hfirst
      refine ⟨line, file[j], hlt, hfirst, List.getElem?_eq_getElem hj, hadrp, huse, ?_, ?_⟩
      · intro k l hk hkj hl
        exact (hbetween k l hk (by rw [List.getElem?_take_of_lt hkj, hl])).1
      · intro k hk hkj
        by_cases hlast : k = j
        · rw [hlast]
          exact hshown
        · have hkj : k < j := by omega
          rw [← hbefore k hkj]
          exact (hbetween k _ hk (by
            rw [List.getElem?_take_of_lt hkj, List.getElem?_eq_getElem (hkj.trans hj)])).2
    · rintro ⟨line, line', hp⟩
      have hsecond := hp.second
      rw [List.getElem?_eq_getElem hj, Option.some_inj] at hsecond
      refine ⟨hp.shown j hp.lt le_rfl, hsecond ▸ hp.use, line, ?_, hp.adrp, ?_⟩
      · rw [List.getElem?_take_of_lt hp.lt, hp.first]
      · intro k l hk hl
        have hkj := (List.getElem?_eq_some_iff.mp hl).1
        rw [htake] at hkj
        rw [List.getElem?_take_of_lt hkj] at hl
        exact ⟨hp.between k l hk hkj hl, (hbefore k hkj).mpr (hp.shown k hk hkj.le)⟩
  · refine iff_of_false (fun h => hj ?_) ?_
    · rw [← length_transduce Tracker.watch ⟨0, 0, fun _ => none⟩ file]
      exact (List.getElem?_eq_some_iff.mp h).1
    · rintro ⟨line, line', hp⟩
      exact hj (List.getElem?_eq_some_iff.mp hp.second).1

theorem Paired.pair (h : Paired file j q) : ∃ line line', Pair file j q line line' :=
  paired_iff.mp h

theorem Paired.unique {j' : ℕ} {q' : Pairing} (h : Paired file j q) (h' : Paired file j' q')
    (hfirst : q.first = q'.first) : j = j' := by
  obtain ⟨line, line', hp⟩ := h.pair
  obtain ⟨line₁, line₁', hp'⟩ := h'.pair
  have hline := hp.first
  rw [hfirst, hp'.first, Option.some_inj] at hline
  have hbase := hp.adrp
  rw [← hline, hp'.adrp, Option.some_inj, Prod.mk.injEq] at hbase
  rcases lt_trichotomy j j' with hjj | hjj | hjj
  · have hpass := hp'.between j line' (hfirst ▸ hp.lt) hjj hp.second
    exact absurd hbase.1.symm (hpass.2.2 _ hp.use)
  · exact hjj
  · have hpass := hp.between j' line₁' (hfirst ▸ hp'.lt) hjj hp'.second
    exact absurd hbase.1 (hpass.2.2 _ hp'.use)

end Reading

end Rebench.Post
