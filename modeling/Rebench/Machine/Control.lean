import Mathlib.Data.List.Forall2
import Mathlib.Logic.Relation
import Mathlib.Tactic

/-!
# Programs by their flow of control

A program has places that hold instructions, an order in which control passes
from place to place, and names for some of its places. A run keeps the places
behind which calls return; what is seen of it are the instructions, whether
they pass control on, and the names through which control leaves the program.
A program simulates another one if it does so place by place.
-/
namespace Rebench.Machine.Control

/-- What an instruction does to the flow of control. A transfer may link, that is be a call, and may
depend on a condition; it goes to a name, or to a place that a register holds. -/
inductive Flow (ν : Type*) where
  | next
  | ret
  | transfer (link cond : Bool) (dest : Option ν)
  deriving DecidableEq

namespace Flow
variable {ν ν' : Type*} {S : ν → ν' → Prop} {f : Flow ν} {f' : Flow ν'}

/-- Control can go on at the place behind. -/
def Falls : Flow ν → Prop
  | next => True
  | ret => False
  | transfer _ cond _ => cond = true

/-- Control can come to the place behind, at once or when a call returns. -/
def Resumes : Flow ν → Prop
  | next => True
  | ret => False
  | transfer link cond _ => link = true ∨ cond = true

theorem Falls.resumes (h : f.Falls) : f.Resumes := by
  cases f with
  | next => trivial
  | ret => exact h
  | transfer link cond dest => exact .inr h

def map (φ : ν → ν') : Flow ν → Flow ν'
  | next => next
  | ret => ret
  | transfer link cond dest => transfer link cond (dest.map φ)

theorem map_id (f : Flow ν) : f.map id = f := by
  cases f with
  | next => rfl
  | ret => rfl
  | transfer link cond dest => rw [map, Option.map_id_apply]

inductive Rel (S : ν → ν' → Prop) : Flow ν → Flow ν' → Prop where
  | next : Rel S next next
  | ret : Rel S ret ret
  | transfer {link cond : Bool} {dest : Option ν} {dest' : Option ν'}
    (h : Option.Rel S dest dest') :
    Rel S (transfer link cond dest) (transfer link cond dest')

theorem rel_map (φ : ν → ν') (f : Flow ν) : f.Rel (fun x x' => x' = φ x) (f.map φ) := by
  cases f with
  | next => exact .next
  | ret => exact .ret
  | transfer link cond dest =>
    cases dest with
    | none => exact .transfer .none
    | some x => exact .transfer (.some rfl)

theorem Rel.falls (h : Rel S f f') (hf : f.Falls) : f'.Falls := by
  cases h with
  | next => trivial
  | ret => exact hf
  | transfer h => exact hf

theorem Rel.resumes (h : Rel S f f') (hf : f.Resumes) : f'.Resumes := by
  cases h with
  | next => trivial
  | ret => exact hf
  | transfer h => exact hf

theorem Rel.refl (f : Flow ν) : Rel Eq f f := by
  cases f with
  | next => exact .next
  | ret => exact .ret
  | transfer link cond dest =>
    cases dest with
    | none => exact .transfer .none
    | some x => exact .transfer (.some rfl)

/-- Only the name that the flow goes to matters. -/
theorem Rel.imp_of_dest {S' : ν → ν' → Prop} (h : Rel S f f')
    (hS : ∀ link cond x x', f = .transfer link cond (some x) → S x x' → S' x x') : Rel S' f f' := by
  cases h with
  | next => exact .next
  | ret => exact .ret
  | transfer h =>
    cases h with
    | some h => exact .transfer (.some (hS _ _ _ _ rfl h))
    | none => exact .transfer .none

theorem Rel.flip (h : Rel S f f') : Rel (flip S) f' f := by
  cases h with
  | next => exact .next
  | ret => exact .ret
  | transfer h =>
    cases h with
    | some h => exact .transfer (.some h)
    | none => exact .transfer .none

theorem Rel.comp {ν'' : Type*} {S' : ν' → ν'' → Prop} {f'' : Flow ν''} (h : Rel S f f')
    (h' : Rel S' f' f'') : Rel (Relation.Comp S S') f f'' := by
  cases h with
  | next =>
    cases h'
    exact .next
  | ret =>
    cases h'
    exact .ret
  | transfer h =>
    cases h' with
    | transfer h' =>
      cases h with
      | some h =>
        cases h' with
        | some h' => exact .transfer (.some ⟨_, h, h'⟩)
      | none =>
        cases h'
        exact .transfer .none

end Flow

/-- The instructions at places of type `π`, seen as `ι`, with names of type `ν`. -/
structure Program (π ν ι : Type*) where
  Holds : π → ι → Flow ν → Prop
  Next : π → π → Prop
  Names : ν → π → Prop

inductive State (π : Type*) where
  | running (p : π) (stack : List π)
  | returned (stack : List π)

inductive Event (ν ι : Type*) where
  | pass (i : ι)
  | take (i : ι)
  | ret (i : ι)
  | leave (i : ι) (dest : Option ν)
  | resume

namespace Event
variable {ν ν' ν'' ι : Type*}

inductive Rel (S : ν → ν' → Prop) : Event ν ι → Event ν' ι → Prop where
  | pass (i : ι) : Rel S (pass i) (pass i)
  | take (i : ι) : Rel S (take i) (take i)
  | ret (i : ι) : Rel S (ret i) (ret i)
  | leave (i : ι) {dest : Option ν} {dest' : Option ν'} (h : Option.Rel S dest dest') :
    Rel S (leave i dest) (leave i dest')
  | resume : Rel S resume resume

def map (φ : ν → ν') : Event ν ι → Event ν' ι
  | pass i => pass i
  | take i => take i
  | ret i => ret i
  | leave i dest => leave i (dest.map φ)
  | resume => resume

theorem Rel.flip {S : ν → ν' → Prop} {e : Event ν ι} {e' : Event ν' ι} (h : Rel S e e') :
    Rel (flip S) e' e := by
  cases h with
  | pass i => exact .pass i
  | take i => exact .take i
  | ret i => exact .ret i
  | leave i h =>
    cases h with
    | some h => exact .leave i (.some h)
    | none => exact .leave i .none
  | resume => exact .resume

theorem eq_map_of_rel {S : ν → ν' → Prop} {φ : ν → ν'} (hS : ∀ x x', S x x' → x' = φ x)
    {e : Event ν ι} {e' : Event ν' ι} (h : Rel S e e') : e' = e.map φ := by
  cases h with
  | pass i => rfl
  | take i => rfl
  | ret i => rfl
  | leave i h =>
    cases h with
    | some h => rw [hS _ _ h, map, Option.map_some]
    | none => rfl
  | resume => rfl

theorem eq_map_of_forall₂ {S : ν → ν' → Prop} {φ : ν → ν'} (hS : ∀ x x', S x x' → x' = φ x)
    {es : List (Event ν ι)} {es' : List (Event ν' ι)} (h : List.Forall₂ (Rel S) es es') :
    es' = es.map (map φ) := by
  induction h with
  | nil => rfl
  | cons h _ ih => rw [List.map_cons, eq_map_of_rel hS h, ih]

end Event

namespace Program
variable {π π' π'' ν ν' ν'' ι : Type*}

section Steps
variable (P : Program π ν ι)

def Place (p : π) : Prop := ∃ i f, P.Holds p i f

/-- Control can come to the place behind this one. -/
def Resumes (p : π) : Prop := ∃ i f, P.Holds p i f ∧ f.Resumes

/-- A name reaches the places it names, and a register any place. -/
def Reaches : Option ν → π → Prop
  | some x, t => P.Names x t
  | none, t => P.Place t

/-- A name that names no place leads out of the program, and a register can. -/
def Outside : Option ν → Prop
  | some x => ∀ t, ¬ P.Names x t
  | none => True

def pushed (link : Bool) (p : π) (stack : List π) : List π := if link then p :: stack else stack

inductive Step : State π → Event ν ι → State π → Prop where
  | pass {p n s i f} (h : P.Holds p i f) (hf : f.Falls) (hn : P.Next p n) :
    Step (.running p s) (.pass i) (.running n s)
  | ret {p s i} (h : P.Holds p i .ret) : Step (.running p s) (.ret i) (.returned s)
  | take {p t s i link cond dest} (h : P.Holds p i (.transfer link cond dest))
    (ht : P.Reaches dest t) :
    Step (.running p s) (.take i) (.running t (pushed link p s))
  | leave {p s i link cond dest} (h : P.Holds p i (.transfer link cond dest))
    (ho : P.Outside dest) :
    Step (.running p s) (.leave i dest) (.returned (pushed link p s))
  | resume {p n s} (hn : P.Next p n) : Step (.returned (p :: s)) .resume (.running n s)

inductive Run : State π → List (Event ν ι) → State π → Prop where
  | nil (c : State π) : Run c [] c
  | cons {c d d' e es} (h : P.Step c e d) (hr : Run d es d') : Run c (e :: es) d'

/-- The program whose transfers go to other names. -/
def retarget (φ : π → ν → ν) : Program π ν ι where
  Holds p i f := ∃ g, P.Holds p i g ∧ f = g.map (φ p)
  Next := P.Next
  Names := P.Names

theorem retarget_id : P.retarget (fun _ => id) = P := by
  have hholds : (P.retarget fun _ => id).Holds = P.Holds := by
    ext p i f
    simp only [retarget, Flow.map_id, exists_eq_right']
  cases P
  simp only [retarget] at hholds ⊢
  rw [hholds]

end Steps

/-- Some run leaves the program through the name. -/
def Exits (P : Program π ν ι) (x : ν) : Prop :=
  ∃ c es d i, P.Run c es d ∧ .leave i (some x) ∈ es

/-- A run leaves where a transfer leads out. -/
theorem Run.leaves {P : Program π ν ι} {c d : State π} {es : List (Event ν ι)} {i : ι}
    {dest : Option ν} (h : P.Run c es d) (hmem : .leave i dest ∈ es) :
    ∃ p link cond, P.Holds p i (.transfer link cond dest) ∧ P.Outside dest := by
  induction h with
  | nil c => exact absurd hmem List.not_mem_nil
  | cons hstep _ ih =>
    rcases List.mem_cons.mp hmem with rfl | hmem
    · cases hstep with
      | leave hf ho => exact ⟨_, _, _, hf, ho⟩
    · exact ih hmem

theorem exits_iff {P : Program π ν ι} {x : ν} : P.Exits x ↔
    (∃ p i link cond, P.Holds p i (.transfer link cond (some x))) ∧ ∀ t, ¬ P.Names x t := by
  constructor
  · intro h
    obtain ⟨c, es, d, i, hrun, hmem⟩ := h
    obtain ⟨p, link, cond, hf, ho⟩ := hrun.leaves hmem
    exact ⟨⟨p, i, link, cond, hf⟩, ho⟩
  · intro h
    obtain ⟨⟨p, i, link, cond, hf⟩, ho⟩ := h
    have hstep : P.Step (.running p []) (.leave i (some x)) (.returned (pushed link p [])) :=
      .leave hf ho
    exact ⟨_, _, _, i, .cons hstep (.nil _), List.mem_singleton_self _⟩

inductive Agree (R T : π → π' → Prop) : State π → State π' → Prop where
  | running {p p' s s'} (h : R p p') (hs : List.Forall₂ T s s') :
    Agree R T (.running p s) (.running p' s')
  | returned {s s'} (hs : List.Forall₂ T s s') : Agree R T (.returned s) (.returned s')

theorem Agree.imp {R T T' : π → π' → Prop} {c : State π} {c' : State π'}
    (hT : ∀ p p', T p p' → T' p p') (h : Agree R T c c') : Agree R T' c c' := by
  cases h with
  | running h hs => exact .running h (hs.imp hT)
  | returned hs => exact .returned (hs.imp hT)

theorem Agree.eq {c c' : State π} (h : Agree Eq Eq c c') : c = c' := by
  cases h with
  | running h hs =>
    rw [List.forall₂_eq_eq_eq] at hs
    rw [h, hs]
  | returned hs =>
    rw [List.forall₂_eq_eq_eq] at hs
    rw [hs]

theorem Agree.flip {R T : π → π' → Prop} {c : State π} {c' : State π'} (h : Agree R T c c') :
    Agree (flip R) (flip T) c' c := by
  cases h with
  | running h hs => exact .running h hs.flip
  | returned hs => exact .returned hs.flip

/-- What a program does at a place, the other one does at every place that corresponds, with names
that correspond. -/
structure Simulates (P : Program π ν ι) (P' : Program π' ν' ι) (R : π → π' → Prop)
    (S : ν → ν' → Prop) : Prop where
  holds : ∀ p p' i f, R p p' → P.Holds p i f → ∃ f', P'.Holds p' i f' ∧ f.Rel S f'
  next : ∀ p p' n, R p p' → P.Resumes p → P.Next p n → ∃ n', P'.Next p' n' ∧ R n n'
  names : ∀ x x' t, S x x' → P.Names x t → ∃ t', P'.Names x' t' ∧ R t t'
  outside : ∀ x x', S x x' → (∀ t, ¬ P.Names x t) → ∀ t', ¬ P'.Names x' t'
  place : ∀ t, P.Place t → ∃ t', P'.Place t' ∧ R t t'

namespace Simulates
variable {P : Program π ν ι} {P' : Program π' ν' ι} {P'' : Program π'' ν'' ι} {R : π → π' → Prop}
  {R' : π' → π'' → Prop} {S : ν → ν' → Prop} {S' : ν' → ν'' → Prop}

/-- The places of a stack correspond and have called. -/
def Calls (P : Program π ν ι) (R : π → π' → Prop) (p : π) (p' : π') : Prop := R p p' ∧ P.Resumes p

theorem resumes (h : Simulates P P' R S) {p : π} {p' : π'} (hp : R p p') (hr : P.Resumes p) :
    P'.Resumes p' := by
  obtain ⟨i, f, hf, hres⟩ := hr
  obtain ⟨f', hf', hrel⟩ := h.holds p p' i f hp hf
  exact ⟨i, f', hf', hrel.resumes hres⟩

theorem reaches (h : Simulates P P' R S) {dest : Option ν} {dest' : Option ν'}
    (hS : Option.Rel S dest dest') {t : π} (ht : P.Reaches dest t) :
    ∃ t', P'.Reaches dest' t' ∧ R t t' := by
  cases hS with
  | some hS => exact h.names _ _ t hS ht
  | none => exact h.place t ht

theorem leaves (h : Simulates P P' R S) {dest : Option ν} {dest' : Option ν'}
    (hS : Option.Rel S dest dest') (ho : P.Outside dest) : P'.Outside dest' := by
  cases hS with
  | some hS => exact h.outside _ _ hS ho
  | none => trivial

theorem forall₂_pushed {p : π} {p' : π'} {s : List π} {s' : List π'} {i : ι} {link cond : Bool}
    {dest : Option ν} (hp : R p p') (hf : P.Holds p i (.transfer link cond dest))
    (hs : List.Forall₂ (Calls P R) s s') :
    List.Forall₂ (Calls P R) (pushed link p s) (pushed link p' s') := by
  cases link with
  | false => exact hs
  | true => exact .cons ⟨hp, i, _, hf, .inl rfl⟩ hs

theorem step (h : Simulates P P' R S) {c d : State π} {c' : State π'} {e : Event ν ι}
    (hc : Agree R (Calls P R) c c') (hstep : P.Step c e d) :
    ∃ e' d', P'.Step c' e' d' ∧ e.Rel S e' ∧ Agree R (Calls P R) d d' := by
  cases hstep with
  | pass hf hfall hn =>
    cases hc with
    | running hp hs =>
      obtain ⟨f', hf', hrel⟩ := h.holds _ _ _ _ hp hf
      obtain ⟨n', hn', hnn⟩ := h.next _ _ _ hp ⟨_, _, hf, hfall.resumes⟩ hn
      exact ⟨_, _, .pass hf' (hrel.falls hfall) hn', .pass _, .running hnn hs⟩
  | ret hf =>
    cases hc with
    | running hp hs =>
      obtain ⟨f', hf', hrel⟩ := h.holds _ _ _ _ hp hf
      cases hrel
      exact ⟨_, _, .ret hf', .ret _, .returned hs⟩
  | take hf ht =>
    cases hc with
    | running hp hs =>
      obtain ⟨f', hf', hrel⟩ := h.holds _ _ _ _ hp hf
      cases hrel with
      | transfer hto =>
        obtain ⟨t', ht', htt⟩ := h.reaches hto ht
        exact ⟨_, _, .take hf' ht', .take _, .running htt (forall₂_pushed hp hf hs)⟩
  | leave hf ho =>
    cases hc with
    | running hp hs =>
      obtain ⟨f', hf', hrel⟩ := h.holds _ _ _ _ hp hf
      cases hrel with
      | transfer hto =>
        exact ⟨_, _, .leave hf' (h.leaves hto ho), .leave _ hto,
          .returned (forall₂_pushed hp hf hs)⟩
  | resume hn =>
    cases hc with
    | returned hs =>
      cases hs with
      | cons hp hs =>
        obtain ⟨n', hn', hnn⟩ := h.next _ _ _ hp.1 hp.2 hn
        exact ⟨_, _, .resume hn', .resume, .running hnn hs⟩

theorem run (h : Simulates P P' R S) {c d : State π} {c' : State π'} {es : List (Event ν ι)}
    (hc : Agree R (Calls P R) c c') (hrun : P.Run c es d) :
    ∃ es' d', P'.Run c' es' d' ∧ List.Forall₂ (Event.Rel S) es es' ∧
      Agree R (Calls P R) d d' := by
  induction hrun generalizing c' with
  | nil c => exact ⟨[], c', .nil c', .nil, hc⟩
  | cons hstep _ ih =>
    obtain ⟨e', m', hstep', he, hm⟩ := h.step hc hstep
    obtain ⟨es', d', hrun', hes, hd⟩ := ih hm
    exact ⟨e' :: es', d', .cons hstep' hrun', .cons he hes, hd⟩

/-- A run from a place with nothing to return to, seen through names that are a function. -/
theorem run_from (h : Simulates P P' R S) {φ : ν → ν'} (hS : ∀ x x', S x x' → x' = φ x) {p : π}
    {p' : π'} (hp : R p p') {es : List (Event ν ι)} {d : State π}
    (hrun : P.Run (.running p []) es d) :
    ∃ d', P'.Run (.running p' []) (es.map (Event.map φ)) d' ∧ Agree R R d d' := by
  obtain ⟨es', d', hrun', hes, hd⟩ := h.run (.running hp .nil) hrun
  rw [Event.eq_map_of_forall₂ hS hes] at hrun'
  exact ⟨d', hrun', hd.imp fun _ _ hq => hq.1⟩

/-- The same for a simulation of the other program. -/
theorem run_back (h : Simulates P' P (flip R) (flip S)) {φ : ν → ν'}
    (hS : ∀ x x', S x x' → x' = φ x) {p : π} {p' : π'} (hp : R p p') {es' : List (Event ν' ι)}
    {d' : State π'} (hrun : P'.Run (.running p' []) es' d') :
    ∃ es d, P.Run (.running p []) es d ∧ es' = es.map (Event.map φ) ∧ Agree R R d d' := by
  obtain ⟨es, d, hrun', hes, hd⟩ := h.run (.running (R := flip R) hp .nil) hrun
  refine ⟨es, d, hrun', Event.eq_map_of_forall₂ hS ?_, ?_⟩
  · exact hes.flip.imp fun _ _ he => he.flip
  · exact (hd.imp fun _ _ hq => hq.1).flip

theorem exits (h : Simulates P P' R S) {x : ν} (hx : P.Exits x) : ∃ x', S x x' ∧ P'.Exits x' := by
  obtain ⟨⟨p, i, link, cond, hf⟩, ho⟩ := exits_iff.mp hx
  obtain ⟨p', -, hp⟩ := h.place p ⟨i, _, hf⟩
  obtain ⟨f', hf', hrel⟩ := h.holds p p' i _ hp hf
  cases hrel with
  | transfer hdest =>
    cases hdest with
    | some hS => exact ⟨_, hS, exits_iff.mpr ⟨⟨p', i, link, cond, hf'⟩, h.outside _ _ hS ho⟩⟩

/-- Simulations compose. -/
theorem comp (h : Simulates P P' R S) (h' : Simulates P' P'' R' S') :
    Simulates P P'' (Relation.Comp R R') (Relation.Comp S S') where
  holds := by
    rintro p p'' i f ⟨p', hp, hp'⟩ hf
    obtain ⟨f', hf', hrel⟩ := h.holds p p' i f hp hf
    obtain ⟨f'', hf'', hrel'⟩ := h'.holds p' p'' i f' hp' hf'
    exact ⟨f'', hf'', hrel.comp hrel'⟩
  next := by
    rintro p p'' n ⟨p', hp, hp'⟩ hr hn
    obtain ⟨n', hn', hnn⟩ := h.next p p' n hp hr hn
    obtain ⟨n'', hn'', hnn'⟩ := h'.next p' p'' n' hp' (h.resumes hp hr) hn'
    exact ⟨n'', hn'', n', hnn, hnn'⟩
  names := by
    rintro x x'' t ⟨x', hx, hx'⟩ ht
    obtain ⟨t', ht', htt⟩ := h.names x x' t hx ht
    obtain ⟨t'', ht'', htt'⟩ := h'.names x' x'' t' hx' ht'
    exact ⟨t'', ht'', t', htt, htt'⟩
  outside := by
    rintro x x'' ⟨x', hx, hx'⟩ ho
    exact h'.outside x' x'' hx' (h.outside x x' hx ho)
  place := by
    intro t ht
    obtain ⟨t', ht', htt⟩ := h.place t ht
    obtain ⟨t'', ht'', htt'⟩ := h'.place t' ht'
    exact ⟨t'', ht'', t', htt, htt'⟩

end Simulates

def Uses (P : Program π ν ι) (x : ν) : Prop :=
  ∃ p i link cond, P.Holds p i (.transfer link cond (some x))

section Relabelling
variable {P Q : Program π ν ι} {φ : ν → ν} (hholds : Q.Holds = P.Holds) (hnext : Q.Next = P.Next)
  (hnames : ∀ x, P.Uses x → ∀ t, Q.Names x t ↔ P.Names (φ x) t)
include hholds hnext hnames

/-- Where the places have other names the transfers go where those to other names went. Names that no
transfer goes to do not matter. -/
theorem relabelled_simulates :
    Q.Simulates (P.retarget fun _ => φ) Eq fun x x' => P.Uses x ∧ x' = φ x where
  holds := by
    rintro p p' i f rfl hf
    rw [hholds] at hf
    refine ⟨_, ⟨f, hf, rfl⟩, (f.rel_map φ).imp_of_dest ?_⟩
    rintro link cond x x' rfl hx
    exact ⟨⟨p, i, link, cond, hf⟩, hx⟩
  next := by
    rintro p p' n rfl - hn
    exact ⟨n, hnext ▸ hn, rfl⟩
  names := by
    rintro x x' t ⟨hx, rfl⟩ ht
    exact ⟨t, (hnames x hx t).mp ht, rfl⟩
  outside := by
    rintro x x' ⟨hx, rfl⟩ hnone t ht
    exact hnone t ((hnames x hx t).mpr ht)
  place := by
    rintro t ⟨i, f, hf⟩
    exact ⟨t, ⟨i, _, f, hholds ▸ hf, rfl⟩, rfl⟩

theorem simulates_relabelled : (P.retarget fun _ => φ).Simulates Q (flip Eq)
    (flip fun x x' => P.Uses x ∧ x' = φ x) where
  holds := by
    rintro p p' i f rfl ⟨g, hg, rfl⟩
    refine ⟨g, hholds ▸ hg, Flow.Rel.flip ((g.rel_map φ).imp_of_dest ?_)⟩
    rintro link cond x x' rfl hx
    exact ⟨⟨p', i, link, cond, hg⟩, hx⟩
  next := by
    rintro p p' n rfl - hn
    exact ⟨n, hnext ▸ hn, rfl⟩
  names := by
    rintro x x' t ⟨hx, rfl⟩ ht
    exact ⟨t, (hnames x' hx t).mpr ht, rfl⟩
  outside := by
    rintro x x' ⟨hx, rfl⟩ hnone t ht
    exact hnone t ((hnames x' hx t).mp ht)
  place := by
    rintro t ⟨i, f, g, hg, -⟩
    exact ⟨t, ⟨i, g, hholds ▸ hg⟩, rfl⟩

end Relabelling

end Program

end Rebench.Machine.Control
