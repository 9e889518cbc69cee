import Rebench.Refine.Report
import Mathlib.Data.Char

/-!
# Listings one behind the other

A listing that ends with its last line is read in front of another one as it is
read alone. The report is sorted, so that only the sets of the symbols that are
named and defined show in it.
-/
namespace Rebench.Refine
open Text Machine

def EndsLine (file : Str) : Prop := file = [] ∨ file.getLast? = some '\n'

section Lines
variable {f g : Str}

theorem EndsLine.append (hf : EndsLine f) (hg : EndsLine g) : EndsLine (f ++ g) := by
  by_cases hnil : g = []
  · rw [hnil, List.append_nil]
    exact hf
  · rcases hg with hg | hg
    · exact absurd hg hnil
    · right
      rw [List.getLast?_append_of_ne_nil _ hnil]
      exact hg

theorem endsLine_flatMap {ι : Type*} {h : ι → Str} (hh : ∀ i, EndsLine (h i)) (l : List ι) :
    EndsLine (l.flatMap h) := by
  induction l with
  | nil => exact .inl rfl
  | cons i l ih =>
    rw [List.flatMap_cons]
    exact (hh i).append ih

theorem readlines_append (hf : EndsLine f) (g : Str) :
    readlines (f ++ g) = readlines f ++ readlines g := by
  induction f with
  | nil => rfl
  | cons c f ih =>
    have htail : f ≠ [] → EndsLine f := by
      intro hne
      rcases hf with hf | hf
      · exact absurd hf (by simp)
      · right
        rw [← hf, List.getLast?_cons_of_ne_nil hne]
    rw [List.cons_append, readlines, readlines]
    by_cases hc : c = '\n'
    · rw [if_pos hc, if_pos hc, List.cons_append]
      by_cases hnil : f = []
      · rw [hnil]
        rfl
      · rw [ih (htail hnil)]
    · have hnil : f ≠ [] := by
        rintro rfl
        rcases hf with hf | hf
        · exact absurd hf (by simp)
        · exact hc (Option.some.inj hf)
      rw [if_neg hc, if_neg hc, ih (htail hnil)]
      cases hl : readlines f with
      | nil =>
        cases f with
        | nil => exact absurd rfl hnil
        | cons d f =>
          rw [readlines] at hl
          split_ifs at hl
          cases hr : readlines f <;> rw [hr] at hl <;> exact absurd hl (by simp)
      | cons l ls => rfl

theorem readlines_line {w : Str} (h : '\n' ∉ w) (g : Str) :
    readlines (w ++ '\n' :: g) = (w ++ ['\n']) :: readlines g := by
  induction w with
  | nil =>
    rw [List.nil_append, readlines, if_pos rfl]
    rfl
  | cons c w ih =>
    rw [List.mem_cons, not_or] at h
    rw [List.cons_append, readlines, if_neg (Ne.symm h.1), ih h.2]
    rfl

theorem readlines_flatMap {ι : Type*} {h : ι → Str} (hh : ∀ i, EndsLine (h i)) (l : List ι) :
    readlines (l.flatMap h) = l.flatMap fun i => readlines (h i) := by
  induction l with
  | nil => rfl
  | cons i l ih => rw [List.flatMap_cons, List.flatMap_cons, readlines_append (hh i), ih]

end Lines

/-! ## The order of the report -/

section Order
variable {a b c : Str}

theorem textLe_total (a b : Str) : textLe a b || textLe b a := by
  induction a generalizing b with
  | nil => rfl
  | cons x a ih =>
    cases b with
    | nil => rfl
    | cons y b =>
      simp only [textLe, Bool.or_eq_true, Bool.and_eq_true, decide_eq_true_eq, beq_iff_eq]
      rcases lt_trichotomy x y with h | h | h
      · exact .inl (.inl h)
      · have hab := ih b
        rw [Bool.or_eq_true] at hab
        exact hab.imp (fun hab => .inr ⟨h, hab⟩) fun hab => .inr ⟨h.symm, hab⟩
      · exact .inr (.inl h)

theorem textLe_trans (a b c : Str) (hab : textLe a b) (hbc : textLe b c) : textLe a c := by
  induction a generalizing b c with
  | nil => rfl
  | cons x a ih =>
    cases b with
    | nil => exact absurd hab (by simp [textLe])
    | cons y b =>
      cases c with
      | nil => exact absurd hbc (by simp [textLe])
      | cons z c =>
        simp only [textLe, Bool.or_eq_true, Bool.and_eq_true, decide_eq_true_eq,
          beq_iff_eq] at hab hbc ⊢
        rcases hab with hxy | ⟨rfl, hab⟩
        · rcases hbc with hyz | ⟨rfl, -⟩
          · exact .inl (hxy.trans hyz)
          · exact .inl hxy
        · rcases hbc with hyz | ⟨rfl, hbc⟩
          · exact .inl hyz
          · exact .inr ⟨rfl, ih b c hab hbc⟩

theorem textLe_antisymm (a b : Str) (hab : textLe a b) (hba : textLe b a) : a = b := by
  induction a generalizing b with
  | nil =>
    cases b with
    | nil => rfl
    | cons y b => exact absurd hba (by simp [textLe])
  | cons x a ih =>
    cases b with
    | nil => exact absurd hab (by simp [textLe])
    | cons y b =>
      simp only [textLe, Bool.or_eq_true, Bool.and_eq_true, decide_eq_true_eq,
        beq_iff_eq] at hab hba
      rcases hab with hxy | ⟨rfl, hab⟩
      · rcases hba with hyx | ⟨rfl, -⟩
        · exact absurd hyx hxy.asymm
        · exact absurd hxy (lt_irrefl y)
      · rcases hba with hxx | ⟨-, hba⟩
        · exact absurd hxx (lt_irrefl x)
        · rw [ih b hab hba]

theorem mergeSort_textLe_perm {l l' : List Str} (h : l.Perm l') :
    l.mergeSort textLe = l'.mergeSort textLe := by
  have hsorted : ∀ m : List Str, (m.mergeSort textLe).Pairwise fun a b => textLe a b :=
    List.pairwise_mergeSort textLe_trans textLe_total
  have hperm := (List.mergeSort_perm l textLe).trans (h.trans (List.mergeSort_perm l' textLe).symm)
  exact hperm.eq_of_pairwise (fun a b _ _ => textLe_antisymm a b) (hsorted l) (hsorted l')

end Order

/-- Two runs over the same lines in some order report the same. -/
theorem symbolReport_of_perm {f g : Str} {s t : State} (hs : refine f = .ok s)
    (ht : refine g = .ok t) (h : (lines f).Perm (lines g)) : symbolReport s = symbolReport t := by
  have hlocal : ∀ sym, sym ∈ s.localSymbols ↔ sym ∈ t.localSymbols := by
    intro sym
    simp only [mem_localSymbols_iff hs, mem_localSymbols_iff ht, Defines, h.mem_iff]
  have hsymbols : s.symbols.Perm t.symbols := by
    rw [List.perm_ext_iff_of_nodup (records_refine hs).nodup (records_refine ht).nodup]
    intro sym
    simp only [mem_symbols_iff hs, mem_symbols_iff ht, h.mem_iff]
  have htag : (fun sym => reportTag s.localSymbols sym ++ sym) =
      fun sym => reportTag t.localSymbols sym ++ sym := by
    funext sym
    simp only [reportTag, hlocal]
  rw [symbolReport, symbolReport, htag, mergeSort_textLe_perm (hsymbols.map _)]

end Rebench.Refine
