import Rebench.Text.Ascii
import Rebench.Text.Pattern

/-!
# Lines that hold a word

`grep -w` selects the lines in which the pattern is found as a whole word: in
front of it and behind it stands no word character. For a pattern of word
characters these are the lines that hold it between their other characters.
-/
namespace Rebench.Text

/-- The word stands in the text between characters that belong to no word, or at its ends. -/
def HasWord (w s : Str) : Prop :=
  ∃ u v, s = u ++ (w ++ v) ∧ (∀ c ∈ u.getLast?, isWord c = false) ∧ ∀ c ∈ v.head?, isWord c = false

/-- What is documented of `grep -w`, of patterns without special characters. -/
def GrepsWords (grepW : Str → Str → Bool) : Prop :=
  ∀ w s, IsRun isWord w → (grepW w s ↔ HasWord w s)

section HasWord
variable {w s u v : Str} {c : Char}

theorem not_hasWord_nil (hw : w ≠ []) : ¬ HasWord w [] := by
  rintro ⟨u, v, h, -⟩
  exact hw (List.append_eq_nil_iff.mp (List.append_eq_nil_iff.mp h.symm).2).1

/-- A character that belongs to no word separates the words before it from those behind it. -/
theorem hasWord_append_cons (hw : IsRun isWord w) (hc : isWord c = false) :
    HasWord w (u ++ c :: v) ↔ HasWord w u ∨ HasWord w v := by
  have hnot : c ∉ w := fun hmem => by simp [hw.2 c hmem] at hc
  constructor
  · rintro ⟨a, b, h, ha, hb⟩
    rcases List.append_eq_append_iff.mp h with ⟨m, rfl, hm⟩ | ⟨m, rfl, hm⟩
    · right
      cases m with
      | nil =>
        obtain ⟨d, ds, rfl⟩ := List.exists_cons_of_ne_nil hw.1
        exact absurd (List.cons.inj hm).1 (fun heq => hnot (heq ▸ List.mem_cons_self))
      | cons d m =>
        refine ⟨m, b, (List.cons.inj hm).2, fun e he => ha e ?_, hb⟩
        rw [List.getLast?_append_of_ne_nil _ (List.cons_ne_nil d m)]
        exact List.mem_getLast?_cons he
    · left
      rcases List.append_eq_append_iff.mp hm with ⟨k, rfl, rfl⟩ | ⟨k, rfl, hk⟩
      · refine ⟨a, k, rfl, ha, fun e he => hb e ?_⟩
        exact List.mem_head?_append_of_mem_head? he
      · cases k with
        | nil => exact ⟨a, [], by simp, ha, by simp⟩
        | cons d k =>
          rw [List.cons_append] at hk
          exact absurd (List.cons.inj hk).1 (fun heq => hnot (by simp [heq]))
  · rintro (⟨a, b, rfl, ha, hb⟩ | ⟨a, b, rfl, ha, hb⟩)
    · refine ⟨a, b ++ c :: v, by simp, ha, fun e he => ?_⟩
      cases b with
      | nil =>
        rw [← Option.some.inj he]
        exact hc
      | cons d b => exact hb e he
    · refine ⟨u ++ c :: a, b, by simp, fun e he => ?_, hb⟩
      rw [List.getLast?_append_of_ne_nil _ (List.cons_ne_nil c a)] at he
      cases a with
      | nil =>
        rw [← Option.some.inj he]
        exact hc
      | cons d a => exact ha e (by rwa [List.getLast?_cons_cons] at he)

theorem hasWord_cons (hw : IsRun isWord w) (hc : isWord c = false) :
    HasWord w (c :: v) ↔ HasWord w v := by
  rw [← List.nil_append (c :: v), hasWord_append_cons hw hc]
  simp [not_hasWord_nil hw.1]

/-- A word holds no other word. -/
theorem hasWord_isRun (hs : ∀ c ∈ s, isWord c) : HasWord w s ↔ w = s := by
  constructor
  · rintro ⟨u, v, rfl, hu, hv⟩
    have hnil : u = [] := by
      by_contra hne
      have hlast := List.getLast_mem hne
      have hword := hs _ (List.mem_append_left _ hlast)
      rw [hu _ (List.getLast?_eq_some_getLast hne)] at hword
      cases hword
    have hnil' : v = [] := by
      cases v with
      | nil => rfl
      | cons c v =>
        have hword := hs c (by simp)
        rw [hv c rfl] at hword
        cases hword
    rw [hnil, hnil', List.nil_append, List.append_nil]
  · rintro rfl
    exact ⟨[], [], by simp, by simp, by simp⟩

end HasWord

/-! ## A matcher -/

def matchHere : Str → Str → Option Str
  | [], s => some s
  | _ :: _, [] => none
  | p :: ps, c :: s => if p = '.' ∨ p = c then matchHere ps s else none

/-- `grep -w` for a pattern without special characters but `.`, from behind a character on that is
a word constituent or not. -/
def wordMatchFrom (pattern : Str) : Bool → Str → Bool
  | _, [] => false
  | inside, c :: s =>
    (!inside && (matchHere pattern (c :: s)).any fun rest => !rest.head?.any isWord) ||
      wordMatchFrom pattern (isWord c) s

def wordMatch (pattern line : Str) : Bool := wordMatchFrom pattern false line

section Match
variable {w s v : Str} {inside : Bool}

theorem matchHere_eq_some (hw : '.' ∉ w) : matchHere w s = some v ↔ s = w ++ v := by
  induction w generalizing s with
  | nil => simp [matchHere]
  | cons p w ih =>
    rw [List.mem_cons, not_or] at hw
    cases s with
    | nil => simp [matchHere]
    | cons c s =>
      by_cases hp : p = c
      · rw [matchHere, if_pos (.inr hp), ih hw.2, hp]
        simp
      · have hne : ¬ (p = '.' ∨ p = c) := not_or.mpr ⟨Ne.symm hw.1, hp⟩
        rw [matchHere, if_neg hne]
        simp [Ne.symm hp]

/-- The matcher goes over the text; before the first character it knows what stands in front. -/
theorem wordMatchFrom_iff (hw : w ≠ []) (hdot : '.' ∉ w) : wordMatchFrom w inside s ↔
    ∃ u v, s = u ++ (w ++ v) ∧ (∀ c ∈ u.getLast?, isWord c = false) ∧ (u = [] → inside = false) ∧
      ∀ c ∈ v.head?, isWord c = false := by
  induction s generalizing inside with
  | nil => simp [wordMatchFrom, hw]
  | cons c s ih =>
    have hhere : (!inside && (matchHere w (c :: s)).any fun rest => !rest.head?.any isWord) ↔
        inside = false ∧ ∃ v, c :: s = w ++ v ∧ ∀ d ∈ v.head?, isWord d = false := by
      have hrest : ∀ v : Str, (!v.head?.any isWord) ↔ ∀ d ∈ v.head?, isWord d = false := by
        intro v
        cases v with
        | nil => simp
        | cons d v => simp
      simp only [Bool.and_eq_true, Bool.not_eq_true', Option.any_eq_true, matchHere_eq_some hdot]
      simp only [← Bool.not_eq_true', hrest]
    rw [wordMatchFrom, Bool.or_eq_true, hhere, ih]
    constructor
    · rintro (⟨hin, v, hv, hhead⟩ | ⟨u, v, rfl, hlast, hu, hhead⟩)
      · exact ⟨[], v, hv, by simp, fun _ => hin, hhead⟩
      · refine ⟨c :: u, v, rfl, fun d hd => ?_, by simp, hhead⟩
        cases u with
        | nil =>
          rw [← Option.some.inj hd]
          exact hu rfl
        | cons e u => exact hlast d (by rwa [List.getLast?_cons_cons] at hd)
    · rintro ⟨u, v, hs, hlast, hu, hhead⟩
      cases u with
      | nil => exact .inl ⟨hu rfl, v, hs, hhead⟩
      | cons e u =>
        obtain ⟨rfl, rfl⟩ := List.cons.inj hs
        refine .inr ⟨u, v, rfl, fun d hd => hlast d (List.mem_getLast?_cons hd), ?_, hhead⟩
        rintro rfl
        exact hlast c rfl

theorem grepsWords_wordMatch : GrepsWords wordMatch := by
  intro w s hw
  have hdot : '.' ∉ w := fun hmem => absurd (hw.2 _ hmem) (by decide)
  rw [wordMatch, wordMatchFrom_iff hw.1 hdot, HasWord]
  simp

end Match

end Rebench.Text
