import Rebench.Text.Ascii
import Rebench.Text.Pattern

/-!
# Fields of a line

A line is split at its blanks into words, as a shell splits an unquoted
variable and awk a record.
-/
namespace Rebench.Text

def isBlank (c : Char) : Bool := c == ' ' || c == '\t' || c == '\n'

/-- The nonempty pieces between blanks. -/
def words (s : Str) : List Str := (s.splitOnP isBlank).filter (· ≠ [])

def wordAt (s : Str) (i : ℕ) : Str := (words s).getD i []

/-- A nonempty text without blanks. -/
def IsToken (w : Str) : Prop := w ≠ [] ∧ ∀ c ∈ w, isBlank c = false

instance : DecidablePred IsToken := fun _ => inferInstanceAs (Decidable (_ ∧ _))

section Words
variable {w s : Str} {c : Char}

@[simp] theorem words_nil : words [] = [] := rfl

theorem words_blank (h : isBlank c) (s : Str) : words (c :: s) = words s := by
  rw [words, List.splitOnP_cons_eq_if_modifyHead, if_pos h, List.filter_cons_of_neg (by simp)]
  rfl

theorem words_blanks {b : Str} (h : ∀ c ∈ b, isBlank c) (s : Str) : words (b ++ s) = words s := by
  induction b with
  | nil => rfl
  | cons c b ih =>
    rw [List.cons_append, words_blank (h c (by simp)), ih fun d hd => h d (by simp [hd])]

theorem words_append_blank (h : isBlank c) (t s : Str) :
    words (t ++ c :: s) = words t ++ words s := by
  rw [words, List.splitOnP_append_cons t s h, List.filter_append]
  rfl

theorem words_token_blank (h : IsToken w) (hc : isBlank c) (s : Str) :
    words (w ++ c :: s) = w :: words s := by
  rw [words, List.splitOnP_append_cons_of_forall_mem h.2 c hc,
    List.filter_cons_of_pos (by simpa using h.1)]
  rfl

theorem words_token (h : IsToken w) : words w = [w] := by
  rw [words, List.splitOnP_eq_singleton h.2, List.filter_cons_of_pos (by simpa using h.1)]
  rfl

theorem words_token_append (h : IsToken w) (hs : ∀ c ∈ s.head?, isBlank c) :
    words (w ++ s) = w :: words s := by
  cases s with
  | nil => rw [List.append_nil, words_token h, words_nil]
  | cons c s => rw [words_token_blank h (hs c rfl), words_blank (hs c rfl)]

theorem words_append (h : IsToken w) (s : Str) : words (w ++ s) =
    (w ++ s.takeWhile fun c => !isBlank c) :: words (s.dropWhile fun c => !isBlank c) := by
  conv_lhs => rw [← List.takeWhile_append_dropWhile (p := fun c => !isBlank c) (l := s)]
  rw [← List.append_assoc]
  apply words_token_append
  · refine ⟨by simp [h.1], fun c hc => ?_⟩
    cases List.mem_append.mp hc with
    | inl hc => exact h.2 c hc
    | inr hc => simpa using List.mem_takeWhile_imp hc
  · intro c hc
    have hnot := List.head?_dropWhile_not (fun c => !isBlank c) s
    rw [hc] at hnot
    simpa using hnot

theorem subset_of_mem_splitOnP {p : Char → Bool} (h : w ∈ s.splitOnP p) : w ⊆ s := by
  induction s generalizing w with
  | nil =>
    rw [List.splitOnP_nil, List.mem_singleton] at h
    rw [h]
    exact List.Subset.refl []
  | cons d s ih =>
    rw [List.splitOnP_cons_eq_if_modifyHead] at h
    split_ifs at h
    · rcases List.mem_cons.mp h with rfl | h
      · exact List.nil_subset _
      · exact List.subset_cons_of_subset d (ih h)
    · cases hs : s.splitOnP p with
      | nil => exact absurd hs (List.splitOnP_ne_nil p s)
      | cons v vs =>
        rw [hs, List.modifyHead_cons] at h
        rcases List.mem_cons.mp h with rfl | h
        · exact List.cons_subset_cons d (ih (hs ▸ List.mem_cons_self))
        · exact List.subset_cons_of_subset d (ih (hs ▸ List.mem_cons_of_mem v h))

theorem of_mem_splitOnP {p : Char → Bool} (h : w ∈ s.splitOnP p) : ∀ c ∈ w, p c = false := by
  induction s generalizing w with
  | nil =>
    rw [List.splitOnP_nil, List.mem_singleton] at h
    simp [h]
  | cons d s ih =>
    rw [List.splitOnP_cons_eq_if_modifyHead] at h
    split_ifs at h with hd
    · rcases List.mem_cons.mp h with rfl | h
      · simp
      · exact ih h
    · cases hs : s.splitOnP p with
      | nil => exact absurd hs (List.splitOnP_ne_nil p s)
      | cons v vs =>
        rw [hs] at h ih
        rw [List.modifyHead_cons] at h
        rcases List.mem_cons.mp h with rfl | h
        · exact List.forall_mem_cons.mpr ⟨by simpa using hd, ih List.mem_cons_self⟩
        · exact ih (List.mem_cons_of_mem v h)

theorem wordAt_ne_nil {i : ℕ} (h : i < (words s).length) : wordAt s i ≠ [] := by
  rw [wordAt, List.getD_eq_getElem?_getD, List.getElem?_eq_getElem h, Option.getD_some]
  simpa using (List.mem_filter.mp (List.getElem_mem h)).2

theorem isBlank_of_mem_words (h : w ∈ words s) : ∀ c ∈ w, isBlank c = false :=
  of_mem_splitOnP (List.mem_of_mem_filter h)

theorem subset_of_mem_words (h : w ∈ words s) : w ⊆ s :=
  subset_of_mem_splitOnP (List.mem_of_mem_filter h)

end Words

theorem isBlank_eq_false_of_isHex {c : Char} (h : isHex c) : isBlank c = false := by
  have hspace := isSpace_eq_false_of_isHex h
  simp only [isSpace, Bool.or_eq_false_iff] at hspace
  simp only [isBlank, Bool.or_eq_false_iff]
  exact hspace.1.1.1

theorem IsRun.isToken {w : Str} (h : IsRun isHex w) : IsToken w :=
  ⟨h.1, fun c hc => isBlank_eq_false_of_isHex (h.2 c hc)⟩

theorem isToken_dec {u v : Str} (hu : ∀ c ∈ u, isBlank c = false) (hv : ∀ c ∈ v, isBlank c = false)
    (n : ℕ) : IsToken (u ++ dec n ++ v) := by
  constructor
  · simp
  · intro c hc
    rw [List.mem_append, List.mem_append] at hc
    rcases hc with (hc | hc) | hc
    · exact hu c hc
    · exact isBlank_eq_false_of_isHex (isHex_of_mem_dec hc)
    · exact hv c hc

end Rebench.Text
