import Rebench.Text.Ascii

/-!
# Literal substitution
-/
namespace Rebench.Text

def replaceFirst (pat rep : Str) : Str → Str
  | [] => if pat = [] then rep else []
  | c :: cs =>
    if pat <+: c :: cs then rep ++ (c :: cs).drop pat.length else c :: replaceFirst pat rep cs

/-- All occurrences are replaced, from the left; the first `skip` characters belong to the last. -/
def replaceAllFrom (pat rep : Str) : ℕ → Str → Str
  | _, [] => []
  | skip + 1, _ :: cs => replaceAllFrom pat rep skip cs
  | 0, c :: cs =>
    if pat <+: c :: cs then rep ++ replaceAllFrom pat rep (pat.length - 1) cs
    else c :: replaceAllFrom pat rep 0 cs

/-- `str.replace`, for a text that is not empty. -/
def replaceAll (pat rep s : Str) : Str := replaceAllFrom pat rep 0 s

/-- The first occurrence stands where the first character of the text stands first. -/
theorem replaceFirst_append {c : Char} {pat rep u : Str} (v : Str) (h : c ∉ u) :
    replaceFirst (c :: pat) rep (u ++ c :: (pat ++ v)) = u ++ (rep ++ v) := by
  induction u with
  | nil =>
    have hpre : c :: pat <+: c :: (pat ++ v) := ⟨v, rfl⟩
    rw [List.nil_append, replaceFirst, if_pos hpre]
    simp
  | cons d u ih =>
    have hpre : ¬ c :: pat <+: d :: (u ++ c :: (pat ++ v)) := by
      intro hpre
      exact h (by simp [(List.cons_prefix_cons.mp hpre).1])
    rw [List.cons_append, replaceFirst, if_neg hpre, ih fun hu => h (by simp [hu])]
    rfl

/-- What stands before every place of the first character is kept. -/
theorem replaceFirst_behind {c : Char} {pat rep u : Str} (v : Str) (h : c ∉ u) :
    replaceFirst (c :: pat) rep (u ++ v) = u ++ replaceFirst (c :: pat) rep v := by
  induction u with
  | nil => rfl
  | cons d u ih =>
    have hpre : ¬ c :: pat <+: d :: (u ++ v) := by
      intro hpre
      exact h (by simp [( List.cons_prefix_cons.mp hpre).1])
    rw [List.cons_append, replaceFirst, if_neg hpre, ih fun hu => h (by simp [hu])]
    rfl

section End
variable {pat rep s : Str}

theorem replaceFirst_of_not_isInfix (h : ¬ pat <:+: s) : replaceFirst pat rep s = s := by
  induction s with
  | nil =>
    have hpat : pat ≠ [] := by
      rintro rfl
      exact h List.nil_infix
    rw [replaceFirst, if_neg hpat]
  | cons c s ih =>
    rw [List.infix_cons_iff, not_or] at h
    rw [replaceFirst, if_neg h.1, ih h.2]

theorem replaceAll_of_not_isInfix (h : ¬ pat <:+: s) : replaceAll pat rep s = s := by
  induction s with
  | nil => rfl
  | cons c s ih =>
    rw [List.infix_cons_iff, not_or] at h
    rw [replaceAll] at ih ⊢
    rw [replaceAllFrom, if_neg h.1, ih h.2]

theorem replaceAllFrom_of_length_le {skip : ℕ} (h : s.length ≤ skip) :
    replaceAllFrom pat rep skip s = [] := by
  induction s generalizing skip with
  | nil => cases skip <;> rfl
  | cons c s ih =>
    obtain ⟨skip, rfl⟩ := Nat.exists_eq_add_of_le' (show 1 ≤ skip by simp at h; omega)
    rw [replaceAllFrom]
    exact ih (by simpa using h)

/-- A text that occurs at the end only is replaced there. -/
theorem replace_end (rep : Str) (hpat : pat ≠ []) (h : ∀ u v, s ++ pat = u ++ (pat ++ v) → v = []) :
    replaceFirst pat rep (s ++ pat) = s ++ rep ∧ replaceAll pat rep (s ++ pat) = s ++ rep := by
  induction s with
  | nil =>
    obtain ⟨c, cs, rfl⟩ := List.exists_cons_of_ne_nil hpat
    have hpre : c :: cs <+: c :: cs := List.prefix_refl _
    constructor
    · rw [List.nil_append, replaceFirst, if_pos hpre, List.drop_length, List.append_nil,
        List.nil_append]
    · rw [List.nil_append, replaceAll, replaceAllFrom, if_pos hpre,
        replaceAllFrom_of_length_le (by simp), List.append_nil, List.nil_append]
  | cons c s ih =>
    have hpre : ¬ pat <+: c :: (s ++ pat) := by
      rintro ⟨v, hv⟩
      have hnil := h [] v hv.symm
      have hlen := congrArg List.length hv
      rw [hnil] at hlen
      simp at hlen
      omega
    have htail := ih fun u v huv => h (c :: u) v (by rw [List.cons_append, huv]; rfl)
    rw [replaceAll] at htail ⊢
    constructor
    · rw [List.cons_append, replaceFirst, if_neg hpre, htail.1]
      rfl
    · rw [List.cons_append, replaceAllFrom, if_neg hpre, htail.2]
      rfl

end End

theorem mem_replaceAllFrom {pat rep s : Str} {skip : ℕ} {c : Char}
    (h : c ∈ replaceAllFrom pat rep skip s) : c ∈ rep ∨ c ∈ s := by
  fun_induction replaceAllFrom pat rep skip s with
  | case1 => exact .inr h
  | case2 skip d ds ih => exact (ih h).imp_right fun hc => List.mem_cons_of_mem d hc
  | case3 d ds hpre ih =>
    rcases List.mem_append.mp h with h | h
    · exact .inl h
    · exact (ih h).imp_right fun hc => List.mem_cons_of_mem d hc
  | case4 d ds hpre ih =>
    rcases List.mem_cons.mp h with rfl | h
    · exact .inr List.mem_cons_self
    · exact (ih h).imp_right fun hc => List.mem_cons_of_mem d hc

theorem mem_replaceAll {pat rep s : Str} {c : Char} (h : c ∈ replaceAll pat rep s) :
    c ∈ rep ∨ c ∈ s := mem_replaceAllFrom h

end Rebench.Text
