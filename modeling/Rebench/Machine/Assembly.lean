import Rebench.Text.Ascii

/-!
# Labels of an assembly listing

Every line of a listing defines the label before its first colon. A line with
nothing behind the colon is a label alone, which names the next instruction.
-/
namespace Rebench.Machine
open Text

def labelOf (line : Str) : Str := line.takeWhile (· != ':')

def codeOf (line : Str) : Str := (line.dropWhile (· != ':')).drop 1

/-- The label names the instruction of line `j`: it is defined there, or above it with nothing but
labels in between. -/
def Denotes (out : List Str) (label : Str) (j : ℕ) : Prop :=
  (∃ p ≤ j, (∃ line, out[p]? = some line ∧ labelOf line = label) ∧
    ∀ q, p ≤ q → q < j → ∀ line, out[q]? = some line → codeOf line = []) ∧
  ∃ line, out[j]? = some line ∧ codeOf line ≠ []

section Lines
variable {name code : Str}

theorem labelOf_append (h : ':' ∉ name) : labelOf (name ++ ':' :: code) = name := by
  rw [labelOf, List.takeWhile_append_of_pos]
  · simp
  · intro c hc
    exact bne_iff_ne.mpr fun hcolon => h (hcolon ▸ hc)

theorem codeOf_append (h : ':' ∉ name) : codeOf (name ++ ':' :: code) = code := by
  rw [codeOf, List.dropWhile_append_of_pos]
  · simp
  · intro c hc
    exact bne_iff_ne.mpr fun hcolon => h (hcolon ▸ hc)

theorem codeOf_eq_nil {line : Str} (h : ':' ∉ line) : codeOf line = [] := by
  have hline : line.dropWhile (· != ':') = [] := by
    rw [List.dropWhile_eq_nil_iff]
    intro c hc
    exact bne_iff_ne.mpr fun hcolon => h (hcolon ▸ hc)
  rw [codeOf, hline, List.drop_nil]

end Lines

section Denotes
variable {out : List Str} {label : Str} {i j : ℕ}

theorem denotes_self {line : Str} (h : out[j]? = some line) (hlabel : labelOf line = label)
    (hcode : codeOf line ≠ []) : Denotes out label j := by
  constructor
  · refine ⟨j, le_rfl, ⟨line, h, hlabel⟩, ?_⟩
    intro q hq hqj
    omega
  · exact ⟨line, h, hcode⟩

/-- A label alone names the instruction of the next line. -/
theorem denotes_next {line line' : Str} (h : out[j]? = some line) (hlabel : labelOf line = label)
    (hcode : codeOf line = []) (h' : out[j + 1]? = some line') (hcode' : codeOf line' ≠ []) :
    Denotes out label (j + 1) := by
  constructor
  · refine ⟨j, by omega, ⟨line, h, hlabel⟩, ?_⟩
    intro q hq hqj l hl
    have hqj' : q = j := by omega
    rw [hqj', h, Option.some_inj] at hl
    rw [← hl]
    exact hcode
  · exact ⟨line', h', hcode'⟩

end Denotes

end Rebench.Machine
