import Rebench.Machine.Assembly
import Rebench.Post.Addresses
import Rebench.Post.Uses

/-!
# Pages that are gone

The table of the loop is not told when a register is overwritten, nor where a
function ends. A pair is a real use of its page exactly if nothing of the kind
stands between its lines.
-/
namespace Rebench.Post
open Text Machine

/-- The line writes the register, in its full width or its lower half. -/
def Clobbers (writes : Str → Str → Prop) (line reg : Str) : Prop :=
  Overwrites writes line reg ∨ writes line ('w' :: reg.tail)

/-- The line is a label alone, or control never passes on to the next one. -/
def Leaves (line : Str) : Prop :=
  codeOf line = [] ∨ (words line)[1]? ∈ [some "b".toList, some "br".toList, some "ret".toList]

instance : DecidablePred Leaves := fun _ => inferInstanceAs (Decidable (_ ∨ _))

/-- Line `j` of the pair uses the register that line `q.first` loads, and between the lines nothing
writes the register and control only falls through. -/
structure RealUse (writes : Str → Str → Prop) (file : List Str) (j : ℕ) (q : Pairing) : Prop where
  lt : q.first < j
  page : file[q.first]?.bind adrpOf = some (q.use.base, q.adrp)
  use : file[j]?.bind useOf = some q.use
  kept : ∀ k l, q.first < k → k < j → file[k]? = some l → ¬ Clobbers writes l q.use.base
  straight : ∀ k l, q.first < k → k < j → file[k]? = some l → ¬ Leaves l

/-- Line `i` loads a page into the register, line `k` writes the register or leaves the block, and line
`j` is the first one that uses the register or loads another page into it, all in sight of grep. -/
structure Stale (writes : Str → Str → Prop) (file : List Str) (i k j : ℕ) (reg : Str) : Prop where
  behind : i < k
  before : k < j
  page : ∃ p, file[i]?.bind adrpOf = some (reg, p)
  gone : ∃ l, file[k]? = some l ∧ (Clobbers writes l reg ∨ Leaves l)
  use : ∃ u, file[j]?.bind useOf = some u ∧ u.base = reg
  first : ∀ m l, i < m → m < j → file[m]? = some l → Passes reg l
  shown : ∀ m, i < m → m ≤ j → Shown file m

section Stale
variable {writes : Str → Str → Prop} {file : List Str} {i k j : ℕ} {q : Pairing} {reg : Str}

theorem Stale.paired (h : Stale writes file i k j reg) :
    ∃ q, Paired file j q ∧ ¬ RealUse writes file j q := by
  obtain ⟨p, hpage⟩ := h.page
  obtain ⟨u, huse, rfl⟩ := h.use
  obtain ⟨line, hline, hadrp⟩ := Option.bind_eq_some_iff.mp hpage
  obtain ⟨line', hline', hu⟩ := Option.bind_eq_some_iff.mp huse
  have hlt : i < j := h.behind.trans h.before
  refine ⟨⟨i, p, u⟩, ?_, ?_⟩
  · exact paired_iff.mpr ⟨line, line', hlt, hline, hline', hadrp, hu, h.first, h.shown⟩
  · intro hreal
    obtain ⟨l, hl, hgone⟩ := h.gone
    cases hgone with
    | inl hwrite => exact hreal.kept k l h.behind h.before hl hwrite
    | inr hleave => exact hreal.straight k l h.behind h.before hl hleave

/-- Without such a line a pair is a real use. -/
theorem Paired.realUse (hq : Paired file j q)
    (h : ∀ k, ¬ Stale writes file q.first k j q.use.base) : RealUse writes file j q := by
  obtain ⟨line, line', hp⟩ := hq.pair
  have hpage : file[q.first]?.bind adrpOf = some (q.use.base, q.adrp) := by
    rw [hp.first, Option.bind_some, hp.adrp]
  have huse : file[j]?.bind useOf = some q.use := by
    rw [hp.second, Option.bind_some, hp.use]
  have hnot : ∀ k l, q.first < k → k < j → file[k]? = some l →
      ¬ (Clobbers writes l q.use.base ∨ Leaves l) := by
    intro k l hk hkj hl hgone
    exact h k ⟨hk, hkj, ⟨q.adrp, hpage⟩, ⟨l, hl, hgone⟩, ⟨q.use, huse, rfl⟩, hp.between, hp.shown⟩
  constructor
  · exact hp.lt
  · exact hpage
  · exact huse
  · intro k l hk hkj hl hwrite
    exact hnot k l hk hkj hl (.inl hwrite)
  · intro k l hk hkj hl hleave
    exact hnot k l hk hkj hl (.inr hleave)

/-- Behind the lines of a real use the register still holds the page. -/
theorem RealUse.page_kept (h : RealUse writes file j q) {effect : Str → Regs → Regs}
    (heffect : ∀ l reg r, ¬ Clobbers writes l reg → effect l r reg = r reg) (r : Regs) :
    (linesBetween file q.first j).foldl (fun r l => effect l r) r q.use.base = r q.use.base := by
  apply foldl_keeps
  intro l hl r
  obtain ⟨k, hk, hkj, hline⟩ := exists_of_mem_linesBetween hl
  exact heffect l _ r (h.kept k l hk hkj hline)

end Stale

/-- All pairs are real uses exactly if no page is gone before the first line that seems to use it; and
from the page to a real use the register keeps its value, whatever the other instructions do. -/
theorem real_use_iff (writes : Str → Str → Prop) (file : List Str) :
    ((∀ j q, Paired file j q → RealUse writes file j q) ↔
        ¬ ∃ i k j reg, Stale writes file i k j reg) ∧
      ∀ effect : Str → Regs → Regs,
        (∀ l reg r, ¬ Clobbers writes l reg → effect l r reg = r reg) →
          ∀ j q, RealUse writes file j q → ∀ r,
            (linesBetween file q.first j).foldl (fun r l => effect l r) r q.use.base =
              r q.use.base := by
  constructor
  · constructor
    · rintro h ⟨i, k, j, reg, hstale⟩
      obtain ⟨q, hpaired, hnot⟩ := hstale.paired
      exact hnot (h j q hpaired)
    · intro h j q hpaired
      exact hpaired.realUse fun k hstale => h ⟨q.first, k, j, q.use.base, hstale⟩
  · intro effect heffect j q hreal r
    exact hreal.page_kept heffect r

def movedListing : List Str :=
  ["L583bc:\tadrp x8, ?14a000".toList, "L583c0:\tmov x8, x0".toList,
    "L583c4:\tldr x9, [x8,#16]".toList]

def movedOutput : List Str :=
  ["L583bc:\tadrp x8, L14a010".toList, "L583c0:\tmov x8, x0".toList,
    "L583c4:\tldr x9, [x8,#:lo12:L14a010]".toList, [], ".include \"moved.inc\"".toList]

def movedPairing : Pairing :=
  ⟨0, ⟨"583bc".toList, "14a000".toList⟩, ⟨.ldr, "583c4".toList, "x8".toList, "16".toList⟩⟩

theorem moved_paired : Listing movedListing ∧
    post "moved.s".toList movedListing = .ok movedOutput ∧
      ¬ ∀ j q, Paired movedListing j q → RealUse WritesFirst movedListing j q := by
  refine ⟨⟨labelsDistinct_of_nodup (by decide), by decide +kernel⟩, by decide +kernel, fun h => ?_⟩
  have hpairings : pairings movedListing = [none, none, some movedPairing] := by decide +kernel
  have hpaired : Paired movedListing 2 movedPairing := by
    rw [Paired, hpairings]
    rfl
  apply (h 2 movedPairing hpaired).kept 1 "L583c0:\tmov x8, x0".toList (by decide) (by decide) rfl
  exact .inl (.inr (by decide +kernel))

end Rebench.Post
