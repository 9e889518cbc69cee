import Rebench.Machine.Instructions
import Rebench.Post.Edits

/-!
# The program of a file is left alone

The commands of the loop reach lines of `adrp`, `add` and `ldr` only, and change
their operands. So the labels stay, with the instructions that they name, and so
do the branches, whatever is paired with what.
-/
namespace Rebench.Post
open Text Machine

/-- The mnemonics of the lines that the commands change. -/
def edited : List Str := ["adrp", "add", "ldr"].map String.toList

section Restates
variable {hidden file : List Str} {k : ℕ} {line label reg addr rest target : Str} {u : Use}

theorem IsAdrp.restates (hh : edited ⊆ hidden) (h : IsAdrp line label reg addr rest)
    (target : Str) : Restates hidden line (adrpEdited label reg target rest) := by
  have hname : ':' ∉ 'L' :: label := by
    simp only [List.mem_cons, notMem_label h.label (c := ':') rfl, or_false]
    decide
  have hmnem : IsRun (!isSpace ·) "adrp".toList := by decide
  have hedited : "adrp".toList ∈ edited := by decide
  have hr := restates_of_mnemonic hname hmnem (by decide) (hh hedited)
    (reg ++ (", ?".toList ++ (addr ++ rest))) (reg ++ (", ".toList ++ (target ++ rest)))
  rw [h.text, adrpEdited]
  exact hr

theorem IsUse.restates (hh : edited ⊆ hidden) (h : IsUse line u reg rest) (target : Str) :
    Restates hidden line (useEdited u reg target rest) := by
  have hname : ':' ∉ 'L' :: u.label := by
    simp only [List.mem_cons, notMem_label h.label (c := ':') rfl, or_false]
    decide
  obtain ⟨mnem, hop, hrun, hd, hedited⟩ : ∃ mnem, u.kind.opcode = '\t' :: (mnem ++ [' ']) ∧
      IsRun (!isSpace ·) mnem ∧ ¬ Direct mnem ∧ mnem ∈ edited := by
    cases u.kind with
    | add => exact ⟨"add".toList, rfl, by decide, by decide, by decide⟩
    | ldr => exact ⟨"ldr".toList, rfl, by decide, by decide, by decide⟩
    | ldrBase => exact ⟨"ldr".toList, rfl, by decide, by decide, by decide⟩
  have hr := restates_of_mnemonic hname hrun hd (hh hedited)
    (reg ++ (u.kind.between ++ (u.base ++ (u.kind.mark ++ (u.offset ++ rest)))))
    (reg ++ (u.kind.between ++ (u.base ++
      ((if u.kind = .add then ", ".toList else ",".toList) ++ ("#:lo12:".toList ++ (target ++ rest))))))
  rw [h.text, useEdited, hop]
  simpa using hr

theorem restates_apply {c : Sed} (hh : edited ⊆ hidden) (hd : LabelsDistinct file)
    (hline : file[k]? = some line) (hc : c ∈ commands (pairings file))
    (hlabel : HasLabel line c.label) : Restates hidden line (c.apply line) := by
  obtain ⟨q, hq, hc⟩ := mem_commands.mp hc
  obtain ⟨j, hj⟩ := List.mem_iff_getElem?.mp hq
  have hpaired : Paired file j q := hj
  obtain ⟨line₁, line₂, hp⟩ := hpaired.pair
  cases List.mem_cons.mp hc with
  | inl heq =>
    rw [heq] at hlabel ⊢
    have hfirst := hp.first
    rw [← hpaired.reach_page hd hline hlabel, hline, Option.some_inj] at hfirst
    obtain ⟨rest, hadrp⟩ := adrpOf_eq_some.mp (hfirst ▸ hp.adrp)
    rw [apply_adrp hadrp]
    exact hadrp.restates hh _
  | inr hc =>
    have hsecond := hp.second
    rw [← hpaired.reach_use hd hc hline hlabel, hline, Option.some_inj] at hsecond
    obtain ⟨reg, rest, huse⟩ := useOf_eq_some.mp (hsecond ▸ hp.use)
    rw [apply_use huse hc]
    exact huse.restates hh _

theorem restates_edited (hh : edited ⊆ hidden) (hd : LabelsDistinct file)
    (hline : file[k]? = some line) :
    Restates hidden line ((commands (pairings file)).foldl (fun l c => c.apply l) line) := by
  by_cases hreach : ∃ c ∈ commands (pairings file), HasLabel line c.label
  · obtain ⟨c, hc, hlabel⟩ := hreach
    rw [edited_of_reach hd hline hc hlabel]
    exact restates_apply hh hd hline hc hlabel
  · rw [foldl_apply_of_not fun c hc hlabel => hreach ⟨c, hc, hlabel⟩]
    exact .refl hidden line

end Restates

theorem colon_notMem_includeLine {path : Str} (h : ':' ∉ path) : ':' ∉ includeLine path := by
  have hname : ':' ∉ replaceAll ".s".toList ".inc".toList (basename path) := by
    intro hc
    cases mem_replaceAll hc with
    | inl hc => exact absurd hc (by decide)
    | inr hc =>
      have hbase : basename path <:+ path := List.rtakeWhile_suffix _ path
      exact h (hbase.subset hc)
  have hfront : ':' ∉ ".include \"".toList := by decide
  have hback : ':' ∉ ['"'] := by decide
  unfold includeLine
  intro hc
  rcases List.mem_append.mp hc with hc | hc
  · rcases List.mem_append.mp hc with hc | hc
    · exact hfront hc
    · exact hname hc
  · exact hback hc

theorem program_post {hidden : List Str} {path : Str} {file out : List Str}
    (hh : edited ⊆ hidden) (hd : LabelsDistinct file) (hpath : ':' ∉ path)
    (hout : post path file = .ok out) : program hidden out = program hidden file := by
  rw [(post_eq_ok hout).1]
  apply program_congr
  · refine ⟨List.length_map _, fun k line line' hline hline' => ?_⟩
    rw [List.getElem?_map, hline, Option.map_some, Option.some_inj] at hline'
    rw [← hline']
    exact restates_edited hh hd hline
  · intro l hl
    rcases List.mem_cons.mp hl with rfl | hl
    · rfl
    · rw [List.mem_singleton.mp hl]
      exact codeOf_eq_nil (colon_notMem_includeLine hpath)

/-- The file afterwards has the runs that the file has, where the operands of the edited mnemonics are
not looked at, and its labels name the lines that they name in the file. -/
theorem post_keeps_runs {path : Str} {file out : List Str} (hd : LabelsDistinct file)
    (hpath : ':' ∉ path) (hout : post path file = .ok out) :
    (∀ c es d, (program edited out).Run c es d ↔ (program edited file).Run c es d) ∧
      ∀ label j, Denotes out label j ↔ Denotes file label j := by
  have hprogram := program_post ( List.Subset.refl edited) hd hpath hout
  have hnames : Denotes out = Denotes file := congrArg Control.Program.Names hprogram
  constructor
  · intro c es d
    rw [hprogram]
  · intro label j
    rw [hnames]

def branchListing : List Str :=
  ["f:".toList, "L583bc:\tadrp x8, ?14a000".toList, "L583c0:\tcbz x0, L583bc".toList,
    "L583c4:\tadd x8, x8, #0x8d8".toList]

theorem post_keeps_runs_branch : ∃ out, post "f.s".toList branchListing = .ok out ∧
    Denotes out "f".toList 1 := by
  have hok : (post "f.s".toList branchListing).toBool = true := by decide +kernel
  obtain ⟨out, hout⟩ := exists_of_toBool hok
  have hd : LabelsDistinct branchListing := labelsDistinct_of_nodup (by decide)
  obtain ⟨-, hnames⟩ := post_keeps_runs hd (by decide) hout
  have hheader : branchListing[0]? = some "f:".toList := rfl
  have hpage : branchListing[0 + 1]? = some "L583bc:\tadrp x8, ?14a000".toList := rfl
  exact ⟨out, hout, (hnames _ 1).mpr (denotes_next hheader (by decide) (by decide) hpage (by decide))⟩

end Rebench.Post
