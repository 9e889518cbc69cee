import Rebench.Pipeline.Runs

/-!
# Calls that are sent elsewhere

The script edits some files once more: a name is replaced in the lines at one
location or in all lines. Where the name ends branches and stands nowhere else,
the branches go to the new name, and nothing else changes.
-/
namespace Rebench.Pipeline
open Text Machine Control

/-- The line is a direct branch to the name, which stands nowhere else in it. -/
structure BranchesTo (name line : Str) : Prop where
  form : ∃ label mnem pre, line = label ++ ':' :: '\t' :: (mnem ++ ' ' :: (pre ++ name)) ∧
    ':' ∉ label ∧ IsRun (!isSpace ·) mnem ∧ Direct mnem ∧ '/' ∉ pre ∧
    ∀ c ∈ pre.getLast?, isWord c = false
  once : ∀ u v, line = u ++ (name ++ v) → v = []

def rename (name name' x : Str) : Str := if x = name then name' else x

section Lines
variable {hidden : List Str} {name name' line code x : Str} {i : Instr} {link cond : Bool}

theorem uncommented_prefix (s : Str) : uncommented s <+: s := by
  induction s with
  | nil => exact List.prefix_refl _
  | cons c s ih =>
    rw [uncommented]
    split_ifs
    · exact List.nil_prefix
    · exact List.cons_prefix_cons.mpr ⟨rfl, ih⟩

theorem dest_isInfix (h : readCode hidden code = (i, .transfer link cond (some x))) : x <:+: code := by
  by_cases hd : Direct (mnemonic code)
  · rw [readCode, if_pos hd] at h
    have hx := Option.some.inj (flow_dest (Prod.mk.inj h).2)
    have hlast : x <:+: operands code := hx ▸ (List.rtakeWhile_suffix _ _).isInfix
    have hops : operands code <:+: ((code.dropWhile isSpace).dropWhile (!isSpace ·)).drop 1 :=
      ( List.rdropWhile_prefix _ _).isInfix.trans ( uncommented_prefix _).isInfix
    have hcode : ((code.dropWhile isSpace).dropWhile (!isSpace ·)).drop 1 <:+ code :=
      (List.drop_suffix _ _).trans ((List.dropWhile_suffix _).trans (List.dropWhile_suffix _))
    exact hlast.trans (hops.trans hcode.isInfix)
  · rw [readCode_other hd] at h
    exact absurd (flow_dest (Prod.mk.inj h).2) (by simp)

theorem codeOf_suffix (line : Str) : codeOf line <:+ line :=
  (List.drop_suffix _ _).trans (List.dropWhile_suffix _)

/-- A line without the name stays, and so does its branch. -/
theorem retargets_of_not_isInfix (h : ¬ name <:+: line) :
    Retargets hidden (rename name name') line line := by
  refine ⟨rfl, Iff.rfl, fun _ => ?_⟩
  have hsame : (readCode hidden (codeOf line)).2.map (rename name name') =
      (readCode hidden (codeOf line)).2 := by
    cases hf : (readCode hidden (codeOf line)).2 with
    | next => rfl
    | ret => rfl
    | transfer link cond dest =>
      cases dest with
      | none => rfl
      | some x =>
        have hx : x ≠ name := by
          rintro rfl
          have hcode : readCode hidden (codeOf line) = (_, .transfer link cond (some x)) :=
            Prod.ext rfl hf
          exact h ((dest_isInfix hcode).trans (codeOf_suffix line).isInfix)
        rw [Flow.map, Option.map_some, rename, if_neg hx]
  rw [hsame]

/-- A branch to the name becomes one to the new name. -/
theorem retargets_of_branchesTo (hname : IsRun isWord name) (hname' : IsRun isWord name')
    (h : BranchesTo name line) :
    Retargets hidden (rename name name') line (replaceFirst name name' line) ∧
      replaceAll name name' line = replaceFirst name name' line := by
  obtain ⟨label, mnem, pre, hline, hlabel, hmnem, hd, hslash, hpre⟩ := h.form
  have hcut : ∀ x, label ++ ':' :: '\t' :: (mnem ++ ' ' :: (pre ++ x)) =
      (label ++ ':' :: '\t' :: (mnem ++ ' ' :: pre)) ++ x := by
    intro x
    simp
  have hread : ∀ x, IsRun isWord x → readCode hidden ('\t' :: (mnem ++ ' ' :: (pre ++ x))) =
      (⟨mnem, pre⟩, flow mnem (some x)) := by
    intro x hx
    have hdirect := readCode_direct hidden hmnem hd hslash hpre hx (.inl rfl)
    rwa [List.append_nil] at hdirect
  have honce := h.once
  rw [hline, hcut] at honce
  obtain ⟨hfirst, hall⟩ := replace_end name' hname.1 honce
  rw [hline, hcut, hfirst, hall, ← hcut, ← hcut]
  refine ⟨⟨?_, ?_, ?_⟩, rfl⟩
  · rw [labelOf_append hlabel, labelOf_append hlabel]
  · rw [codeOf_append hlabel, codeOf_append hlabel]
    simp
  · intro _
    rw [codeOf_append hlabel, codeOf_append hlabel, hread name hname, hread name' hname', flow_map,
      Option.map_some, rename, if_pos rfl]

theorem labelOf_ne (hname : IsRun isWord name) (h : name <:+: line → BranchesTo name line) :
    labelOf line ≠ name := by
  intro hlabel
  have hpre : name <+: line := hlabel ▸ List.takeWhile_prefix _
  have hb := h hpre.isInfix
  obtain ⟨v, hv⟩ := hpre
  obtain ⟨label, mnem, pre, hline, -⟩ := hb.form
  have hnil := hb.once [] v hv.symm
  rw [hnil, List.append_nil] at hv
  have hcolon : ':' ∈ name := by
    rw [hv, hline]
    simp
  exact absurd (hname.2 _ hcolon) (by decide)

theorem not_denotes {file : List Str} (h : ∀ line ∈ file, labelOf line ≠ x) (j : ℕ) :
    ¬ Denotes file x j := by
  rintro ⟨⟨p, -, ⟨line, hline, hlabel⟩, -⟩, -⟩
  exact h line (List.mem_of_getElem? hline) hlabel

/-- The line with the label is the one that `replace` edits. -/
theorem replace_label_line (hname : ':' ∉ name) (hne : name ≠ []) (hname' : ':' ∉ name')
    (hbare : line ≠ name) :
    codeOf (if name ++ [':'] <+: line then replaceFirst name name' line else line) = codeOf line ∧
      labelOf (if name ++ [':'] <+: line then replaceFirst name name' line else line) =
        rename name name' (labelOf line) := by
  by_cases hpre : name ++ [':'] <+: line
  · obtain ⟨code, rfl⟩ := hpre
    have hline : name ++ [':'] ++ code = name ++ ':' :: code := by simp
    have hfirst : replaceFirst name name' (name ++ ':' :: code) = name' ++ ':' :: code := by
      obtain ⟨c, cs, rfl⟩ := List.exists_cons_of_ne_nil hne
      exact replaceFirst_append (':' :: code) List.not_mem_nil
    rw [if_pos ⟨code, rfl⟩, hline, hfirst, codeOf_append hname, codeOf_append hname',
      labelOf_append hname, labelOf_append hname', rename, if_pos rfl]
    exact ⟨rfl, rfl⟩
  · have hlabel : labelOf line ≠ name := by
      intro hlabel
      have hcut := List.takeWhile_append_dropWhile (p := (· != ':')) (l := line)
      rw [← labelOf, hlabel] at hcut
      cases hrest : line.dropWhile (· != ':') with
      | nil =>
        rw [hrest, List.append_nil] at hcut
        exact hbare hcut.symm
      | cons c code =>
        have hc := List.head?_dropWhile_not (· != ':') line
        rw [hrest, List.head?_cons] at hc
        obtain rfl : c = ':' := by simpa using hc
        rw [hrest, List.append_cons] at hcut
        exact hpre ⟨code, hcut⟩
    rw [if_neg hpre, rename, if_neg hlabel]
    exact ⟨rfl, rfl⟩

end Lines

section Files
variable {hidden : List Str} {name name' location : Str} {file : List Str}

/-- `replace` sends the branches at the location to the new name. -/
theorem replace_retargets (hname : IsRun isWord name) (hname' : IsRun isWord name')
    (hlines : ∀ line ∈ file, location <+: line → name <:+: line → BranchesTo name line) :
    program hidden (replace location name name' file) = (program hidden file).retarget fun j =>
      if ∃ line ∈ file[j]?, location <+: line then rename name name' else id := by
  rw [← List.append_nil (replace location name name' file)]
  apply program_retarget _ (by simp)
  refine ⟨List.length_map _, fun j line line' hline hline' => ?_⟩
  rw [replace, List.getElem?_map, hline, Option.map_some, Option.some_inj] at hline'
  rw [← hline']
  by_cases hloc : location <+: line
  · rw [if_pos hloc, if_pos ⟨line, hline, hloc⟩]
    by_cases hin : name <:+: line
    · exact (retargets_of_branchesTo hname hname'
        (hlines line (List.mem_of_getElem? hline) hloc hin)).1
    · rw [replaceFirst_of_not_isInfix hin]
      exact retargets_of_not_isInfix hin
  · have hno : ¬ ∃ line ∈ file[j]?, location <+: line := by
      rintro ⟨l, hl, hpre⟩
      rw [hline, Option.mem_some_iff] at hl
      exact hloc (hl ▸ hpre)
    rw [if_neg hloc, if_neg hno]
    exact Restates.refl hidden line

theorem program_replaceGlobal (hname : IsRun isWord name) (hname' : IsRun isWord name')
    (hlines : ∀ line ∈ file, name <:+: line → BranchesTo name line) :
    program hidden (replaceGlobal name name' file) =
      (program hidden file).retarget fun _ => rename name name' := by
  rw [← List.append_nil (replaceGlobal name name' file)]
  apply program_retarget _ (by simp)
  refine ⟨List.length_map _, fun j line line' hline hline' => ?_⟩
  rw [replaceGlobal, List.getElem?_map, hline, Option.map_some, Option.some_inj] at hline'
  rw [← hline']
  by_cases hin : name <:+: line
  · obtain ⟨hr, hall⟩ := retargets_of_branchesTo hname hname'
      (hlines line (List.mem_of_getElem? hline) hin)
    rw [hall]
    exact hr
  · rw [replaceAll_of_not_isInfix hin]
    exact retargets_of_not_isInfix hin

/-- `replace_global` renames a way out: the runs are the same instruction by instruction, and leave
through the new name where they left through the old one. -/
theorem replaceGlobal_runs (hname : IsRun isWord name) (hname' : IsRun isWord name')
    (hlines : ∀ line ∈ file, name <:+: line → BranchesTo name line)
    (hfree : ∀ j, ¬ Denotes file name' j) (j : ℕ) :
    (∀ es d, (program hidden file).Run (.running j []) es d →
      (program hidden (replaceGlobal name name' file)).Run (.running j [])
        (es.map (Event.map (rename name name'))) d) ∧
    ∀ es' d, (program hidden (replaceGlobal name name' file)).Run (.running j []) es' d →
      ∃ es, (program hidden file).Run (.running j []) es d ∧
        es' = es.map (Event.map (rename name name')) := by
  have hnames : ∀ x t, (program hidden file).Names (rename name name' x) t ↔
      (program hidden file).Names x t := by
    intro x t
    by_cases hx : x = name
    · rw [rename, if_pos hx, hx]
      refine iff_of_false (hfree t) (not_denotes (fun line hline => ?_) t)
      exact labelOf_ne hname (hlines line hline)
    · rw [rename, if_neg hx]
  rw [program_replaceGlobal hname hname' hlines]
  constructor
  · intro es d hrun
    obtain ⟨d', hrun', hd⟩ := (Program.relabelled_simulates rfl rfl fun x _ t =>
      (hnames x t).symm).run_from (fun _ _ h => h.2) rfl hrun
    rwa [← hd.eq] at hrun'
  · intro es' d hrun
    obtain ⟨es, d', hrun', hes, hd⟩ :=
      (Program.simulates_relabelled rfl rfl fun x _ t => (hnames x t).symm).run_back
        (fun _ _ h => h.2) rfl hrun
    rw [hd.eq] at hrun'
    exact ⟨es, hrun', hes⟩

/-- `replace` at a label: the runs are those in which the branches to the new name go where the old
one was, if nothing branches to the old one. -/
theorem replace_relabels (hname : IsRun isWord name) (hname' : IsRun isWord name')
    (hbare : ∀ line ∈ file, line ≠ name) (hfree : ∀ line ∈ file, labelOf line ≠ name')
    (hunused : ¬ (program hidden file).Uses name) (j : ℕ) :
    (∀ es d, (program hidden (replace (name ++ [':']) name name' file)).Run (.running j []) es d →
      ((program hidden file).retarget fun _ => rename name' name).Run (.running j [])
        (es.map (Event.map (rename name' name))) d) ∧
    ∀ es' d, ((program hidden file).retarget fun _ => rename name' name).Run (.running j []) es' d →
      ∃ es, (program hidden (replace (name ++ [':']) name name' file)).Run (.running j []) es d ∧
        es' = es.map (Event.map (rename name' name)) := by
  have hcolon : ∀ {x : Str}, IsRun isWord x → ':' ∉ x := fun hx hmem =>
    absurd (hx.2 ':' hmem) (by decide)
  have hline := fun line hmem =>
    replace_label_line (hcolon hname) hname.1 (hcolon hname') (hbare line hmem)
  have hcode := fun line hmem => (hline line hmem).1
  have hnames : ∀ x, (program hidden file).Uses x → ∀ t,
      (program hidden (replace (name ++ [':']) name name' file)).Names x t ↔
        (program hidden file).Names (rename name' name x) t := by
    intro x hx t
    apply denotes_map hcode
    intro line hmem
    rw [(hline line hmem).2, rename, rename]
    have hx' : x ≠ name := fun heq => hunused (heq ▸ hx)
    by_cases hlabel : labelOf line = name
    · rw [if_pos hlabel, hlabel]
      by_cases hnew : x = name'
      · rw [if_pos hnew, hnew]
        simp
      · rw [if_neg hnew]
        exact iff_of_false (Ne.symm hnew) (Ne.symm hx')
    · rw [if_neg hlabel]
      by_cases hnew : x = name'
      · rw [if_pos hnew, hnew]
        exact iff_of_false (hfree line hmem) hlabel
      · rw [if_neg hnew]
  constructor
  · intro es d hrun
    obtain ⟨d', hrun', hd⟩ := (Program.relabelled_simulates (holds_map hcode) (next_map hcode)
      hnames).run_from (fun _ _ h => h.2) rfl hrun
    rwa [← hd.eq] at hrun'
  · intro es' d hrun
    obtain ⟨es, d', hrun', hes, hd⟩ := (Program.simulates_relabelled (holds_map hcode)
      (next_map hcode) hnames).run_back (fun _ _ h => h.2) rfl hrun
    rw [hd.eq] at hrun'
    exact ⟨es, hrun', hes⟩

end Files

/-! ## A small file -/

def mallocFile : List Str :=
  ["f:".toList, "L400:\tcbz w0, L408".toList, "L404:\tbl s_malloc".toList, "L408:\tret ".toList]

theorem branchesTo_malloc : ∀ line ∈ mallocFile, "s_malloc".toList <:+: line →
    BranchesTo "s_malloc".toList line := by
  intro line hline hin
  have hcall : line = "L404:\tbl s_malloc".toList := by
    revert hin
    revert line
    decide
  rw [hcall]
  refine ⟨⟨"L404".toList, "bl".toList, [], rfl, by decide, by decide, by decide, by decide, by simp⟩,
    fun u v huv => ?_⟩
  -- the name begins with the only `s` of the line
  have hcut : "L404:\tbl ".toList ++ 's' :: "_malloc".toList = u ++ 's' :: ("_malloc".toList ++ v) :=
    huv
  have htail := (split_unique (by decide) (by decide) hcut).2
  exact List.append_cancel_left (htail.symm.trans (List.append_nil _).symm)

theorem replaceGlobal_runs_malloc :
    (program [] (replaceGlobal "s_malloc".toList "gemm_malloc".toList mallocFile)).Run (.running 2 [])
      [.leave ⟨"bl".toList, []⟩ (some "gemm_malloc".toList)] (.returned [2]) := by
  have hname' : IsRun isWord "gemm_malloc".toList := by decide
  have hfree : ∀ j, ¬ Denotes mallocFile "gemm_malloc".toList j := not_denotes (by decide)
  obtain ⟨hrun, -⟩ := replaceGlobal_runs (by decide) hname' branchesTo_malloc hfree 2
  have hcall : (program [] mallocFile).Holds 2 ⟨"bl".toList, []⟩
      (.transfer true false (some "s_malloc".toList)) :=
    ⟨_, rfl, by decide, by decide⟩
  have houtside : ∀ j, ¬ (program [] mallocFile).Names "s_malloc".toList j :=
    not_denotes (by decide)
  have hstep : (program [] mallocFile).Step (.running 2 [])
      (.leave ⟨"bl".toList, []⟩ (some "s_malloc".toList)) (.returned [2]) :=
    .leave hcall houtside
  exact hrun _ _ (.cons hstep (.nil _))

theorem replace_retargets_malloc : (program [] (replace "L404:".toList "s_malloc".toList
    "gemm_malloc".toList mallocFile)).Holds 2 ⟨"bl".toList, []⟩
      (.transfer true false (some "gemm_malloc".toList)) := by
  have hlines : ∀ line ∈ mallocFile, "L404:".toList <+: line → "s_malloc".toList <:+: line →
      BranchesTo "s_malloc".toList line := fun line hline _ => branchesTo_malloc line hline
  have hlocation : ∃ line ∈ mallocFile[2]?, "L404:".toList <+: line := ⟨_, rfl, by decide⟩
  rw [replace_retargets (by decide) (by decide) hlines]
  refine ⟨.transfer true false (some "s_malloc".toList), ⟨_, rfl, by decide, by decide⟩, ?_⟩
  beta_reduce
  rw [if_pos hlocation]
  rfl

def destructorFile : List Str :=
  ["D1:".toList, "L500:\tret ".toList, "f:".toList, "L600:\tb D2".toList]

theorem replace_relabels_destructor :
    (program [] (replace "D1:".toList "D1".toList "D2".toList destructorFile)).Run (.running 3 [])
      [.take ⟨"b".toList, []⟩, .ret ⟨"ret".toList, []⟩] (.returned []) := by
  have hunused : ¬ (program [] destructorFile).Uses "D1".toList := by
    rintro ⟨j, i, link, cond, line, hline, -, hread⟩
    have hnone : ∀ line ∈ destructorFile, ¬ "D1".toList <:+: codeOf line := by decide
    exact hnone line (List.mem_of_getElem? hline) (dest_isInfix hread)
  have hname' : IsRun isWord "D2".toList := by decide
  have hfree : ∀ line ∈ destructorFile, labelOf line ≠ "D2".toList := by decide
  obtain ⟨-, hback⟩ := replace_relabels (by decide) hname' (by decide) hfree hunused 3
  have hbranch : ((program [] destructorFile).retarget fun _ => rename "D2".toList "D1".toList).Holds 3
      ⟨"b".toList, []⟩ (.transfer false false (some "D1".toList)) :=
    ⟨.transfer false false (some "D2".toList), ⟨_, rfl, by decide, by decide⟩, rfl⟩
  have hret : ((program [] destructorFile).retarget fun _ => rename "D2".toList "D1".toList).Holds 1
      ⟨"ret".toList, []⟩ .ret := ⟨.ret, ⟨_, rfl, by decide, by decide⟩, rfl⟩
  have hnames : Denotes destructorFile "D1".toList 1 := denotes_next rfl rfl rfl rfl (by decide)
  obtain ⟨es, hrun, hes⟩ := hback _ _ (.cons (.take hbranch hnames) (.cons (.ret hret) (.nil _)))
  match es, hes with
  | [.take i, .ret k], hes =>
    obtain ⟨rfl, rfl⟩ : i = ⟨"b".toList, []⟩ ∧ k = ⟨"ret".toList, []⟩ := by
      simpa [Event.map, eq_comm] using hes
    exact hrun

end Rebench.Pipeline
