import Rebench.Pipeline.Runs
import Rebench.Refine.Concatenation

/-!
# How the file is laid out

Behind the directives stands what refine.py prints for one symbol after the
other, up to the first one whose disassembly it refuses. The editing keeps every
line under its label, so that the only directives are those in front.
-/
namespace Rebench.Pipeline
open Text Machine Refine

section Heads
variable {tmpfile line out : Str} {file : List Str} {c : Post.Sed}

theorem label_of_print {text : Str} {symbols : List Str} (h : action [] line = .print text symbols) :
    ∃ addr rest, text = Refine.label addr ++ rest := by
  unfold action at h
  split_ifs at h
  split at h
  · cases h
  split at h
  · cases h
  split at h
  next m hm =>
    cases hp : processInsts [] m with
    | none =>
      rw [hp] at h
      cases h
    | some r =>
      rw [hp, Action.print.injEq] at h
      obtain ⟨text', symbols'⟩ := r
      rw [← h.1]
      rcases processInsts_cases hp with hrep | ⟨-, -, -, -, hout⟩
      · obtain ⟨pre, a, s, u, ref, -, -, -, hout⟩ := hrep
        rw [hout, codeLine, List.append_assoc, List.append_assoc, List.append_assoc]
        exact ⟨_, _, rfl⟩
      · rw [hout, codeLine, List.append_assoc, List.append_assoc, List.append_assoc]
        exact ⟨_, _, rfl⟩
  next =>
    split at h
    · split_ifs at h
      rw [Action.print.injEq] at h
      rw [← h.1, List.append_assoc]
      exact ⟨_, _, rfl⟩
    · cases h

theorem head_of_printed (h : printed line = some out) : ∃ c ∈ out.head?, isWord c := by
  rw [printed] at h
  cases haction : action [] line with
  | skip =>
    rw [haction] at h
    exact absurd h (by simp [Action.output])
  | fail =>
    rw [haction] at h
    exact absurd h (by simp [Action.output])
  | define sym =>
    rw [haction, Action.output, Option.some_inj] at h
    obtain ⟨-, header, -, rfl⟩ := action_define.mp haction
    obtain ⟨c, hc⟩ := Option.ne_none_iff_exists'.mp
      (List.head?_eq_none_iff.not.mpr header.sym_run.1)
    refine ⟨c, ?_, header.sym_run.2 c (List.mem_of_head? hc)⟩
    rw [← h, List.head?_append_of_ne_nil _ header.sym_run.1]
    exact hc
  | print text symbols =>
    rw [haction, Action.output, Option.some_inj] at h
    obtain ⟨addr, rest, rfl⟩ := label_of_print haction
    rw [← h, Refine.label, List.cons_append, List.head?_cons]
    exact ⟨'L', rfl, by decide⟩

/-- The lines of refine.py, also of a run that fails, are printed for lines of the listing. -/
theorem exists_of_mem_refined (h : out ∈ refined tmpfile) : ∃ line, printed line = some out := by
  rw [refined] at h
  cases hrun : refine tmpfile with
  | ok s =>
    rw [hrun] at h
    replace h : out ∈ s.stdout := h
    rw [refine_stdout hrun, List.mem_filterMap] at h
    obtain ⟨raw, -, hraw⟩ := h
    exact ⟨strip raw, hraw⟩
  | error f =>
    rw [hrun] at h
    replace h : out ∈ f.stdout := h
    obtain ⟨ls, raw, ls', -, -, -, rfl⟩ := refine_error_iff.mp hrun
    obtain ⟨raw', -, hraw⟩ := List.mem_filterMap.mp h
    exact ⟨strip raw', hraw⟩

/-- A command replaces a text whose first character does not stand in the label. -/
theorem mark_of_command (hc : c ∈ Post.commands (Post.pairings file)) :
    ∃ mark pat, c.pattern = mark :: pat ∧ mark ∉ 'L' :: (c.label ++ [':']) := by
  have hhex := Post.hex_of_commands hc
  have hmark : ∀ mark, isHex mark = false → mark ∉ ['L', ':'] → mark ∉ 'L' :: (c.label ++ [':']) := by
    intro mark hnot hne hmem
    rcases List.mem_cons.mp hmem with h | h
    · exact hne (by simp [h])
    rcases List.mem_append.mp h with h | h
    · exact Post.notMem_label hhex hnot h
    · exact hne (List.mem_cons_of_mem 'L' h)
  obtain ⟨q, -, hc⟩ := Post.mem_commands.mp hc
  rcases List.mem_cons.mp hc with rfl | hc
  · exact ⟨'?', q.adrp.addr, rfl, hmark '?' rfl (by decide)⟩
  · rw [Post.Use.edit] at hc
    cases hkind : q.use.kind with
    | add =>
      rw [hkind] at hc
      obtain rfl := List.mem_singleton.mp hc
      exact ⟨'#', _, rfl, hmark '#' rfl (by decide)⟩
    | ldr =>
      rw [hkind] at hc
      obtain rfl := List.mem_singleton.mp hc
      exact ⟨'#', _, rfl, hmark '#' rfl (by decide)⟩
    | ldrBase =>
      rw [hkind] at hc
      exact absurd hc List.not_mem_nil

theorem labelOf_apply (hc : c ∈ Post.commands (Post.pairings file)) (line : Str) :
    labelOf (c.apply line) = labelOf line := by
  by_cases hline : Post.HasLabel line c.label
  · obtain ⟨mark, pat, hpat, hmark⟩ := mark_of_command hc
    obtain ⟨rest, rfl⟩ := id hline
    have hname : ':' ∉ 'L' :: c.label := by
      intro hmem
      rcases List.mem_cons.mp hmem with h | h
      · exact absurd h (by decide)
      · exact Post.notMem_label (Post.hex_of_commands hc) rfl h
    have hlabel : ∀ v, labelOf ('L' :: (c.label ++ [':']) ++ v) = 'L' :: c.label := by
      intro v
      have hcut : 'L' :: (c.label ++ [':']) ++ v = 'L' :: c.label ++ ':' :: v := by simp
      rw [hcut, labelOf_append hname]
    have happly : c.apply ('L' :: (c.label ++ [':']) ++ rest) =
        'L' :: (c.label ++ [':']) ++ replaceFirst c.pattern c.replacement rest := by
      rw [Post.Sed.apply, hpat, replaceFirst_behind _ hmark]
      exact if_pos hline
    rw [happly, hlabel, hlabel]
  · rw [Post.apply_of_not hline]

theorem labelOf_edited (line : Str) : labelOf
    ((Post.commands (Post.pairings file)).foldl (fun l c => c.apply l) line) = labelOf line := by
  apply List.foldlRecOn (motive := fun l => labelOf l = labelOf line) _ _ rfl
  intro l hl c hc
  rw [labelOf_apply hc, hl]

theorem head_of_labelOf {line line' : Str} (h : labelOf line' = labelOf line)
    (hline : ∃ c ∈ line.head?, isWord c) : ∃ c ∈ line'.head?, isWord c := by
  obtain ⟨c, hc, hword⟩ := hline
  cases line with
  | nil => cases hc
  | cons d line =>
    rw [List.head?_cons, Option.mem_some_iff] at hc
    have hd : d ≠ ':' := by
      rintro rfl
      rw [← hc] at hword
      exact absurd hword (by decide)
    have hfirst : labelOf (d :: line) = d :: labelOf line :=
      List.takeWhile_cons_of_pos (by simp [hd])
    rw [hfirst] at h
    cases line' with
    | nil => cases h
    | cons e line' =>
      rw [labelOf, List.takeWhile_cons] at h
      split_ifs at h
      rw [(List.cons.inj h).1]
      exact ⟨d, rfl, hc ▸ hword⟩

theorem tab_of_mem_preamble {args : List Str} (h : line ∈ preamble args) : ∃ l, line = '\t' :: l := by
  rcases List.mem_cons.mp h with rfl | h
  · exact ⟨_, rfl⟩
  rcases List.mem_append.mp h with h | h
  · obtain ⟨arg, -, hsome⟩ := List.mem_filterMap.mp h
    split at hsome
    next name =>
      obtain rfl := Option.some.inj hsome
      obtain ⟨l, hl⟩ := prefix_echo "\t.global".toList (words name)
      exact ⟨".global".toList ++ l, hl.symm⟩
    next => exact absurd hsome (by simp)
  · exact ⟨_, List.mem_singleton.mp h⟩

theorem preamble_edited {args : List Str} (cs : List Post.Sed) :
    (preamble args).map (fun l => cs.foldl (fun l c => c.apply l) l) = preamble args := by
  nth_rewrite 2 [← List.map_id (preamble args)]
  apply List.map_congr_left
  intro line hline
  apply Post.foldl_apply_of_not
  intro c _ hlabel
  obtain ⟨l, rfl⟩ := tab_of_mem_preamble hline
  exact absurd ( List.cons_prefix_cons.mp hlabel).1 (by decide)

end Heads

section Layout
variable (grepW : Str → Str → Bool) (objdump : Str → Str → Str) (table : List Str) (name : Str)
  (args : List Str)

theorem exists_layout : ∃ code tail,
    process grepW objdump table name args = preamble args ++ (code ++ tail) ∧
    code.map labelOf = (refined (disass grepW objdump table args)).map labelOf ∧
    (tail = [] ∨ tail = [[], Post.includeLine ("out/".toList ++ name)]) := by
  rw [process]
  cases hout : Post.post ("out/".toList ++ name)
      (preamble args ++ refined (disass grepW objdump table args)) with
  | error e => exact ⟨_, [], by rw [List.append_nil], rfl, .inl rfl⟩
  | ok out =>
    let file := preamble args ++ refined (disass grepW objdump table args)
    let edit := fun line => (Post.commands (Post.pairings file)).foldl (fun l c => c.apply l) line
    refine ⟨(refined (disass grepW objdump table args)).map edit,
      [[], Post.includeLine ("out/".toList ++ name)], ?_, ?_, .inr rfl⟩
    · rw [(Post.post_eq_ok hout).1, List.map_append, preamble_edited, List.append_assoc]
    · rw [List.map_map]
      apply List.map_congr_left
      intro line _
      exact labelOf_edited line

theorem filter_globals : (globals args).filter ("\t.global".toList <+: ·) = globals args := by
  rw [List.filter_eq_self]
  intro line hline
  obtain ⟨arg, -, hsome⟩ := List.mem_filterMap.mp hline
  split at hsome
  next name =>
    obtain rfl := Option.some.inj hsome
    exact decide_eq_true ( prefix_echo _ _)
  next => exact absurd hsome (by simp)

/-- The file has the directives, the code of refine.py line by line under its labels, and an
inclusion if the editing succeeded. The symbols marked with `@` are made global, and no others. -/
theorem process_layout : ∃ code tail,
    process grepW objdump table name args = preamble args ++ (code ++ tail) ∧
    code.map labelOf = (refined (disass grepW objdump table args)).map labelOf ∧
    (tail = [] ∨ tail = [[], Post.includeLine ("out/".toList ++ name)]) ∧
    (process grepW objdump table name args).filter ("\t.global".toList <+: ·) = globals args := by
  obtain ⟨code, tail, hfile, hcode, htail⟩ := exists_layout grepW objdump table name args
  refine ⟨code, tail, hfile, hcode, htail, ?_⟩
  have hbody : (code ++ tail).filter ("\t.global".toList <+: ·) = [] := by
    rw [List.filter_eq_nil_iff]
    intro line hline hglobal
    have htab : ∃ rest, line = '\t' :: rest := by
      obtain ⟨rest, hrest⟩ := of_decide_eq_true hglobal
      exact ⟨_, hrest.symm⟩
    obtain ⟨rest, rfl⟩ := htab
    rcases List.mem_append.mp hline with hline | hline
    · have hlabel := List.mem_map_of_mem (f := labelOf) hline
      rw [hcode] at hlabel
      obtain ⟨out, hout, hsame⟩ := List.mem_map.mp hlabel
      obtain ⟨printedLine, hprinted⟩ := exists_of_mem_refined hout
      obtain ⟨c, hc, hword⟩ := head_of_labelOf hsame.symm (head_of_printed hprinted)
      rw [List.head?_cons, Option.mem_some_iff] at hc
      rw [← hc] at hword
      exact absurd hword (by decide)
    · rcases htail with rfl | rfl
      · exact absurd hline List.not_mem_nil
      · rcases List.mem_cons.mp hline with h | h
        · exact absurd h (by simp)
        · have hinclude := (List.cons.inj (List.mem_singleton.mp h)).1
          exact absurd hinclude (by decide)
  have hpre : (preamble args).filter ("\t.global".toList <+: ·) = globals args := by
    rw [preamble, List.filter_cons_of_neg (by decide), List.filter_append, filter_globals]
    simp
  rw [hfile, List.filter_append, hbody, hpre, List.append_nil]

end Layout

/-! ## One symbol after the other -/

section Blocks
variable {f g : Str} {s : Refine.State} {e : Failure}

theorem refined_ok (h : refine f = .ok s) : refined f = s.stdout := by
  rw [refined, h]

theorem refined_error (h : refine f = .error e) : refined f = e.stdout := by
  rw [refined, h]

/-- A listing in front is refined as it is alone. -/
theorem refined_append_ok (hf : EndsLine f) (h : refine f = .ok s) (g : Str) :
    refined (f ++ g) = s.stdout ++ refined g := by
  have hlines := readlines_append hf g
  have hacc := refine_ok_iff.mp ⟨s, h⟩
  rw [refine_stdout h]
  cases hrest : refine g with
  | error e =>
    obtain ⟨ls, raw, ls', hl, hacc', hraw, he⟩ := refine_error_iff.mp hrest
    have hall := refine_error_iff.mpr ⟨readlines f ++ ls, raw, ls', by rw [hlines, hl]; simp,
      fun r hr => (List.mem_append.mp hr).elim (hacc r) (hacc' r), hraw, rfl⟩
    rw [refined_error hall, refined_error hrest, he, List.filterMap_append]
  | ok t =>
    have hacc' := refine_ok_iff.mp ⟨t, hrest⟩
    obtain ⟨u, hu⟩ := refine_ok_iff.mpr fun r hr => by
      rw [hlines] at hr
      exact (List.mem_append.mp hr).elim (hacc r) (hacc' r)
    rw [refined_ok hu, refined_ok hrest, refine_stdout hu, refine_stdout hrest, hlines,
      List.filterMap_append]

/-- Nothing is printed behind a listing that is refused. -/
theorem refined_append_error (hf : EndsLine f) (h : refine f = .error e) (g : Str) :
    refined (f ++ g) = e.stdout := by
  obtain ⟨ls, raw, ls', hl, hacc, hraw, he⟩ := refine_error_iff.mp h
  have hlines : readlines (f ++ g) = ls ++ raw :: (ls' ++ readlines g) := by
    rw [readlines_append hf g, hl, List.append_assoc, List.cons_append]
  exact refined_error (refine_error_iff.mpr ⟨ls, raw, _, hlines, hacc, hraw, he⟩)

end Blocks

section Symbols
variable (grepW : Str → Str → Bool) (objdump : Str → Str → Str) (table : List Str)

def block (arg : Str) : List Str := refined (disass grepW objdump table [arg])

def passes (arg : Str) : Bool := (refine (disass grepW objdump table [arg])).isOk

variable {grepW objdump table} {args args' : List Str}

theorem endsLine_disass (hobjdump : ∀ start stop, EndsLine (objdump start stop)) (arg : Str) :
    EndsLine (disass grepW objdump table [arg]) := by
  rw [disass]
  apply endsLine_flatMap
  intro symbol
  split
  next d _ =>
    have hline : EndsLine ['\n'] := .inr rfl
    have hrest := hline.append (hobjdump d.start d.stop)
    right
    rw [List.getLast?_append_of_ne_nil _ (by simp)]
    exact hrest.resolve_left (by simp)
  next => exact .inl rfl

theorem disass_cons (arg : Str) (args : List Str) : disass grepW objdump table (arg :: args) =
    disass grepW objdump table [arg] ++ disass grepW objdump table args := by
  rw [disass, disass, disass, List.flatMap_cons, List.flatMap_singleton, List.flatMap_append]

/-- The blocks of the symbols stand in the order of the command line. The first symbol that is
refused has its lines up to the refused one, and those behind it have none. -/
theorem refined_blocks (hobjdump : ∀ start stop, EndsLine (objdump start stop)) (args : List Str) :
    refined (disass grepW objdump table args) =
      (args.takeWhile (passes grepW objdump table) ++
        (args.dropWhile (passes grepW objdump table)).take 1).flatMap (block grepW objdump table) := by
  induction args with
  | nil => rfl
  | cons arg args ih =>
    have hends : EndsLine (disass grepW objdump table [arg]) := endsLine_disass hobjdump arg
    rw [disass_cons]
    cases hrun : refine (disass grepW objdump table [arg]) with
    | ok s =>
      have hpass : passes grepW objdump table arg := by
        rw [passes, hrun]
        rfl
      rw [refined_append_ok hends hrun, ih, List.takeWhile_cons_of_pos hpass,
        List.dropWhile_cons_of_pos hpass, List.cons_append, List.flatMap_cons, block,
        refined_ok hrun]
    | error e =>
      have hpass : ¬ passes grepW objdump table arg := by
        rw [passes, hrun]
        exact Bool.false_ne_true
      rw [refined_append_error hends hrun, List.takeWhile_cons_of_neg hpass,
        List.dropWhile_cons_of_neg hpass, List.take_succ_cons, List.take_zero, List.nil_append,
        List.flatMap_singleton, block, refined_error hrun]

theorem readlines_disass (hobjdump : ∀ start stop, EndsLine (objdump start stop))
    (args : List Str) : readlines (disass grepW objdump table args) =
      args.flatMap fun arg => readlines (disass grepW objdump table [arg]) := by
  rw [← readlines_flatMap (fun arg => endsLine_disass hobjdump arg)]
  congr 1
  induction args with
  | nil => rfl
  | cons arg args ih => rw [disass_cons, List.flatMap_cons, ih]

/-- A listing that is not refused is printed block by block. -/
theorem stdout_eq_blocks (hobjdump : ∀ start stop, EndsLine (objdump start stop))
    {s : Refine.State} (hs : refine (disass grepW objdump table args) = .ok s) :
    s.stdout = args.flatMap (block grepW objdump table) := by
  have hacc := refine_ok_iff.mp ⟨s, hs⟩
  have hlines : readlines (disass grepW objdump table args) = _ := readlines_disass hobjdump args
  rw [refine_stdout hs, hlines, List.filterMap_flatMap]
  apply List.flatMap_congr
  intro arg harg
  obtain ⟨t, ht⟩ := refine_ok_iff.mpr fun raw hraw =>
    hacc raw (by rw [hlines]; exact List.mem_flatMap_of_mem harg hraw)
  rw [block, refined_ok ht, refine_stdout ht]

/-- Symbols in another order: refine.py goes through as before, with the same blocks in the new
order and with the same report. -/
theorem refine_reordered (hobjdump : ∀ start stop, EndsLine (objdump start stop))
    (hargs : args.Perm args') {s : Refine.State}
    (hs : refine (disass grepW objdump table args) = .ok s) :
    ∃ t, refine (disass grepW objdump table args') = .ok t ∧
      s.stdout = args.flatMap (block grepW objdump table) ∧
      t.stdout = args'.flatMap (block grepW objdump table) ∧ symbolReport t = symbolReport s := by
  have hlines : (readlines (disass grepW objdump table args)).Perm
      (readlines (disass grepW objdump table args')) := by
    rw [readlines_disass hobjdump, readlines_disass hobjdump]
    exact hargs.flatMap_right _
  have hacc := refine_ok_iff.mp ⟨s, hs⟩
  obtain ⟨t, ht⟩ := refine_ok_iff.mpr fun raw hraw => hacc raw (hlines.mem_iff.mpr hraw)
  refine ⟨t, ht, stdout_eq_blocks hobjdump hs, stdout_eq_blocks hobjdump ht, ?_⟩
  rw [symbolReport_of_perm hs ht (hlines.map _)]

end Symbols

/-! ## The small listing, twice -/

theorem endsLine_leaf : ∀ _ _ : Str, EndsLine leafListing := fun _ _ => .inr (by decide)

def leafArgs : List Str := ["L400-40c".toList, "?leaf".toList, "L404-40c".toList]

theorem refined_blocks_leaf :
    refined (disass (fun _ _ => false) (fun _ _ => leafListing) [] leafArgs) = leafArgs.flatMap
      (block (fun _ _ => false) (fun _ _ => leafListing) []) := by
  rw [refined_blocks endsLine_leaf]
  have hall : ∀ arg ∈ leafArgs, passes (fun _ _ => false) (fun _ _ => leafListing) [] arg := by
    decide +kernel
  rw [List.takeWhile_eq_self_iff.mpr hall, List.dropWhile_eq_nil_iff.mpr hall, List.take_nil,
    List.append_nil]

theorem refine_reordered_leaf : ∃ t,
    refine (disass (fun _ _ => false) (fun _ _ => leafListing) [] leafArgs.reverse) = .ok t ∧
      t.stdout = leafArgs.reverse.flatMap (block (fun _ _ => false) (fun _ _ => leafListing) []) := by
  have hok : (refine (disass (fun _ _ => false) (fun _ _ => leafListing) [] leafArgs)).isOk := by
    decide +kernel
  cases hs : refine (disass (fun _ _ => false) (fun _ _ => leafListing) [] leafArgs) with
  | error e =>
    rw [hs] at hok
    exact absurd hok Bool.false_ne_true
  | ok s =>
    obtain ⟨t, ht, -, hout, -⟩ := refine_reordered endsLine_leaf leafArgs.reverse_perm.symm hs
    exact ⟨t, ht, hout⟩

end Rebench.Pipeline
