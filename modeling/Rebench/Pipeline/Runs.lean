import Rebench.Pipeline.Source
import Rebench.Post.Program
import Rebench.Refine.Program

/-!
# What the pipeline keeps

The file is refine.py's output behind directives, where no label is defined
twice, and post.py leaves its program. So the runs of the file are those of the
listing, instruction by instruction, with imported names for the symbols outside.
-/
namespace Rebench.Pipeline
open Text Machine Control Refine

section Preamble
variable {args : List Str} {line : Str}

theorem prefix_echo (w : Str) (ws : List Str) : w <+: echo (w :: ws) := by
  cases ws with
  | nil =>
    rw [echo, List.intercalate_singleton]
  | cons v ws =>
    rw [echo, List.intercalate_cons_cons, List.append_assoc]
    exact List.prefix_append _ _

theorem mem_echo {ws : List Str} {c : Char} (h : c ∈ echo ws) : c = ' ' ∨ ∃ w ∈ ws, c ∈ w := by
  induction ws with
  | nil => exact absurd h (by simp [echo])
  | cons w ws ih =>
    cases ws with
    | nil =>
      rw [echo, List.intercalate_singleton] at h
      exact .inr ⟨w, List.mem_cons_self, h⟩
    | cons v ws =>
      rw [echo, List.intercalate_cons_cons, List.mem_append, List.mem_append] at h
      rcases h with (h | h) | h
      · exact .inr ⟨w, List.mem_cons_self, h⟩
      · exact .inl (List.mem_singleton.mp h)
      · rcases ih h with h | ⟨u, hu, hc⟩
        · exact .inl h
        · exact .inr ⟨u, List.mem_cons_of_mem w hu, hc⟩

theorem isDirective_of_mem_preamble (hargs : ∀ arg ∈ args, ':' ∉ arg) (h : line ∈ preamble args) :
    IsDirective line := by
  rcases List.mem_cons.mp h with rfl | h
  · decide
  rcases List.mem_append.mp h with h | h
  · obtain ⟨arg, harg, hsome⟩ := List.mem_filterMap.mp h
    split at hsome
    next name =>
      obtain rfl := Option.some.inj hsome
      constructor
      · intro hc
        rcases mem_echo hc with hc | ⟨w, hw, hc⟩
        · exact absurd hc (by decide)
        · rcases List.mem_cons.mp hw with rfl | hw
          · exact absurd hc (by decide)
          · exact hargs _ harg (List.mem_cons_of_mem _ (subset_of_mem_words hw hc))
      · exact ⟨'\t', ( prefix_echo _ _).subset (by decide), by decide⟩
    next => exact absurd hsome (by simp)
  · rw [List.mem_singleton.mp h]
    decide

end Preamble

section Process
variable {grepW : Str → Str → Bool} {objdump : Str → Str → Str} {table args : List Str}
  {name : Str} {pre outs : List Str} {es : List Entry} {s : Refine.State}

theorem labelsDistinct_file (hpre : ∀ l ∈ pre, IsDirective l) (h : Translated es outs)
    (hd : Objdump es) : Post.LabelsDistinct (pre ++ outs) := by
  intro i j line line' label hhex hi hj hline hline'
  have hbehind : ∀ {k : ℕ} {l : Str}, (pre ++ outs)[k]? = some l → Post.HasLabel l label →
      ∃ m, k = pre.length + m ∧ outs[m]? = some l := by
    intro k l hk hl
    rcases Nat.lt_or_ge k pre.length with hlt | hge
    · rw [List.getElem?_append_left hlt] at hk
      have hcolon : ':' ∈ l := hl.subset (by simp)
      exact absurd hcolon (hpre l (List.mem_of_getElem? hk)).1
    · obtain ⟨m, rfl⟩ := Nat.exists_eq_add_of_le hge
      exact ⟨m, rfl, by rwa [getElem?_shifted] at hk⟩
  obtain ⟨i', rfl, hi'⟩ := hbehind hi hline
  obtain ⟨j', rfl, hj'⟩ := hbehind hj hline'
  have hnodup : (outs.map labelOf).Nodup := map_labelOf h.emits ▸ nodup_labels hd
  rw [Post.labelsDistinct_of_nodup hnodup i' j' line line' label hhex hi' hj' hline hline']

/-- The program of the file, whether post.py fails or not. -/
theorem program_process (hname : ':' ∉ name) (hargs : ∀ arg ∈ args, ':' ∉ arg)
    (hs : refine (disass grepW objdump table args) = .ok s)
    (h : Translated es s.stdout) (hd : Objdump es) :
    program rewritten (process grepW objdump table name args) =
      program rewritten (preamble args ++ s.stdout) := by
  have hrefined : refined (disass grepW objdump table args) = s.stdout := by
    rw [refined, hs]
  have hlabels := labelsDistinct_file (fun l hl => isDirective_of_mem_preamble hargs hl) h hd
  have hpath : ':' ∉ "out/".toList ++ name := by
    rw [List.mem_append, not_or]
    exact ⟨by decide, hname⟩
  rw [process, hrefined]
  cases hout : Post.post ("out/".toList ++ name) (preamble args ++ s.stdout) with
  | error e => rfl
  | ok out =>
    have hedited : Post.edited ⊆ rewritten := by decide
    exact Post.program_post hedited hlabels hpath hout

/-- The line of an instruction of the listing in a file with `n` directives in front. -/
def Lands (es : List Entry) (n : ℕ) : ℕ → ℕ → Prop := Relation.Comp (Stands es) (Shifted n)

theorem name_of_comp {x : Target} {x' : Str} (h : Relation.Comp (Named es) SameName x x') :
    x' = x.name := by
  obtain ⟨y, ⟨-, rfl⟩, rfl, -⟩ := h
  rfl

/-- The directives in front leave both simulations. -/
theorem simulates_file (hpre : ∀ l ∈ pre, IsDirective l) (h : Translated es outs) (hd : Objdump es)
    (hw : Written es) (hr : Resolves es) (ho : Ordered es) :
    (listingProgram es).Simulates (program rewritten (pre ++ outs)) (Lands es pre.length)
      (Relation.Comp (Named es) SameName) :=
  (h.simulates hd hw hr ho).comp (simulates_shifted hpre)

theorem simulated_file (hpre : ∀ l ∈ pre, IsDirective l) (h : Translated es outs) (hd : Objdump es)
    (hw : Written es) (hr : Resolves es) (hc : Closed es) :
    (program rewritten (pre ++ outs)).Simulates (listingProgram es) (flip (Lands es pre.length))
      (flip (Relation.Comp (Named es) SameName)) := by
  rw [Lands, Relation.flip_comp, Relation.flip_comp]
  exact (shifted_simulates hpre).comp (h.simulated hd hw hr hc)

end Process

/-- The file has the runs of the listing and, if control passes no instruction to another than its
successor, no others: every run goes through the lines of the same instructions, takes the same
branches and leaves for the same symbols under their imported names. A header's symbol names the
instruction at its address. -/
theorem process_preserves_runs {grepW : Str → Str → Bool} {objdump : Str → Str → Str}
    {table args : List Str} {name : Str} {s : Refine.State} {es : List Entry}
    (hname : ':' ∉ name) (hargs : ∀ arg ∈ args, ':' ∉ arg)
    (hs : refine (disass grepW objdump table args) = .ok s)
    (hes : (lines (disass grepW objdump table args)).filter (fun line => ¬ Silent line) =
      es.map Entry.text)
    (hd : Objdump es) (hw : Written es) (hr : Resolves es) :
    (Ordered es → ∀ a j evs c, Lands es (preamble args).length a j →
      (listingProgram es).Run (.running a []) evs c →
      ∃ c', (program rewritten (process grepW objdump table name args)).Run (.running j [])
          (evs.map (Event.map Target.name)) c' ∧
        Program.Agree (Lands es (preamble args).length) (Lands es (preamble args).length) c c') ∧
    (Closed es → ∀ a j evs' c', Lands es (preamble args).length a j →
      (program rewritten (process grepW objdump table name args)).Run (.running j []) evs' c' →
      ∃ evs c, (listingProgram es).Run (.running a []) evs c ∧
        evs' = evs.map (Event.map Target.name) ∧
        Program.Agree (Lands es (preamble args).length) (Lands es (preamble args).length) c c') ∧
    ∀ h, .header h ∈ es → ∃ j, Denotes (process grepW objdump table name args) h.sym j ∧
      Lands es (preamble args).length (hexVal h.addr) j := by
  have ht := translated_of_refine hs hes
  have hprogram := program_process hname hargs hs ht hd
  have hpre : ∀ l ∈ preamble args, IsDirective l := fun l hl =>
    isDirective_of_mem_preamble hargs hl
  rw [hprogram]
  refine ⟨?_, ?_, ?_⟩
  · intro ho a j evs c hj hrun
    exact (simulates_file hpre ht hd hw hr ho).run_from (fun _ _ => name_of_comp) hj hrun
  · intro hc a j evs' c' hj hrun
    exact (simulated_file hpre ht hd hw hr hc).run_back (fun _ _ => name_of_comp) hj hrun
  · intro h hh
    obtain ⟨k, hk⟩ := List.getElem?_of_mem hh
    obtain ⟨e, he, haddr⟩ := hd.header_next k h hk
    refine ⟨(preamble args).length + (k + 1), ?_, k + 1, ⟨e, he, haddr⟩, rfl⟩
    have hnames : Denotes (process grepW objdump table name args) =
        Denotes (preamble args ++ s.stdout) := congrArg Program.Names hprogram
    rw [hnames]
    exact (denotes_shifted hpre h.sym_run.2).mpr (denotes_sym ht.emits hd hk he haddr)

/-! ## The small listing -/

theorem stands_leaf {a k : ℕ} : Stands leafEntries a k ↔
    k = 1 ∧ a = 0x400 ∨ k = 2 ∧ a = 0x404 ∨ k = 3 ∧ a = 0x408 := by
  constructor
  · rintro ⟨e, he, ha⟩
    match k, he with
    | 0, he =>
      cases he
      exact absurd ha (by simp [Entry.codeAddr])
    | 1, he =>
      cases he
      exact .inl ⟨rfl, (Option.some.inj ha).symm⟩
    | 2, he =>
      cases he
      exact .inr (.inl ⟨rfl, (Option.some.inj ha).symm⟩)
    | 3, he =>
      cases he
      exact .inr (.inr ⟨rfl, (Option.some.inj ha).symm⟩)
    | k + 4, he => cases he
  · rintro (⟨rfl, rfl⟩ | ⟨rfl, rfl⟩ | ⟨rfl, rfl⟩)
    · exact ⟨_, rfl, rfl⟩
    · exact ⟨_, rfl, rfl⟩
    · exact ⟨_, rfl, rfl⟩

theorem dest_leafBranch : leafBranch.dest = .offset 0x408 := by
  rw [BranchLine.dest, if_neg (by decide)]
  rfl

theorem dest_leafCall : leafCall.dest = .symbol 0x400 "leaf".toList := by
  rw [BranchLine.dest, if_pos (show leafCall.suffix = ">".toList from rfl)]
  rfl

theorem mentions_leaf {x : Target} (h : Mentions leafEntries x) :
    x = .offset 0x408 ∨ x = .symbol 0x400 "leaf".toList := by
  obtain ⟨e, he, i, link, cond, hread⟩ := h
  simp only [leafEntries, List.mem_cons, List.not_mem_nil, or_false] at he
  rcases he with rfl | rfl | rfl | rfl
  · cases hread
  · have hf := flow_dest ((Reads.branch leafBranch).unique hread).2
    exact .inl ((Option.some.inj hf).symm.trans dest_leafBranch)
  · have hf := flow_dest ((Reads.branch leafCall).unique hread).2
    exact .inr ((Option.some.inj hf).symm.trans dest_leafCall)
  · have hf := flow_dest ((Reads.plain leafReturn).unique hread).2
    exact absurd hf (by simp)

theorem header_leaf {h : HeaderLine} (hh : .header h ∈ leafEntries) : h = leafHeader := by
  simpa [leafEntries] using hh

theorem inst_leaf {l : InstLine} (hl : .inst l ∈ leafEntries) :
    l = leafBranch.toInstLine ∨ l = leafCall.toInstLine := by
  simpa [leafEntries] using hl

theorem written_leafEntries : Written leafEntries where
  direct := by
    intro l hl _
    rcases inst_leaf hl with rfl | rfl
    · exact .inl ⟨leafBranch, rfl⟩
    · exact .inl ⟨leafCall, rfl⟩
  branch := by
    intro b hb
    rcases inst_leaf hb with h | h
    · rw [(leafBranch.aims.unique b.aims h.symm).2.1]
      decide
    · rw [(leafCall.aims.unique b.aims h.symm).2.1]
      decide
  plt := by
    intro b hb
    rcases inst_leaf hb with h | h
    · rw [(leafBranch.aims.unique b.aims h.symm).2.1]
      decide
    · rw [(leafCall.aims.unique b.aims h.symm).2.1]
      decide

theorem resolves_leafEntries : Resolves leafEntries where
  symbol_ne_label := by
    rintro a sym h n rfl
    cases mentions_leaf h with
    | inl h => exact absurd h (by simp)
    | inr h => exact absurd (List.cons.inj (Target.symbol.inj h).2).1 (by decide)
  plt_ne_label := by
    intro sym h n
    cases mentions_leaf h with
    | inl h => exact absurd h (by simp)
    | inr h => exact absurd h (by simp)
  header_addr := by
    intro a h hm _ hh
    rw [header_leaf hh]
    cases mentions_leaf hm with
    | inl h => exact absurd h (by simp)
    | inr h =>
      rw [(Target.symbol.inj h).1]
      rfl
  addr_header := by
    intro a sym hm _
    cases mentions_leaf hm with
    | inl h => exact absurd h (by simp)
    | inr h =>
      rw [(Target.symbol.inj h).2]
      have himported : ¬ Imported "leaf".toList := by decide
      exact ⟨himported, leafHeader, by simp [leafEntries], rfl⟩
  plt_header := by
    intro h hm
    cases mentions_leaf hm with
    | inl h => exact absurd h (by simp)
    | inr h => exact absurd h (by simp)
  import_free := by
    intro h hh sym hi heq
    rw [header_leaf hh, importName_eq] at heq
    split_ifs at heq with hu hs
    · exact absurd (List.cons.inj heq).1 (by decide)
    · exact absurd (List.cons.inj heq).1 (by decide)
    · rcases hi with hi | hi
      · exact hu hi
      · exact hs hi

theorem hasCode_leaf {q : ℕ} {e : Entry} (h : leafEntries[q]? = some e) (hq : 0 < q) :
    e.codeAddr ≠ none := by
  match q, h with
  | 1, h =>
    cases h
    simp [Entry.codeAddr]
  | 2, h =>
    cases h
    simp [Entry.codeAddr]
  | 3, h =>
    cases h
    simp [Entry.codeAddr]
  | q + 4, h => cases h

theorem ordered_leafEntries : Ordered leafEntries := by
  intro k m a hk _ hm
  have hkm : m = k + 1 := by
    rcases stands_leaf.mp hk with h | h | h <;> rcases stands_leaf.mp hm with h' | h' | h' <;> omega
  obtain ⟨e, he, ha⟩ := hm
  refine ⟨by omega, ⟨e, a + 4, he, ha⟩, fun q e' hkq hqm _ => ?_⟩
  omega

theorem closed_leafEntries : Closed leafEntries := by
  intro k m a n hk _ hm hnext
  have hkm : m = k + 1 := by
    by_contra hne
    have hlt := hnext.1
    obtain ⟨hlen, -⟩ := List.getElem?_eq_some_iff.mp hm.choose_spec.1
    have he : leafEntries[k + 1]? = some leafEntries[k + 1] := List.getElem?_eq_getElem (by omega)
    exact hasCode_leaf he (by omega) (hnext.2.2 (k + 1) _ (by omega) (by omega) he)
  rcases stands_leaf.mp hk with h | h | h <;> rcases stands_leaf.mp hm with h' | h' | h' <;> omega

def leafTemp : Str := disass (fun _ _ => false) (fun _ _ => leafListing) [] ["L400-40c".toList]

def leafFile : List Str :=
  process (fun _ _ => false) (fun _ _ => leafListing) [] "leaf.s".toList ["L400-40c".toList]

theorem run_leaf : (listingProgram leafEntries).Run (.running 0x400 [])
    [.take ⟨"cbz".toList, "w0, ".toList⟩, .ret ⟨"ret".toList, []⟩] (.returned []) := by
  have hbranch : (listingProgram leafEntries).Holds 0x400 ⟨"cbz".toList, "w0, ".toList⟩
      (.transfer false true (some (.offset 0x408))) :=
    ⟨.inst leafBranch.toInstLine, by simp [leafEntries], rfl, dest_leafBranch ▸ .branch leafBranch⟩
  have hret : (listingProgram leafEntries).Holds 0x408 ⟨"ret".toList, []⟩ .ret :=
    ⟨.plain leafReturn, by simp [leafEntries], rfl, .plain leafReturn⟩
  refine .cons (.take hbranch ⟨rfl, ?_⟩) (.cons (.ret hret) (.nil _))
  exact ⟨.plain leafReturn, by simp [leafEntries], rfl⟩

theorem leafFile_preserves_runs :
    (∃ c', (program rewritten leafFile).Run (.running 3 [])
      [.take ⟨"cbz".toList, "w0, ".toList⟩, .ret ⟨"ret".toList, []⟩] c') ∧
    (∀ evs' c', (program rewritten leafFile).Run (.running 3 []) evs' c' →
      ∃ evs c, (listingProgram leafEntries).Run (.running 0x400 []) evs c ∧
        evs' = evs.map (Event.map Target.name)) ∧
    ∃ j, Denotes leafFile "leaf".toList j := by
  have hok : (refine leafTemp).toBool = true := by decide +kernel
  obtain ⟨s, hs⟩ := exists_of_toBool hok
  have hes : (lines leafTemp).filter (fun line => ¬ Silent line) = leafEntries.map Entry.text := by
    decide +kernel
  have hname : ':' ∉ "leaf.s".toList := by decide
  obtain ⟨hforward, hback, hsym⟩ := process_preserves_runs hname (by decide) hs hes
    objdump_leafEntries written_leafEntries resolves_leafEntries
  have hlands : Lands leafEntries 2 0x400 3 := ⟨1, stands_leaf.mpr (.inl ⟨rfl, rfl⟩), rfl⟩
  obtain ⟨c', hrun, -⟩ := hforward ordered_leafEntries _ _ _ _ hlands run_leaf
  obtain ⟨j, hj, -⟩ := hsym leafHeader (by simp [leafEntries])
  refine ⟨⟨c', hrun⟩, fun evs' d' hrun' => ?_, j, hj⟩
  obtain ⟨evs, d, hrun, hevs, -⟩ := hback closed_leafEntries _ _ _ _ hlands hrun'
  exact ⟨evs, d, hrun, hevs⟩

end Rebench.Pipeline
