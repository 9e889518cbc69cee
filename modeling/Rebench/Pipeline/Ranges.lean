import Rebench.Pipeline.Overlap

/-!
# Runs of the requested ranges

If no two ranges of the command line share an instruction, and no range stops
behind an instruction that control passes, then the listing is in the order that
the runs of the file need, and each instruction of the library in a range has its
own label in the file, from which the runs are those from the instruction.
-/
namespace Rebench.Pipeline
open Text Machine Control Refine Disass

def Apart (lib : Library) (rs : List Disassembly) : Prop :=
  rs.Pairwise fun d d' => ∀ a ∈ lib.code, Covers d a → ¬ Covers d' a

/-- An instruction that control passes has its successor in its range. -/
def Whole (lib : Library) (rs : List Disassembly) (es : List Entry) : Prop :=
  ∀ d ∈ rs, ∀ a ∈ lib.code, Covers d a → (listingProgram es).Resumes a →
    a + 4 ∈ lib.code ∧ Covers d (a + 4)

/-! ## Neighbours -/

section Neighbours
variable {lib : Library} {rs : List Disassembly} {es : List Entry} {a b k m : ℕ}

theorem adjacent_of_spaced {l : List ℕ} (h : l.Pairwise fun a b => a + 4 ≤ b) (ha : a ∈ l)
    (hb : a + 4 ∈ l) : ∃ u v, l = u ++ a :: (a + 4) :: v := by
  induction l with
  | nil => exact absurd ha List.not_mem_nil
  | cons c l ih =>
    obtain ⟨hc, hl⟩ := List.pairwise_cons.mp h
    by_cases hca : a ∈ l
    · have hca' := hc a hca
      have hb' : a + 4 ∈ l := List.mem_of_ne_of_mem (by omega) hb
      obtain ⟨u, v, rfl⟩ := ih hl hca hb'
      exact ⟨c :: u, v, rfl⟩
    · obtain rfl : a = c := (List.mem_cons.mp ha).resolve_right hca
      have hb' : a + 4 ∈ l := List.mem_of_ne_of_mem (by omega) hb
      cases l with
      | nil => exact absurd hb' List.not_mem_nil
      | cons e l =>
        have hfirst := hc e List.mem_cons_self
        rcases List.mem_cons.mp hb' with rfl | hb'
        · exact ⟨[], l, rfl⟩
        · have hsecond := (List.pairwise_cons.mp hl).1 _ hb'
          omega

/-- Neighbours among the instructions are neighbours in the listing, where headers may stand
between. -/
theorem next_of_adjacent {u v : List ℕ} (h : es.filterMap Entry.codeAddr = u ++ a :: b :: v) :
    ∃ k m, Stands es a k ∧ Stands es b m ∧ NextEntry es k m := by
  obtain ⟨es₁, es₂, rfl, -, h⟩ := List.filterMap_eq_append_iff.mp h
  obtain ⟨hs₁, e, es₃, rfl, -, he, h⟩ := List.filterMap_eq_cons_iff.mp h
  obtain ⟨hs₂, e', es₄, rfl, hnone, he', -⟩ := List.filterMap_eq_cons_iff.mp h
  have hk : (es₁ ++ (hs₁ ++ e :: (hs₂ ++ e' :: es₄)))[es₁.length + hs₁.length]? = some e := by
    rw [← List.append_assoc, List.getElem?_append_right (by simp)]
    simp
  have hbehind : ∀ q, (es₁ ++ (hs₁ ++ e :: (hs₂ ++ e' :: es₄)))[es₁.length + hs₁.length + 1 + q]? =
      (hs₂ ++ e' :: es₄)[q]? := by
    intro q
    rw [← List.append_assoc, List.getElem?_append_right (by simp; omega), List.length_append,
      show es₁.length + hs₁.length + 1 + q - (es₁.length + hs₁.length) = q + 1 by omega,
      List.getElem?_cons_succ]
  have hm : (es₁ ++ (hs₁ ++ e :: (hs₂ ++ e' :: es₄)))[es₁.length + hs₁.length + 1 + hs₂.length]? =
      some e' := by
    rw [hbehind, List.getElem?_append_right le_rfl]
    simp
  refine ⟨_, _, ⟨e, hk, he⟩, ⟨e', hm, he'⟩, by omega, ⟨e', b, hm, he'⟩, ?_⟩
  intro q f hkq hqm hf
  obtain ⟨i, rfl⟩ := Nat.exists_eq_add_of_le (by omega : es₁.length + hs₁.length + 1 ≤ q)
  rw [hbehind, List.getElem?_append_left (by omega)] at hf
  exact hnone f (List.mem_of_getElem? hf)

theorem nextEntry_unique {m' : ℕ} (h : NextEntry es k m) (h' : NextEntry es k m') : m = m' := by
  obtain ⟨hlt, ⟨e, n, he, hn⟩, hbetween⟩ := h
  obtain ⟨hlt', ⟨e', n', he', hn'⟩, hbetween'⟩ := h'
  rcases lt_trichotomy m m' with hm | hm | hm
  · rw [hbetween' m e hlt hm he] at hn
    cases hn
  · exact hm
  · rw [hbetween m' e' hlt' hm he'] at hn'
    cases hn'

/-- Control passes an instruction to its neighbour in the listing. -/
theorem Lists.passes (h : Lists lib rs es) (hwhole : Whole lib rs es) (hk : Stands es a k)
    (hres : (listingProgram es).Resumes a) :
    ∃ k' m, Stands es a k' ∧ Stands es (a + 4) m ∧ NextEntry es k' m := by
  obtain ⟨e, he, ha⟩ := hk
  have hmem : a ∈ es.filterMap Entry.codeAddr :=
    List.mem_filterMap.mpr ⟨e, List.mem_of_getElem? he, ha⟩
  obtain ⟨hcode, d, hd, hcover⟩ := h.mem_iff.mp hmem
  obtain ⟨hcode', hcover'⟩ := hwhole d hd a hcode hcover hres
  have hin : ∀ {n}, n ∈ lib.code → Covers d n → n ∈ lib.code.filter (Covers d) :=
    fun hn hc => List.mem_filter.mpr ⟨hn, decide_eq_true hc⟩
  obtain ⟨u, v, hblock⟩ := adjacent_of_spaced (lib.code_spaced.filter _) (hin hcode hcover)
    (hin hcode' hcover')
  obtain ⟨rs₁, rs₂, rfl⟩ := List.append_of_mem hd
  have hall : es.filterMap Entry.codeAddr =
      (rs₁.flatMap (fun d => lib.code.filter (Covers d)) ++ u) ++ a :: (a + 4) ::
        (v ++ rs₂.flatMap fun d => lib.code.filter (Covers d)) := by
    rw [h.code, List.flatMap_append, List.flatMap_cons, hblock]
    simp
  exact next_of_adjacent hall

end Neighbours

/-! ## The listing of the ranges -/

section Listing
variable {lib : Library} {rs : List Disassembly} {es : List Entry} (h : Lists lib rs es)
include h

/-- A listing of ranges that are apart is as `objdump` promises. -/
theorem Lists.objdump (hapart : Apart lib rs)
    (htarget : ∀ b : BranchLine, .inst b.toInstLine ∈ es → b.target = hex (hexVal b.target)) :
    Objdump es where
  addr_nodup := h.nodup_iff.mpr hapart
  header_next k l hk := (h.headed k l hk).2
  sym_nodup := by
    have hlabels := h.headed.nodup_iff.mpr (h.nodup_iff.mpr hapart)
    rw [List.Nodup, List.pairwise_map] at hlabels
    rw [List.Nodup, List.pairwise_filterMap]
    refine hlabels.imp ?_
    rintro e e' hne x hx x' hx' rfl
    have hlabel : ∀ {e : Entry}, e.sym? = some x → e.label = x := by
      intro e he
      cases e with
      | header l => exact Option.some.inj he
      | inst l => cases he
      | plain l => cases he
    exact hne ((hlabel hx).trans (hlabel hx').symm)
  sym_ne_label _ hl n := h.headed.sym_ne_label hl n
  target_hex := htarget

theorem Lists.ordered (hd : Objdump es) (hwhole : Whole lib rs es) : Ordered es := by
  intro k m a hk hres hm
  obtain ⟨k', m', hk', hm', hnext⟩ := h.passes hwhole hk hres
  rwa [hk'.unique hd hk, hm'.unique hd hm] at hnext

theorem Lists.closed (hd : Objdump es) (hwhole : Whole lib rs es) : Closed es := by
  intro k m a n hk hres hm hnext
  obtain ⟨k', m', hk', ⟨e', he', hn'⟩, hnext'⟩ := h.passes hwhole hk hres
  rw [hk'.unique hd hk] at hnext'
  obtain rfl := nextEntry_unique hnext hnext'
  obtain ⟨e, he, hn⟩ := hm
  obtain rfl := Option.some.inj (he.symm.trans he')
  exact Option.some.inj (hn.symm.trans hn')

end Listing

/-- The label of every instruction in a range names a line of the file from which the runs are those
of the instruction, if the ranges are apart and whole. -/
theorem process_runs_ranges {grepW : Str → Str → Bool} {objdump : Str → Str → Str}
    {table args : List Str} {name : Str} {s : Refine.State} {es : List Entry} {lib : Library}
    (hname : ':' ∉ name) (hargs : ∀ arg ∈ args, ':' ∉ arg)
    (hs : refine (disass grepW objdump table args) = .ok s)
    (hes : (lines (disass grepW objdump table args)).filter (fun line => ¬ Silent line) =
      es.map Entry.text)
    (hlists : Lists lib (ranges grepW table args) es) (hapart : Apart lib (ranges grepW table args))
    (hwhole : Whole lib (ranges grepW table args) es) (hw : Written es) (hr : Resolves es)
    (htarget : ∀ b : BranchLine, .inst b.toInstLine ∈ es → b.target = hex (hexVal b.target))
    {a : ℕ} (ha : a ∈ lib.code) (hcover : ∃ d ∈ ranges grepW table args, Covers d a) :
    ∃ j, Denotes (process grepW objdump table name args) (label a) j ∧
      (∀ evs c, (listingProgram es).Run (.running a []) evs c →
        ∃ c', (program rewritten (process grepW objdump table name args)).Run (.running j [])
          (evs.map (Event.map Target.name)) c') ∧
      ∀ evs' c', (program rewritten (process grepW objdump table name args)).Run (.running j []) evs' c' →
        ∃ evs c, (listingProgram es).Run (.running a []) evs c ∧
          evs' = evs.map (Event.map Target.name) := by
  have hd := hlists.objdump hapart htarget
  have ht := translated_of_refine hs hes
  have hprogram := program_process hname hargs hs ht hd
  have hpre : ∀ l ∈ preamble args, IsDirective l := fun l hl =>
    isDirective_of_mem_preamble hargs hl
  obtain ⟨e, he, haddr⟩ := List.mem_filterMap.mp (hlists.mem_iff.mpr ⟨ha, hcover⟩)
  obtain ⟨k, hk⟩ := List.getElem?_of_mem he
  have hlands : Lands es (preamble args).length a ((preamble args).length + k) :=
    ⟨k, ⟨e, hk, haddr⟩, rfl⟩
  refine ⟨(preamble args).length + k, ?_, ?_, ?_⟩
  · have hnames : Denotes (process grepW objdump table name args) =
        Denotes (preamble args ++ s.stdout) := congrArg Program.Names hprogram
    rw [hnames]
    exact (denotes_shifted hpre (isWord_label a).2).mpr (denotes_label ht.emits hk haddr)
  · intro evs c hrun
    rw [hprogram]
    obtain ⟨c', hrun', -⟩ := (simulates_file hpre ht hd hw hr (hlists.ordered hd hwhole)).run_from
      (fun _ _ => name_of_comp) hlands hrun
    exact ⟨c', hrun'⟩
  · intro evs' c' hrun
    rw [hprogram] at hrun
    obtain ⟨evs, c, hrun', hevs, -⟩ := (simulated_file hpre ht hd hw hr
      (hlists.closed hd hwhole)).run_back (fun _ _ => name_of_comp) hlands hrun
    exact ⟨evs, c, hrun', hevs⟩

/-! ## The small listing -/

def leafRanges : List Disassembly := ranges (fun _ _ => false) [] ["L400-40c".toList]

theorem leafRanges_eq : leafRanges = [⟨"# 400:".toList, "400".toList, "40c".toList⟩] := rfl

theorem lists_leaf : Lists leafLibrary leafRanges leafEntries where
  code := by decide
  headed := by
    intro k h hk
    match k, hk with
    | 0, hk =>
      cases hk
      exact ⟨rfl, .inst leafBranch.toInstLine, rfl, rfl⟩
    | 1, hk => cases hk
    | 2, hk => cases hk
    | 3, hk => cases hk
    | k + 4, hk => cases hk

theorem not_resumes_leafReturn : ¬ (listingProgram leafEntries).Resumes 0x408 := by
  rintro ⟨i, f, ⟨e, he, haddr, hread⟩, hres⟩
  simp only [leafEntries, List.mem_cons, List.not_mem_nil, or_false] at he
  rcases he with rfl | rfl | rfl | rfl
  · cases haddr
  · exact absurd haddr (by decide)
  · exact absurd haddr (by decide)
  · have hflow := ((Reads.plain leafReturn).unique hread).2
    have hret : flow leafReturn.inst (none : Option Target) = .ret := if_pos rfl
    rw [← hflow, hret] at hres
    exact hres

theorem whole_leaf : Whole leafLibrary leafRanges leafEntries := by
  intro d hd a ha _ hres
  rw [leafRanges_eq, List.mem_singleton] at hd
  have hcases : a = 0x400 ∨ a = 0x404 ∨ a = 0x408 := by simpa [leafLibrary] using ha
  rcases hcases with rfl | rfl | rfl
  · rw [hd]
    decide
  · rw [hd]
    decide
  · exact absurd hres not_resumes_leafReturn

theorem leafFile_runs_ranges : ∃ j, Denotes leafFile "L400".toList j ∧
    ∃ c', (program rewritten leafFile).Run (.running j [])
      [.take ⟨"cbz".toList, "w0, ".toList⟩, .ret ⟨"ret".toList, []⟩] c' := by
  have hok : (refine leafTemp).toBool = true := by decide +kernel
  obtain ⟨s, hs⟩ := exists_of_toBool hok
  have hes : (lines leafTemp).filter (fun line => ¬ Silent line) = leafEntries.map Entry.text := by
    decide +kernel
  have hname : ':' ∉ "leaf.s".toList := by decide
  have hcover : ∃ d ∈ leafRanges, Covers d 0x400 := by decide
  have hapart : Apart leafLibrary leafRanges := List.pairwise_singleton _ _
  obtain ⟨j, hj, hforward, -⟩ := process_runs_ranges hname (by decide) hs hes lists_leaf hapart
    whole_leaf written_leafEntries resolves_leafEntries objdump_leafEntries.target_hex
    (by decide : 0x400 ∈ leafLibrary.code) hcover
  exact ⟨j, hj, hforward _ _ run_leaf⟩

end Rebench.Pipeline
