import Rebench.Disass.Rows
import Rebench.Pipeline.Layout
import Mathlib.Data.List.Nodup

/-!
# Ranges that overlap

The disassembler prints the instructions of a range, and the file defines a label
for each. The labels of a file are those of the instructions in its ranges, and no
label is defined twice exactly if no two ranges share an instruction.
-/
namespace Rebench.Pipeline
open Text Machine Refine Disass

/-! ## The library and its ranges -/

/-- The addresses of the instructions of a library, in order and four bytes each, and the names of its
functions. -/
structure Library where
  code : List ℕ
  symbol : ℕ → Option Str
  code_spaced : code.Pairwise fun a b => a + 4 ≤ b
  symbol_inj : ∀ a b s, symbol a = some s → symbol b = some s → a = b
  symbol_ne_label : ∀ a s, symbol a = some s → ∀ n, s ≠ label n

theorem Library.code_nodup (lib : Library) : lib.code.Nodup :=
  lib.code_spaced.imp fun h => by omega

def Covers (d : Disassembly) (a : ℕ) : Prop := hexVal d.start ≤ a ∧ a < hexVal d.stop

instance (d : Disassembly) : DecidablePred (Covers d) := fun _ => inferInstanceAs (Decidable (_ ∧ _))

def ranges (grepW : Str → Str → Bool) (table args : List Str) : List Disassembly :=
  (args.flatMap words).filterMap (disassArg grepW false table)

/-- Every header stands in front of the instruction whose function it names. -/
def Headed (lib : Library) (es : List Entry) : Prop :=
  ∀ k h, es[k]? = some (.header h) → lib.symbol (hexVal h.addr) = some h.sym ∧
    ∃ e, es[k + 1]? = some e ∧ e.codeAddr = some (hexVal h.addr)

/-- The entries are the instructions of one range after the other, under the headers of their
functions. -/
structure Lists (lib : Library) (rs : List Disassembly) (es : List Entry) : Prop where
  code : es.filterMap Entry.codeAddr = rs.flatMap fun d => lib.code.filter (Covers d)
  headed : Headed lib es

/-- What `objdump -d` prints between two addresses: the instructions there, and lines that refine.py
skips. -/
structure Prints (lib : Library) (d : Disassembly) (out : Str) : Prop where
  ends : EndsLine out
  entries : ∃ es, (lines out).filter (fun line => ¬ Silent line) = es.map Entry.text ∧
    Lists lib [d] es

def definitions (file : List Str) : List Str :=
  (file.filter fun line => line.head?.any isWord).map labelOf

/-! ## Headings -/

section Headings
variable {grepW : Str → Str → Bool} {static : Bool} {table : List Str} {w symbol name : Str}
  {d : Disassembly}

theorem silent_comment (s : Str) : Silent (strip ('#' :: s)) := by
  have hdrop : ('#' :: s).dropWhile isSpace = '#' :: s := List.dropWhile_cons_of_neg (by decide)
  have hpre : strip ('#' :: s) <+: '#' :: s := by
    rw [strip, hdrop]
    exact List.rdropWhile_prefix _ _
  have hne : strip ('#' :: s) ≠ [] := by
    rw [strip, hdrop, Ne, List.rdropWhile_eq_nil_iff]
    intro h
    exact absurd (h '#' List.mem_cons_self) (by decide)
  obtain ⟨c, cs, hcs⟩ := List.exists_cons_of_ne_nil hne
  rw [hcs] at hpre ⊢
  obtain ⟨rfl, -⟩ := List.cons_prefix_cons.mp hpre
  exact .inr (.inl ⟨cs, rfl⟩)

theorem newline_notMem (h : ∀ c ∈ w, isBlank c = false) : '\n' ∉ w := fun hmem =>
  absurd (h '\n' hmem) (by decide)

theorem newline_notMem_field (rows : List Str) (i : ℕ) : '\n' ∉ (rows.flatMap words).getD i [] := by
  rw [List.getD_eq_getElem?_getD]
  cases h : (rows.flatMap words)[i]? with
  | none => exact List.not_mem_nil
  | some w =>
    obtain ⟨row, -, hw⟩ := List.mem_flatMap.mp (List.mem_of_getElem? h)
    exact newline_notMem (isBlank_of_mem_words hw)

theorem newline_notMem_stopText (start size : Str) : '\n' ∉ stopText start size := by
  rw [stopText]
  split
  · exact newline_notMem (isRun_hex16 _).isToken.2
  · exact List.not_mem_nil

theorem heading_disass (hname : '\n' ∉ name) (h : Disass.disass grepW static table name = some d) :
    ∃ s, d.heading = "# ".toList ++ s ∧ '\n' ∉ s := by
  rw [Disass.disass] at h
  split_ifs at h
  dsimp only at h
  split_ifs at h
  obtain rfl := Option.some.inj h
  have hpad : '\n' ∉ padLeft 24 name := by
    rw [padLeft, List.mem_append, not_or]
    exact ⟨fun hmem => absurd (List.eq_of_mem_replicate hmem) (by decide), hname⟩
  have hfield := newline_notMem_field (table.filter (selects grepW static name))
  have hblank : '\n' ∉ " ".toList := by decide
  simp only [List.append_assoc]
  refine ⟨_, rfl, ?_⟩
  simp only [List.mem_append, not_or]
  exact ⟨hpad, hblank, hfield 0, hblank, newline_notMem_stopText _ _, hblank, hfield 4, hblank,
    hfield 3⟩

theorem heading_disassLoc {location : Str} (h : disassLoc location = some d) :
    ∃ s, d.heading = "# ".toList ++ s ∧ '\n' ∉ s := by
  obtain rfl := Option.some.inj h
  simp only [List.append_assoc]
  refine ⟨_, rfl, ?_⟩
  have hfield := newline_notMem_field [location.map fun c => if c = '-' then ' ' else c] 0
  rw [List.flatMap_singleton] at hfield
  rw [List.mem_append, not_or]
  exact ⟨hfield, by decide⟩

theorem heading_disassArg (hsymbol : ∀ c ∈ symbol, isBlank c = false)
    (h : disassArg grepW static table symbol = some d) :
    ∃ s, d.heading = "# ".toList ++ s ∧ '\n' ∉ s := by
  have hnew := newline_notMem hsymbol
  unfold disassArg at h
  split at h
  · cases h
  · exact heading_disassLoc h
  · exact heading_disass (fun hmem => hnew (List.mem_cons_of_mem _ hmem)) h
  · exact heading_disass hnew h

end Headings

/-! ## The listing of the ranges -/

section Listing
variable {grepW : Str → Str → Bool} {objdump : Str → Str → Str} {table args : List Str}
  {lib : Library} {es es' : List Entry} {d : Disassembly}

theorem flatMap_filterMap_eq {α β γ : Type*} (f : α → Option β) (g : β → List γ) (l : List α) :
    (l.filterMap f).flatMap g = l.flatMap fun a => (f a).elim [] g := by
  induction l with
  | nil => rfl
  | cons a l ih =>
    rw [List.flatMap_cons, ← ih, List.filterMap_cons]
    cases f a with
    | none => rfl
    | some b => rfl

theorem disass_eq_ranges : disass grepW objdump table args =
    (ranges grepW table args).flatMap fun d => d.heading ++ '\n' :: objdump d.start d.stop := by
  rw [ranges, flatMap_filterMap_eq, disass]
  apply List.flatMap_congr
  intro symbol _
  cases disassArg grepW false table symbol with
  | none => rfl
  | some d => rfl

theorem lines_range (hends : EndsLine (objdump d.start d.stop)) {symbol : Str}
    (hsymbol : ∀ c ∈ symbol, isBlank c = false)
    (hd : disassArg grepW false table symbol = some d) (rest : Str) :
    (lines (d.heading ++ '\n' :: objdump d.start d.stop ++ rest)).filter
        (fun line => ¬ Silent line) =
      (lines (objdump d.start d.stop)).filter (fun line => ¬ Silent line) ++
        (lines rest).filter (fun line => ¬ Silent line) := by
  obtain ⟨s, hheading, hs⟩ := heading_disassArg hsymbol hd
  have hnew : '\n' ∉ d.heading := by
    rw [hheading, List.mem_append, not_or]
    exact ⟨by decide, hs⟩
  have hsilent : Silent (strip (d.heading ++ ['\n'])) := by
    rw [hheading]
    exact silent_comment _
  rw [List.append_assoc, List.cons_append, lines, readlines_line hnew, readlines_append hends,
    List.map_cons, List.filter_cons_of_neg (by simpa using hsilent), List.map_append,
    List.filter_append]
  rfl

theorem Headed.append (h : Headed lib es) (h' : Headed lib es') : Headed lib (es ++ es') := by
  intro k hd hk
  rcases Nat.lt_or_ge k es.length with hlt | hge
  · rw [List.getElem?_append_left hlt] at hk
    obtain ⟨hsym, e, he, haddr⟩ := h k hd hk
    refine ⟨hsym, e, ?_, haddr⟩
    rw [List.getElem?_append_left (List.getElem?_eq_some_iff.mp he).1, he]
  · rw [List.getElem?_append_right hge] at hk
    obtain ⟨hsym, e, he, haddr⟩ := h' _ hd hk
    refine ⟨hsym, e, ?_, haddr⟩
    rw [List.getElem?_append_right (by omega), ← he]
    congr 1
    omega

theorem Lists.append {rs rs' : List Disassembly} (h : Lists lib rs es) (h' : Lists lib rs' es') :
    Lists lib (rs ++ rs') (es ++ es') where
  code := by
    rw [List.filterMap_append, List.flatMap_append, h.code, h'.code]
  headed := h.headed.append h'.headed

/-- The listing has the instructions of the ranges. -/
theorem exists_entries
    (hprints : ∀ d ∈ ranges grepW table args, Prints lib d (objdump d.start d.stop)) :
    ∃ es, (lines (disass grepW objdump table args)).filter (fun line => ¬ Silent line) =
        es.map Entry.text ∧ Lists lib (ranges grepW table args) es := by
  rw [disass_eq_ranges]
  rw [ranges] at hprints ⊢
  have hblank : ∀ symbol ∈ args.flatMap words, ∀ c ∈ symbol, isBlank c = false := by
    intro symbol hsymbol
    obtain ⟨arg, -, hw⟩ := List.mem_flatMap.mp hsymbol
    exact isBlank_of_mem_words hw
  generalize args.flatMap words = symbols at hprints hblank ⊢
  induction symbols with
  | nil => exact ⟨[], rfl, rfl, fun k h hk => by simp at hk⟩
  | cons symbol symbols ih =>
    obtain ⟨hsymbol, hblank⟩ := List.forall_mem_cons.mp hblank
    cases hd : disassArg grepW false table symbol with
    | none =>
      rw [List.filterMap_cons_none hd] at hprints ⊢
      exact ih hprints hblank
    | some d =>
      rw [List.filterMap_cons_some hd] at hprints ⊢
      obtain ⟨hprint, hprints⟩ := List.forall_mem_cons.mp hprints
      obtain ⟨es', hes', hlists'⟩ := ih hprints hblank
      obtain ⟨es, hes, hlists⟩ := hprint.entries
      refine ⟨es ++ es', ?_, hlists.append hlists'⟩
      rw [List.flatMap_cons, lines_range hprint.ends hsymbol hd, hes, hes', List.map_append]

end Listing

/-! ## The labels -/

section Labels
variable {lib : Library} {es : List Entry} {e : Entry} {n : ℕ}

theorem label_of_codeAddr (h : e.codeAddr = some n) : e.label = label n := by
  cases e with
  | header l => cases h
  | inst l => exact congrArg label (Option.some.inj h)
  | plain l => exact congrArg label (Option.some.inj h)

theorem header_of_codeAddr (h : e.codeAddr = none) : ∃ l, e = .header l := by
  cases e with
  | header l => exact ⟨l, rfl⟩
  | inst l => cases h
  | plain l => cases h

theorem Headed.sym_ne_label (h : Headed lib es) {l : HeaderLine} (hl : .header l ∈ es) (n : ℕ) :
    l.sym ≠ label n := by
  obtain ⟨k, hk⟩ := List.getElem?_of_mem hl
  exact lib.symbol_ne_label _ _ (h k l hk).1 n

theorem Headed.label_mem_iff (h : Headed lib es) :
    label n ∈ es.map Entry.label ↔ n ∈ es.filterMap Entry.codeAddr := by
  rw [List.mem_map, List.mem_filterMap]
  constructor
  · rintro ⟨e, he, hlabel⟩
    refine ⟨e, he, ?_⟩
    cases haddr : e.codeAddr with
    | none =>
      obtain ⟨l, rfl⟩ := header_of_codeAddr haddr
      exact absurd hlabel (h.sym_ne_label he n)
    | some m =>
      rw [label_of_codeAddr haddr] at hlabel
      rw [label_injective hlabel]
  · rintro ⟨e, he, haddr⟩
    exact ⟨e, he, label_of_codeAddr haddr⟩

/-- Two headers with one name stand in front of instructions with one address. -/
theorem Headed.nodup_iff (h : Headed lib es) :
    (es.map Entry.label).Nodup ↔ (es.filterMap Entry.codeAddr).Nodup := by
  rw [List.Nodup, List.Nodup, List.pairwise_map, List.pairwise_filterMap]
  constructor
  · intro hlabels
    refine hlabels.imp ?_
    rintro e e' hne n hn n' hn' rfl
    exact hne ((label_of_codeAddr hn).trans (label_of_codeAddr hn').symm)
  · intro haddrs
    rw [List.pairwise_iff_getElem] at haddrs ⊢
    intro i j hi hj hij heq
    cases hn : es[i].codeAddr with
    | some n =>
      cases hn' : es[j].codeAddr with
      | some n' =>
        rw [label_of_codeAddr hn, label_of_codeAddr hn'] at heq
        exact haddrs i j hi hj hij n hn n' hn' (label_injective heq)
      | none =>
        obtain ⟨l, hl⟩ := header_of_codeAddr hn'
        rw [label_of_codeAddr hn, hl] at heq
        exact h.sym_ne_label (hl ▸ List.getElem_mem hj) n heq.symm
    | none =>
      obtain ⟨l, hl⟩ := header_of_codeAddr hn
      cases hn' : es[j].codeAddr with
      | some n' =>
        rw [label_of_codeAddr hn', hl] at heq
        exact h.sym_ne_label (hl ▸ List.getElem_mem hi) n' heq
      | none =>
        obtain ⟨l', hl'⟩ := header_of_codeAddr hn'
        rw [hl, hl'] at heq
        have hsym : l.sym = l'.sym := heq
        obtain ⟨hname, e, he, haddr⟩ := h i l ((List.getElem?_eq_getElem hi).trans (congrArg some hl))
        obtain ⟨hname', e', he', haddr'⟩ :=
          h j l' ((List.getElem?_eq_getElem hj).trans (congrArg some hl'))
        rw [← hsym] at hname'
        obtain ⟨hi', rfl⟩ := List.getElem?_eq_some_iff.mp he
        obtain ⟨hj', rfl⟩ := List.getElem?_eq_some_iff.mp he'
        exact haddrs (i + 1) (j + 1) hi' hj' (by omega) _ haddr _ haddr'
          (lib.symbol_inj _ _ _ hname hname')

theorem Lists.mem_iff {rs : List Disassembly} (h : Lists lib rs es) :
    n ∈ es.filterMap Entry.codeAddr ↔ n ∈ lib.code ∧ ∃ d ∈ rs, Covers d n := by
  rw [h.code, List.mem_flatMap]
  constructor
  · rintro ⟨d, hd, hn⟩
    obtain ⟨hn, hcover⟩ := List.mem_filter.mp hn
    exact ⟨hn, d, hd, of_decide_eq_true hcover⟩
  · rintro ⟨hn, d, hd, hcover⟩
    exact ⟨d, hd, List.mem_filter.mpr ⟨hn, decide_eq_true hcover⟩⟩

theorem Lists.nodup_iff {rs : List Disassembly} (h : Lists lib rs es) :
    (es.filterMap Entry.codeAddr).Nodup ↔
      rs.Pairwise fun d d' => ∀ a ∈ lib.code, Covers d a → ¬ Covers d' a := by
  rw [h.code, List.nodup_flatMap, and_iff_right fun d _ => lib.code_nodup.filter _]
  apply List.Pairwise.iff
  intro d d'
  simp only [Function.onFun, List.disjoint_left, List.mem_filter, decide_eq_true_eq, not_and,
    and_imp]
  exact ⟨fun h a ha hcover => h ha hcover ha, fun h a ha hcover _ => h a ha hcover⟩

end Labels

section File
variable {grepW : Str → Str → Bool} {objdump : Str → Str → Str} {table args file : List Str}
  {name : Str} {s : Refine.State} {es : List Entry}

theorem definitions_append (file file' : List Str) :
    definitions (file ++ file') = definitions file ++ definitions file' := by
  rw [definitions, List.filter_append, List.map_append]
  rfl

theorem definitions_eq_nil (h : ∀ line ∈ file, ∀ c ∈ line.head?, isWord c = false) :
    definitions file = [] := by
  rw [definitions, List.map_eq_nil_iff, List.filter_eq_nil_iff]
  intro line hline hany
  obtain ⟨c, hc, hword⟩ := (Option.any_eq_true _ _).mp hany
  rw [h line hline c hc] at hword
  exact Bool.false_ne_true hword

theorem definitions_process (hs : refine (disass grepW objdump table args) = .ok s)
    (ht : Translated es s.stdout) :
    definitions (process grepW objdump table name args) = es.map Entry.label := by
  obtain ⟨code, tail, hfile, hcode, htail⟩ := exists_layout grepW objdump table name args
  have hpre : definitions (preamble args) = [] := by
    apply definitions_eq_nil
    intro line hline c hc
    obtain ⟨l, rfl⟩ := tab_of_mem_preamble hline
    rw [List.head?_cons, Option.mem_some_iff] at hc
    rw [← hc]
    decide
  have hbehind : definitions tail = [] := by
    rcases htail with rfl | rfl
    · rfl
    · apply definitions_eq_nil
      intro line hline c hc
      rcases List.mem_cons.mp hline with rfl | hline
      · cases hc
      · have hhead : (Post.includeLine ("out/".toList ++ name)).head? = some '.' := rfl
        rw [List.mem_singleton.mp hline, hhead, Option.mem_some_iff] at hc
        rw [← hc]
        decide
  have hlines : code.filter (fun line => line.head?.any isWord) = code := by
    rw [List.filter_eq_self]
    intro line hline
    have hlabel := List.mem_map_of_mem (f := labelOf) hline
    rw [hcode] at hlabel
    obtain ⟨out, hout, hsame⟩ := List.mem_map.mp hlabel
    obtain ⟨printedLine, hprinted⟩ := exists_of_mem_refined hout
    obtain ⟨c, hc, hword⟩ := head_of_labelOf hsame.symm (head_of_printed hprinted)
    exact (Option.any_eq_true _ _).mpr ⟨c, hc, hword⟩
  rw [hfile, definitions_append, definitions_append, hpre, hbehind, List.nil_append,
    List.append_nil, definitions, hlines, hcode, refined_ok hs, map_labelOf ht.emits]

/-- The file has the labels of the instructions in its ranges, and defines no label twice exactly
if no two ranges share an instruction. -/
theorem process_labels {lib : Library} (name : Str)
    (hs : refine (disass grepW objdump table args) = .ok s)
    (hprints : ∀ d ∈ ranges grepW table args, Prints lib d (objdump d.start d.stop)) :
    (∀ a, label a ∈ definitions (process grepW objdump table name args) ↔
      a ∈ lib.code ∧ ∃ d ∈ ranges grepW table args, Covers d a) ∧
    ((definitions (process grepW objdump table name args)).Nodup ↔
      (ranges grepW table args).Pairwise fun d d' => ∀ a ∈ lib.code, Covers d a → ¬ Covers d' a) := by
  obtain ⟨es, hes, hlists⟩ := exists_entries hprints
  rw [definitions_process hs (translated_of_refine hs hes)]
  refine ⟨fun a => ?_, ?_⟩
  · rw [hlists.headed.label_mem_iff]
    exact hlists.mem_iff
  · rw [hlists.headed.nodup_iff]
    exact hlists.nodup_iff

end File

/-! ## Two ranges side by side -/

def leafLibrary : Library where
  code := [0x400, 0x404, 0x408]
  symbol a := if a = 0x400 then some "leaf".toList else none
  code_spaced := by decide
  symbol_inj := by
    intro a b s ha hb
    split_ifs at ha hb with ha' hb'
    rw [ha', hb']
  symbol_ne_label := by
    intro a s ha n
    split_ifs at ha
    rw [← Option.some.inj ha]
    intro heq
    exact absurd (List.cons.inj heq).1 (by decide)

def place : Entry → ℕ
  | .header h => hexVal h.addr
  | .inst l => hexVal l.addr
  | .plain l => hexVal l.addr

def leafDump (start stop : Str) : Str :=
  (leafEntries.filter fun e => hexVal start ≤ place e ∧ place e < hexVal stop).flatMap fun e =>
    e.text ++ ['\n']

def splitArgs : List Str := ["L400-404".toList, "?leaf".toList, "L404-40c".toList]

theorem prints_leafDump : ∀ d ∈ ranges (fun _ _ => false) [] splitArgs,
    Prints leafLibrary d (leafDump d.start d.stop) := by
  intro d hd
  have hranges : ranges (fun _ _ => false) [] splitArgs =
      [⟨"# 400:".toList, "400".toList, "404".toList⟩,
        ⟨"# 404:".toList, "404".toList, "40c".toList⟩] := rfl
  rw [hranges, List.mem_cons, List.mem_singleton] at hd
  rcases hd with rfl | rfl
  · refine ⟨.inr (by decide +kernel), leafEntries.take 2, by decide +kernel, by decide, ?_⟩
    intro k h hk
    match k, hk with
    | 0, hk =>
      cases hk
      exact ⟨rfl, .inst leafBranch.toInstLine, rfl, rfl⟩
    | 1, hk => cases hk
    | k + 2, hk => cases hk
  · refine ⟨.inr (by decide +kernel), leafEntries.drop 2, by decide +kernel, by decide, ?_⟩
    intro k h hk
    match k, hk with
    | 0, hk => cases hk
    | 1, hk => cases hk
    | k + 2, hk => cases hk

/-- Ranges that only touch define every label once. -/
theorem process_labels_leaf : (definitions
    (process (fun _ _ => false) leafDump [] "leaf.s".toList splitArgs)).Nodup := by
  have hok : (refine (disass (fun _ _ => false) leafDump [] splitArgs)).toBool = true := by
    decide +kernel
  obtain ⟨s, hs⟩ := exists_of_toBool hok
  exact (process_labels "leaf.s".toList hs prints_leafDump).2.mpr (by decide +kernel)

end Rebench.Pipeline
