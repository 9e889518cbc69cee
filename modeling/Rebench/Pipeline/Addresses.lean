import Rebench.Pipeline.Exits
import Rebench.Pipeline.Layout
import Rebench.Post.Addresses
import Rebench.Post.Translation

/-!
# The addresses that the file forms

refine.py marks the pages of a listing, and post.py turns a page and the next use
of its register into two references to a label. Wherever the labels are placed,
the two lines form the address of the label that carries the address of the
listing as its number.
-/
namespace Rebench.Pipeline
open Text Machine Refine

/-! ## Pages and displacements of a listing -/

/-- `adrp <reg>, <page> <...>`. -/
structure PageLoad (l : InstLine) (reg page : Str) : Prop where
  inst : l.inst = "adrp".toList
  reg_form : Post.IsReg reg
  page_run : IsRun isHex page
  operands : ∃ sp rest, IsRun isSpace sp ∧ l.operands = reg ++ (", ".toList ++ (page ++ (sp ++ rest)))

section Listing
variable (es : List Entry)

/-- Entry `i` loads a page into the register `x<n>`, and entry `j`, the next one that mentions the
register and seven behind at most, adds a displacement to it: an `add` without a shift, or an `ldr`
with a displacement in figures that does not write the register back. -/
structure AddressPair (i j : ℕ) (n : Str) (page : ℕ) (d : ℤ) : Prop where
  register : IsRun isDec n
  load : ∃ l text, es[i]? = some (.inst l) ∧ PageLoad l ('x' :: n) text ∧ hexVal text = page
  lt : i < j
  near : j ≤ i + 7
  silent : ∀ k e, i < k → k < j → es[k]? = some e → ¬ Post.Mentions e.text n
  use : ∃ l u reg rest o, es[j]? = some (.inst l) ∧ Post.IsUse (copied l) u reg rest ∧
    u.base = 'x' :: n ∧ addressOperand (copied l) = some o ∧
    o.displacement (fun _ => none) = some d ∧ u.Covers o

/-- The listing is written as `objdump` writes it: a tab cuts off `adrp`, and the displacement of an
`ldr` is decimal. -/
structure Figured : Prop where
  adrp : ∀ l, .inst l ∈ es → l.head = "adrp".toList → l.inst = "adrp".toList
  ldr : ∀ l u reg rest, .inst l ∈ es → Post.IsUse (copied l) u reg rest → u.Readable

end Listing

/-! ## The output of one entry -/

section Lines
variable {l : InstLine} {e : Entry} {out reg page label mnem rest n t : Str} {u : Post.Use}

theorem adrpCase_page {addr : ℕ} {inst operands : Str}
    (h : adrpCase addr inst operands = some out) : ∃ reg page sp rest, Post.IsReg reg ∧
      IsRun isHex page ∧ IsRun isSpace sp ∧
      operands = reg ++ (", ".toList ++ (page ++ (sp ++ rest))) ∧
      out = codeLine addr inst (reg ++ (", ?".toList ++ page)) := by
  obtain ⟨mo, hmo, rfl⟩ := Option.map_eq_some_iff.mp h
  obtain ⟨q, hm⟩ : ∃ q, (Pat.reg ++ Pat.str ", " ++ Pat.addr ++ Pat.space ++ q).match? operands =
      some mo := by
    rcases orElse_eq_some_iff.mp hmo with hm | ⟨-, hm⟩
    · exact ⟨_, hm⟩
    rcases orElse_eq_some_iff.mp hm with hm | ⟨-, hm⟩
    · exact ⟨_, hm⟩
    · exact ⟨_, hm⟩
  obtain ⟨_, _, page, sp, v, d, r, hp, hpage, hsp, -, rfl, rfl⟩ :=
    exists_of_match?_before_target hm
  obtain ⟨_, _, rfl, _, _, rfl, hg, hcomma⟩ := Pattern.reads_append.mp hp
  obtain ⟨⟨c, k, rfl, hc, hk⟩, rfl⟩ := reads_reg.mp hg
  obtain ⟨rfl, rfl⟩ := reads_str.mp hcomma
  have hclass : c ∈ ['x', '|', 'd', 'q'] :=
    (by decide : ['x', '|', 'd'] ⊆ ['x', '|', 'd', 'q']) hc
  exact ⟨c :: k, page, sp, v ++ r, ⟨c, k, rfl, hclass, hk⟩, hpage, hsp, by simp, by simp⟩

theorem PageLoad.unique {reg' page' : Str} (h : PageLoad l reg page) (h' : PageLoad l reg' page') :
    reg = reg' ∧ page = page' := by
  obtain ⟨sp, rest, hsp, hops⟩ := h.operands
  obtain ⟨sp', rest', hsp', hops'⟩ := h'.operands
  have hcomma : ∀ {r : Str}, Post.IsReg r → ∀ c ∈ r, (c != ',') = true := fun hr c hc =>
    bne_iff_ne.mpr fun heq => Post.comma_notMem_register hr (heq ▸ hc)
  have hspace : ∀ {s r : Str}, IsRun isSpace s → ∀ c ∈ (s ++ r).head?, isHex c = false := by
    intro s r hs c hc
    rw [List.head?_append_of_ne_nil _ hs.1] at hc
    exact isHex_eq_false_of_isSpace (hs.2 c (List.mem_of_mem_head? hc))
  obtain ⟨hreg, htail⟩ := run_unique (hcomma h.reg_form) (hcomma h'.reg_form) (by simp) (by simp)
    (hops.symm.trans hops')
  have hpage := List.append_cancel_left htail
  exact ⟨hreg, (run_unique h.page_run.2 h'.page_run.2 (hspace hsp) (hspace hsp') hpage).1⟩

/-- An `adrp` is printed with its page behind the mark. -/
theorem exists_pageLoad (hdot : ∀ c ∈ l.text, isDot c)
    (hformat : ¬ "file format".toList <:+: l.text) (hacc : Accepted l.text)
    (hinst : l.inst = "adrp".toList) : ∃ reg page, PageLoad l reg page ∧
      printed l.text = some (Post.pageLine (hex (hexVal l.addr)) reg page) := by
  obtain ⟨out, symbols, hp, hprinted⟩ := l.exists_processInsts hdot hformat hacc
  have hgroup : l.captures.group .inst = "adrp".toList := hinst
  have hbranch : ¬ IsBranch "adrp".toList := by decide
  have hcase : adrpCase (hexVal l.addr) "adrp".toList l.operands = some out := by
    rw [processInsts, hgroup, if_neg hbranch] at hp
    obtain ⟨_, hc, heq⟩ := Option.map_eq_some_iff.mp hp
    obtain ⟨rfl, -⟩ := Prod.mk.inj heq
    rcases orElse_eq_some_iff.mp hc with hc | ⟨-, hc⟩
    · rw [tbzCase, if_neg (by decide)] at hc
      exact absurd hc (by simp)
    rcases orElse_eq_some_iff.mp hc with hc | ⟨-, hc⟩
    · rw [cbzCase, if_neg (by decide)] at hc
      exact absurd hc (by simp)
    · rw [if_pos rfl] at hc
      exact hc
  obtain ⟨reg, page, sp, rest, hreg, hpage, hsp, hops, rfl⟩ := adrpCase_page hcase
  refine ⟨reg, page, ⟨hinst, hreg, hpage, sp, rest, hsp, hops⟩, ?_⟩
  rw [hprinted, codeLine_eq]
  simp [Post.pageLine, Refine.label]

theorem PageLoad.printed (h : PageLoad l reg page) (hdot : ∀ c ∈ l.text, isDot c)
    (hformat : ¬ "file format".toList <:+: l.text) (hacc : Accepted l.text) :
    printed l.text = some (Post.pageLine (hex (hexVal l.addr)) reg page) := by
  obtain ⟨reg', page', h', hprinted⟩ := exists_pageLoad hdot hformat hacc h.inst
  obtain ⟨rfl, rfl⟩ := h.unique h'
  exact hprinted

theorem printed_use (hdot : ∀ c ∈ l.text, isDot c)
    (hformat : ¬ "file format".toList <:+: l.text) (hacc : Accepted l.text)
    (hhead : l.head ∈ ["add", "ldr"].map String.toList) : printed l.text = some (copied l) := by
  have hnot : ∀ h ∈ ["add", "ldr"].map String.toList,
      ¬ Direct h ∧ h ∉ ["adrp", "adr"].map String.toList := by decide
  obtain ⟨hd, hadrp⟩ := hnot _ hhead
  exact printed_copied hdot hformat hacc hd hadrp

theorem inst_of_line (he : e.Emits out) (hplain : ∀ p, e = .plain p → ' ' ∉ p.inst)
    (hlabel : IsRun isHex label) (hmnem : IsRun (!isSpace ·) mnem)
    (hout : out = 'L' :: (label ++ ':' :: '\t' :: (mnem ++ ' ' :: t))) :
    ∃ l, e = .inst l ∧ l.head = mnem := by
  have hname : ':' ∉ 'L' :: label := by
    rw [List.mem_cons, not_or]
    exact ⟨by decide, Post.notMem_label hlabel rfl⟩
  have hcode : codeOf out = '\t' :: (mnem ++ ' ' :: t) := by
    rw [hout, ← List.cons_append, codeOf_append hname]
  cases e with
  | header h =>
    rw [he, codeOf_sym] at hcode
    exact absurd hcode (by simp)
  | inst l =>
    obtain ⟨ops, rfl⟩ := he
    rw [codeOf_codeLine] at hcode
    have hmnemonic := congrArg mnemonic hcode
    rw [mnemonic_tab l.inst_ne l.inst_head (by simp; decide),
      mnemonic_tab hmnem.1 (fun c hc => by simpa using hmnem.2 c (List.mem_of_mem_head? hc))
        (by simp; decide), takeWhile_mnemonic hmnem] at hmnemonic
    exact ⟨l, rfl, hmnemonic⟩
  | plain p =>
    have hinst : codeOf out = '\t' :: p.inst := by
      rw [he, List.append_assoc, show ":\t".toList = [':', '\t'] from rfl, List.cons_append,
        codeOf_append (colon_notMem_label _)]
      rfl
    have hblank : ' ' ∈ p.inst := by
      rw [(List.cons.inj (hinst.symm.trans hcode)).2]
      simp
    exact absurd hblank (hplain p rfl)

theorem names_append {c : Char} (hc : isWord c = false) (u v : Str) :
    Post.names (u ++ c :: v) = Post.names u ++ Post.names v :=
  List.splitOnP_append_cons u v (by simpa using hc)

/-- The names of a copied line stand in the listing, all but its label. -/
theorem mem_names_copied {d : Char} {w : Str} (hd : d ≠ 'L')
    (h : d :: w ∈ Post.names (copied l)) : d :: w ∈ Post.names l.text := by
  have hlabel : Post.names (Refine.label (hexVal l.addr)) = [Refine.label (hexVal l.addr)] := by
    apply List.splitOnP_eq_singleton
    intro c hc
    simpa using (isWord_label (hexVal l.addr)).2 c hc
  rw [copied, codeLine_eq, names_append (by decide), hlabel,
    show '\t' :: l.inst ++ ' ' :: l.operands = [] ++ '\t' :: (l.inst ++ ' ' :: l.operands) from rfl,
    names_append (by decide), names_append (by decide)] at h
  obtain ⟨sp, c, hsp⟩ : ∃ sp c, l.sp₂ = sp ++ [c] :=
    ⟨_, _, (List.dropLast_append_getLast l.sp₂_run.1).symm⟩
  have hc : isWord c = false := isWord_eq_false_of_isSpace (l.sp₂_run.2 c (by simp [hsp]))
  have htext : l.text =
      (l.addr ++ ':' :: (l.sp₁ ++ (l.bin ++ sp))) ++ c :: (l.inst ++ '\t' :: l.operands) := by
    simp [InstLine.text, hsp]
  rw [htext, names_append hc, names_append (c := '\t') rfl]
  simp only [List.mem_append, List.mem_singleton] at h ⊢
  rcases h with h | h | h
  · exact absurd (List.cons.inj h).1 hd
  · exact absurd h (by simp [Post.names])
  · exact .inr h

end Lines

section Entries
variable {es : List Entry} {outs : List Str} {e : Entry} {l : InstLine}
  {out reg page label rest n : Str} {u : Post.Use}

theorem accepts_of_mem (h : Translated es outs) (he : e ∈ es) : (∀ c ∈ e.text, isDot c) ∧
    ¬ "file format".toList <:+: e.text ∧ Accepted e.text := by
  obtain ⟨hdot, hs, hacc⟩ := h.entries e he
  exact ⟨hdot, (not_silent_iff.mp hs).2.2.1, hacc⟩

theorem isLine_of_emits (h : e.Emits out) : Post.IsLine out := by
  have hlabel : ∀ a code, Post.IsLine (Refine.label a ++ ':' :: '\t' :: code) := fun a code =>
    .inr ⟨hex a, code, ⟨hex_ne_nil a, fun _ => isHex_of_mem_hex⟩, rfl⟩
  cases e with
  | header h' => exact .inl ⟨h'.sym, h'.sym_run, h⟩
  | inst l =>
    obtain ⟨ops, rfl⟩ := h
    rw [codeLine_eq]
    exact hlabel _ _
  | plain p =>
    rw [h, List.append_assoc]
    exact hlabel _ _

theorem blank_notMem_plain (h : Translated es outs) (he : e ∈ es) :
    ∀ p, e = .plain p → ' ' ∉ p.inst := by
  rintro p rfl
  obtain ⟨hdot, hs, hacc⟩ := h.entries _ he
  have hinst := p.inst_of_accepted hdot hs hacc
  have hall : ∀ i ∈ ["ret".toList, "nop".toList], ' ' ∉ i := by decide
  exact hall _ hinst

theorem isAdrp_pageLine (h : PageLoad l reg page) :
    Post.IsAdrp (Post.pageLine (hex (hexVal l.addr)) reg page) (hex (hexVal l.addr)) reg page [] where
  text := by simp [Post.pageLine]
  label := ⟨hex_ne_nil _, fun _ => isHex_of_mem_hex⟩
  reg := h.reg_form
  addr := h.page_run
  rest := by simp

/-- An output line that post.py reads as a page load is that of an `adrp`, and ends with the page. -/
theorem pageLoad_of_isAdrp (h : Translated es outs) (hf : Figured es) (he : e ∈ es)
    (hprinted : printed e.text = some out) (hemits : e.Emits out)
    (hadrp : Post.IsAdrp out label reg page rest) :
    ∃ l, e = .inst l ∧ PageLoad l reg page ∧ out = Post.pageLine label reg page := by
  have hmnem : IsRun (!isSpace ·) "adrp".toList := by decide
  obtain ⟨l, rfl, hhead⟩ := inst_of_line hemits (blank_notMem_plain h he) hadrp.label hmnem
    hadrp.text
  obtain ⟨hdot, hformat, hacc⟩ := accepts_of_mem h he
  obtain ⟨reg', page', hload, hout⟩ := exists_pageLoad hdot hformat hacc (hf.adrp l he hhead)
  have hline : out = Post.pageLine (hex (hexVal l.addr)) reg' page' :=
    Option.some.inj (hprinted.symm.trans hout)
  have hmatch := hadrp.match?
  rw [hline, (isAdrp_pageLine hload).match?] at hmatch
  simp only [Option.some.injEq, List.cons.injEq, Prod.mk.injEq, true_and, and_true] at hmatch
  obtain ⟨rfl, rfl, rfl⟩ := hmatch
  exact ⟨l, rfl, hload, hline⟩

theorem inst_of_isUse (hemits : e.Emits out) (hplain : ∀ p, e = .plain p → ' ' ∉ p.inst)
    (huse : Post.IsUse out u reg rest) :
    ∃ l, e = .inst l ∧ l.head ∈ ["add", "ldr"].map String.toList := by
  obtain ⟨mnem, hop, hmem⟩ : ∃ mnem, u.kind.opcode = '\t' :: (mnem ++ [' ']) ∧
      mnem ∈ ["add", "ldr"].map String.toList := by
    cases u.kind with
    | add => exact ⟨"add".toList, rfl, by decide⟩
    | ldr => exact ⟨"ldr".toList, rfl, by decide⟩
    | ldrBase => exact ⟨"ldr".toList, rfl, by decide⟩
  have hrun : ∀ m ∈ ["add", "ldr"].map String.toList, IsRun (!isSpace ·) m := by decide
  have htext := huse.text
  rw [hop, List.cons_append, List.append_assoc] at htext
  obtain ⟨l, rfl, hhead⟩ := inst_of_line hemits hplain huse.label (hrun mnem hmem) htext
  exact ⟨l, rfl, hhead ▸ hmem⟩

theorem copied_of_isUse (h : Translated es outs) (he : e ∈ es) (hprinted : printed e.text = some out)
    (hemits : e.Emits out) (huse : Post.IsUse out u reg rest) :
    ∃ l, e = .inst l ∧ out = copied l := by
  obtain ⟨l, rfl, hhead⟩ := inst_of_isUse hemits (blank_notMem_plain h he) huse
  obtain ⟨hdot, hformat, hacc⟩ := accepts_of_mem h he
  have hcopied := printed_use hdot hformat hacc hhead
  exact ⟨l, rfl, Option.some.inj (hprinted.symm.trans hcopied)⟩

/-- The output of an entry that does not mention the register passes it by. -/
theorem passes_of_entry (h : Translated es outs) (hf : Figured es) (he : e ∈ es)
    (hprinted : printed e.text = some out) (hemits : e.Emits out) (hn : IsRun isDec n)
    (hsilent : ¬ Post.Mentions e.text n) : Post.Passes ('x' :: n) out := by
  refine ⟨(isLine_of_emits hemits).not_dashes, ?_, ?_⟩
  · intro p hp
    obtain ⟨rest, hadrp⟩ := Post.adrpOf_eq_some.mp hp
    obtain ⟨l, rfl, hload, -⟩ := pageLoad_of_isAdrp h hf he hprinted hemits hadrp
    obtain ⟨sp, rest, -, hops⟩ := hload.operands
    have htext : l.text = (l.addr ++ ':' :: (l.sp₁ ++ (l.bin ++ (l.sp₂ ++ l.inst)))) ++ '\t' ::
        (('x' :: n) ++ ',' :: (' ' :: (p.addr ++ (sp ++ rest)))) := by
      rw [InstLine.text, hops]
      simp
    apply hsilent
    rw [Entry.text, htext]
    exact .inl (Post.mem_names (Post.isWord_register hn) (by decide) (by decide) _ _)
  · intro u hu hbase
    obtain ⟨reg, rest, huse⟩ := Post.useOf_eq_some.mp hu
    obtain ⟨l, rfl, rfl⟩ := copied_of_isUse h he hprinted hemits huse
    apply hsilent
    cases huse.mentions hbase hn with
    | inl hx => exact .inl (mem_names_copied (by decide) hx)
    | inr hw => exact .inr (mem_names_copied (by decide) hw)

end Entries

/-! ## The file for post.py -/

section File
variable {args outs : List Str} {es : List Entry} {line n : Str} {i j page : ℕ} {d : ℤ}

theorem entry_of_line (h : Translated es outs) (hline : 'L' :: line ∈ preamble args ++ outs) :
    ∃ e ∈ es, printed e.text = some ('L' :: line) ∧ e.Emits ('L' :: line) := by
  rcases List.mem_append.mp hline with hpre | hout
  · obtain ⟨l, hl⟩ := tab_of_mem_preamble hpre
    exact absurd (List.cons.inj hl).1 (by decide)
  · obtain ⟨k, hk⟩ := List.getElem?_of_mem hout
    have hlt : k < es.length := h.lines.length_eq ▸ (List.getElem?_eq_some_iff.mp hk).1
    obtain ⟨out, hk', hprinted, hemits⟩ := exists_of_forall₂ h.lines (List.getElem?_eq_getElem hlt)
    obtain rfl := Option.some.inj (hk.symm.trans hk')
    exact ⟨es[k], List.getElem_mem hlt, hprinted, hemits⟩

/-- What refine.py prints behind the directives is a listing for post.py. -/
theorem listing_file (hargs : ∀ arg ∈ args, ':' ∉ arg) (h : Translated es outs) (hd : Objdump es)
    (hf : Figured es) : Post.Listing (preamble args ++ outs) where
  labels := labelsDistinct_file (fun l hl => isDirective_of_mem_preamble hargs hl) h hd
  pages := by
    rintro line hline ⟨reg, p⟩ ha
    obtain ⟨rest, hadrp⟩ := Post.adrpOf_eq_some.mp ha
    obtain ⟨e, he, hprinted, hemits⟩ := entry_of_line h (hadrp.text ▸ hline)
    rw [← hadrp.text] at hprinted hemits
    obtain ⟨l, -, -, hout⟩ := pageLoad_of_isAdrp h hf he hprinted hemits hadrp
    exact hout

theorem exists_post (path : Str) (args : List Str) (h : Translated es outs) (hf : Figured es) :
    ∃ out, Post.post path (preamble args ++ outs) = .ok out := by
  have hread : ∀ q, some q ∈ Post.pairings (preamble args ++ outs) → q.use.Readable := by
    intro q hq
    obtain ⟨j, hj⟩ := List.mem_iff_getElem?.mp hq
    have hpaired : Post.Paired (preamble args ++ outs) j q := hj
    obtain ⟨line, line', hp⟩ := hpaired.pair
    obtain ⟨reg, rest, huse⟩ := Post.useOf_eq_some.mp hp.use
    obtain ⟨e, he, hprinted, hemits⟩ := entry_of_line h (huse.text ▸ List.mem_of_getElem? hp.second)
    rw [← huse.text] at hprinted hemits
    obtain ⟨l, rfl, rfl⟩ := copied_of_isUse h he hprinted hemits huse
    exact hf.ldr l _ _ _ he huse
  obtain ⟨s, hs, -⟩ := Post.grep_ok hread
  refine ⟨s.replaces.foldl (fun ls c => ls.map c.apply) (preamble args ++ outs) ++
    [[], Post.includeLine path], ?_⟩
  rw [Post.post, hs]
  rfl

/-- What an entry prints stands behind the directives. -/
theorem getElem?_file (args : List Str) (h : Translated es outs) {k : ℕ} {e : Entry} {out : Str}
    (he : es[k]? = some e) (hprinted : printed e.text = some out) :
    (preamble args ++ outs)[(preamble args).length + k]? = some out := by
  obtain ⟨out', hout, hprinted', -⟩ := exists_of_forall₂ h.lines he
  obtain rfl := Option.some.inj (hprinted'.symm.trans hprinted)
  rwa [getElem?_shifted]

/-- post.py pairs the two lines. -/
theorem AddressPair.pair (hp : AddressPair es i j n page d) (args : List Str)
    (h : Translated es outs) (hf : Figured es) : ∃ q line line' reg rest o,
      Post.Pair (preamble args ++ outs) ((preamble args).length + j) q line line' ∧
      q.first = (preamble args).length + i ∧ hexVal q.adrp.addr = page ∧ q.use.base = 'x' :: n ∧
      Post.IsUse line' q.use reg rest ∧ addressOperand line' = some o ∧
      o.displacement (fun _ => none) = some d ∧ q.use.Covers o := by
  obtain ⟨l, text, hi, hload, hpage⟩ := hp.load
  obtain ⟨l', u, reg, rest, o, hj, huse, hbase, ho, hdisp, hcover⟩ := hp.use
  have hadrp : Post.adrpOf (Post.pageLine (hex (hexVal l.addr)) ('x' :: n) text) =
      some ('x' :: n, ⟨hex (hexVal l.addr), text⟩) :=
    Post.adrpOf_eq_some.mpr ⟨[], isAdrp_pageLine hload⟩
  have hfirst : (preamble args ++ outs)[(preamble args).length + i]? =
      some (Post.pageLine (hex (hexVal l.addr)) ('x' :: n) text) := by
    obtain ⟨hdot, hformat, hacc⟩ := accepts_of_mem h (List.mem_of_getElem? hi)
    exact getElem?_file args h hi (hload.printed hdot hformat hacc)
  have hsecond : (preamble args ++ outs)[(preamble args).length + j]? = some (copied l') := by
    obtain ⟨hdot, hformat, hacc⟩ := accepts_of_mem h (List.mem_of_getElem? hj)
    have hemits : (Entry.inst l').Emits (copied l') := ⟨l'.operands, rfl⟩
    obtain ⟨l'', heq, hhead⟩ := inst_of_isUse hemits (by simp) huse
    obtain rfl := Entry.inst.inj heq
    exact getElem?_file args h hj (printed_use hdot hformat hacc hhead)
  refine ⟨⟨(preamble args).length + i, ⟨hex (hexVal l.addr), text⟩, u⟩, _, _, reg, rest, o,
    ⟨?_, hfirst, hsecond, ?_, Post.useOf_eq_some.mpr ⟨reg, rest, huse⟩, ?_, ?_⟩, rfl, hpage, hbase,
    huse, ho, hdisp, hcover⟩
  · have hlt := hp.lt
    simp only
    omega
  · rw [hadrp, hbase]
  · intro k line hk hkj hline
    simp only at hk
    obtain ⟨m, rfl⟩ := Nat.exists_eq_add_of_le (by omega : (preamble args).length ≤ k)
    rw [getElem?_shifted] at hline
    have hlt : m < es.length := h.lines.length_eq ▸ (List.getElem?_eq_some_iff.mp hline).1
    have he : es[m]? = some es[m] := List.getElem?_eq_getElem hlt
    obtain ⟨out, hout, hprinted, hemits⟩ := exists_of_forall₂ h.lines he
    obtain rfl := Option.some.inj (hout.symm.trans hline)
    rw [hbase]
    exact passes_of_entry h hf (List.getElem_mem hlt) hprinted hemits hp.register
      (hp.silent m es[m] (by omega) (by omega) he)
  · intro k hk hkj
    have hnear := hp.near
    simp only at hk
    exact ⟨_, _, hfirst, Post.isInfix_of_adrpOf hadrp, by omega, by omega⟩

end File

/-- post.py gets through the file. Wherever the labels are placed, the lines of the file for a page and
its next use form the address of the label that has the number of the address in the listing, if the
lines between leave the register. -/
theorem process_forms_addresses {grepW : Str → Str → Bool} {objdump : Str → Str → Str}
    {table args : List Str} {name : Str} {s : Refine.State} {es : List Entry}
    (hargs : ∀ arg ∈ args, ':' ∉ arg)
    (hs : refine (disass grepW objdump table args) = .ok s)
    (hes : (lines (disass grepW objdump table args)).filter (fun line => ¬ Silent line) =
      es.map Entry.text)
    (hd : Objdump es) (hf : Figured es) :
    Post.post ("out/".toList ++ name) (preamble args ++ refined (disass grepW objdump table args)) =
        .ok (process grepW objdump table name args) ∧
      ∀ i j page n d, AddressPair es i j n page d →
        ∀ effect : (Str → Word) → Str → Regs → Regs,
          (∀ σ, ∀ l ∈ Post.linesBetween (process grepW objdump table name args)
            ((preamble args).length + i) ((preamble args).length + j), ∀ r,
              effect σ l r ('x' :: n) = r ('x' :: n)) →
          ∀ σ r, Post.pairAddress effect σ (process grepW objdump table name args)
            ((preamble args).length + i) ((preamble args).length + j) r =
              some (σ (Post.label (page + d).toNat)) := by
  have ht := translated_of_refine hs hes
  have hl := listing_file hargs ht hd hf
  obtain ⟨out, hout⟩ := exists_post ("out/".toList ++ name) args ht hf
  have hrefined : refined (disass grepW objdump table args) = s.stdout := by
    rw [refined, hs]
  have hprocess : process grepW objdump table name args = out := by
    rw [process, hrefined]
    simp only [hout]
  rw [hprocess, hrefined]
  refine ⟨hout, fun i j page n d hp effect hkeep σ r => ?_⟩
  obtain ⟨q, line, line', reg, rest, o, hpair, hfirst, rfl, hbase, huse, ho, hdisp, hcover⟩ :=
    hp.pair args ht hf
  rw [← hfirst, ← hbase] at hkeep
  rw [← hfirst]
  exact Post.forms_of_covers hl hout hpair huse hcover ho hdisp (hkeep σ) r

/-! ## A page and an `add` -/

def lineAt (l : InstLine) (addr inst operands : Str) (haddr : IsRun isHex addr) (hne : inst ≠ [])
    (hhead : ∀ c ∈ inst.head?, isSpace c = false) (hops : operands ≠ []) (htab : '\t' ∉ operands) :
    InstLine :=
  { l with
    addr := addr
    inst := inst
    operands := operands
    addr_run := haddr
    inst_ne := hne
    inst_head := hhead
    operands_ne := hops
    operands_tab := htab }

def dataPage : InstLine :=
  lineAt leafCall.toInstLine "583bc".toList "adrp".toList "x8, 14a000 <data+0x830>".toList
    (by decide) (by decide) (by decide) (by decide) (by decide)

def dataMove : InstLine := lineAt leafCall.toInstLine "583c0".toList "mov".toList "w0, w1".toList
  (by decide) (by decide) (by decide) (by decide) (by decide)

def dataAdd : InstLine :=
  lineAt leafCall.toInstLine "583c4".toList "add".toList "x9, x8, #0x8d8".toList
    (by decide) (by decide) (by decide) (by decide) (by decide)

def dataEntries : List Entry := [.inst dataPage, .inst dataMove, .inst dataAdd]

def dataListing : Str :=
  ("  583bc:\t97ffffff \tadrp\tx8, 14a000 <data+0x830>\n" ++
    "  583c0:\t97ffffff \tmov\tw0, w1\n  583c4:\t97ffffff \tadd\tx9, x8, #0x8d8\n").toList

theorem inst_data {l : InstLine} (hl : .inst l ∈ dataEntries) :
    l = dataPage ∨ l = dataMove ∨ l = dataAdd := by
  simpa [dataEntries] using hl

theorem header_data {h : HeaderLine} : .header h ∉ dataEntries := by
  simp [dataEntries]

theorem objdump_dataEntries : Objdump dataEntries where
  addr_nodup := by decide
  header_next k h hk := absurd (List.mem_of_getElem? hk) header_data
  sym_nodup := by decide
  sym_ne_label h hh := absurd hh header_data
  target_hex := by
    intro b hb
    have hdirect : Direct b.inst := b.inst_eq ▸ b.direct
    rcases inst_data hb with h | h | h
    · rw [h] at hdirect
      exact absurd hdirect (by decide)
    · rw [h] at hdirect
      exact absurd hdirect (by decide)
    · rw [h] at hdirect
      exact absurd hdirect (by decide)

theorem figured_dataEntries : Figured dataEntries where
  adrp := by
    intro l hl hhead
    rcases inst_data hl with rfl | rfl | rfl
    · rfl
    · exact absurd hhead (by decide)
    · exact absurd hhead (by decide)
  ldr := by
    intro l u reg rest hl huse hkind
    have hu := Post.useOf_eq_some.mpr ⟨reg, rest, huse⟩
    rcases inst_data hl with rfl | rfl | rfl
    · rw [show Post.useOf (copied dataPage) = none by decide +kernel] at hu
      exact absurd hu (by simp)
    · rw [show Post.useOf (copied dataMove) = none by decide +kernel] at hu
      exact absurd hu (by simp)
    · rw [show Post.useOf (copied dataAdd) = some Post.addPairing.use by decide +kernel,
        Option.some_inj] at hu
      rw [← hu] at hkind
      exact absurd hkind (by decide)

theorem addressPair_data : AddressPair dataEntries 0 2 "8".toList 0x14a000 0x8d8 where
  register := by decide
  load := ⟨dataPage, "14a000".toList, rfl, ⟨rfl, ⟨'x', "8".toList, rfl, by decide, by decide⟩,
    by decide, " ".toList, "<data+0x830>".toList, by decide, rfl⟩, by decide⟩
  lt := by decide
  near := by decide
  silent := by
    intro k e hk hk' he
    obtain rfl : k = 1 := by omega
    obtain rfl := Option.some.inj he
    decide
  use := ⟨dataAdd, Post.addPairing.use, "x9".toList, [], ⟨"x8".toList, some "#0x8d8".toList, false, []⟩,
    rfl, Post.IsUse.mk rfl (by decide) ⟨'x', "9".toList, rfl, by decide, by decide⟩
      ⟨'x', "8".toList, rfl, by decide, by decide⟩ (by decide), rfl, by decide +kernel,
    by decide +kernel, .inl ⟨rfl, rfl⟩, rfl⟩

def dataFile : List Str :=
  process (fun _ _ => false) (fun _ _ => dataListing) [] "data.s".toList ["L583bc-583c8".toList]

theorem dataFile_forms_addresses :
    Post.pairAddress Post.moveEffect (fun s => if s = "L14a8d8".toList then 0x1238 else 0) dataFile 2 4
      (fun _ => 0) = some 0x1238 := by
  have hargs : ∀ arg ∈ ["L583bc-583c8".toList], ':' ∉ arg := by decide
  have hreported : reported (disass (fun _ _ => false) (fun _ _ => dataListing) []
      ["L583bc-583c8".toList]) = some ([], []) := by
    decide +kernel
  obtain ⟨s, hs, -, -⟩ := exists_of_reported hreported
  have hes : (lines (disass (fun _ _ => false) (fun _ _ => dataListing) []
      ["L583bc-583c8".toList])).filter (fun line => ¬ Silent line) = dataEntries.map Entry.text := by
    decide +kernel
  have hkeep : ∀ σ, ∀ l ∈ Post.linesBetween dataFile 2 4, ∀ r,
      Post.moveEffect σ l r "x8".toList = r "x8".toList := fun σ l _ r =>
    Post.moveEffect_keeps σ l r
  exact ((process_forms_addresses hargs hs hes objdump_dataEntries figured_dataEntries).2 _ _ _ _ _
    addressPair_data _ hkeep (fun s => if s = "L14a8d8".toList then 0x1238 else 0)
      fun _ => 0).trans (by decide +kernel)

end Rebench.Pipeline
