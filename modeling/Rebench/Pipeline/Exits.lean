import Rebench.Pipeline.Runs
import Rebench.Refine.Report

/-!
# How control leaves the file

A run leaves the file through a name that no line has. For a symbol that name is
the one the report lists the symbol for; the labels of the addresses that the
disassembly leaves out are not reported.
-/
namespace Rebench.Pipeline
open Text Machine Control Refine

/-! ## The ways out of a listing -/

section Listing
variable {es : List Entry} {outs : List Str} {x : Target} {sym : Str}

def Heads (es : List Entry) (sym : Str) : Prop := ∃ h, .header h ∈ es ∧ h.sym = sym

def Calls (es : List Entry) (sym : Str) : Prop :=
  (∃ a, Mentions es (.symbol a sym)) ∨ Mentions es (.plt sym)

theorem listed_of_header (hd : Objdump es) {h : HeaderLine} (hh : .header h ∈ es) :
    Listed es (hexVal h.addr) := by
  obtain ⟨k, hk⟩ := List.getElem?_of_mem hh
  obtain ⟨e, he, haddr⟩ := hd.header_next k h hk
  exact ⟨e, List.mem_of_getElem? he, haddr⟩

theorem exists_codeAddr {e : Entry} {i : Instr} {f : Flow Target} (h : Reads e i f) :
    ∃ a, e.codeAddr = some a := by
  cases h with
  | branch b => exact ⟨_, rfl⟩
  | plt b => exact ⟨_, rfl⟩
  | other l h => exact ⟨_, rfl⟩
  | plain l => exact ⟨_, rfl⟩

theorem exits_listing :
    (listingProgram es).Exits x ↔ Mentions es x ∧ ∀ t, ¬ (listingProgram es).Names x t := by
  rw [Program.exits_iff]
  apply and_congr_left
  intro _
  constructor
  · intro h
    obtain ⟨a, i, link, cond, e, he, -, hread⟩ := h
    exact ⟨e, he, i, link, cond, hread⟩
  · intro h
    obtain ⟨e, he, i, link, cond, hread⟩ := h
    obtain ⟨a, ha⟩ := exists_codeAddr hread
    exact ⟨a, i, link, cond, e, he, ha, hread⟩

/-- A symbol leads out if it is imported or not defined. -/
theorem exits_calls (hd : Objdump es) (hr : Resolves es) :
    ((∃ a, (listingProgram es).Exits (.symbol a sym)) ∨ (listingProgram es).Exits (.plt sym)) ↔
      Calls es sym ∧ (Imported sym ∨ ¬ Heads es sym) := by
  have hsymbol : ∀ a, Mentions es (.symbol a sym) →
      ((∀ t, ¬ (listingProgram es).Names (.symbol a sym) t) ↔ Imported sym ∨ ¬ Heads es sym) := by
    intro a hm
    constructor
    · intro hnone
      by_contra hor
      rw [not_or, not_not] at hor
      obtain ⟨hi, h, hh, rfl⟩ := hor
      have haddr := hr.header_addr a h hm hi hh
      exact hnone a ⟨rfl, haddr ▸ listed_of_header hd hh⟩
    · rintro hor t ⟨rfl, hlisted⟩
      obtain ⟨hi, hheads⟩ := hr.addr_header t sym hm hlisted
      rcases hor with h | h
      · exact hi h
      · exact h hheads
  have hplt : Mentions es (.plt sym) →
      ((∀ t, ¬ (listingProgram es).Names (.plt sym) t) ↔ Imported sym ∨ ¬ Heads es sym) := by
    intro hm
    constructor
    · intro hnone
      right
      rintro ⟨h, hh, hsym⟩
      exact hnone _ ⟨h, hh, hsym, rfl⟩
    · rintro hor t ⟨h, hh, rfl, -⟩
      rcases hor with himported | hnot
      · exact hr.plt_header h hm hh himported
      · exact hnot ⟨h, hh, rfl⟩
  simp only [exits_listing]
  constructor
  · rintro (⟨a, hm, hnone⟩ | ⟨hm, hnone⟩)
    · exact ⟨.inl ⟨a, hm⟩, (hsymbol a hm).mp hnone⟩
    · exact ⟨.inr hm, (hplt hm).mp hnone⟩
  · rintro ⟨⟨a, hm⟩ | hm, hor⟩
    · exact .inl ⟨a, hm, (hsymbol a hm).mpr hor⟩
    · exact .inr ⟨hm, (hplt hm).mpr hor⟩

/-- The output has the ways out of the listing under their names. -/
theorem exits_translated (h : Translated es outs) (hd : Objdump es) (hw : Written es)
    (hr : Resolves es) {x' : Str} :
    (program rewritten outs).Exits x' ↔ ∃ x, (listingProgram es).Exits x ∧ x' = x.name := by
  have hout : ∀ x, Mentions es x → ((∀ j, ¬ (program rewritten outs).Names x.name j) ↔
      ∀ a, ¬ (listingProgram es).Names x a) := by
    intro x hm
    constructor
    · intro hnone a ha
      obtain ⟨j, hj, -⟩ := h.denotes hd hr ⟨hm, rfl⟩ ha
      exact hnone j hj
    · intro hnone j hj
      obtain ⟨a, ha, -⟩ := h.names hd hr ⟨hm, rfl⟩ hj
      exact hnone a ha
  rw [Program.exits_iff]
  constructor
  · rintro ⟨⟨j, i, link, cond, line, hline, hcode, hread⟩, hnone⟩
    obtain ⟨a, e, he, ha⟩ := h.hasCode_iff.mp ⟨line, hline, hcode⟩
    have hmem := List.mem_of_getElem? he
    obtain ⟨i', f, hreads⟩ := hw.exists_reads hmem ha
    obtain ⟨f', ⟨line', hline', -, hread'⟩, hrel⟩ := h.holds hd hw he ha hreads
    rw [← Option.some.inj (hline.symm.trans hline'), hread, Prod.mk.injEq] at hread'
    obtain ⟨rfl, rfl⟩ := hread'
    cases hrel with
    | transfer hdest =>
      cases hdest with
      | some hx =>
        obtain ⟨hm, rfl⟩ := hx
        exact ⟨_, exits_listing.mpr ⟨hm, (hout _ hm).mp hnone⟩, rfl⟩
  · rintro ⟨x, hx, rfl⟩
    obtain ⟨hm, hnone⟩ := exits_listing.mp hx
    obtain ⟨e, he, i, link, cond, hread⟩ := id hm
    obtain ⟨a, ha⟩ := exists_codeAddr hread
    obtain ⟨j, hj⟩ := List.getElem?_of_mem he
    obtain ⟨f', hf', hrel⟩ := h.holds hd hw hj ha hread
    refine ⟨?_, (hout x hm).mpr hnone⟩
    cases hrel with
    | transfer hdest =>
      cases hdest with
      | some hname =>
        obtain ⟨-, rfl⟩ := hname
        exact ⟨j, _, _, _, hf'⟩

end Listing

/-! ## What is recorded of a listing -/

section Recorded
variable {l : PcLine} {sym close : Str}

theorem names_of_aims (h : l.Aims sym close) (hb : IsBranch l.mnem)
    (hclose : close = ">".toList ∨ close = "@plt>".toList) : Names l.operands sym := by
  have hpre : l.pre = [] := by
    rcases l.pre_form with ⟨-, hpre⟩ | ⟨hrel, -⟩
    · exact hpre
    · exact absurd hb (PcLine.not_isBranch_of_pcRelative hrel)
  obtain ⟨htarget, hsym, sp, hsp, hops⟩ := h.addressAt
  refine ⟨l.target, sp, close, [], htarget, hsp, hsym, hclose, ?_⟩
  rw [hops, hpre]
  simp

theorem aims_of_names (h : l.Aims sym close) (hb : IsBranch l.mnem) {sym' : Str}
    (hnames : Names l.operands sym') :
    sym' = sym ∧ (">".toList <+: close ∨ "@plt>".toList <+: close) := by
  have hpre : l.pre = [] := by
    rcases l.pre_form with ⟨-, hpre⟩ | ⟨hrel, -⟩
    · exact hpre
    · exact absurd hb (PcLine.not_isBranch_of_pcRelative hrel)
  obtain ⟨htarget, hsym, sp, hsp, hops⟩ := h.addressAt
  obtain ⟨target', sp', close', rest, htarget', hsp', hsym', hclose', hops'⟩ := hnames
  have hhead : ∀ c ∈ (close' ++ rest).head?, isWord c = false := by
    rcases hclose' with rfl | rfl
    · exact head_of_prefix ( List.prefix_append _ rest) rfl
    · exact head_of_prefix ( List.prefix_append _ rest) rfl
  have htext : target' ++ (sp' ++ '<' :: (sym' ++ (close' ++ rest))) =
      l.target ++ (sp ++ '<' :: (sym ++ close)) := by
    rw [← hops', hops, hpre]
    simp
  obtain ⟨-, hs, hrest⟩ := header_cut htarget' hsp' hsym' hhead htarget hsp hsym h.suffix_head htext
  refine ⟨hs, ?_⟩
  rw [← hrest]
  rcases hclose' with rfl | rfl
  · exact .inl ( List.prefix_append _ rest)
  · exact .inr ( List.prefix_append _ rest)

variable {es : List Entry} {file : Str} {s : Refine.State}

theorem exists_entry (hes : (lines file).filter (fun line => ¬ Silent line) = es.map Entry.text)
    {line : Str} (hline : line ∈ lines file) (hs : ¬ Silent line) : ∃ e ∈ es, e.text = line := by
  have hmem : line ∈ (lines file).filter fun line => ¬ Silent line :=
    List.mem_filter.mpr ⟨hline, by simpa using hs⟩
  rw [hes] at hmem
  exact List.mem_map.mp hmem

theorem mem_lines_of_entry
    (hes : (lines file).filter (fun line => ¬ Silent line) = es.map Entry.text) {e : Entry}
    (he : e ∈ es) : e.text ∈ lines file ∧ ¬ Silent e.text := by
  have hmem : e.text ∈ (lines file).filter fun line => ¬ Silent line :=
    hes ▸ List.mem_map_of_mem he
  simpa using List.mem_filter.mp hmem

theorem flow_of_direct {ν : Type*} {mnem : Str} (h : Direct mnem) (dest : Option ν) :
    ∃ link cond, flow mnem dest = .transfer link cond dest := by
  have hret : mnem ≠ "ret".toList := by
    rintro rfl
    exact absurd h (by decide)
  have hbr : mnem ≠ "br".toList := by
    rintro rfl
    exact absurd h (by decide)
  have hblr : mnem ≠ "blr".toList := by
    rintro rfl
    exact absurd h (by decide)
  rw [flow, if_neg hret, if_neg hbr, if_neg hblr, if_pos h]
  exact ⟨_, _, rfl⟩

theorem exists_branch {e : Entry} {i : Instr} {f : Flow Target} {link cond : Bool} {x : Target}
    (h : Reads e i f) (hf : f = .transfer link cond (some x)) :
    (∃ b : BranchLine, e = .inst b.toInstLine ∧ b.dest = x) ∨
      ∃ b : PltLine, e = .inst b.toInstLine ∧ .plt b.sym = x := by
  cases h with
  | branch b => exact .inl ⟨b, rfl, Option.some.inj (flow_dest hf)⟩
  | plt b => exact .inr ⟨b, rfl, Option.some.inj (flow_dest hf)⟩
  | other l h => exact absurd (flow_dest hf) (by simp)
  | plain l => exact absurd (flow_dest hf) (by simp)

theorem isBranch_of_suffix (b : BranchLine) (h : b.suffix = ">".toList) : IsBranch b.mnem := by
  rcases b.form with ⟨hb, -⟩ | ⟨-, o, -, hs | hs⟩
  · exact hb
  · rw [h] at hs
    exact absurd (List.cons.inj hs).1 (by decide)
  · rw [h] at hs
    exact absurd (List.cons.inj hs).1 (by decide)

theorem suffix_of_bracket (b : BranchLine)
    (h : ">".toList <+: b.suffix ∨ "@plt>".toList <+: b.suffix) : b.suffix = ">".toList := by
  rcases b.form with ⟨-, hs⟩ | ⟨-, o, -, hs | hs⟩
  · exact hs
  · rw [hs] at h
    rcases h with h | h <;> exact absurd ( List.cons_prefix_cons.mp h).1 (by decide)
  · rw [hs] at h
    rcases h with h | h
    · exact absurd ( List.cons_prefix_cons.mp h).1 (by decide)
    · exact absurd ( List.cons_prefix_cons.mp ( List.cons_prefix_cons.mp h).2).1 (by decide)

/-- A branch that records a symbol goes to it by name. -/
theorem calls_of_recorded (hw : Written es) {l' : InstLine} (he : .inst l' ∈ es)
    (hb : IsBranch l'.inst) (hnames : Names l'.operands sym) : Calls es sym := by
  have hdirect : Direct l'.head := isBranch_head hb
  rcases hw.direct l' he hdirect with ⟨b, rfl⟩ | ⟨b, rfl⟩
  · rw [b.inst_eq] at hb
    obtain ⟨rfl, hclose⟩ := aims_of_names b.aims hb hnames
    have hdest : b.dest = .symbol (hexVal b.target) b.sym := if_pos (suffix_of_bracket b hclose)
    obtain ⟨link, cond, hflow⟩ := flow_of_direct b.direct (some b.dest)
    have hread := Reads.branch b
    rw [hflow, hdest] at hread
    exact .inl ⟨_, _, he, _, link, cond, hread⟩
  · rw [b.inst_eq] at hb
    obtain ⟨rfl, -⟩ := aims_of_names b.aims hb hnames
    obtain ⟨link, cond, hflow⟩ := flow_of_direct b.aims.direct (some (Target.plt b.sym))
    have hread := Reads.plt b
    rw [hflow] at hread
    exact .inr ⟨_, he, _, link, cond, hread⟩

theorem codeOf_sym (h : HeaderLine) : codeOf (h.sym ++ ":".toList) = [] :=
  codeOf_append fun hc => absurd (h.sym_run.2 _ hc) (by decide)

theorem calls_of_mem_symbols (hs : refine file = .ok s)
    (hes : (lines file).filter (fun line => ¬ Silent line) = es.map Entry.text)
    (hw : Written es) (h : sym ∈ s.symbols) : Calls es sym := by
  obtain ⟨line, hline, l, rfl, hformat, hb, hnames⟩ := (mem_symbols_iff hs sym).mp h
  have hdot : ∀ c ∈ l.text, isDot c := fun c hc => isDot_of_mem_lines hline hc
  have hprinted : printed l.text = some (codeLine (hexVal l.addr) l.inst (importName sym)) := by
    rw [printed, l.action_of_names [] hdot hformat hb hnames]
    rfl
  have hsil : ¬ Silent l.text := by
    intro hsil
    rw [printed_of_silent hsil] at hprinted
    exact absurd hprinted (by simp)
  obtain ⟨e, he, htext⟩ := exists_entry hes hline hsil
  have hmatch := l.match?_text hdot
  rw [← htext] at hmatch hprinted hdot
  cases e with
  | header h =>
    have hheader : h.text = l.text := htext
    rw [Entry.text, h.printed_text (hheader ▸ hsil), Option.some_inj] at hprinted
    have hcode := congrArg codeOf hprinted
    rw [codeOf_codeLine, codeOf_sym h] at hcode
    exact absurd hcode (by simp)
  | inst l' =>
    have hcaptures : l'.captures = l.captures :=
      Option.some.inj ((l'.match?_text hdot).symm.trans hmatch)
    have hinst : l'.inst = l.inst := congrArg (fun m : Match => m.group .inst) hcaptures
    have hoperands : l'.operands = l.operands :=
      congrArg (fun m : Match => m.group .operands) hcaptures
    exact calls_of_recorded hw he (hinst ▸ hb) (hoperands ▸ hnames)
  | plain l' =>
    rw [Entry.text, l'.instOperands_match?_none] at hmatch
    exact absurd hmatch (by simp)

theorem mem_symbols_of_calls (hs : refine file = .ok s)
    (hes : (lines file).filter (fun line => ¬ Silent line) = es.map Entry.text)
    (h : Calls es sym) : sym ∈ s.symbols := by
  rw [mem_symbols_iff hs]
  rcases h with ⟨a, e, he, i, link, cond, hread⟩ | ⟨e, he, i, link, cond, hread⟩
  · rcases exists_branch hread rfl with ⟨b, rfl, hdest⟩ | ⟨b, -, hplt⟩
    · by_cases hsuffix : b.suffix = ">".toList
      · rw [BranchLine.dest, if_pos hsuffix, Target.symbol.injEq] at hdest
        have hb := isBranch_of_suffix b hsuffix
        have hnames := names_of_aims b.aims hb (.inl hsuffix)
        rw [hdest.2] at hnames
        exact ⟨b.text, (mem_lines_of_entry hes he).1, b.toInstLine, rfl, b.not_format,
          b.inst_eq ▸ hb, hnames⟩
      · rw [BranchLine.dest, if_neg hsuffix] at hdest
        exact absurd hdest (by simp)
    · exact absurd hplt (by simp)
  · rcases exists_branch hread rfl with ⟨b, -, hdest⟩ | ⟨b, rfl, hplt⟩
    · rw [BranchLine.dest] at hdest
      split_ifs at hdest
    · rw [Target.plt.injEq] at hplt
      have hnames := names_of_aims b.aims b.branch (.inr rfl)
      rw [hplt] at hnames
      exact ⟨b.text, (mem_lines_of_entry hes he).1, b.toInstLine, rfl, b.not_format,
        b.inst_eq ▸ b.branch, hnames⟩

/-- The recorded symbols are those that the branches go to by name. -/
theorem mem_symbols_iff_calls (hs : refine file = .ok s)
    (hes : (lines file).filter (fun line => ¬ Silent line) = es.map Entry.text)
    (hw : Written es) : sym ∈ s.symbols ↔ Calls es sym :=
  ⟨calls_of_mem_symbols hs hes hw, mem_symbols_of_calls hs hes⟩

theorem mem_localSymbols_iff_heads (hs : refine file = .ok s)
    (hes : (lines file).filter (fun line => ¬ Silent line) = es.map Entry.text) :
    sym ∈ s.localSymbols ↔ Heads es sym := by
  rw [mem_localSymbols_iff hs]
  have ht := translated_of_refine hs hes
  constructor
  · rintro ⟨h, line, hline, hsil, hpre, rfl⟩
    obtain ⟨e, he, rfl⟩ := exists_entry hes hline hsil
    have hprinted : printed e.text = some (h.sym ++ ":".toList) := by
      rw [printed, action_define.mpr ⟨hsil, h, hpre, rfl⟩]
      rfl
    obtain ⟨hdot, -, hacc⟩ := ht.entries e he
    obtain ⟨out, hout, hemits⟩ := e.emits_of_accepted hdot hsil hacc
    rw [hprinted, Option.some_inj] at hout
    have hcode := (Entry.codeOf_emits hemits).mp (hout ▸ codeOf_sym h)
    cases e with
    | header h' =>
      have hsym := List.append_cancel_right (hout.trans hemits)
      exact ⟨h', he, hsym.symm⟩
    | inst l => exact absurd hcode (by simp [Entry.codeAddr])
    | plain l => exact absurd hcode (by simp [Entry.codeAddr])
  · rintro ⟨h, hh, rfl⟩
    obtain ⟨hline, hsil⟩ := mem_lines_of_entry hes hh
    exact ⟨h, h.text, hline, hsil, List.prefix_refl _, rfl⟩

end Recorded

/-! ## The ways out of the file -/

section Process
variable {grepW : Str → Str → Bool} {objdump : Str → Str → Str} {table args : List Str}
  {name x sym : Str} {pre outs : List Str} {es : List Entry} {s : Refine.State}

theorem exits_shifted (hpre : ∀ l ∈ pre, IsDirective l) :
    (program rewritten (pre ++ outs)).Exits x ↔ (program rewritten outs).Exits x := by
  constructor
  · intro h
    obtain ⟨y, ⟨rfl, -⟩, hy⟩ := (shifted_simulates hpre).exits h
    exact hy
  · intro h
    obtain ⟨y, ⟨rfl, -⟩, hy⟩ := (simulates_shifted hpre).exits h
    exact hy

/-- The report lists the symbol, and as one of the listing only if it is imported as well. -/
def Missing (s : Refine.State) (sym : Str) : Prop :=
  ∃ tag ∈ tags, reportLine tag sym ∈ symbolReport s ∧
    (tag = "(local) ".toList → sym ∈ staticSymbols)

theorem missing_iff (hword : ∀ y ∈ s.symbols, IsRun isWord y) (hsym : IsRun isWord sym) :
    Missing s sym ↔ sym ∈ s.symbols ∧ (Imported sym ∨ sym ∉ s.localSymbols) := by
  constructor
  · rintro ⟨tag, ht, hline, hlocal⟩
    obtain ⟨y, hy, heq⟩ := List.mem_map.mp ((symbolReport_perm s).mem_iff.mp hline)
    obtain ⟨htag, rfl⟩ := (reportLine_inj (reportTag_mem _ _) ht (hword y hy) hsym).mp heq
    refine ⟨hy, ?_⟩
    by_cases hu : y ∈ unsafeSymbols
    · exact .inl (.inl hu)
    by_cases hl : y ∈ s.localSymbols
    · rw [reportTag, if_neg hu, if_pos hl] at htag
      exact .inl (.inr (hlocal htag.symm))
    · exact .inr hl
  · rintro ⟨hmem, hor⟩
    refine ⟨reportTag s.localSymbols sym, reportTag_mem _ _,
      (reportLine_mem_iff hword (reportTag_mem _ _) hmem).mpr rfl, ?_⟩
    intro htag
    by_contra hst
    rcases hor with (hu | hst') | hl
    · rw [reportTag, if_pos hu] at htag
      exact absurd htag (by decide)
    · exact hst hst'
    · rw [reportTag, if_neg hl, if_neg hst] at htag
      split_ifs at htag
      · exact absurd htag (by decide)
      · exact absurd htag (by decide)

/-- The ways out of a listing by the names that its output has for them. -/
theorem exits_named (hs : refine (disass grepW objdump table args) = .ok s)
    (hes : (lines (disass grepW objdump table args)).filter (fun line => ¬ Silent line) =
      es.map Entry.text)
    (hd : Objdump es) (hw : Written es) (hr : Resolves es) :
    (∃ y, (listingProgram es).Exits y ∧ x = y.name) ↔
      (∃ sym, IsRun isWord sym ∧ Missing s sym ∧ x = importName sym) ∨
        ∃ a, Mentions es (.offset a) ∧ ¬ Listed es a ∧ x = Refine.label a := by
  have hword : ∀ y ∈ s.symbols, IsRun isWord y := fun y hy => isRun_of_mem_symbols hs hy
  have hmissing : ∀ sym, IsRun isWord sym ∧ Missing s sym ↔
      (∃ a, (listingProgram es).Exits (.symbol a sym)) ∨ (listingProgram es).Exits (.plt sym) := by
    intro sym
    rw [exits_calls hd hr, ← mem_symbols_iff_calls hs hes hw, ← mem_localSymbols_iff_heads hs hes]
    constructor
    · rintro ⟨hsym, hm⟩
      exact (missing_iff hword hsym).mp hm
    · intro h
      exact ⟨hword sym h.1, (missing_iff hword (hword sym h.1)).mpr h⟩
  have hoffset : ∀ a, (listingProgram es).Exits (.offset a) ↔
      Mentions es (.offset a) ∧ ¬ Listed es a := by
    intro a
    rw [exits_listing]
    apply and_congr_right
    intro _
    constructor
    · intro hnone hlisted
      exact hnone a ⟨rfl, hlisted⟩
    · rintro hnot t ⟨rfl, hlisted⟩
      exact hnot hlisted
  constructor
  · rintro ⟨y, hy, rfl⟩
    cases y with
    | symbol a sym =>
      obtain ⟨hsym, hm⟩ := (hmissing sym).mpr (.inl ⟨a, hy⟩)
      exact .inl ⟨sym, hsym, hm, rfl⟩
    | offset a =>
      obtain ⟨hm, hnot⟩ := (hoffset a).mp hy
      exact .inr ⟨a, hm, hnot, rfl⟩
    | plt sym =>
      obtain ⟨hsym, hm⟩ := (hmissing sym).mpr (.inr hy)
      exact .inl ⟨sym, hsym, hm, rfl⟩
  · rintro (⟨sym, hsym, hm, rfl⟩ | ⟨a, hm, hnot, rfl⟩)
    · rcases (hmissing sym).mp ⟨hsym, hm⟩ with ⟨a, h⟩ | h
      · exact ⟨_, h, rfl⟩
      · exact ⟨_, h, rfl⟩
    · exact ⟨_, (hoffset a).mpr ⟨hm, hnot⟩, rfl⟩

end Process

/-- The runs of the file leave it through the names of the symbols that the report lists as missing
and through the labels of the branch targets that are not listed, and through nothing else. -/
theorem process_exits_reported {grepW : Str → Str → Bool} {objdump : Str → Str → Str}
    {table args : List Str} {name : Str} {s : Refine.State} {es : List Entry}
    (hname : ':' ∉ name) (hargs : ∀ arg ∈ args, ':' ∉ arg)
    (hs : refine (disass grepW objdump table args) = .ok s)
    (hes : (lines (disass grepW objdump table args)).filter (fun line => ¬ Silent line) =
      es.map Entry.text)
    (hd : Objdump es) (hw : Written es) (hr : Resolves es) (x : Str) :
    (program rewritten (process grepW objdump table name args)).Exits x ↔
      (∃ sym, IsRun isWord sym ∧ Missing s sym ∧ x = importName sym) ∨
        ∃ a, Mentions es (.offset a) ∧ ¬ Listed es a ∧ x = Refine.label a := by
  have ht := translated_of_refine hs hes
  have hpre : ∀ l ∈ preamble args, IsDirective l := fun l hl =>
    isDirective_of_mem_preamble hargs hl
  rw [program_process hname hargs hs ht hd, exits_shifted hpre, exits_translated ht hd hw hr,
    exits_named hs hes hd hw hr]

/-- The small listing stays in its file. -/
theorem leafFile_closed : ¬ ∃ x, (program rewritten leafFile).Exits x := by
  rintro ⟨x, hx⟩
  have hreported : reported leafTemp = some (["leaf".toList], ["  (local) leaf".toList]) := by
    decide +kernel
  obtain ⟨s, hs, -, hreport⟩ := exists_of_reported hreported
  have hes : (lines leafTemp).filter (fun line => ¬ Silent line) = leafEntries.map Entry.text := by
    decide +kernel
  have hname : ':' ∉ "leaf.s".toList := by decide
  rcases (process_exits_reported hname (by decide) hs hes objdump_leafEntries written_leafEntries
    resolves_leafEntries x).mp hx with ⟨sym, hsym, ⟨tag, ht, hline, hlocal⟩, -⟩ | ⟨a, hm, hnot, -⟩
  · rw [hreport, List.mem_singleton] at hline
    have hleaf : "  (local) leaf".toList = reportLine "(local) ".toList "leaf".toList := rfl
    rw [hleaf] at hline
    have hword : IsRun isWord "leaf".toList := by decide
    have hlocalTag : "(local) ".toList ∈ tags := by decide
    obtain ⟨rfl, rfl⟩ := (reportLine_inj ht hlocalTag hsym hword).mp hline
    exact absurd (hlocal rfl) (by decide)
  · cases mentions_leaf hm with
    | inl h =>
      rw [Target.offset.inj h] at hnot
      exact hnot ⟨.plain leafReturn, by simp [leafEntries], rfl⟩
    | inr h => exact absurd h (by simp)

end Rebench.Pipeline
