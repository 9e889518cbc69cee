import Rebench.Machine.Assembly
import Rebench.Refine.Addresses

/-!
# Direct control flow

The listing and the output agree line by line: a header becomes the label of
its symbol, an instruction becomes itself behind the label of its address. A
branch therefore reaches the same instruction in both, by its address in the
listing and by a label in the output.
-/
namespace Rebench.Refine
open Text Pattern Machine

/-! ## The lines of a listing -/

/-- A header line `addr <sym>:` or `addr <sym@@Base>:`. -/
structure HeaderLine where
  addr : Str
  sp : Str
  sym : Str
  tail : Str
  addr_run : IsRun isHex addr
  sp_run : IsRun isSpace sp
  sym_run : IsRun isWord sym
  tail_form : tail = ">:".toList ∨ tail = "@@Base>:".toList

def HeaderLine.text (h : HeaderLine) : Str := h.addr ++ (h.sp ++ '<' :: (h.sym ++ h.tail))

structure PlainLine where
  addr : Str
  sp : Str
  bin : Str
  inst : Str
  addr_run : IsRun isHex addr
  sp_run : IsRun isSpace sp
  bin_length : bin.length = 8
  bin_hex : ∀ c ∈ bin, isHex c
  inst_ne : inst ≠ []
  inst_head : ∀ c ∈ inst.head?, isSpace c = false
  inst_tab : '\t' ∉ inst

def PlainLine.text (l : PlainLine) : Str :=
  l.addr ++ (':' :: (l.sp ++ (l.bin ++ (" \t".toList ++ l.inst))))

/-- The lines without output: comments, empty lines, `file format`, `Disassembly` and
`addr <sym@@Base+0x..>:`. -/
def Silent (line : Str) : Prop :=
  line = [] ∨ "#".toList <+: line ∨ "file format".toList <:+: line ∨
    "Disassembly".toList <+: line ∨ (headerBaseOffset.match? line).isSome

instance : DecidablePred Silent := fun _ => inferInstanceAs (Decidable (_ ∨ _))

inductive Entry where
  | header (h : HeaderLine)
  | inst (l : InstLine)
  | plain (l : PlainLine)

namespace Entry

def text : Entry → Str
  | header h => h.text
  | inst l => l.text
  | plain l => l.text

def sym? : Entry → Option Str
  | header h => some h.sym
  | _ => none

def codeAddr : Entry → Option ℕ
  | header _ => none
  | inst l => some (hexVal l.addr)
  | plain l => some (hexVal l.addr)

def Emits : Entry → Str → Prop
  | header h, out => out = h.sym ++ ":".toList
  | inst l, out => ∃ operands, out = codeLine (hexVal l.addr) l.inst operands
  | plain l, out => out = label (hexVal l.addr) ++ ":\t".toList ++ l.inst

def label : Entry → Str
  | header h => h.sym
  | inst l => Refine.label (hexVal l.addr)
  | plain l => Refine.label (hexVal l.addr)

end Entry

/-! ## Header lines -/

section Headers
variable {w : Str} {m : Match}

theorem reads_header {q : Pat} : (Pat.addr ++ Pat.space ++ q ++ Pat.str ":").Reads w m ↔
    ∃ a sp v d, IsRun isHex a ∧ IsRun isSpace sp ∧ q.Reads v d ∧
      w = a ++ sp ++ v ++ [':'] ∧ m = (.addr, a) :: d := by
  rw [reads_append]
  constructor
  · rintro ⟨_, _, rfl, _, _, rfl, h, hcolon⟩
    obtain ⟨a, sp, v, d, ha, hsp, hq, rfl, rfl⟩ := reads_addr_space.mp h
    obtain ⟨rfl, rfl⟩ := reads_str.mp hcolon
    exact ⟨a, sp, v, d, ha, hsp, hq, rfl, by simp⟩
  · rintro ⟨a, sp, v, d, ha, hsp, hq, rfl, rfl⟩
    exact ⟨a ++ sp ++ v, [':'], rfl, (.addr, a) :: d, [], by simp,
      reads_addr_space.mpr ⟨a, sp, v, d, ha, hsp, hq, rfl, rfl⟩, by simp⟩

theorem header_cut {a sp s x a' sp' s' x' : Str} (ha : IsRun isHex a) (hsp : IsRun isSpace sp)
    (hs : IsRun isWord s) (hx : ∀ c ∈ x.head?, isWord c = false) (ha' : IsRun isHex a')
    (hsp' : IsRun isSpace sp') (hs' : IsRun isWord s') (hx' : ∀ c ∈ x'.head?, isWord c = false)
    (h : a ++ (sp ++ '<' :: (s ++ x)) = a' ++ (sp' ++ '<' :: (s' ++ x'))) :
    a = a' ∧ s = s' ∧ x = x' := by
  have hangle : ∀ {t : Str}, ∀ c ∈ ('<' :: t).head?, isSpace c = false := by
    intro t c hc
    rw [List.head?_cons, Option.mem_some_iff] at hc
    rw [← hc]
    decide
  have hnothex : ∀ c, isSpace c → isHex c = false := fun c hc => isHex_eq_false_of_isSpace hc
  obtain ⟨haa, h⟩ := run_unique ha.2 ha'.2 (hsp.head_not_mem hnothex _)
    (hsp'.head_not_mem hnothex _) h
  obtain ⟨-, h⟩ := run_unique hsp.2 hsp'.2 hangle hangle h
  obtain ⟨hss, hxx⟩ := run_unique hs.2 hs'.2 hx hx' (List.cons.inj h).2
  exact ⟨haa, hss, hxx⟩

end Headers

namespace HeaderLine
variable (h : HeaderLine)

def captures : Match := [(.addr, h.addr), (.sym, h.sym)]

theorem tail_head : ∀ c ∈ h.tail.head?, isWord c = false := by
  cases h.tail_form with
  | inl ht =>
    rw [ht]
    decide
  | inr ht =>
    rw [ht]
    decide

theorem tail_ne_nil : h.tail ≠ [] := by
  rcases h.tail_form with ht | ht <;> simp [ht]

theorem reads_unique {t : String} {q w r : Str} {m : Match}
    (ht : ∀ c ∈ t.toList.head?, isWord c = false) (ht' : t.toList ≠ [])
    (htext : h.text ++ q = w ++ r)
    (hr : (Pat.addr ++ Pat.space ++ (Pat.str "<" ++ Pat.word ++ Pat.str t) ++ Pat.str ":").Reads w m) :
    m = h.captures ∧ h.tail ++ q = t.toList ++ [':'] ++ r := by
  obtain ⟨a, sp, v, d, ha, hsp, hq, rfl, rfl⟩ := reads_header.mp hr
  obtain ⟨s, hs, rfl, rfl⟩ := reads_target.mp hq
  have hhead : ∀ c ∈ (t.toList ++ [':'] ++ r).head?, isWord c = false := by
    intro c hc
    rw [List.append_assoc, List.head?_append_of_ne_nil _ ht'] at hc
    exact ht c hc
  have htail : ∀ c ∈ (h.tail ++ q).head?, isWord c = false := by
    rw [List.head?_append_of_ne_nil _ h.tail_ne_nil]
    exact h.tail_head
  obtain ⟨haa, hss, hrest⟩ := header_cut h.addr_run h.sp_run h.sym_run htail ha hsp hs hhead
    (by simpa [text] using htext)
  exact ⟨by rw [captures, haa, hss], hrest⟩

/-- Which of the two header patterns reads a line that begins so shows in the tail. -/
theorem match?_append (r : Str) :
    (header.match? (h.text ++ r) <|> headerBase.match? (h.text ++ r)) = some h.captures := by
  have hread : ∀ {t : String}, h.tail = t.toList ++ [':'] →
      (Pat.addr ++ Pat.space ++ (Pat.str "<" ++ Pat.word ++ Pat.str t) ++ Pat.str ":").Reads
        h.text h.captures := by
    intro t ht
    refine reads_header.mpr ⟨h.addr, h.sp, _, _, h.addr_run, h.sp_run,
      reads_target.mpr ⟨h.sym, h.sym_run, rfl, rfl⟩, ?_, rfl⟩
    rw [text, ht]
    simp
  have hmatch : ∀ {t : String}, (∀ c ∈ t.toList.head?, isWord c = false) → t.toList ≠ [] →
      h.tail = t.toList ++ [':'] →
      (Pat.addr ++ Pat.space ++ (Pat.str "<" ++ Pat.word ++ Pat.str t) ++ Pat.str ":").match?
        (h.text ++ r) = some h.captures := by
    intro t hhead hne ht
    apply match?_eq_some_of_unique (hread ht)
    intro w r' m hw hr
    exact (h.reads_unique hhead hne hw hr).1
  rcases h.tail_form with ht | ht
  · have hm : header.match? (h.text ++ r) = some h.captures :=
      hmatch (t := ">") (by decide) (by decide) ht
    rw [hm]
    rfl
  · have hm : headerBase.match? (h.text ++ r) = some h.captures :=
      hmatch (t := "@@Base>") (by decide) (by decide) ht
    have hnone : header.match? (h.text ++ r) = none := by
      rw [match?_eq_none]
      intro w r' m hw hr
      have htail := (h.reads_unique (t := ">") (by decide) (by decide) hw hr).2
      rw [ht] at htail
      exact absurd (congrArg List.head? htail) (by simp)
    rw [hnone, hm]
    rfl

theorem match?_text : (header.match? h.text <|> headerBase.match? h.text) = some h.captures := by
  simpa using h.match?_append []

end HeaderLine

/-! ## What the lines print -/

section Printed
variable {line : Str}

theorem not_silent_iff : ¬ Silent line ↔ line.length ≠ 0 ∧ ¬ "#".toList <+: line ∧
    ¬ "file format".toList <:+: line ∧ ¬ "Disassembly".toList <+: line ∧
    headerBaseOffset.match? line = none := by
  simp [Silent]

theorem header_match?_none_of_offset (h : (headerBaseOffset.match? line).isSome) :
    (header.match? line <|> headerBase.match? line) = none := by
  obtain ⟨m, hm⟩ := Option.isSome_iff_exists.mp h
  obtain ⟨w, r, rfl, hw⟩ := exists_reads_of_match? hm
  obtain ⟨a, sp, v, d, ha, hsp, hq, rfl, rfl⟩ := reads_header.mp hw
  obtain ⟨s, o, hs, ho, rfl, rfl⟩ := reads_targetOffset.mp hq
  have hnone : ∀ {t : String}, (∀ c ∈ t.toList.head?, isWord c = false) → t.toList ≠ [] →
      (∀ r', "@@Base+0x".toList ++ o ++ ['>'] ++ [':'] ++ r ≠ t.toList ++ [':'] ++ r') →
      (Pat.addr ++ Pat.space ++ (Pat.str "<" ++ Pat.word ++ Pat.str t) ++ Pat.str ":").match?
        (a ++ sp ++ ('<' :: s ++ ("@@Base+0x".toList ++ o ++ ['>'])) ++ [':'] ++ r) = none := by
    intro t hhead hne htail
    rw [match?_eq_none]
    intro w' r' m' hw' hr'
    obtain ⟨a', sp', v', d', ha', hsp', hq', rfl, rfl⟩ := reads_header.mp hr'
    obtain ⟨s', hs', rfl, rfl⟩ := reads_target.mp hq'
    have hhead' : ∀ c ∈ (t.toList ++ [':'] ++ r').head?, isWord c = false := by
      intro c hc
      rw [List.append_assoc, List.head?_append_of_ne_nil _ hne] at hc
      exact hhead c hc
    refine htail r' (header_cut ha hsp hs ?_ ha' hsp' hs' hhead' (by simpa using hw')).2.2
    intro c hc
    rw [show "@@Base+0x".toList = '@' :: "@Base+0x".toList from rfl] at hc
    simp only [List.cons_append, List.head?_cons, Option.mem_some_iff] at hc
    rw [← hc]
    decide
  have h₁ := hnone (t := ">") (by decide) (by decide) (by simp)
  have h₂ := hnone (t := "@@Base>") (by decide) (by decide) (by simp)
  rw [header, headerBase, Pat.sym, Pat.symBase, h₁, h₂]
  rfl

theorem printed_of_silent (h : Silent line) : printed line = none := by
  unfold printed action
  split_ifs with h₁ h₂ h₃ h₄
  · rfl
  · rfl
  · rfl
  · rfl
  have hoff : (headerBaseOffset.match? line).isSome := by
    rcases h with h | h | h | h | h
    · exact absurd (by rw [h]; rfl) h₁
    · exact absurd h h₂
    · exact absurd h h₃
    · exact absurd h h₄
    · exact h
  rw [header_match?_none_of_offset hoff]
  obtain ⟨m, hm⟩ := Option.isSome_iff_exists.mp hoff
  rw [hm]
  rfl

end Printed

theorem HeaderLine.printed_text (h : HeaderLine) (hs : ¬ Silent h.text) :
    printed h.text = some (h.sym ++ ":".toList) := by
  obtain ⟨h₁, h₂, h₃, h₄, -⟩ := not_silent_iff.mp hs
  rw [printed, action, if_neg h₁, if_neg h₂, if_neg h₃, if_neg h₄, h.match?_text]
  rfl

namespace PlainLine
variable (l : PlainLine)

/-- Without a tab behind the mnemonic the pattern with operands has no reading. -/
theorem instOperands_match?_none : instOperands.match? l.text = none := by
  rw [match?_eq_none]
  intro w r m hw hr
  obtain ⟨a, sp₁, bin, sp₂, inst, ops, ha, hsp₁, ⟨hlen, hhex⟩, hsp₂, hinst, rfl, -⟩ :=
    exists_of_reads_instOperands hr
  have hcolon : ∀ {t : Str}, ∀ c ∈ (':' :: t).head?, isHex c = false := by
    intro t c hc
    rw [List.head?_cons, Option.mem_some_iff] at hc
    rw [← hc]
    decide
  have hbinrun : ∀ {b t : Str}, b.length = 8 → (∀ c ∈ b, isHex c) →
      ∀ c ∈ (b ++ t).head?, isSpace c = false := by
    intro b t hb hbhex
    have hrun : IsRun isHex b := ⟨fun h => by simp [h] at hb, hbhex⟩
    exact hrun.head_not_mem (fun x hx => isSpace_eq_false_of_isHex hx) t
  have htext : l.addr ++ ':' :: (l.sp ++ (l.bin ++ (" \t".toList ++ l.inst))) =
      a ++ ':' :: (sp₁ ++ (bin ++ (sp₂ ++ (inst ++ '\t' :: (ops ++ r))))) := by
    simpa [text] using hw
  rw [show " \t".toList = [' ', '\t'] from rfl] at htext
  obtain ⟨-, htext⟩ := run_unique l.addr_run.2 ha.2 hcolon hcolon htext
  obtain ⟨-, htext⟩ := run_unique l.sp_run.2 hsp₁.2 (hbinrun l.bin_length l.bin_hex)
    (hbinrun hlen hhex) (List.cons.inj htext).2
  have hrest := (List.append_inj htext (l.bin_length.trans hlen.symm)).2
  cases sp₂ with
  | nil => exact absurd rfl hsp₂.1
  | cons c sp₂ =>
    have hrest' : '\t' :: l.inst = (sp₂ ++ inst) ++ '\t' :: (ops ++ r) := by
      simpa using (List.cons.inj hrest).2
    cases hfront : sp₂ ++ inst with
    | nil => exact hinst (List.append_eq_nil_iff.mp hfront).2
    | cons d front =>
      rw [hfront] at hrest'
      apply l.inst_tab
      rw [(List.cons.inj hrest').2]
      simp

theorem instOnly_match? (hdot : ∀ c ∈ l.text, isDot c) :
    instOnly.match? l.text = some [(.addr, l.addr), (.bin, l.bin), (.inst, l.inst)] := by
  have hfront := first_front l.addr_run l.sp_run l.bin_length l.bin_hex
    (by decide : IsRun isSpace " \t".toList) l.inst_head
  have hinst : (plus isDot : Pat).first (l.inst ++ []) = some ([], []) :=
    first_plus ⟨l.inst_ne, fun c hc => hdot c (by simp [text, hc])⟩ (by simp)
  have hinst' := first_named (n := Group.inst) hinst
  rw [List.append_nil] at hinst'
  have hall := first_append_of_first hfront hinst'
  rw [match?, text, instOnly]
  exact congrArg (Option.map Prod.fst) hall

end PlainLine

theorem codeLine_eq (addr : ℕ) (inst operands : Str) : codeLine addr inst operands =
    label addr ++ ':' :: ('\t' :: inst ++ ' ' :: operands) := by
  simp [codeLine]

/-- An accepted instruction line prints what its case makes of it. -/
theorem InstLine.exists_processInsts (l : InstLine) (hdot : ∀ c ∈ l.text, isDot c)
    (hformat : ¬ "file format".toList <:+: l.text) (hacc : Accepted l.text) :
    ∃ out symbols, processInsts [] l.captures = some (out, symbols) ∧ printed l.text = some out := by
  have hact := l.action_text [] hdot hformat
  cases hp : processInsts [] l.captures with
  | none =>
    rw [hp] at hact
    exact absurd hact hacc
  | some r =>
    rw [hp] at hact
    refine ⟨r.1, r.2, rfl, ?_⟩
    rw [printed, hact]
    rfl

/-- An accepted instruction keeps its mnemonic behind the label of its address. -/
theorem InstLine.printed_text (l : InstLine) (hdot : ∀ c ∈ l.text, isDot c)
    (hformat : ¬ "file format".toList <:+: l.text) (hacc : Accepted l.text) :
    ∃ operands, printed l.text = some (codeLine (hexVal l.addr) l.inst operands) := by
  obtain ⟨out, symbols, hp, hprinted⟩ := l.exists_processInsts hdot hformat hacc
  cases processInsts_cases hp with
  | inl hrep =>
    obtain ⟨pre, a, s, u, ref, -, -, -, hout⟩ := hrep
    exact ⟨pre ++ ref, hprinted.trans (congrArg some hout)⟩
  | inr hcopy => exact ⟨l.operands, hprinted.trans (congrArg some hcopy.2.2.2.2)⟩

theorem PlainLine.printed_text (l : PlainLine) (hdot : ∀ c ∈ l.text, isDot c)
    (hs : ¬ Silent l.text) (hacc : Accepted l.text) :
    printed l.text = some (label (hexVal l.addr) ++ ":\t".toList ++ l.inst) := by
  obtain ⟨h₁, h₂, h₃, h₄, h₅⟩ := not_silent_iff.mp hs
  have hh : header.match? l.text = none := header_match?_none l.addr_run
  have hb : headerBase.match? l.text = none := header_match?_none l.addr_run
  have hnone : (header.match? l.text <|> headerBase.match? l.text) = none := by
    rw [hh, hb]
    rfl
  rw [Accepted] at hacc
  rw [printed]
  unfold action at hacc ⊢
  rw [if_neg h₁, if_neg h₂, if_neg h₃, if_neg h₄, hnone, h₅, l.instOperands_match?_none,
    l.instOnly_match? hdot] at hacc ⊢
  by_cases hi : l.inst ∈ ["ret".toList, "nop".toList]
  · have hg : Captures.group ([(.addr, l.addr), (.bin, l.bin), (.inst, l.inst)] : Match) .inst ∈
        ["ret".toList, "nop".toList] := hi
    simp only [if_pos hg, Action.output]
    rfl
  · have hg : Captures.group ([(.addr, l.addr), (.bin, l.bin), (.inst, l.inst)] : Match) .inst ∉
        ["ret".toList, "nop".toList] := hi
    simp only [if_neg hg] at hacc
    exact absurd rfl hacc

/-! ## The correspondence of the lines -/

theorem Entry.emits_of_accepted (e : Entry) (hdot : ∀ c ∈ e.text, isDot c)
    (hs : ¬ Silent e.text) (hacc : Accepted e.text) :
    ∃ out, printed e.text = some out ∧ e.Emits out := by
  cases e with
  | header h => exact ⟨_, h.printed_text hs, rfl⟩
  | inst l =>
    obtain ⟨operands, h⟩ := l.printed_text hdot (not_silent_iff.mp hs).2.2.1 hacc
    exact ⟨_, h, operands, rfl⟩
  | plain l => exact ⟨_, l.printed_text hdot hs hacc, rfl⟩

theorem colon_notMem_label (n : ℕ) : ':' ∉ label n := by
  intro h
  rcases List.mem_cons.mp h with h | h
  · exact absurd h (by decide)
  · exact absurd (isHex_of_mem_hex h) (by decide)

theorem Entry.labelOf_emits {e : Entry} {out : Str} (h : e.Emits out) : labelOf out = e.label := by
  cases e with
  | header l =>
    rw [h]
    exact labelOf_append fun hc => absurd (l.sym_run.2 _ hc) (by decide)
  | inst l =>
    obtain ⟨operands, rfl⟩ := h
    rw [codeLine_eq]
    exact labelOf_append (colon_notMem_label _)
  | plain l =>
    rw [h, List.append_assoc]
    exact labelOf_append (colon_notMem_label _)

theorem Entry.codeOf_emits {e : Entry} {out : Str} (h : e.Emits out) :
    codeOf out = [] ↔ e.codeAddr = none := by
  cases e with
  | header l =>
    rw [h]
    refine iff_of_true (codeOf_append fun hc => absurd (l.sym_run.2 _ hc) (by decide)) rfl
  | inst l =>
    obtain ⟨operands, rfl⟩ := h
    rw [codeLine_eq, codeOf_append (colon_notMem_label _)]
    simp [codeAddr]
  | plain l =>
    rw [h, List.append_assoc, show ":\t".toList = [':', '\t'] from rfl, List.cons_append,
      codeOf_append (colon_notMem_label _)]
    simp [codeAddr]

/-- The output lines of an accepted listing are those of its headers and instructions, in order. -/
theorem forall₂_printed {file : Str} {s : State} {es : List Entry} (hs : refine file = .ok s)
    (hes : (lines file).filter (fun line => ¬ Silent line) = es.map Entry.text) :
    List.Forall₂ (fun e out => printed e.text = some out ∧ e.Emits out) es s.stdout := by
  have hout : s.stdout = (es.map Entry.text).filterMap printed := by
    rw [refine_stdout hs, ← hes, List.filterMap_filter, lines, List.filterMap_map]
    apply List.filterMap_congr
    intro raw hraw
    by_cases h : Silent (strip raw)
    · simp [printed_of_silent h, h]
    · simp [h]
  have hmem : ∀ e ∈ es, e.text ∈ lines file ∧ ¬ Silent e.text := by
    intro e he
    have hfilter : e.text ∈ (lines file).filter fun line => ¬ Silent line :=
      hes ▸ List.mem_map_of_mem he
    simpa using List.mem_filter.mp hfilter
  rw [hout]
  clear hout hes
  induction es with
  | nil => exact .nil
  | cons e es ih =>
    obtain ⟨hl, hsil⟩ := hmem e (by simp)
    obtain ⟨out, hprinted, hemits⟩ := e.emits_of_accepted
      (fun c hc => isDot_of_mem_lines hl hc) hsil (accepted_of_refine hs hl)
    rw [List.map_cons, List.filterMap_cons, hprinted]
    exact .cons ⟨hprinted, hemits⟩ (ih fun e' he' => hmem e' (by simp [he']))

/-! ## Branches -/

/-- A branch to `target <sym>`, `target <sym+0x..>` or `target <sym@@Base+0x..>` with nothing
behind the bracket and no tab among its operands. -/
structure BranchLine extends PcLine where
  sym : Str
  suffix : Str
  sym_run : IsRun isWord sym
  body_eq : body = sym ++ suffix
  inst_eq : inst = mnem
  form : IsBranch mnem ∧ suffix = ">".toList ∨
    (IsBranch mnem ∨ mnem ∈ ["cbz", "cbnz", "tbz", "tbnz"].map String.toList) ∧
      ∃ o, IsRun isHex o ∧
        (suffix = "+0x".toList ++ o ++ ['>'] ∨ suffix = "@@Base+0x".toList ++ o ++ ['>'])

/-- What a listing promises: instruction addresses occur once and headers stand before the
instruction at their address; header names occur once and look like no label; the target of a
branch is written as addresses are printed. -/
structure Objdump (es : List Entry) : Prop where
  addr_nodup : (es.filterMap Entry.codeAddr).Nodup
  header_next : ∀ k h, es[k]? = some (.header h) →
    ∃ e, es[k + 1]? = some e ∧ e.codeAddr = some (hexVal h.addr)
  sym_nodup : (es.filterMap Entry.sym?).Nodup
  sym_ne_label : ∀ h, .header h ∈ es → ∀ n, h.sym ≠ label n
  target_hex : ∀ b : BranchLine, .inst b.toInstLine ∈ es → b.target = hex (hexVal b.target)

namespace BranchLine
variable (b : BranchLine)

/-- What may follow the name is told apart by its first character. -/
theorem suffix_head : ∃ c t, b.suffix = c :: t ∧ (c = '>' ∧ t = [] ∨ c = '+' ∨
    c = '@' ∧ ∃ t', t = '@' :: t') := by
  rcases b.form with ⟨-, h⟩ | ⟨-, o, -, h | h⟩
  · exact ⟨'>', [], h, .inl ⟨rfl, rfl⟩⟩
  · exact ⟨'+', _, h, .inr (.inl rfl)⟩
  · exact ⟨'@', _, h, .inr (.inr ⟨rfl, _, rfl⟩)⟩

theorem operands_eq : b.operands = b.ops :=
  (b.cut_eq (b.inst_eq ▸ b.tab_notMem_mnem)).2

theorem not_bare : ¬ b.Bare := by
  rintro ⟨hb, -, -, hoff⟩
  rw [b.inst_eq] at hb
  rcases b.form with ⟨hbranch, -⟩ | ⟨-, o, -, h | h⟩
  · exact hb hbranch
  · apply hoff
    rw [b.operands_eq, PcLine.ops, b.body_eq, h]
    exact ⟨b.pre ++ b.target ++ b.sp ++ '<' :: b.sym, o ++ ['>'], by simp⟩
  · apply hoff
    rw [b.operands_eq, PcLine.ops, b.body_eq, h]
    refine ⟨b.pre ++ b.target ++ b.sp ++ '<' :: (b.sym ++ "@@Base".toList), o ++ ['>'], ?_⟩
    rw [show "@@Base+0x".toList = "@@Base".toList ++ "+0x".toList from rfl]
    simp

theorem body_cut {s u : Str} (hs : IsRun isWord s) (hu : ∃ c t, u = c :: t ∧ isWord c = false)
    (h : b.body = s ++ u) : s = b.sym ∧ u = b.suffix := by
  obtain ⟨c, t, rfl, hc⟩ := hu
  obtain ⟨d, v, hsuffix, hd⟩ := b.suffix_head
  rw [b.body_eq, hsuffix] at h
  have hd' : isWord d = false := by
    rcases hd with ⟨rfl, -⟩ | rfl | ⟨rfl, -⟩ <;> rfl
  obtain ⟨hsym, htail⟩ := run_unique b.sym_run.2 hs.2 (by simpa using hd') (by simpa using hc) h
  exact ⟨hsym.symm, by rw [hsuffix, htail]⟩

/-- The operand an accepted branch is printed with. -/
theorem printed_text (hdot : ∀ c ∈ b.text, isDot c) (hacc : Accepted b.text) :
    ∃ ref, printed b.text = some (codeLine (hexVal b.addr) b.mnem (b.pre ++ ref)) ∧
      (b.suffix = ">".toList ∧ ref = importName b.sym ∨
        ∃ comment, ref = 'L' :: b.target ++ comment ∧
          (comment = [] ∨ " // <".toList <+: comment)) := by
  cases b.printed_of_not_bare hdot b.not_bare with
  | inl hrej => exact absurd hacc hrej
  | inr hsym =>
    obtain ⟨out, hout, s, u, ref, hbody, hs, href, rfl⟩ := hsym
    refine ⟨ref, hout, ?_⟩
    cases href with
    | name hb h =>
      left
      obtain ⟨c, t, hu, hc⟩ : ∃ c t, u = c :: t ∧ (c = '>' ∨ c = '@' ∧ ∃ t', t = 'p' :: t') := by
        rcases h with ⟨r, rfl⟩ | ⟨r, rfl⟩
        · exact ⟨'>', r, rfl, .inl rfl⟩
        · exact ⟨'@', _, rfl, .inr ⟨rfl, _, rfl⟩⟩
      have hword : isWord c = false := by
        rcases hc with rfl | ⟨rfl, -⟩ <;> rfl
      obtain ⟨rfl, hsuffix⟩ := b.body_cut hs ⟨c, t, hu, hword⟩ hbody
      refine ⟨?_, rfl⟩
      obtain ⟨d, v, hd, hform⟩ := b.suffix_head
      rw [hu, hd] at hsuffix
      obtain ⟨rfl, rfl⟩ := List.cons.inj hsuffix
      rcases hform with ⟨rfl, rfl⟩ | rfl | ⟨rfl, t', rfl⟩
      · exact hd
      · exact absurd hc (by simp)
      · exact absurd hc (by simp)
    | label hu comment hcomment => exact .inr ⟨comment, rfl, hcomment⟩
    | page hp =>
      have hadrp : ¬ (IsBranch "adrp".toList ∨
          "adrp".toList ∈ ["cbz", "cbnz", "tbz", "tbnz"].map String.toList) := by
        decide
      rcases b.form with ⟨hb, -⟩ | ⟨hb, -⟩
      · exact absurd (.inl (hp ▸ hb)) hadrp
      · exact absurd (hp ▸ hb) hadrp

end BranchLine

/-! ## The output as a program -/

section Program
variable {es : List Entry} {outs : List Str}

theorem map_labelOf (h : List.Forall₂ Entry.Emits es outs) :
    outs.map labelOf = es.map Entry.label := by
  induction h with
  | nil => rfl
  | cons h _ ih => rw [List.map_cons, List.map_cons, ih, Entry.labelOf_emits h]

theorem label_injective : Function.Injective label := by
  intro m n h
  exact hex_injective (List.cons.inj h).2

/-- The labels of the output differ where the listing's addresses and header names do. -/
theorem nodup_labels (h : Objdump es) : (es.map Entry.label).Nodup := by
  have haddr := List.pairwise_filterMap.mp h.addr_nodup
  have hsym := List.pairwise_filterMap.mp h.sym_nodup
  rw [List.Nodup, List.pairwise_map]
  refine (haddr.and hsym).imp_of_mem ?_
  intro e e' he he' hne
  obtain ⟨ha, hs⟩ := hne
  cases e with
  | header l =>
    cases e' with
    | header l' => exact hs _ rfl _ rfl
    | inst l' => exact h.sym_ne_label l he _
    | plain l' => exact h.sym_ne_label l he _
  | inst l =>
    cases e' with
    | header l' => exact (h.sym_ne_label l' he' _).symm
    | inst l' => exact fun heq => ha _ rfl _ rfl (label_injective heq)
    | plain l' => exact fun heq => ha _ rfl _ rfl (label_injective heq)
  | plain l =>
    cases e' with
    | header l' => exact (h.sym_ne_label l' he' _).symm
    | inst l' => exact fun heq => ha _ rfl _ rfl (label_injective heq)
    | plain l' => exact fun heq => ha _ rfl _ rfl (label_injective heq)

theorem index_unique (h : Objdump es) {i j n : ℕ} {e e' : Entry} (hi : es[i]? = some e)
    (hj : es[j]? = some e') (he : e.codeAddr = some n) (he' : e'.codeAddr = some n) : i = j := by
  by_contra hne
  have hpair := List.pairwise_filterMap.mp h.addr_nodup
  obtain ⟨hi', rfl⟩ := List.getElem?_eq_some_iff.mp hi
  obtain ⟨hj', rfl⟩ := List.getElem?_eq_some_iff.mp hj
  rcases Nat.lt_or_gt_of_ne hne with hlt | hlt
  · exact List.pairwise_iff_getElem.mp hpair i j hi' hj' hlt n he n he' rfl
  · exact List.pairwise_iff_getElem.mp hpair j i hj' hi' hlt n he' n he rfl

theorem exists_of_forall₂ {R : Entry → Str → Prop} (h : List.Forall₂ R es outs) {j : ℕ} {e : Entry}
    (hj : es[j]? = some e) : ∃ out, outs[j]? = some out ∧ R e out := by
  obtain ⟨hlt, rfl⟩ := List.getElem?_eq_some_iff.mp hj
  have hlt' : j < outs.length := h.length_eq ▸ hlt
  exact ⟨outs[j], List.getElem?_eq_getElem hlt', h.get hlt hlt'⟩

theorem denotes_label (h : List.Forall₂ Entry.Emits es outs) {j n : ℕ} {e : Entry}
    (hj : es[j]? = some e) (he : e.codeAddr = some n) : Denotes outs (label n) j := by
  obtain ⟨out, hout, hemits⟩ := exists_of_forall₂ h hj
  have hlabel : e.label = label n := by
    cases e with
    | header l => exact absurd he (by simp [Entry.codeAddr])
    | inst l => exact congrArg label (Option.some.inj he)
    | plain l => exact congrArg label (Option.some.inj he)
  refine denotes_self hout ((Entry.labelOf_emits hemits).trans hlabel) ?_
  rw [Ne, Entry.codeOf_emits hemits, he]
  simp

theorem denotes_sym (h : List.Forall₂ Entry.Emits es outs) (hd : Objdump es) {k j : ℕ}
    {l : HeaderLine} {e : Entry} (hk : es[k]? = some (.header l)) (hj : es[j]? = some e)
    (he : e.codeAddr = some (hexVal l.addr)) : Denotes outs l.sym j := by
  obtain ⟨e', he', haddr⟩ := hd.header_next k l hk
  obtain rfl := index_unique hd he' hj haddr he
  obtain ⟨out, hout, hemits⟩ := exists_of_forall₂ h hk
  obtain ⟨out', hout', hemits'⟩ := exists_of_forall₂ h he'
  refine denotes_next hout (Entry.labelOf_emits hemits) ((Entry.codeOf_emits hemits).mpr rfl)
    hout' ?_
  rw [Ne, Entry.codeOf_emits hemits', haddr]
  simp

end Program

/-- An accepted listing becomes, line by line, a program with distinct labels in which every branch
keeps its mnemonic and its other operands and goes to the instruction at its target address. -/
theorem refine_preserves_branches {file : Str} {s : State} {es : List Entry}
    (hs : refine file = .ok s)
    (hes : (lines file).filter (fun line => ¬ Silent line) = es.map Entry.text)
    (h : Objdump es) :
    List.Forall₂ Entry.Emits es s.stdout ∧ (s.stdout.map labelOf).Nodup ∧
    ∀ (k j : ℕ) (b : BranchLine) (e : Entry), es[k]? = some (.inst b.toInstLine) → es[j]? = some e →
      e.codeAddr = some (hexVal b.target) →
      (b.suffix = ">".toList → b.sym ∉ unsafeSymbols ∧ b.sym ∉ staticSymbols ∧
        ∃ l, .header l ∈ es ∧ l.sym = b.sym ∧ hexVal l.addr = hexVal b.target) →
      ∃ name comment, s.stdout[k]? =
          some (codeLine (hexVal b.addr) b.mnem (b.pre ++ (name ++ comment))) ∧
        (comment = [] ∨ " // <".toList <+: comment) ∧ Denotes s.stdout name j := by
  have hprinted := forall₂_printed hs hes
  have hemits := hprinted.imp fun _ _ h => h.2
  refine ⟨hemits, map_labelOf hemits ▸ nodup_labels h, ?_⟩
  intro k j b e hk hj he hname
  have hmem : Entry.inst b.toInstLine ∈ es := List.mem_of_getElem? hk
  have hline : b.text ∈ lines file := by
    have hfilter : b.text ∈ (lines file).filter fun line => ¬ Silent line := by
      rw [hes]
      exact List.mem_map_of_mem (f := Entry.text) hmem
    exact (List.mem_filter.mp hfilter).1
  obtain ⟨ref, hout', hsuffix⟩ := b.printed_text (fun c hc => isDot_of_mem_lines hline hc)
    (accepted_of_refine hs hline)
  obtain ⟨out, hout, hprinted, -⟩ := exists_of_forall₂ hprinted hk
  obtain rfl : out = codeLine (hexVal b.addr) b.mnem (b.pre ++ ref) :=
    Option.some.inj (hprinted.symm.trans hout')
  cases hsuffix with
  | inl hsym =>
    obtain ⟨hgt, rfl⟩ := hsym
    obtain ⟨hu, hst, l, hl, hsym, haddr⟩ := hname hgt
    obtain ⟨p, hp⟩ := List.getElem?_of_mem hl
    refine ⟨b.sym, [], ?_, .inl rfl, ?_⟩
    · rw [hout, importName_of_not_mem hu hst, List.append_nil]
    · exact hsym ▸ denotes_sym hemits h hp hj (haddr ▸ he)
  | inr hlabel =>
    obtain ⟨comment, rfl, hcomment⟩ := hlabel
    refine ⟨label (hexVal b.target), comment, ?_, hcomment, denotes_label hemits hj he⟩
    rw [hout, label, ← h.target_hex b hmem]

/-! ## A small listing -/

-- what its lines share with `loopLine` is taken from there

def leafHeader : HeaderLine where
  addr := "400".toList
  sp := " ".toList
  sym := "leaf".toList
  tail := ">:".toList
  addr_run := loopLine.addr_run
  sp_run := loopLine.sp_run
  sym_run := by decide
  tail_form := .inl rfl

def leafBranch : BranchLine where
  addr := "400".toList
  sp₁ := "\t".toList
  bin := "34000040".toList
  sp₂ := " \t".toList
  inst := "cbz".toList
  operands := "w0, 408 <leaf+0x8>".toList
  addr_run := loopLine.addr_run
  sp₁_run := loopLine.sp₁_run
  bin_length := rfl
  bin_hex := by decide
  sp₂_run := loopLine.sp₂_run
  inst_ne := loopLine.inst_ne
  inst_head := loopLine.inst_head
  operands_ne := by decide
  operands_tab := by decide
  mnem := "cbz".toList
  pre := "w0, ".toList
  target := "408".toList
  sp := " ".toList
  body := "leaf+0x8>".toList
  mnem_run := loopLine.mnem_run
  target_run := by decide
  sp_run := loopLine.sp_run
  pre_form := loopLine.pre_form
  pre_angle := loopLine.pre_angle
  body_angle := by decide
  code_eq := rfl
  not_format := by decide
  sym := "leaf".toList
  suffix := "+0x8>".toList
  sym_run := by decide
  body_eq := rfl
  inst_eq := rfl
  form := .inr ⟨.inr (by decide), "8".toList, by decide, .inl rfl⟩

def leafCall : BranchLine where
  addr := "404".toList
  sp₁ := "\t".toList
  bin := "97ffffff".toList
  sp₂ := " \t".toList
  inst := "bl".toList
  operands := "400 <leaf>".toList
  addr_run := by decide
  sp₁_run := loopLine.sp₁_run
  bin_length := rfl
  bin_hex := by decide
  sp₂_run := loopLine.sp₂_run
  inst_ne := by decide
  inst_head := by decide
  operands_ne := by decide
  operands_tab := by decide
  mnem := "bl".toList
  pre := []
  target := "400".toList
  sp := " ".toList
  body := "leaf>".toList
  mnem_run := by decide
  target_run := loopLine.target_run
  sp_run := loopLine.sp_run
  pre_form := .inl ⟨by decide, rfl⟩
  pre_angle := by decide
  body_angle := by decide
  code_eq := rfl
  not_format := by decide
  sym := "leaf".toList
  suffix := ">".toList
  sym_run := by decide
  body_eq := rfl
  inst_eq := rfl
  form := .inl ⟨by decide, rfl⟩

def leafReturn : PlainLine where
  addr := "408".toList
  sp := "\t".toList
  bin := "d65f03c0".toList
  inst := "ret".toList
  addr_run := by decide
  sp_run := loopLine.sp₁_run
  bin_length := rfl
  bin_hex := by decide
  inst_ne := by decide
  inst_head := by decide
  inst_tab := by decide

def leafEntries : List Entry :=
  [.header leafHeader, .inst leafBranch.toInstLine, .inst leafCall.toInstLine, .plain leafReturn]

def leafListing : Str :=
  ("400 <leaf>:\n  400:\t34000040 \tcbz\tw0, 408 <leaf+0x8>\n" ++
    "  404:\t97ffffff \tbl\t400 <leaf>\n  408:\td65f03c0 \tret\n").toList

theorem objdump_leafEntries : Objdump leafEntries where
  addr_nodup := by decide
  header_next := by
    intro k h hk
    match k, hk with
    | 0, hk =>
      cases hk
      exact ⟨.inst leafBranch.toInstLine, rfl, rfl⟩
    | 1, hk => cases hk
    | 2, hk => cases hk
    | 3, hk => cases hk
    | k + 4, hk => cases hk
  sym_nodup := by decide
  sym_ne_label := by
    intro h hh n heq
    simp only [leafEntries, List.mem_cons, Entry.header.injEq, reduceCtorEq, List.not_mem_nil,
      or_false] at hh
    rw [hh] at heq
    exact absurd (List.cons.inj heq).1 (by decide)
  target_hex := by
    intro b hb
    simp only [leafEntries, List.mem_cons, Entry.inst.injEq, reduceCtorEq, List.not_mem_nil,
      or_false, false_or] at hb
    rcases hb with hb | hb
    · have hat : AddressAt b.operands "w0, ".toList "408".toList "leaf".toList "+0x8>".toList :=
        hb ▸ ⟨by decide, by decide, " ".toList, by decide, rfl⟩
      rw [← (b.around_unique b.operands_eq hat (hb ▸ .inr ⟨by decide, "w0".toList, rfl⟩)).2.1]
      rfl
    · have hat : AddressAt b.operands [] "400".toList "leaf".toList ">".toList :=
        hb ▸ ⟨by decide, by decide, " ".toList, by decide, rfl⟩
      rw [← (b.around_unique b.operands_eq hat (hb ▸ .inl ⟨by decide, rfl⟩)).2.1]
      rfl

theorem leafListing_branches : ∃ s, refine leafListing = .ok s ∧ (s.stdout.map labelOf).Nodup ∧
    (∃ name comment, s.stdout[1]? = some (codeLine 0x400 "cbz".toList ("w0, ".toList ++
      (name ++ comment))) ∧ (comment = [] ∨ " // <".toList <+: comment) ∧
      Denotes s.stdout name 3) ∧
    ∃ name comment, s.stdout[2]? = some (codeLine 0x404 "bl".toList (name ++ comment)) ∧
      (comment = [] ∨ " // <".toList <+: comment) ∧ Denotes s.stdout name 1 := by
  have hok : (refine leafListing).toBool = true := by decide +kernel
  obtain ⟨s, hs⟩ : ∃ s, refine leafListing = .ok s := by
    cases hs : refine leafListing with
    | error f => exact absurd hok (by simp [hs, Except.toBool])
    | ok s => exact ⟨s, rfl⟩
  have hes : (lines leafListing).filter (fun line => ¬ Silent line) = leafEntries.map Entry.text := by
    decide +kernel
  obtain ⟨-, hnodup, hbranch⟩ := refine_preserves_branches hs hes objdump_leafEntries
  refine ⟨s, hs, hnodup, ?_, ?_⟩
  · exact hbranch 1 3 leafBranch _ rfl rfl rfl (fun h => absurd h (by decide))
  · exact hbranch 2 1 leafCall _ rfl rfl rfl
      (fun _ => ⟨by decide, by decide, leafHeader, by simp [leafEntries], rfl, rfl⟩)

end Rebench.Refine
