import Rebench.Machine.Instructions
import Rebench.Refine.ControlFlow

/-!
# The program of a disassembly listing

The places of a listing are its instruction addresses. A direct branch goes to
the address that is written in front of its symbol, if an instruction is listed
there; a call through the linkage table goes to the header of its symbol.
-/
namespace Rebench.Refine
open Text Pattern Machine Control

/-- A call `target <sym@plt>` with nothing behind the bracket and no tab among its operands. -/
structure PltLine extends PcLine where
  sym : Str
  sym_run : IsRun isWord sym
  body_eq : body = sym ++ "@plt>".toList
  inst_eq : inst = mnem
  branch : IsBranch mnem

/-- Where a direct branch goes: `addr <sym>`, `addr <sym+0x..>` or `.. <sym@plt>`. -/
inductive Target where
  | symbol (addr : ℕ) (sym : Str)
  | offset (addr : ℕ)
  | plt (sym : Str)

def Target.name : Target → Str
  | symbol _ sym => importName sym
  | offset addr => label addr
  | plt sym => importName sym

def BranchLine.dest (b : BranchLine) : Target :=
  if b.suffix = ">".toList then .symbol (hexVal b.target) b.sym else .offset (hexVal b.target)

def Imported (sym : Str) : Prop := sym ∈ unsafeSymbols ∨ sym ∈ staticSymbols

instance : DecidablePred Imported := fun _ => inferInstanceAs (Decidable (_ ∨ _))

/-- The mnemonic of an instruction line; operands with a tab stand behind it. -/
def InstLine.head (l : InstLine) : Str := l.inst.takeWhile (!isSpace ·)

/-- The instruction, with a blank for the tab before its operands. -/
def InstLine.code (l : InstLine) : Str := '\t' :: (l.inst ++ ' ' :: l.operands)

/-- The mnemonics whose operands refine.py replaces or post.py edits. -/
def rewritten : List Str := ["adrp", "adr", "add", "ldr"].map String.toList

/-- What an entry of the listing says. The operands are seen as in an output file. -/
inductive Reads : Entry → Instr → Flow Target → Prop where
  | branch (b : BranchLine) :
    Reads (.inst b.toInstLine) ⟨b.mnem, b.pre⟩ (flow b.mnem (some b.dest))
  | plt (b : PltLine) : Reads (.inst b.toInstLine) ⟨b.mnem, b.pre⟩ (flow b.mnem (some (.plt b.sym)))
  | other (l : InstLine) (h : ¬ Direct l.head) :
    Reads (.inst l) ⟨l.head, if rewritten.contains l.head then [] else operands l.code⟩
      (flow l.head none)
  | plain (l : PlainLine) : Reads (.plain l) ⟨l.inst, []⟩ (flow l.inst none)

section Listing
variable (es : List Entry)

def Listed (n : ℕ) : Prop := ∃ e ∈ es, e.codeAddr = some n

def listingProgram : Program ℕ Target Instr where
  Holds a i f := ∃ e ∈ es, e.codeAddr = some a ∧ Reads e i f
  Next a n := n = a + 4 ∧ Listed es n
  Names
    | .symbol a _, t => t = a ∧ Listed es a
    | .offset a, t => t = a ∧ Listed es a
    | .plt sym, t => ∃ h, .header h ∈ es ∧ h.sym = sym ∧ t = hexVal h.addr

def Mentions (x : Target) : Prop :=
  ∃ e ∈ es, ∃ i link cond, Reads e i (.transfer link cond (some x))

/-- Every direct branch has one of the forms whose target refine.py turns into a name, and what stands
before its target is no comment. A `cbz` at a symbol without an offset has none of them. -/
structure Written : Prop where
  direct : ∀ l, .inst l ∈ es → Direct l.head →
    (∃ b : BranchLine, b.toInstLine = l) ∨ ∃ b : PltLine, b.toInstLine = l
  branch : ∀ b : BranchLine, .inst b.toInstLine ∈ es → '/' ∉ b.pre
  plt : ∀ b : PltLine, .inst b.toInstLine ∈ es → '/' ∉ b.pre

/-- The listing names code in one way: a symbol that a branch goes to looks like no label; if the
address is listed, the symbol is no import and has its header, which is at that address; a call through
the linkage table goes to no import that has a header; and no header has the name of an import. -/
structure Resolves : Prop where
  symbol_ne_label : ∀ a sym, Mentions es (.symbol a sym) → ∀ n, sym ≠ label n
  plt_ne_label : ∀ sym, Mentions es (.plt sym) → ∀ n, sym ≠ label n
  header_addr : ∀ a h, Mentions es (.symbol a h.sym) → ¬ Imported h.sym → .header h ∈ es →
    hexVal h.addr = a
  addr_header : ∀ a sym, Mentions es (.symbol a sym) → Listed es a →
    ¬ Imported sym ∧ ∃ h, .header h ∈ es ∧ h.sym = sym
  plt_header : ∀ h, Mentions es (.plt h.sym) → .header h ∈ es → ¬ Imported h.sym
  import_free : ∀ h, .header h ∈ es → ∀ sym, Imported sym → h.sym ≠ importName sym

/-- Entry `m` is the next instruction behind entry `k`. -/
def NextEntry (k m : ℕ) : Prop :=
  k < m ∧ (∃ e n, es[m]? = some e ∧ e.codeAddr = some n) ∧
    ∀ q e, k < q → q < m → es[q]? = some e → e.codeAddr = none

def Stands (a j : ℕ) : Prop := ∃ e, es[j]? = some e ∧ e.codeAddr = some a

/-- Where control can pass an instruction, its successor stands next if it is listed. -/
def Ordered : Prop :=
  ∀ k m a, Stands es a k → (listingProgram es).Resumes a → Stands es (a + 4) m → NextEntry es k m

/-- Where control can pass an instruction, what stands next is its successor. -/
def Closed : Prop :=
  ∀ k m a n, Stands es a k → (listingProgram es).Resumes a → Stands es n m → NextEntry es k m →
    n = a + 4

end Listing

/-! ## What an output line says -/

theorem direct_of_isBranch {mnem : Str} (h : IsBranch mnem) : Direct mnem := by
  rcases h with h | h
  · simp only [List.mem_cons, List.not_mem_nil, or_false] at h
    rcases h with rfl | rfl <;> decide
  · exact .inr h

theorem isBranch_head {inst : Str} (h : IsBranch inst) : Direct (inst.takeWhile (!isSpace ·)) := by
  rcases h with h | ⟨t, rfl⟩
  · fin_cases h <;> decide
  · right
    rw [List.takeWhile_append_of_pos (by decide)]
    exact List.prefix_append _ _

theorem BranchLine.direct (b : BranchLine) : Direct b.mnem := by
  rcases b.form with ⟨h, -⟩ | ⟨h | h, -⟩
  · exact direct_of_isBranch h
  · exact direct_of_isBranch h
  · left
    simp only [List.map_cons, List.map_nil, List.mem_cons, List.not_mem_nil, or_false] at h ⊢
    tauto

theorem isWord_label (n : ℕ) : IsRun isWord (label n) := by
  refine ⟨by simp [label], fun c hc => ?_⟩
  rcases List.mem_cons.mp hc with rfl | hc
  · rfl
  · exact isWord_of_isHex (isHex_of_mem_hex hc)

theorem isWord_importName {sym : Str} (h : IsRun isWord sym) : IsRun isWord (importName sym) := by
  refine ⟨fun hnil => ?_, fun c hc => isWord_of_mem_importName h hc⟩
  rw [importName_eq] at hnil
  split_ifs at hnil
  · exact absurd hnil (by simp)
  · exact absurd hnil (by simp)
  · exact h.1 hnil

theorem head_of_prefix {d : Char} {ds u : Str} (h : d :: ds <+: u) (hd : isWord d = false) :
    ∀ c ∈ u.head?, isWord c = false := by
  obtain ⟨r, rfl⟩ := h
  intro c hc
  rw [← Option.some.inj hc]
  exact hd

section Lines
variable {es : List Entry} {out : Str}

/-- The line is cut behind its mnemonic, that of a direct branch, and its bracket holds a symbol and
what follows it. -/
structure PcLine.Aims (l : PcLine) (sym suffix : Str) : Prop where
  inst : l.inst = l.mnem
  direct : Direct l.mnem
  sym_run : IsRun isWord sym
  body : l.body = sym ++ suffix
  suffix_head : ∀ c ∈ suffix.head?, isWord c = false
  not_bare : ¬ l.Bare

namespace PcLine.Aims
variable {l l' : PcLine} {sym suffix sym' suffix' : Str}

theorem head_eq (h : l.Aims sym suffix) : l.head = l.mnem := by
  rw [InstLine.head, h.inst, takeWhile_mnemonic l.mnem_run]

theorem addressAt (h : l.Aims sym suffix) : AddressAt l.operands l.pre l.target sym suffix := by
  refine ⟨l.target_run, h.sym_run, l.sp, l.sp_run, ?_⟩
  rw [(l.cut_eq (h.inst ▸ l.tab_notMem_mnem)).2, PcLine.ops, h.body]
  simp

theorem precededBy (h : l.Aims sym suffix) : PrecededBy l.inst l.pre := by
  have hdirect := h.direct
  rw [h.inst]
  rcases l.pre_form with hb | ⟨hrel, hp⟩
  · exact .inl hb
  · refine .inr ⟨?_, hp⟩
    simp only [pcRelative, List.mem_map] at hrel
    obtain ⟨m, hm, hmnem⟩ := hrel
    rw [← hmnem] at hdirect ⊢
    fin_cases hm <;> first | decide | exact absurd hdirect (by decide)

theorem unique (h : l.Aims sym suffix) (h' : l'.Aims sym' suffix')
    (hl : l.toInstLine = l'.toInstLine) :
    l'.mnem = l.mnem ∧ l'.pre = l.pre ∧ l'.target = l.target ∧ sym' = sym ∧ suffix' = suffix := by
  have hops := (l.cut_eq (h.inst ▸ l.tab_notMem_mnem)).2
  have hat := h'.addressAt
  have hpre := h'.precededBy
  rw [← hl] at hat hpre
  obtain ⟨hp, ha, hbody⟩ := l.around_unique hops hat hpre
  obtain ⟨hs, hu⟩ := run_unique h'.sym_run.2 h.sym_run.2 h'.suffix_head h.suffix_head
    (hbody.symm.trans h.body)
  exact ⟨by rw [← h.inst, ← h'.inst, hl], hp, ha, hs, hu⟩

/-- The last operand is printed as a reference to what the bracket holds. -/
theorem printed (h : l.Aims sym suffix) (hdot : ∀ c ∈ l.text, isDot c) (hacc : Accepted l.text) :
    ∃ ref, printed l.text = some (codeLine (hexVal l.addr) l.mnem (l.pre ++ ref)) ∧
      (ref = importName sym ∧ (">".toList <+: suffix ∨ "@plt>".toList <+: suffix) ∨
        ∃ comment, ref = 'L' :: l.target ++ comment ∧ IsOffsetTail suffix ∧
          (comment = [] ∨ " // <".toList <+: comment)) := by
  cases l.printed_of_not_bare hdot h.not_bare with
  | inl hrej => exact absurd hacc hrej
  | inr hout =>
    obtain ⟨out, hout, s, u, ref, hbody, hs, href, rfl⟩ := hout
    have hcut : (∀ c ∈ u.head?, isWord c = false) → s = sym ∧ u = suffix := by
      intro hu
      exact run_unique hs.2 h.sym_run.2 hu h.suffix_head (hbody.symm.trans h.body)
    refine ⟨ref, hout, ?_⟩
    cases href with
    | name hb hform =>
      left
      have hu : ∀ c ∈ u.head?, isWord c = false := by
        rcases hform with hform | hform
        · exact head_of_prefix hform rfl
        · exact head_of_prefix hform rfl
      obtain ⟨rfl, rfl⟩ := hcut hu
      exact ⟨rfl, hform⟩
    | label hoff comment hcomment =>
      right
      have hu : ∀ c ∈ u.head?, isWord c = false := by
        obtain ⟨o, -, hoff | hoff⟩ := hoff
        · exact head_of_prefix hoff rfl
        · exact head_of_prefix hoff rfl
      obtain ⟨rfl, rfl⟩ := hcut hu
      exact ⟨comment, rfl, hoff, hcomment⟩
    | page hp =>
      have hdirect := h.direct
      rw [hp] at hdirect
      exact absurd hdirect (by decide)

end PcLine.Aims

theorem BranchLine.suffix_head? (b : BranchLine) : ∀ c ∈ b.suffix.head?, isWord c = false := by
  obtain ⟨d, t, hd, hform⟩ := b.suffix_head
  intro c hc
  rw [hd, List.head?_cons, Option.mem_some_iff] at hc
  rw [← hc]
  rcases hform with ⟨rfl, -⟩ | rfl | ⟨rfl, -⟩ <;> rfl

theorem BranchLine.aims (b : BranchLine) : b.Aims b.sym b.suffix :=
  ⟨b.inst_eq, b.direct, b.sym_run, b.body_eq, b.suffix_head?, b.not_bare⟩

theorem PltLine.aims (b : PltLine) : b.Aims b.sym "@plt>".toList where
  inst := b.inst_eq
  direct := direct_of_isBranch b.branch
  sym_run := b.sym_run
  body := b.body_eq
  suffix_head := by decide
  not_bare h := h.1 (b.inst_eq ▸ b.branch)

theorem BranchLine.suffix_ne_plt (b : BranchLine) : b.suffix ≠ "@plt>".toList := by
  intro hs
  rcases b.form with ⟨-, h⟩ | ⟨-, o, -, h | h⟩
  · rw [h] at hs
    exact absurd hs (by decide)
  · rw [h] at hs
    exact absurd (List.cons.inj hs).1 (by decide)
  · rw [h] at hs
    exact absurd (List.cons.inj (List.cons.inj hs).2).1 (by decide)

theorem BranchLine.printed_dest (b : BranchLine) (hhex : b.target = hex (hexVal b.target))
    (hdot : ∀ c ∈ b.text, isDot c) (hacc : Accepted b.text) : ∃ comment,
      printed b.text = some (codeLine (hexVal b.addr) b.mnem (b.pre ++ (b.dest.name ++ comment))) ∧
        (comment = [] ∨ " // <".toList <+: comment) := by
  obtain ⟨ref, hout, href⟩ := b.aims.printed hdot hacc
  by_cases hgt : b.suffix = ">".toList
  · have hdest : b.dest.name = importName b.sym := by
      rw [BranchLine.dest, if_pos hgt, Target.name]
    rw [hgt] at href
    rcases href with ⟨rfl, -⟩ | ⟨-, -, ⟨o, -, h | h⟩, -⟩
    · exact ⟨[], by rw [hout, hdest, List.append_nil], .inl rfl⟩
    · exact absurd ( List.cons_prefix_cons.mp h).1 (by decide)
    · exact absurd ( List.cons_prefix_cons.mp h).1 (by decide)
  · have hdest : b.dest.name = 'L' :: b.target := by
      rw [BranchLine.dest, if_neg hgt, Target.name, label, ← hhex]
    rcases href with ⟨-, h⟩ | ⟨comment, rfl, -, hcomment⟩
    · obtain ⟨d, t, hd, hform⟩ := b.suffix_head
      rw [hd] at h
      rcases hform with ⟨rfl, rfl⟩ | rfl | ⟨rfl, t', rfl⟩
      · exact absurd hd hgt
      · rcases h with h | h <;> exact absurd ( List.cons_prefix_cons.mp h).1 (by decide)
      · rcases h with h | h
        · exact absurd ( List.cons_prefix_cons.mp h).1 (by decide)
        · exact absurd ( List.cons_prefix_cons.mp ( List.cons_prefix_cons.mp h).2).1 (by decide)
    · exact ⟨comment, by rw [hout, hdest], hcomment⟩

theorem PltLine.printed_name (b : PltLine) (hdot : ∀ c ∈ b.text, isDot c) (hacc : Accepted b.text) :
    printed b.text = some (codeLine (hexVal b.addr) b.mnem (b.pre ++ importName b.sym)) := by
  obtain ⟨ref, hout, href⟩ := b.aims.printed hdot hacc
  rcases href with ⟨rfl, -⟩ | ⟨-, -, ⟨o, -, h | h⟩, -⟩
  · exact hout
  · exact absurd ( List.cons_prefix_cons.mp h).1 (by decide)
  · exact absurd ( List.cons_prefix_cons.mp ( List.cons_prefix_cons.mp h).2).1 (by decide)

theorem PlainLine.inst_of_accepted (l : PlainLine) (hdot : ∀ c ∈ l.text, isDot c)
    (hs : ¬ Silent l.text) (hacc : Accepted l.text) : l.inst ∈ ["ret".toList, "nop".toList] := by
  obtain ⟨h₁, h₂, h₃, h₄, h₅⟩ := not_silent_iff.mp hs
  have hh : header.match? l.text = none := header_match?_none l.addr_run
  have hb : headerBase.match? l.text = none := header_match?_none l.addr_run
  have hnone : (header.match? l.text <|> headerBase.match? l.text) = none := by
    rw [hh, hb]
    rfl
  by_contra hi
  have hg : Captures.group ([(.addr, l.addr), (.bin, l.bin), (.inst, l.inst)] : Match) .inst ∉
      ["ret".toList, "nop".toList] := hi
  rw [Accepted, action, if_neg h₁, if_neg h₂, if_neg h₃, if_neg h₄, hnone, h₅,
    l.instOperands_match?_none, l.instOnly_match? hdot] at hacc
  simp only [if_neg hg] at hacc
  exact hacc rfl

theorem codeOf_codeLine (addr : ℕ) (inst ops : Str) :
    codeOf (codeLine addr inst ops) = '\t' :: (inst ++ ' ' :: ops) := by
  rw [codeLine_eq, codeOf_append (colon_notMem_label _)]
  rfl

def copied (l : InstLine) : Str := codeLine (hexVal l.addr) l.inst l.operands

theorem codeOf_copied (l : InstLine) : codeOf (copied l) = l.code := codeOf_codeLine _ _ _

theorem mnemonic_code (l : InstLine) : mnemonic l.code = l.head :=
  mnemonic_tab l.inst_ne l.inst_head (by simp; decide)

/-- The operands of the branches, of `adrp` and of `adr` are replaced; all others are copied. -/
theorem printed_copied {l : InstLine} (hdot : ∀ c ∈ l.text, isDot c)
    (hformat : ¬ "file format".toList <:+: l.text) (hacc : Accepted l.text) (hd : ¬ Direct l.head)
    (hhead : l.head ∉ ["adrp", "adr"].map String.toList) : printed l.text = some (copied l) := by
  obtain ⟨out, symbols, hp, hprinted⟩ := l.exists_processInsts hdot hformat hacc
  rw [hprinted]
  cases processInsts_cases hp with
  | inl hrep =>
    obtain ⟨pre, a, s, u, ref, -, hpre, -, -⟩ := hrep
    rcases hpre with ⟨hb, -⟩ | ⟨hmem, -⟩
    · exact absurd (isBranch_head hb) hd
    · have haddressed : ∀ i ∈ addressed, Direct (i.takeWhile (!isSpace ·)) ∨
          i.takeWhile (!isSpace ·) ∈ ["adrp", "adr"].map String.toList := by decide
      rcases haddressed _ hmem with h | h
      · exact absurd h hd
      · exact absurd h hhead
  | inr hcopy => exact congrArg some hcopy.2.2.2.2

theorem PcLine.pre_last (l : PcLine) : ∀ c ∈ l.pre.getLast?, isWord c = false := by
  rcases l.pre_form with ⟨-, h⟩ | ⟨-, p, h⟩
  · rw [h]
    simp
  · intro c hc
    rw [h, List.getLast?_append_of_ne_nil _ (by decide)] at hc
    rw [← Option.mem_some_iff.mp hc]
    decide

theorem BranchLine.isWord_dest (b : BranchLine) : IsRun isWord b.dest.name := by
  unfold BranchLine.dest
  split_ifs
  · exact isWord_importName b.sym_run
  · exact isWord_label _

/-- The output line of an entry is read as the entry is, with the name of its target. -/
theorem Reads.printed {e : Entry} {i : Instr} {f : Flow Target} (hread : Reads e i f) (hd : Objdump es)
    (hw : Written es) (hmem : e ∈ es) (hdot : ∀ c ∈ e.text, isDot c) (hs : ¬ Silent e.text)
    (hacc : Accepted e.text) (hout : printed e.text = some out) :
    ∃ f', readCode rewritten (codeOf out) = (i, f') ∧ f.Rel (fun x x' => x' = x.name) f' := by
  cases hread with
  | branch b =>
    obtain ⟨comment, hb, hcomment⟩ := b.printed_dest (hd.target_hex b hmem) hdot hacc
    rw [Option.some.inj (hout.symm.trans hb), codeOf_codeLine]
    exact ⟨_, readCode_direct _ b.mnem_run b.direct (hw.branch b hmem) b.pre_last b.isWord_dest
      hcomment, flow_rel _ (.some rfl)⟩
  | plt b =>
    have hb := b.printed_name hdot hacc
    rw [Option.some.inj (hout.symm.trans hb), codeOf_codeLine,
      ← List.append_nil (importName b.sym)]
    exact ⟨_, readCode_direct _ b.mnem_run (direct_of_isBranch b.branch) (hw.plt b hmem) b.pre_last
      (isWord_importName b.sym_run) (.inl rfl), flow_rel _ (.some rfl)⟩
  | other l h =>
    have hformat := (not_silent_iff.mp hs).2.2.1
    refine ⟨flow l.head none, ?_, flow_rel _ .none⟩
    by_cases hrewritten : rewritten.contains l.head
    · -- only the mnemonic is looked at
      obtain ⟨ops, hl⟩ := l.printed_text hdot hformat hacc
      have hmnem : mnemonic ('\t' :: (l.inst ++ ' ' :: ops)) = l.head :=
        mnemonic_tab l.inst_ne l.inst_head (by simp; decide)
      rw [Option.some.inj (hout.symm.trans hl), codeOf_codeLine, readCode_other (by rwa [hmnem]),
        hmnem, if_pos hrewritten, if_pos hrewritten]
    · have hreplaced : ["adrp", "adr"].map String.toList ⊆ rewritten := by decide
      have hl := printed_copied hdot hformat hacc h fun hmem =>
        hrewritten ( List.contains_iff_mem.mpr (hreplaced hmem))
      rw [Option.some.inj (hout.symm.trans hl), codeOf_copied,
        readCode_other (by rwa [mnemonic_code]), mnemonic_code]
  | plain l =>
    have hl := l.printed_text hdot hs hacc
    have hcode : codeOf out = '\t' :: l.inst := by
      rw [Option.some.inj (hout.symm.trans hl), List.append_assoc,
        show ":\t".toList = [':', '\t'] from rfl, List.cons_append,
        codeOf_append (colon_notMem_label _)]
      rfl
    rw [hcode]
    have hinst := l.inst_of_accepted hdot hs hacc
    simp only [List.mem_cons, List.not_mem_nil, or_false] at hinst
    rcases hinst with h | h <;> rw [h] <;> exact ⟨_, rfl, flow_rel _ .none⟩

end Lines

/-! ## One reading -/

theorem Reads.unique {e : Entry} {i i' : Instr} {f f' : Flow Target} (h : Reads e i f)
    (h' : Reads e i' f') : i = i' ∧ f = f' := by
  generalize he : e = e' at h'
  cases h with
  | branch b =>
    cases h' with
    | branch b' =>
      obtain ⟨hm, hp, ha, hs, hu⟩ := b.aims.unique b'.aims (Entry.inst.inj he)
      have hdest : b'.dest = b.dest := by
        rw [BranchLine.dest, BranchLine.dest, ha, hs, hu]
      rw [hm, hp, hdest]
      exact ⟨rfl, rfl⟩
    | plt b' =>
      obtain ⟨-, -, -, -, hu⟩ := b.aims.unique b'.aims (Entry.inst.inj he)
      exact absurd hu.symm b.suffix_ne_plt
    | other l hnot =>
      obtain rfl := Entry.inst.inj he
      exact absurd (b.aims.head_eq ▸ b.direct) hnot
    | plain l => exact absurd he (by simp)
  | plt b =>
    cases h' with
    | branch b' =>
      obtain ⟨-, -, -, -, hu⟩ := b.aims.unique b'.aims (Entry.inst.inj he)
      exact absurd hu b'.suffix_ne_plt
    | plt b' =>
      obtain ⟨hm, hp, -, hs, -⟩ := b.aims.unique b'.aims (Entry.inst.inj he)
      rw [hm, hp, hs]
      exact ⟨rfl, rfl⟩
    | other l hnot =>
      obtain rfl := Entry.inst.inj he
      exact absurd (b.aims.head_eq ▸ b.aims.direct) hnot
    | plain l => exact absurd he (by simp)
  | other l hnot =>
    cases h' with
    | branch b' =>
      obtain rfl := Entry.inst.inj he
      exact absurd (b'.aims.head_eq ▸ b'.direct) hnot
    | plt b' =>
      obtain rfl := Entry.inst.inj he
      exact absurd (b'.aims.head_eq ▸ b'.aims.direct) hnot
    | other l' hnot' =>
      rw [Entry.inst.inj he]
      exact ⟨rfl, rfl⟩
    | plain l' => exact absurd he (by simp)
  | plain l =>
    cases h' with
    | branch b' => exact absurd he (by simp)
    | plt b' => exact absurd he (by simp)
    | other l' hnot' => exact absurd he (by simp)
    | plain l' =>
      rw [Entry.plain.inj he]
      exact ⟨rfl, rfl⟩

/-! ## The two programs -/

/-- The output lines of the entries of an accepted listing. -/
structure Translated (es : List Entry) (outs : List Str) : Prop where
  lines : List.Forall₂ (fun e out => printed e.text = some out ∧ e.Emits out) es outs
  entries : ∀ e ∈ es, (∀ c ∈ e.text, isDot c) ∧ ¬ Silent e.text ∧ Accepted e.text

theorem translated_of_refine {file : Str} {s : State} {es : List Entry} (hs : refine file = .ok s)
    (hes : (lines file).filter (fun line => ¬ Silent line) = es.map Entry.text) :
    Translated es s.stdout := by
  refine ⟨forall₂_printed hs hes, fun e he => ?_⟩
  have hfilter : e.text ∈ (lines file).filter fun line => ¬ Silent line :=
    hes ▸ List.mem_map_of_mem he
  obtain ⟨hl, hsil⟩ := List.mem_filter.mp hfilter
  exact ⟨fun c hc => isDot_of_mem_lines hl hc, by simpa using hsil, accepted_of_refine hs hl⟩

def Named (es : List Entry) (x : Target) (x' : Str) : Prop := Mentions es x ∧ x' = x.name

section Programs
variable {es : List Entry} {outs : List Str} {a j : ℕ}

theorem Translated.emits (h : Translated es outs) : List.Forall₂ Entry.Emits es outs :=
  h.lines.imp fun _ _ h => h.2

theorem listed_of_stands (h : Stands es a j) : Listed es a := by
  obtain ⟨e, hj, he⟩ := h
  exact ⟨e, List.mem_of_getElem? hj, he⟩

theorem exists_stands (h : Listed es a) : ∃ j, Stands es a j := by
  obtain ⟨e, he, ha⟩ := h
  obtain ⟨j, hj⟩ := List.getElem?_of_mem he
  exact ⟨j, e, hj, ha⟩

theorem Stands.unique (hd : Objdump es) {k : ℕ} (h : Stands es a j) (h' : Stands es a k) : j = k := by
  obtain ⟨e, hj, he⟩ := h
  obtain ⟨e', hk, he'⟩ := h'
  exact index_unique hd hj hk he he'

theorem Translated.hasCode_iff (h : Translated es outs) : HasCode outs j ↔ ∃ a, Stands es a j := by
  constructor
  · intro hj
    obtain ⟨out, hout, hne⟩ := hj
    have hlt : j < es.length := h.lines.length_eq ▸ (List.getElem?_eq_some_iff.mp hout).1
    have he : es[j]? = some es[j] := List.getElem?_eq_getElem hlt
    obtain ⟨out', hout', hemits⟩ := exists_of_forall₂ h.emits he
    rw [Option.some.inj (hout.symm.trans hout'), Ne, Entry.codeOf_emits hemits] at hne
    obtain ⟨a, ha⟩ := Option.ne_none_iff_exists'.mp hne
    exact ⟨a, es[j], he, ha⟩
  · intro hj
    obtain ⟨a, e, he, ha⟩ := hj
    obtain ⟨out, hout, hemits⟩ := exists_of_forall₂ h.emits he
    exact ⟨out, hout, fun hnil => absurd ((Entry.codeOf_emits hemits).mp hnil) (by simp [ha])⟩

theorem Translated.nextCode_iff (h : Translated es outs) {k : ℕ} :
    NextCode outs j k ↔ NextEntry es j k := by
  have hstands : ∀ q, (∃ a, Stands es a q) ↔ ∃ e n, es[q]? = some e ∧ e.codeAddr = some n := by
    intro q
    constructor
    · intro hq
      obtain ⟨a, e, he, ha⟩ := hq
      exact ⟨e, a, he, ha⟩
    · intro hq
      obtain ⟨e, a, he, ha⟩ := hq
      exact ⟨a, e, he, ha⟩
  simp only [NextCode, NextEntry, h.hasCode_iff, hstands]
  apply and_congr_right
  intro _
  apply and_congr_right
  intro _
  apply forall_congr'
  intro q
  constructor
  · intro hq e hj hk he
    rw [Option.eq_none_iff_forall_ne_some]
    intro n hn
    exact hq hj hk ⟨e, n, he, hn⟩
  · intro hq hj hk hne
    obtain ⟨e, n, he, hn⟩ := hne
    exact absurd (hq e hj hk he) (by simp [hn])

/-- What is read at an address is read in its output line. -/
theorem Translated.holds (h : Translated es outs) (hd : Objdump es) (hw : Written es)
    {e : Entry} {i : Instr} {f : Flow Target} (he : es[j]? = some e) (ha : e.codeAddr = some a)
    (hread : Reads e i f) : ∃ f', (program rewritten outs).Holds j i f' ∧ f.Rel (Named es) f' := by
  have hmem := List.mem_of_getElem? he
  obtain ⟨out, hout, hprinted, hemits⟩ := exists_of_forall₂ h.lines he
  obtain ⟨hdot, hs, hacc⟩ := h.entries e hmem
  obtain ⟨f', hcode, hrel⟩ := hread.printed hd hw hmem hdot hs hacc hprinted
  refine ⟨f', ⟨out, hout, ?_, hcode⟩, hrel.imp_of_dest ?_⟩
  · rw [Ne, Entry.codeOf_emits hemits, ha]
    simp
  · rintro link cond x x' rfl hx
    exact ⟨⟨e, hmem, i, link, cond, hread⟩, hx⟩

theorem Written.exists_reads (hw : Written es) {e : Entry} (hmem : e ∈ es)
    (ha : e.codeAddr = some a) : ∃ i f, Reads e i f := by
  cases e with
  | header l => exact absurd ha (by simp [Entry.codeAddr])
  | inst l =>
    by_cases hl : Direct l.head
    · rcases hw.direct l hmem hl with ⟨b, rfl⟩ | ⟨b, rfl⟩
      · exact ⟨_, _, .branch b⟩
      · exact ⟨_, _, .plt b⟩
    · exact ⟨_, _, .other l hl⟩
  | plain l => exact ⟨_, _, .plain l⟩

theorem importName_ne_label {sym : Str} (h : Imported sym) (n : ℕ) : importName sym ≠ label n := by
  intro heq
  rw [importName_eq] at heq
  split_ifs at heq with hu hs
  · exact absurd (List.cons.inj heq).1 (by decide)
  · exact absurd (List.cons.inj heq).1 (by decide)
  · rcases h with h | h
    · exact hu h
    · exact hs h

theorem importName_of_not_imported {sym : Str} (h : ¬ Imported sym) : importName sym = sym :=
  importName_of_not_mem (fun hu => h (.inl hu)) fun hs => h (.inr hs)

/-- A name of the output is the label of an address, or the symbol of a header. -/
theorem Translated.denotes_cases (h : Translated es outs) (hd : Objdump es) {x : Str}
    (hx : Denotes outs x j) : (∃ n, x = label n ∧ Stands es n j) ∨
      ∃ l, .header l ∈ es ∧ l.sym = x ∧ Stands es (hexVal l.addr) j := by
  obtain ⟨⟨p, hp, ⟨line, hline, hlabel⟩, hsilent⟩, hcode⟩ := denotes_iff.mp hx
  have hlt : p < es.length := h.lines.length_eq ▸ (List.getElem?_eq_some_iff.mp hline).1
  have he : es[p]? = some es[p] := List.getElem?_eq_getElem hlt
  obtain ⟨out, hout, hemits⟩ := exists_of_forall₂ h.emits he
  obtain rfl := Option.some.inj (hline.symm.trans hout)
  rw [Entry.labelOf_emits hemits] at hlabel
  -- an instruction is the one its own label names
  have hself : ∀ n, es[p].codeAddr = some n → Stands es n j := by
    intro n hn
    have hpj : p = j := by
      by_contra hne
      exact hsilent p le_rfl (by omega) (h.hasCode_iff.mpr ⟨n, es[p], he, hn⟩)
    exact hpj ▸ ⟨es[p], he, hn⟩
  cases hentry : es[p] with
  | header l =>
    right
    rw [hentry] at he hlabel
    obtain ⟨e', he', haddr⟩ := hd.header_next p l he
    have hstands : Stands es (hexVal l.addr) (p + 1) := ⟨e', he', haddr⟩
    have hne : p ≠ j := by
      rintro rfl
      obtain ⟨n, e, hj, hn⟩ := h.hasCode_iff.mp hcode
      rw [he, Option.some_inj] at hj
      rw [← hj] at hn
      exact absurd hn (by simp [Entry.codeAddr])
    have hj : j = p + 1 := by
      by_contra hgt
      exact hsilent (p + 1) (by omega) (by omega) (h.hasCode_iff.mpr ⟨_, hstands⟩)
    exact ⟨l, List.mem_of_getElem? he, hlabel, hj ▸ hstands⟩
  | inst l =>
    left
    rw [hentry] at hself hlabel
    exact ⟨hexVal l.addr, hlabel.symm, hself _ rfl⟩
  | plain l =>
    left
    rw [hentry] at hself hlabel
    exact ⟨hexVal l.addr, hlabel.symm, hself _ rfl⟩

/-- What a target names in the listing its name denotes in the output. -/
theorem Translated.denotes (h : Translated es outs) (hd : Objdump es) (hr : Resolves es) {x : Target}
    {x' : Str} (hx : Named es x x') (hn : (listingProgram es).Names x a) :
    ∃ j, Denotes outs x' j ∧ Stands es a j := by
  obtain ⟨hm, rfl⟩ := hx
  have hheader : ∀ l, .header l ∈ es → a = hexVal l.addr →
      ∃ j, Denotes outs l.sym j ∧ Stands es a j := by
    rintro l hl rfl
    obtain ⟨k, hk⟩ := List.getElem?_of_mem hl
    obtain ⟨e, he, haddr⟩ := hd.header_next k l hk
    exact ⟨k + 1, denotes_sym h.emits hd hk he haddr, e, he, haddr⟩
  cases x with
  | symbol b sym =>
    obtain ⟨rfl, hlisted⟩ := hn
    obtain ⟨hi, l, hl, rfl⟩ := hr.addr_header a sym hm hlisted
    rw [Target.name, importName_of_not_imported hi]
    exact hheader l hl (hr.header_addr a l hm hi hl).symm
  | offset b =>
    obtain ⟨rfl, hlisted⟩ := hn
    obtain ⟨j, e, hj, he⟩ := exists_stands hlisted
    exact ⟨j, denotes_label h.emits hj he, e, hj, he⟩
  | plt sym =>
    obtain ⟨l, hl, rfl, ha⟩ := hn
    rw [Target.name, importName_of_not_imported (hr.plt_header l hm hl)]
    exact hheader l hl ha

/-- What the name of a target denotes in the output the target names in the listing. -/
theorem Translated.names (h : Translated es outs) (hd : Objdump es) (hr : Resolves es) {x : Target}
    {x' : Str} (hx : Named es x x') (hj : Denotes outs x' j) :
    ∃ a, (listingProgram es).Names x a ∧ Stands es a j := by
  obtain ⟨hm, rfl⟩ := hx
  -- an import is not defined here, and another symbol is by its header alone
  have hsym : ∀ sym, (∀ n, sym ≠ label n) → importName sym = x.name →
      ¬ Imported sym ∧ ∃ l, .header l ∈ es ∧ l.sym = sym ∧ Stands es (hexVal l.addr) j := by
    intro sym hne hname
    rw [← hname] at hj
    by_cases hi : Imported sym
    · rcases h.denotes_cases hd hj with ⟨n, hn, -⟩ | ⟨l, hl, hlsym, -⟩
      · exact absurd hn (importName_ne_label hi n)
      · exact absurd hlsym (hr.import_free l hl sym hi)
    · rw [importName_of_not_imported hi] at hj
      rcases h.denotes_cases hd hj with ⟨n, hn, -⟩ | ⟨l, hl, hlsym, hs⟩
      · exact absurd hn (hne n)
      · exact ⟨hi, l, hl, hlsym, hs⟩
  cases x with
  | symbol b sym =>
    obtain ⟨hi, l, hl, rfl, hs⟩ := hsym sym (hr.symbol_ne_label b sym hm) rfl
    obtain rfl := hr.header_addr b l hm hi hl
    exact ⟨_, ⟨rfl, listed_of_stands hs⟩, hs⟩
  | offset b =>
    rcases h.denotes_cases hd hj with ⟨n, hn, hs⟩ | ⟨l, hl, hlsym, -⟩
    · obtain rfl := label_injective hn
      exact ⟨b, ⟨rfl, listed_of_stands hs⟩, hs⟩
    · exact absurd hlsym (hd.sym_ne_label l hl b)
  | plt sym =>
    obtain ⟨-, l, hl, rfl, hs⟩ := hsym sym (hr.plt_ne_label sym hm) rfl
    exact ⟨_, ⟨l, hl, rfl, rfl⟩, hs⟩

/-- The output does what the listing does. -/
theorem Translated.simulates (h : Translated es outs) (hd : Objdump es) (hw : Written es)
    (hr : Resolves es) (ho : Ordered es) :
    (listingProgram es).Simulates (program rewritten outs) (Stands es) (Named es) where
  holds := by
    rintro a j i f ⟨e, hj, he⟩ ⟨e', hmem, he', hread⟩
    obtain ⟨k, hk⟩ := List.getElem?_of_mem hmem
    obtain rfl := index_unique hd hk hj he' he
    exact h.holds hd hw hk he' hread
  next := by
    rintro a j n hj hres ⟨rfl, hlisted⟩
    obtain ⟨m, hm⟩ := exists_stands hlisted
    exact ⟨m, h.nextCode_iff.mpr (ho j m a hj hres hm), hm⟩
  names := by
    intro x x' a hx hn
    exact h.denotes hd hr hx hn
  outside := by
    intro x x' hx hnone j hj
    obtain ⟨a, ha, -⟩ := h.names hd hr hx hj
    exact hnone a ha
  place := by
    rintro a ⟨i, f, e, hmem, he, hread⟩
    obtain ⟨j, hj⟩ := exists_stands ⟨e, hmem, he⟩
    exact ⟨j, place_program.mpr (h.hasCode_iff.mpr ⟨a, hj⟩), hj⟩

/-- The output does nothing else. -/
theorem Translated.simulated (h : Translated es outs) (hd : Objdump es) (hw : Written es)
    (hr : Resolves es) (hc : Closed es) :
    (program rewritten outs).Simulates (listingProgram es) (flip (Stands es)) (flip (Named es)) := by
  have hholds : ∀ j a i f, Stands es a j → (program rewritten outs).Holds j i f →
      ∃ f', (listingProgram es).Holds a i f' ∧ f.Rel (flip (Named es)) f' := by
    rintro j a i f ⟨e, hj, he⟩ ⟨out, hout, -, hread⟩
    have hmem := List.mem_of_getElem? hj
    obtain ⟨i', f', hreads⟩ := hw.exists_reads hmem he
    obtain ⟨f'', ⟨out', hout', -, hread'⟩, hrel⟩ := h.holds hd hw hj he hreads
    rw [← Option.some.inj (hout.symm.trans hout'), hread, Prod.mk.injEq] at hread'
    obtain ⟨rfl, rfl⟩ := hread'
    exact ⟨f', ⟨e, hmem, he, hreads⟩, hrel.flip⟩
  constructor
  · exact hholds
  · rintro j a m hj ⟨i, f, hf, hres⟩ hm
    obtain ⟨f', hf', hrel⟩ := hholds j a i f hj hf
    obtain ⟨n, hn⟩ := h.hasCode_iff.mp hm.2.1
    have hna := hc j m a n hj ⟨i, f', hf', hrel.resumes hres⟩ hn (h.nextCode_iff.mp hm)
    exact ⟨n, ⟨hna, listed_of_stands hn⟩, hn⟩
  · intro x' x j hx hj
    exact h.names hd hr hx hj
  · intro x' x hx hnone a ha
    obtain ⟨j, hj, -⟩ := h.denotes hd hr hx ha
    exact hnone j hj
  · intro j hj
    obtain ⟨a, e, he, ha⟩ := h.hasCode_iff.mp (place_program.mp hj)
    obtain ⟨i, f, hread⟩ := hw.exists_reads (List.mem_of_getElem? he) ha
    exact ⟨a, ⟨i, f, e, List.mem_of_getElem? he, ha, hread⟩, e, he, ha⟩

end Programs

end Rebench.Refine
