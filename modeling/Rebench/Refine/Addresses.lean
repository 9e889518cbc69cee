import Rebench.Refine.Listing

/-!
# Code addresses in the operands

An instruction whose last operand is a code address is printed with a label, a
symbol name or a page mark in its place, or it stops the run. The exception is
a line that reaches the last case of the source: a conditional compare, `adr`
or literal load whose target is written without `@` and `+0x` keeps its number.
-/
namespace Rebench.Refine
open Text Pattern Machine

/-- The mnemonics beside the branches that take a code address as last operand. -/
def pcRelative : List Str :=
  ["cbz", "cbnz", "tbz", "tbnz", "adr", "adrp", "ldr", "ldrsw", "prfm"].map String.toList

/-- A line of an instruction with a code address `target <...`, the only angle bracket of the
operands. The line is cut at its last tab, which is the one behind the mnemonic unless the
operands hold another. -/
structure PcLine extends InstLine where
  mnem : Str
  pre : Str
  target : Str
  sp : Str
  body : Str
  mnem_run : IsRun (fun c => !isSpace c) mnem
  target_run : IsRun isHex target
  sp_run : IsRun isSpace sp
  pre_form : IsBranch mnem ∧ pre = [] ∨ mnem ∈ pcRelative ∧ ∃ p, pre = p ++ ", ".toList
  pre_angle : '<' ∉ pre
  body_angle : '<' ∉ body
  code_eq : inst ++ '\t' :: operands = mnem ++ '\t' :: (pre ++ target ++ sp ++ '<' :: body)
  not_format : ¬ "file format".toList <:+: toInstLine.text

namespace PcLine
variable (l : PcLine)

def ops : Str := l.pre ++ l.target ++ l.sp ++ '<' :: l.body

/-- The output line names the instruction's target by a reference instead of its address. -/
def Symbolic (out : Str) : Prop :=
  ∃ s u ref, l.body = s ++ u ∧ IsRun isWord s ∧ Reference l.mnem l.target s u ref ∧
    out = codeLine (hexVal l.addr) l.mnem (l.pre ++ ref)

/-- The line reaches the last case of the source, which copies the operands. -/
def Bare : Prop :=
  ¬ IsBranch l.inst ∧ l.inst ≠ "adrp".toList ∧ '@' ∉ l.operands ∧
    ¬ "+0x".toList <:+: l.operands

theorem not_isBranch_of_pcRelative {mnem : Str} (h : mnem ∈ pcRelative) : ¬ IsBranch mnem := by
  simp only [pcRelative, List.mem_map] at h
  obtain ⟨m, hm, rfl⟩ := h
  fin_cases hm <;> decide

theorem tab_notMem_of_addressed {inst : Str} (h : inst ∈ addressed) : '\t' ∉ inst := by
  simp only [addressed, List.mem_map] at h
  obtain ⟨m, hm, rfl⟩ := h
  fin_cases hm <;> decide

theorem isBranch_of_tab {m j : Str} (hne : m ≠ []) (h : IsBranch (m ++ '\t' :: j)) : IsBranch m := by
  rcases h with h | h
  · have htab : '\t' ∈ m ++ '\t' :: j := by simp
    simp only [List.mem_cons, List.not_mem_nil, or_false] at h
    rcases h with h | h <;> rw [h] at htab <;> exact absurd htab (by decide)
  · right
    rw [show "b.".toList = ['b', '.'] from rfl] at h ⊢
    match m, hne with
    | [c], _ => simp at h
    | c :: d :: m, _ => simpa using h

theorem angle_notMem_front : '<' ∉ l.target ++ l.sp := by
  intro h
  rcases List.mem_append.mp h with h | h
  · exact absurd (l.target_run.2 _ h) (by decide)
  · exact absurd (l.sp_run.2 _ h) (by decide)

theorem tab_notMem_mnem : '\t' ∉ l.mnem := fun h => absurd (l.mnem_run.2 _ h) (by decide)

theorem cut_eq (h : '\t' ∉ l.inst) : l.inst = l.mnem ∧ l.operands = l.ops :=
  l.cut_of_code l.code_eq h

theorem inst_of_tab (h : '\t' ∈ l.inst) :
    ∃ j, l.inst = l.mnem ++ '\t' :: j ∧ l.ops = j ++ '\t' :: l.operands :=
  l.tab_of_code l.code_eq l.tab_notMem_mnem h

theorem last_not_space {t : Str} (ht : IsRun isHex t) (pre : Str) :
    ∀ x ∈ (pre ++ t).getLast?, isSpace x = false := by
  intro x hx
  rw [List.getLast?_append_of_ne_nil _ ht.1] at hx
  exact isSpace_eq_false_of_isHex (ht.2 x (List.mem_of_getLast? hx))

/-- Where the source replaces an address the line has no tab among its operands. -/
theorem cut_of_replaced {addr : ℕ} {out : Str} (h : Replaced addr l.inst l.operands out) :
    l.inst = l.mnem ∧ l.operands = l.ops := by
  apply l.cut_eq
  intro htab
  obtain ⟨pre, a, s, u, ref, ⟨ha, -, sp, hsp, hops⟩, hpre, -⟩ := h
  rcases hpre with ⟨hb, rfl⟩ | ⟨hadr, -⟩
  · -- only `b.<cond>` can go on behind a tab, and then nothing before the bracket is an address
    obtain ⟨j, hij, hrest⟩ := l.inst_of_tab htab
    have hpre : l.pre = [] := by
      rcases l.pre_form with ⟨-, hpre⟩ | ⟨hrel, -⟩
      · exact hpre
      · exact absurd (isBranch_of_tab l.mnem_run.1 (hij ▸ hb)) (not_isBranch_of_pcRelative hrel)
    have hbracket : l.target ++ l.sp ++ '<' :: l.body = j ++ '\t' :: a ++ sp ++ '<' :: (s ++ u) := by
      rw [ops, hpre, hops] at hrest
      simpa using hrest
    obtain ⟨hfront, -⟩ := split_unique l.angle_notMem_front l.body_angle hbracket
    have htarget : l.target = j ++ '\t' :: a :=
      (run_unique_right l.sp_run.2 hsp.2 (by simpa using last_not_space l.target_run [])
        (by simpa using last_not_space ha (j ++ ['\t'])) hfront).1
    exact absurd (l.target_run.2 '\t' (by simp [htarget])) (by decide)
  · exact tab_notMem_of_addressed hadr htab

/-- The address the source finds is the target of the line, and so is what stands around it. -/
theorem around_unique {pre a s u : Str} (hops : l.operands = l.ops)
    (hat : AddressAt l.operands pre a s u) (hpre : PrecededBy l.inst pre) :
    pre = l.pre ∧ a = l.target ∧ l.body = s ++ u := by
  obtain ⟨ha, -, sp, hsp, htext⟩ := hat
  rw [hops, ops] at htext
  have hfront : '<' ∉ l.pre ++ l.target ++ l.sp := by
    rw [List.append_assoc]
    intro h
    rcases List.mem_append.mp h with h | h
    · exact l.pre_angle h
    · exact l.angle_notMem_front h
  have hcut : (l.pre ++ l.target ++ l.sp) ++ '<' :: l.body = (pre ++ a ++ sp) ++ '<' :: (s ++ u) := by
    simpa using htext
  obtain ⟨hbefore, hbody⟩ := split_unique hfront l.body_angle hcut
  obtain ⟨hpa, -⟩ := run_unique_right l.sp_run.2 hsp.2 (last_not_space l.target_run l.pre)
    (last_not_space ha pre) hbefore
  have hcomma : ∀ p : Str, ∀ x ∈ (p ++ ", ".toList).getLast?, isHex x = false := by
    intro p x hx
    rw [List.getLast?_append_of_ne_nil _ (by decide)] at hx
    rw [← Option.mem_some_iff.mp hx]
    decide
  have hlast : ∀ x ∈ l.pre.getLast?, isHex x = false := by
    rcases l.pre_form with ⟨-, h⟩ | ⟨-, p, h⟩ <;> rw [h]
    · simp
    · exact hcomma p
  have hlast' : ∀ x ∈ pre.getLast?, isHex x = false := by
    rcases hpre with ⟨-, h⟩ | ⟨-, p, h⟩ <;> rw [h]
    · simp
    · exact hcomma p
  obtain ⟨hp, ht⟩ := run_unique_right l.target_run.2 ha.2 hlast hlast' hpa
  exact ⟨hp.symm, ht.symm, hbody⟩

theorem symbolic_of_replaced {out : Str} (h : Replaced (hexVal l.addr) l.inst l.operands out) :
    l.Symbolic out := by
  obtain ⟨hinst, hops⟩ := l.cut_of_replaced h
  obtain ⟨pre, a, s, u, ref, hat, hpre, href, hout⟩ := h
  obtain ⟨rfl, rfl, hbody⟩ := l.around_unique hops hat hpre
  rw [hinst] at href hout
  exact ⟨s, u, ref, hbody, hat.2.1, href, hout⟩

/-- A target with an offset shows in the operands. -/
theorem not_bare_of_replaced {out : Str} (h : Replaced (hexVal l.addr) l.inst l.operands out) :
    ¬ l.Bare := by
  rintro ⟨hb, hp, hat, hoff⟩
  obtain ⟨pre, a, s, u, ref, ⟨-, -, sp, -, hops⟩, -, href, -⟩ := h
  cases href with
  | name hb' => exact hb hb'
  | page hp' => exact hp hp'
  | label hu comment hc =>
    obtain ⟨o, ho, ⟨t, ht⟩ | ⟨t, ht⟩⟩ := hu
    · refine hoff ⟨pre ++ a ++ sp ++ '<' :: s, o ++ ['>'] ++ t, ?_⟩
      rw [hops, ← ht]
      simp
    · refine hat ?_
      rw [hops, ← ht]
      simp

theorem not_symbolic_copy : ¬ l.Symbolic (codeLine (hexVal l.addr) l.inst l.operands) := by
  rintro ⟨s, u, ref, hbody, hs, href, hout⟩
  have hcopy : l.inst ++ ' ' :: l.operands = l.mnem ++ ' ' :: (l.pre ++ ref) := by
    simpa [codeLine] using hout
  by_cases htab : '\t' ∈ l.inst
  · obtain ⟨j, hij, -⟩ := l.inst_of_tab htab
    rw [hij, List.append_assoc] at hcopy
    exact absurd (List.cons.inj (List.append_cancel_left hcopy)).1 (by decide)
  obtain ⟨hinst, hops⟩ := l.cut_eq htab
  rw [hinst, hops, ops] at hcopy
  have href_eq : l.target ++ (l.sp ++ '<' :: l.body) = ref := by
    simpa using hcopy
  obtain ⟨c, hc, hhex⟩ := l.target_run.head_mem (l.sp ++ '<' :: l.body)
  rw [href_eq] at hc
  cases href with
  | name hb h =>
    have hangle : '<' ∈ importName s := by simp [← href_eq]
    exact absurd (isWord_of_mem_importName hs hangle) (by decide)
  | label hu comment hcomment =>
    rw [List.cons_append, List.head?_cons, Option.some_inj] at hc
    exact absurd (hc ▸ hhex) (by decide)
  | page hp =>
    rw [List.head?_cons, Option.some_inj] at hc
    exact absurd (hc ▸ hhex) (by decide)

/-! ## A line with a code address -/

theorem printed_of_bare (hdot : ∀ c ∈ l.text, isDot c) (h : l.Bare) :
    Accepted l.text ∧ printed l.text = some (codeLine (hexVal l.addr) l.inst l.operands) := by
  have hact := l.action_text [] hdot l.not_format
  obtain ⟨hb, hp, hat, hoff⟩ := id h
  obtain ⟨⟨out, symbols⟩, hsome⟩ := Option.isSome_iff_exists.mp
    (processInsts_isSome [] (m := l.captures) hb hp hat hoff)
  rw [hsome] at hact
  have hout : out = codeLine (hexVal l.addr) l.inst l.operands := by
    cases processInsts_cases hsome with
    | inl hrep => exact absurd h (l.not_bare_of_replaced hrep)
    | inr hcopy => exact hcopy.2.2.2.2
  constructor
  · rw [Accepted, hact]
    simp
  · rw [printed, hact, hout]
    rfl

theorem printed_of_not_bare (hdot : ∀ c ∈ l.text, isDot c) (h : ¬ l.Bare) :
    ¬ Accepted l.text ∨ ∃ out, printed l.text = some out ∧ l.Symbolic out := by
  have hact := l.action_text [] hdot l.not_format
  cases hsome : processInsts [] l.captures with
  | none =>
    left
    rw [hsome] at hact
    exact not_not.mpr hact
  | some r =>
    right
    rw [hsome] at hact
    refine ⟨r.1, by rw [printed, hact]; rfl, ?_⟩
    cases processInsts_cases hsome with
    | inl hrep => exact l.symbolic_of_replaced hrep
    | inr hcopy => exact absurd ⟨hcopy.1, hcopy.2.1, hcopy.2.2.1, hcopy.2.2.2.1⟩ h

/-- A line is printed with its address exactly where it reaches the last case. -/
theorem symbolic_or_rejected_iff (hdot : ∀ c ∈ l.text, isDot c) :
    (¬ Accepted l.text ∨ ∃ out, printed l.text = some out ∧ l.Symbolic out) ↔ ¬ l.Bare := by
  constructor
  · intro h hbare
    obtain ⟨hacc, hout⟩ := l.printed_of_bare hdot hbare
    cases h with
    | inl hrej => exact hrej hacc
    | inr hsym =>
      obtain ⟨out, hout', hsym⟩ := hsym
      rw [hout, Option.some_inj] at hout'
      exact l.not_symbolic_copy (hout' ▸ hsym)
  · exact l.printed_of_not_bare hdot

end PcLine

/-! ## Whole listings -/

def lines (file : Str) : List Str := (readlines file).map strip

theorem isDot_of_mem_lines {file line : Str} (h : line ∈ lines file) {c : Char} (hc : c ∈ line) :
    isDot c := by
  obtain ⟨raw, hraw, rfl⟩ := List.mem_map.mp h
  exact isDot_of_mem_strip hraw hc

theorem accepted_of_refine {file : Str} {s : State} (h : refine file = .ok s) {line : Str}
    (hl : line ∈ lines file) : Accepted line := by
  obtain ⟨raw, hraw, rfl⟩ := List.mem_map.mp hl
  exact accepted_of_run h raw hraw

/-- An accepted listing has its code addresses replaced exactly if none of its lines reaches the
last case with one, and a line that the run reaches is printed without its address, or stops the
run with its number, under the same condition. -/
theorem refine_addresses_iff (file : Str) :
    (∀ s, refine file = .ok s →
      ((∀ l : PcLine, l.text ∈ lines file →
          ∃ out ∈ s.stdout, printed l.text = some out ∧ l.Symbolic out) ↔
        ∀ l : PcLine, l.text ∈ lines file → ¬ l.Bare)) ∧
    ∀ ls raw ls' (l : PcLine), readlines file = ls ++ raw :: ls' →
      (∀ r ∈ ls, Accepted (strip r)) → strip raw = l.text →
      (((∃ out, printed l.text = some out ∧ l.Symbolic out) ∨
          ∃ f, refine file = .error f ∧ f.lineno = ls.length + 1 ∧ f.line = l.text) ↔
        ¬ l.Bare) := by
  constructor
  · intro s hs
    apply forall_congr'
    intro l
    apply imp_congr_right
    intro hl
    have hdot : ∀ c ∈ l.text, isDot c := fun c hc => isDot_of_mem_lines hl hc
    rw [← l.symbolic_or_rejected_iff hdot]
    constructor
    · intro h
      obtain ⟨out, -, hout⟩ := h
      exact .inr ⟨out, hout⟩
    · intro h
      cases h with
      | inl hrej => exact absurd (accepted_of_refine hs hl) hrej
      | inr hsym =>
        obtain ⟨out, hout, hsym⟩ := hsym
        refine ⟨out, ?_, hout, hsym⟩
        obtain ⟨raw, hraw, heq⟩ := List.mem_map.mp hl
        rw [refine_stdout hs]
        exact List.mem_filterMap.mpr ⟨raw, hraw, heq ▸ hout⟩
  · intro ls raw ls' l hfile hacc hraw
    have hl : l.text ∈ lines file := List.mem_map.mpr ⟨raw, by simp [hfile], hraw⟩
    rw [← l.symbolic_or_rejected_iff fun c hc => isDot_of_mem_lines hl hc, or_comm]
    apply or_congr_left
    constructor
    · intro h hline
      obtain ⟨f, hf, hno, -⟩ := h
      obtain ⟨ls₁, raw₁, ls₁', hfile', hacc', hrej, rfl⟩ := refine_error_iff.mp hf
      have hlen : ls₁.length = ls.length := by simpa using hno
      have hraws := (List.append_inj (hfile.symm.trans hfile') hlen.symm).2
      rw [← (List.cons.inj hraws).1, hraw] at hrej
      exact hrej hline
    · intro h
      exact ⟨_, refine_error_iff.mpr ⟨ls, raw, ls', hfile, hacc, hraw ▸ h, rfl⟩, rfl, hraw⟩

def loopLine : PcLine where
  addr := "400".toList
  sp₁ := "\t".toList
  bin := "34000000".toList
  sp₂ := " \t".toList
  inst := "cbz".toList
  operands := "w0, 400 <loop>".toList
  addr_run := by decide
  sp₁_run := by decide
  bin_length := rfl
  bin_hex := by decide
  sp₂_run := by decide
  inst_ne := by decide
  inst_head := by decide
  operands_ne := by decide
  operands_tab := by decide
  mnem := "cbz".toList
  pre := "w0, ".toList
  target := "400".toList
  sp := " ".toList
  body := "loop>".toList
  mnem_run := by decide
  target_run := by decide
  sp_run := by decide
  pre_form := .inr ⟨by decide, "w0".toList, rfl⟩
  pre_angle := by decide
  body_angle := by decide
  code_eq := rfl
  not_format := by decide

theorem loopLine_address_kept :
    ¬ ∀ s, refine "400:\t34000000 \tcbz\tw0, 400 <loop>\n".toList = .ok s →
      ∀ l : PcLine, l.text ∈ lines "400:\t34000000 \tcbz\tw0, 400 <loop>\n".toList →
        ∃ out ∈ s.stdout, printed l.text = some out ∧ l.Symbolic out := by
  intro h
  obtain ⟨out, -, hout, hsym⟩ := h _ rfl loopLine (by decide)
  have hcopy : printed loopLine.text =
      some (codeLine (hexVal loopLine.addr) loopLine.inst loopLine.operands) := rfl
  rw [hcopy, Option.some_inj] at hout
  exact loopLine.not_symbolic_copy (hout ▸ hsym)

end Rebench.Refine
