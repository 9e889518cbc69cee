import Rebench.Refine.Emission
import Rebench.Machine.Run

/-!
# Whole runs over a listing

Every line of an accepted listing is skipped or prints one line, and what it
prints depends on that line alone. An instruction line with operands is cut at
its last tab, since the pattern for the mnemonic takes all it can.
-/
namespace Rebench.Refine
open Text Pattern Machine

/-! ## Instruction lines -/

/-- An instruction line with operands, cut at its last tab. -/
structure InstLine where
  addr : Str
  sp₁ : Str
  bin : Str
  sp₂ : Str
  inst : Str
  operands : Str
  addr_run : IsRun isHex addr
  sp₁_run : IsRun isSpace sp₁
  bin_length : bin.length = 8
  bin_hex : ∀ c ∈ bin, isHex c
  sp₂_run : IsRun isSpace sp₂
  inst_ne : inst ≠ []
  inst_head : ∀ c ∈ inst.head?, isSpace c = false
  operands_ne : operands ≠ []
  operands_tab : '\t' ∉ operands

/-- What the pattern for instruction lines reads: the mnemonic may hold tabs itself. -/
theorem exists_of_reads_instOperands {w : Str} {m : Match} (h : instOperands.Reads w m) :
    ∃ a sp₁ bin sp₂ inst ops, IsRun isHex a ∧ IsRun isSpace sp₁ ∧
      (bin.length = 8 ∧ ∀ c ∈ bin, isHex c) ∧ IsRun isSpace sp₂ ∧ inst ≠ [] ∧
      w = a ++ ':' :: (sp₁ ++ (bin ++ (sp₂ ++ (inst ++ '\t' :: ops)))) ∧
      m = [(.addr, a), (.bin, bin), (.inst, inst), (.operands, ops)] := by
  obtain ⟨_, ops, rfl, _, _, rfl, h, hops⟩ := reads_append.mp h
  obtain ⟨_, _, rfl, _, _, rfl, h, htab⟩ := reads_append.mp h
  obtain ⟨_, inst, rfl, _, _, rfl, h, hinst⟩ := reads_append.mp h
  obtain ⟨_, sp₂, rfl, _, _, rfl, h, hsp₂⟩ := reads_append.mp h
  obtain ⟨_, bin, rfl, _, _, rfl, h, hbin⟩ := reads_append.mp h
  obtain ⟨_, sp₁, rfl, _, _, rfl, h, hsp₁⟩ := reads_append.mp h
  obtain ⟨a, _, rfl, _, _, rfl, ha, hcolon⟩ := reads_append.mp h
  obtain ⟨-, rfl⟩ := reads_operands.mp hops
  obtain ⟨rfl, rfl⟩ := reads_str.mp htab
  obtain ⟨hirun, rfl⟩ := reads_inst.mp hinst
  obtain ⟨hrun₂, rfl⟩ := reads_space.mp hsp₂
  obtain ⟨hlen, hhex, rfl⟩ := reads_bin.mp hbin
  obtain ⟨hrun₁, rfl⟩ := reads_space.mp hsp₁
  obtain ⟨harun, rfl⟩ := reads_addr.mp ha
  obtain ⟨rfl, rfl⟩ := reads_str.mp hcolon
  exact ⟨a, sp₁, bin, sp₂, inst, ops, harun, hrun₁, ⟨hlen, hhex⟩, hrun₂, hirun.1, by simp, rfl⟩

theorem first_front {a sp₁ bin sp₂ rest : Str} (ha : IsRun isHex a) (hsp₁ : IsRun isSpace sp₁)
    (hlen : bin.length = 8) (hbin : ∀ c ∈ bin, isHex c) (hsp₂ : IsRun isSpace sp₂)
    (hrest : ∀ c ∈ rest.head?, isSpace c = false) :
    (Pat.addr ++ Pat.str ":" ++ Pat.space ++ Pat.bin ++ Pat.space).first
      (a ++ (':' :: (sp₁ ++ (bin ++ (sp₂ ++ rest))))) = some ([(.addr, a), (.bin, bin)], rest) := by
  have hcolon : ∀ x ∈ (':' :: (sp₁ ++ (bin ++ (sp₂ ++ rest)))).head?, isHex x = false := by
    simp only [List.head?_cons, Option.mem_some_iff]
    rintro x rfl
    decide
  have hrun : IsRun isHex bin := by
    refine ⟨fun h => ?_, hbin⟩
    rw [h] at hlen
    exact absurd hlen (by simp)
  have h₁ := first_named (n := Group.addr) (first_plus (ν := Group) ha hcolon)
  have h₂ := first_plus (ν := Group) hsp₁
    (hrun.head_not_mem (fun x hx => isSpace_eq_false_of_isHex hx) (sp₂ ++ rest))
  have h₃ := first_named (n := Group.bin) (first_exactly (ν := Group) (sp₂ ++ rest) hlen hbin)
  have h₄ := first_plus (ν := Group) hsp₂ hrest
  exact first_append_of_first (first_append_of_first (first_append_of_first
    (first_append_of_first h₁ (first_lit [':'] _)) h₂) h₃) h₄

namespace InstLine
variable (l : InstLine)

def text : Str :=
  l.addr ++ (':' :: (l.sp₁ ++ (l.bin ++ (l.sp₂ ++ (l.inst ++ '\t' :: l.operands)))))

def captures : Match :=
  [(.addr, l.addr), (.bin, l.bin), (.inst, l.inst), (.operands, l.operands)]

theorem first_tab_operands {s : Str} (hne : s ≠ []) (hs : ∀ c ∈ s, isDot c) :
    (Pat.tab ++ Pat.operands).first ('\t' :: s) = some ([(.operands, s)], []) := by
  have hrun := first_named (n := Group.operands)
    (first_plus (ν := Group) (w := s) (s := []) ⟨hne, hs⟩ (by simp))
  rw [List.append_nil] at hrun
  exact first_append_of_first (first_lit ['\t'] s) hrun

theorem first_tab_operands_none {s : Str} (hs : '\t' ∉ s) :
    (Pat.tab ++ Pat.operands).first s = none := by
  have h : (Pat.tab ++ Pat.operands).match? s = none := by
    rw [match?_eq_none]
    rintro w r m rfl hw
    obtain ⟨u, v, rfl, _, _, rfl, hu, -⟩ := reads_append.mp hw
    obtain ⟨rfl, -⟩ := reads_str.mp hu
    exact hs (by simp)
  simpa [match?] using h

/-- The mnemonic's pattern gives back exactly the last tab and what follows it. -/
theorem match?_text (hdot : ∀ c ∈ l.text, isDot c) : instOperands.match? l.text = some l.captures := by
  have hinst : ∀ x ∈ (l.inst ++ '\t' :: l.operands).head?, isSpace x = false := by
    intro x hx
    rw [List.head?_append_of_ne_nil _ l.inst_ne] at hx
    exact l.inst_head x hx
  have hfront := first_front l.addr_run l.sp₁_run l.bin_length l.bin_hex l.sp₂_run hinst
  have hrest : (Pat.inst ++ (Pat.tab ++ Pat.operands)).first (l.inst ++ '\t' :: l.operands) =
      some ([(.inst, l.inst), (.operands, l.operands)], []) := by
    refine first_named_plus_append ⟨l.inst_ne, fun c hc => hdot c (by simp [text, hc])⟩
      (first_tab_operands l.operands_ne fun c hc => hdot c (by simp [text, hc])) ?_
    rintro u v huv ⟨hne, -⟩
    cases u with
    | nil => exact absurd rfl hne
    | cons c u =>
      have hv : l.operands = u ++ v := (List.cons.inj huv).2
      exact first_tab_operands_none fun h => l.operands_tab (by simp [hv, h])
  have hall : instOperands.first l.text = some (l.captures, []) := by
    rw [instOperands, first_append_assoc, first_append_assoc]
    exact first_append_of_first hfront hrest
  rw [match?, hall]
  rfl

theorem cut_of_code {mnem ops : Str} (hcode : l.inst ++ '\t' :: l.operands = mnem ++ '\t' :: ops)
    (h : '\t' ∉ l.inst) : l.inst = mnem ∧ l.operands = ops :=
  split_unique h l.operands_tab hcode

theorem tab_of_code {mnem ops : Str} (hcode : l.inst ++ '\t' :: l.operands = mnem ++ '\t' :: ops)
    (hmnem : '\t' ∉ mnem) (h : '\t' ∈ l.inst) :
    ∃ j, l.inst = mnem ++ '\t' :: j ∧ ops = j ++ '\t' :: l.operands := by
  obtain ⟨i, j, hij, hi⟩ := List.eq_append_cons_of_mem h
  rw [hij, List.append_assoc, List.cons_append] at hcode
  have htabs : ∀ {c : Str}, '\t' ∉ c → ∀ x ∈ c, (x != '\t') = true := by
    intro c hc x hx
    exact bne_iff_ne.mpr fun hxt => hc (hxt ▸ hx)
  obtain ⟨rfl, hrest⟩ := run_unique (htabs hi) (htabs hmnem) (by simp) (by simp) hcode
  exact ⟨j, hij, (List.cons.inj hrest).2.symm⟩

end InstLine

/-! ## What a line prints -/

def Action.output : Action → Option Str
  | .define sym => some (sym ++ ":".toList)
  | .print line _ => some line
  | _ => none

def printed (line : Str) : Option Str := (action [] line).output

def Accepted (line : Str) : Prop := action [] line ≠ .fail

/-- The symbols recorded so far change neither the output of a line nor its acceptance. -/
theorem action_output (symbols : List Str) (line : Str) :
    (action symbols line).output = printed line ∧
      (action symbols line = .fail ↔ action [] line = .fail) := by
  unfold printed action
  split_ifs
  · simp
  · simp
  · simp
  · simp
  split
  · simp
  split
  · simp
  split
  next m hm =>
    have h := processInsts_fst symbols m
    cases hp : processInsts symbols m <;> cases hq : processInsts [] m <;> rw [hp, hq] at h
    · simp
    · exact absurd h (by simp)
    · exact absurd h (by simp)
    · simpa [Action.output] using h
  next =>
    split
    · split_ifs <;> simp [Action.output]
    · simp

theorem colon_of_run {a rest h t : Str} {c : Char} (ha : IsRun isHex a) (hh : ∀ x ∈ h, isHex x)
    (hc : isHex c = false) (heq : a ++ ':' :: rest = h ++ c :: t) : c = ':' := by
  have hcolon : ∀ x ∈ (':' :: rest).head?, isHex x = false := by
    rintro x hx
    rw [List.head?_cons, Option.mem_some_iff] at hx
    rw [← hx]
    decide
  obtain ⟨-, htail⟩ := run_unique ha.2 hh hcolon (by simpa using hc) heq
  exact (List.cons.inj htail).1.symm

theorem header_match?_none {q : Pat} {a rest : Str} (ha : IsRun isHex a) :
    (Pat.addr ++ Pat.space ++ q ++ Pat.str ":").match? (a ++ ':' :: rest) = none := by
  rw [match?_eq_none]
  intro w r m hw hr
  obtain ⟨u, v, rfl, c, d, rfl, hu, -⟩ := reads_append.mp hr
  obtain ⟨a', sp, v', d', ha', ⟨hne, hsp⟩, -, rfl, -⟩ := reads_addr_space.mp hu
  cases sp with
  | nil => exact absurd rfl hne
  | cons x sp =>
    have hx : isSpace x := hsp x (by simp)
    have hcolon := colon_of_run (t := sp ++ v' ++ v ++ r) ha ha'.2 (isHex_eq_false_of_isSpace hx)
      (by simpa using hw)
    rw [hcolon] at hx
    exact absurd hx (by decide)

/-- On an instruction line the loop does what `processInsts` says. -/
theorem InstLine.action_text (l : InstLine) (symbols : List Str) (hdot : ∀ c ∈ l.text, isDot c)
    (hformat : ¬ "file format".toList <:+: l.text) :
    action symbols l.text = match processInsts symbols l.captures with
      | some (out, symbols) => .print out symbols
      | none => .fail := by
  have hne : l.text.length ≠ 0 := by
    simp [text]
  have hcomment : ¬ "#".toList <+: l.text := by
    rintro ⟨r, hr⟩
    exact absurd (colon_of_run (h := []) (t := r) l.addr_run (by simp) (by decide : isHex '#' = false)
      hr.symm) (by decide)
  have hdis : ¬ "Disassembly".toList <+: l.text := by
    rintro ⟨r, hr⟩
    exact absurd (colon_of_run (h := ['D']) (t := "sassembly".toList ++ r) l.addr_run
      (by decide) (by decide : isHex 'i' = false) hr.symm) (by decide)
  have h₁ : header.match? l.text = none := header_match?_none l.addr_run
  have h₂ : headerBase.match? l.text = none := header_match?_none l.addr_run
  have h₃ : headerBaseOffset.match? l.text = none := header_match?_none l.addr_run
  rw [action, if_neg hne, if_neg hcomment, if_neg hformat, if_neg hdis, h₁, h₂, h₃,
    l.match?_text hdot]
  rfl

theorem step_of_accepted {s : State} {raw : Str} (h : Accepted (strip raw)) :
    ∃ t, step s raw = .ok t ∧ t.lineno = s.lineno + 1 ∧
      t.stdout = s.stdout ++ (printed (strip raw)).toList := by
  obtain ⟨hout, hfail⟩ := action_output s.symbols (strip raw)
  simp only [step, ← hout]
  cases ha : action s.symbols (strip raw) with
  | skip => simp [Action.output]
  | define sym => simp [Action.output]
  | print out symbols => simp [Action.output]
  | fail => exact absurd (hfail.mp ha) h

theorem step_of_not_accepted {s : State} {raw : Str} (h : ¬ Accepted (strip raw)) :
    step s raw = .error ⟨s.lineno + 1, strip raw, s.stdout⟩ := by
  have hfail := (action_output s.symbols (strip raw)).2.mpr (not_not.mp h)
  simp only [step, hfail]

/-! ## Runs -/

/-- The run over accepted lines prints each line's own output, in order. -/
theorem run_of_accepted (s : State) (ls : List Str) (h : ∀ raw ∈ ls, Accepted (strip raw)) :
    ∃ t, ls.foldlM step s = .ok t ∧ t.lineno = s.lineno + ls.length ∧
      t.stdout = s.stdout ++ ls.filterMap fun raw => printed (strip raw) := by
  induction ls generalizing s with
  | nil => exact ⟨s, rfl, rfl, by simp⟩
  | cons raw ls ih =>
    obtain ⟨u, hu, hn, hout⟩ := step_of_accepted (s := s) (h raw (by simp))
    obtain ⟨t, ht, hn', hout'⟩ := ih u fun r hr => h r (by simp [hr])
    refine ⟨t, foldlM_eq_ok_cons.mpr ⟨u, hu, ht⟩, ?_, ?_⟩
    · rw [hn', hn, List.length_cons]
      omega
    · rw [hout', hout, List.filterMap_cons]
      cases printed (strip raw) <;> simp

theorem accepted_of_run {s t : State} {ls : List Str} (h : ls.foldlM step s = .ok t) :
    ∀ raw ∈ ls, Accepted (strip raw) := by
  induction ls generalizing s with
  | nil => simp
  | cons raw ls ih =>
    obtain ⟨u, hu, ht⟩ := foldlM_eq_ok_cons.mp h
    rintro r hr
    by_cases hacc : Accepted (strip raw)
    · rcases List.mem_cons.mp hr with rfl | hr
      · exact hacc
      · exact ih ht r hr
    · rw [step_of_not_accepted hacc] at hu
      exact absurd hu (by simp)

/-- The output of an accepted listing, line by line. -/
theorem refine_stdout {file : Str} {s : State} (h : refine file = .ok s) :
    s.stdout = (readlines file).filterMap fun raw => printed (strip raw) := by
  obtain ⟨t, ht, -, hout⟩ := run_of_accepted start (readlines file) (accepted_of_run h)
  have hst : s = t := Except.ok.inj (h.symm.trans ht)
  simpa [hst, start] using hout

theorem refine_ok_iff {file : Str} :
    (∃ s, refine file = .ok s) ↔ ∀ raw ∈ readlines file, Accepted (strip raw) := by
  constructor
  · rintro ⟨s, h⟩
    exact accepted_of_run h
  · intro h
    obtain ⟨t, ht, -⟩ := run_of_accepted start (readlines file) h
    exact ⟨t, ht⟩

/-- A rejected listing stops at its first line that is not accepted, and says which it is. -/
theorem refine_error_iff {file : Str} {f : Failure} :
    refine file = .error f ↔ ∃ ls raw ls', readlines file = ls ++ raw :: ls' ∧
      (∀ r ∈ ls, Accepted (strip r)) ∧ ¬ Accepted (strip raw) ∧
      f = ⟨ls.length + 1, strip raw, ls.filterMap fun r => printed (strip r)⟩ := by
  rw [refine, foldlM_eq_error]
  constructor
  · rintro ⟨ls, raw, ls', t, hl, ht, hf⟩
    have hacc := accepted_of_run ht
    obtain ⟨u, hu, hn, hout⟩ := run_of_accepted start ls hacc
    have htu : t = u := Except.ok.inj (ht.symm.trans hu)
    have hraw : ¬ Accepted (strip raw) := fun h => by
      obtain ⟨v, hv, -⟩ := step_of_accepted (s := t) h
      rw [hv] at hf
      exact absurd hf (by simp)
    refine ⟨ls, raw, ls', hl, hacc, hraw, ?_⟩
    rw [step_of_not_accepted hraw, htu, hn, hout] at hf
    simpa [start] using (Except.error.inj hf).symm
  · rintro ⟨ls, raw, ls', hl, hacc, hraw, rfl⟩
    obtain ⟨t, ht, hn, hout⟩ := run_of_accepted start ls hacc
    refine ⟨ls, raw, ls', t, hl, ht, ?_⟩
    rw [step_of_not_accepted hraw, hn, hout]
    simp [start]

end Rebench.Refine
