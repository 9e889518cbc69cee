import Rebench.Machine.Assembly
import Rebench.Machine.Control
import Rebench.Text.Pattern

/-!
# The program of an assembly listing

The instruction of a line is what stands behind its label. A direct branch has
a name for its last operand, and a comment does not belong to the operands. The
program of a listing has the lines with instructions for its places, which are
passed in the order of the lines, and the labels for its names.
-/
namespace Rebench.Machine
open Text Control

/-- What is seen of an instruction: the mnemonic and the operands, of a direct branch those before the
name. -/
structure Instr where
  mnem : Str
  operands : Str
  deriving DecidableEq

/-- `b`, `bl`, `b.<cond>` and the branches that compare or test a register. -/
def Direct (mnem : Str) : Prop :=
  mnem ∈ ["b", "bl", "cbz", "cbnz", "tbz", "tbnz"].map String.toList ∨ "b.".toList <+: mnem

instance : DecidablePred Direct := fun _ => inferInstanceAs (Decidable (_ ∨ _))

section Flow
variable {ν ν' : Type*} {S : ν → ν' → Prop}

def flow (mnem : Str) (dest : Option ν) : Flow ν :=
  if mnem = "ret".toList then .ret
  else if mnem = "br".toList then .transfer false false none
  else if mnem = "blr".toList then .transfer true false none
  else if Direct mnem then
    .transfer (mnem = "bl".toList) (mnem ≠ "b".toList ∧ mnem ≠ "bl".toList) dest
  else .next

theorem flow_rel (mnem : Str) {dest : Option ν} {dest' : Option ν'} (h : Option.Rel S dest dest') :
    (flow mnem dest).Rel S (flow mnem dest') := by
  unfold flow
  split_ifs
  · exact .ret
  · exact .transfer .none
  · exact .transfer .none
  · exact .transfer h
  · exact .next

theorem flow_map (mnem : Str) (dest : Option ν) (φ : ν → ν') :
    (flow mnem dest).map φ = flow mnem (dest.map φ) := by
  unfold flow
  split_ifs <;> rfl

end Flow

/-! ## Reading a line -/

def uncommented : Str → Str
  | [] => []
  | c :: cs => if "//".toList <+: c :: cs then [] else c :: uncommented cs

def mnemonic (code : Str) : Str := (code.dropWhile isSpace).takeWhile (!isSpace ·)

def operands (code : Str) : Str :=
  (uncommented (((code.dropWhile isSpace).dropWhile (!isSpace ·)).drop 1)).rdropWhile isSpace

/-- The instruction and its flow; the name is the last word of the operands. The operands of the
mnemonics in `hidden` are not looked at. -/
def readCode (hidden : List Str) (code : Str) : Instr × Flow Str :=
  if Direct (mnemonic code) then
    (⟨mnemonic code, (operands code).rdropWhile isWord⟩,
      flow (mnemonic code) (some ((operands code).rtakeWhile isWord)))
  else
    (⟨mnemonic code, if hidden.contains (mnemonic code) then [] else operands code⟩,
      flow (mnemonic code) none)

section Read
variable {hidden : List Str} {mnem inst rest pre u name comment : Str}

theorem uncommented_append (hu : '/' ∉ u) (v : Str) : uncommented (u ++ v) = u ++ uncommented v := by
  induction u with
  | nil => rfl
  | cons c u ih =>
    have hpre : ¬ "//".toList <+: c :: (u ++ v) := by
      intro h
      have hc : '/' = c := ( List.cons_prefix_cons.mp h).1
      rw [hc] at hu
      exact hu List.mem_cons_self
    rw [List.cons_append, uncommented, if_neg hpre, ih fun h => hu (by simp [h])]
    rfl

theorem uncommented_comment (h : comment = [] ∨ " // <".toList <+: comment) :
    ∃ blank, uncommented comment = blank ∧ ∀ c ∈ blank, isSpace c := by
  rcases h with rfl | ⟨s, rfl⟩
  · exact ⟨[], rfl, by simp⟩
  · refine ⟨[' '], rfl, ?_⟩
    intro c hc
    rw [List.mem_singleton.mp hc]
    rfl

theorem dropWhile_tab (hne : inst ≠ []) (h : ∀ c ∈ inst.head?, isSpace c = false) (rest : Str) :
    ('\t' :: (inst ++ rest)).dropWhile isSpace = inst ++ rest := by
  apply (takeWhile_run (a := ['\t']) (b := inst ++ rest) (by decide) _).2
  intro c hc
  rw [List.head?_append_of_ne_nil _ hne] at hc
  exact h c hc

theorem mnemonic_tab (hne : inst ≠ []) (h : ∀ c ∈ inst.head?, isSpace c = false)
    (hrest : ∀ c ∈ rest.head?, isSpace c) :
    mnemonic ('\t' :: (inst ++ rest)) = inst.takeWhile (!isSpace ·) := by
  have hnone : rest.takeWhile (!isSpace ·) = [] := by
    cases rest with
    | nil => rfl
    | cons c rest => rw [List.takeWhile_cons_of_neg (by simpa using hrest c rfl)]
  rw [mnemonic, dropWhile_tab hne h, List.takeWhile_append]
  split_ifs with hlen
  · rw [hnone, List.append_nil]
    exact ((List.takeWhile_prefix _).eq_of_length hlen).symm
  · rfl

theorem takeWhile_mnemonic (h : IsRun (!isSpace ·) mnem) : mnem.takeWhile (!isSpace ·) = mnem :=
  List.takeWhile_eq_self_iff.mpr h.2

theorem operands_tab (h : IsRun (!isSpace ·) mnem) (rest : Str) :
    operands ('\t' :: (mnem ++ ' ' :: rest)) = (uncommented rest).rdropWhile isSpace := by
  have hhead : ∀ c ∈ mnem.head?, isSpace c = false := by
    intro c hc
    simpa using h.2 c (List.mem_of_head? hc)
  rw [operands, dropWhile_tab h.1 hhead,
    (takeWhile_run (p := (!isSpace ·)) (a := mnem) (b := ' ' :: rest) h.2 (by simp; decide)).2]
  rfl

/-- What is read of a direct branch. -/
theorem readCode_direct (hidden : List Str) (h : IsRun (!isSpace ·) mnem) (hd : Direct mnem)
    (hslash : '/' ∉ pre) (hpre : ∀ c ∈ pre.getLast?, isWord c = false) (hname : IsRun isWord name)
    (hcomment : comment = [] ∨ " // <".toList <+: comment) :
    readCode hidden ('\t' :: (mnem ++ ' ' :: (pre ++ (name ++ comment)))) =
      (⟨mnem, pre⟩, flow mnem (some name)) := by
  have hhead : ∀ c ∈ mnem.head?, isSpace c = false := by
    intro c hc
    simpa using h.2 c (List.mem_of_head? hc)
  have hmnem : mnemonic ('\t' :: (mnem ++ ' ' :: (pre ++ (name ++ comment)))) = mnem := by
    rw [mnemonic_tab h.1 hhead (by simp; decide), takeWhile_mnemonic h]
  have hslash' : '/' ∉ name := fun hc => absurd (hname.2 _ hc) (by decide)
  have hlast : ∀ c ∈ (pre ++ name).getLast?, isSpace c = false := by
    intro c hc
    rw [List.getLast?_append_of_ne_nil _ hname.1] at hc
    exact isSpace_eq_false_of_isWord (hname.2 c (List.mem_of_getLast? hc))
  have hops : operands ('\t' :: (mnem ++ ' ' :: (pre ++ (name ++ comment)))) = pre ++ name := by
    obtain ⟨blank, hblank, hspace⟩ := uncommented_comment hcomment
    rw [operands_tab h, uncommented_append hslash, uncommented_append hslash', hblank,
      ← List.append_assoc]
    exact (rtakeWhile_run hlast hspace).2
  rw [readCode, hmnem, if_pos hd, hops, (rtakeWhile_run hpre hname.2).1,
    (rtakeWhile_run hpre hname.2).2]

theorem readCode_other {code : Str} (h : ¬ Direct (mnemonic code)) :
    readCode hidden code =
      (⟨mnemonic code, if hidden.contains (mnemonic code) then [] else operands code⟩,
        flow (mnemonic code) none) := if_neg h

end Read

/-! ## The program -/

def HasCode (out : List Str) (j : ℕ) : Prop := ∃ line, out[j]? = some line ∧ codeOf line ≠ []

def NextCode (out : List Str) (j n : ℕ) : Prop :=
  j < n ∧ HasCode out n ∧ ∀ q, j < q → q < n → ¬ HasCode out q

def program (hidden out : List Str) : Program ℕ Str Instr where
  Holds j i f :=
    ∃ line, out[j]? = some line ∧ codeOf line ≠ [] ∧ readCode hidden (codeOf line) = (i, f)
  Next := NextCode out
  Names := Denotes out

theorem not_hasCode {out : List Str} {j : ℕ} :
    ¬ HasCode out j ↔ ∀ line, out[j]? = some line → codeOf line = [] := by
  simp [HasCode]

/-- A label names the first instruction that is not above it. -/
theorem denotes_iff {out : List Str} {label : Str} {j : ℕ} : Denotes out label j ↔
    (∃ p ≤ j, (∃ line, out[p]? = some line ∧ labelOf line = label) ∧
      ∀ q, p ≤ q → q < j → ¬ HasCode out q) ∧ HasCode out j := by
  simp only [not_hasCode]
  exact Iff.rfl

theorem place_program {hidden out : List Str} {j : ℕ} :
    (program hidden out).Place j ↔ HasCode out j := by
  constructor
  · intro h
    obtain ⟨i, f, line, hline, hcode, -⟩ := h
    exact ⟨line, hline, hcode⟩
  · intro h
    obtain ⟨line, hline, hcode⟩ := h
    exact ⟨_, _, line, hline, hcode, rfl⟩

/-! ## Lines with the same instruction -/

/-- The second line has the label of the first one and its instruction, with another name. -/
structure Retargets (hidden : List Str) (φ : Str → Str) (line line' : Str) : Prop where
  label : labelOf line' = labelOf line
  code : codeOf line' = [] ↔ codeOf line = []
  instr : codeOf line ≠ [] → readCode hidden (codeOf line') =
    ((readCode hidden (codeOf line)).1, (readCode hidden (codeOf line)).2.map φ)

/-- The second line has the label of the first one and an instruction that is read alike. -/
abbrev Restates (hidden : List Str) (line line' : Str) : Prop := Retargets hidden id line line'

theorem Restates.refl (hidden : List Str) (line : Str) : Restates hidden line line := by
  refine ⟨rfl, Iff.rfl, fun _ => ?_⟩
  rw [Flow.map_id]

/-- Under a hidden mnemonic any operands are read alike. -/
theorem restates_of_mnemonic {hidden : List Str} {name mnem : Str} (hname : ':' ∉ name)
    (h : IsRun (!isSpace ·) mnem) (hd : ¬ Direct mnem) (hhidden : mnem ∈ hidden)
    (rest rest' : Str) :
    Restates hidden (name ++ ':' :: '\t' :: (mnem ++ ' ' :: rest))
      (name ++ ':' :: '\t' :: (mnem ++ ' ' :: rest')) := by
  have hhead : ∀ c ∈ mnem.head?, isSpace c = false := by
    intro c hc
    simpa using h.2 c (List.mem_of_head? hc)
  have hmnem : ∀ r, mnemonic ('\t' :: (mnem ++ ' ' :: r)) = mnem := by
    intro r
    rw [mnemonic_tab h.1 hhead (by simp; decide), takeWhile_mnemonic h]
  have hread : ∀ r, readCode hidden ('\t' :: (mnem ++ ' ' :: r)) =
      (⟨mnem, []⟩, flow mnem none) := by
    intro r
    rw [readCode_other (by rwa [hmnem]), hmnem, if_pos ( List.contains_iff_mem.mpr hhidden)]
  constructor
  · rw [labelOf_append hname, labelOf_append hname]
  · rw [codeOf_append hname, codeOf_append hname]
    simp
  · intro _
    rw [codeOf_append hname, codeOf_append hname, hread, hread, Flow.map_id]

section Retarget
variable {hidden out out' more : List Str} {φ : ℕ → Str → Str} {j : ℕ} {line line' : Str}

/-- Line by line the second listing has what the first one has, with other names. -/
structure Lines (hidden : List Str) (φ : ℕ → Str → Str) (out out' : List Str) : Prop where
  length : out'.length = out.length
  line : ∀ j line line', out[j]? = some line → out'[j]? = some line' →
    Retargets hidden (φ j) line line'

theorem Lines.left (h : Lines hidden φ out out') (hmore : ∀ l ∈ more, codeOf l = [])
    (hj : (out' ++ more)[j]? = some line') :
    (∃ line, out[j]? = some line ∧ Retargets hidden (φ j) line line') ∨
      out[j]? = none ∧ codeOf line' = [] := by
  rcases Nat.lt_or_ge j out'.length with hlt | hge
  · left
    rw [List.getElem?_append_left hlt] at hj
    have hlt' : j < out.length := h.length ▸ hlt
    have hline : out[j]? = some out[j] := List.getElem?_eq_getElem hlt'
    exact ⟨_, hline, h.line j _ _ hline hj⟩
  · right
    rw [List.getElem?_append_right hge] at hj
    exact ⟨List.getElem?_eq_none (h.length ▸ hge), hmore line' (List.mem_of_getElem? hj)⟩

theorem Lines.right (h : Lines hidden φ out out') (more : List Str) (hj : out[j]? = some line) :
    ∃ line', (out' ++ more)[j]? = some line' ∧ Retargets hidden (φ j) line line' := by
  have hlt : j < out'.length := h.length ▸ (List.getElem?_eq_some_iff.mp hj).1
  have hline : out'[j]? = some out'[j] := List.getElem?_eq_getElem hlt
  rw [List.getElem?_append_left hlt]
  exact ⟨_, hline, h.line j _ _ hj hline⟩

theorem Lines.hasCode_iff (h : Lines hidden φ out out') (hmore : ∀ l ∈ more, codeOf l = []) :
    HasCode (out' ++ more) j ↔ HasCode out j := by
  constructor
  · intro hj
    obtain ⟨line', hline', hne⟩ := hj
    rcases h.left hmore hline' with ⟨line, hline, hr⟩ | ⟨-, hnil⟩
    · exact ⟨line, hline, fun hnil => hne (hr.code.mpr hnil)⟩
    · exact absurd hnil hne
  · intro hj
    obtain ⟨line, hline, hne⟩ := hj
    obtain ⟨line', hline', hr⟩ := h.right more hline
    exact ⟨line', hline', fun hnil => hne (hr.code.mp hnil)⟩

theorem Lines.holds_iff (h : Lines hidden φ out out') (hmore : ∀ l ∈ more, codeOf l = []) {i : Instr}
    {f : Flow Str} :
    (program hidden (out' ++ more)).Holds j i f ↔ ((program hidden out).retarget φ).Holds j i f := by
  constructor
  · intro hj
    obtain ⟨line', hline', hne, hread⟩ := hj
    rcases h.left hmore hline' with ⟨line, hline, hr⟩ | ⟨-, hnil⟩
    · have hne' : codeOf line ≠ [] := fun hnil => hne (hr.code.mpr hnil)
      rw [hr.instr hne', Prod.mk.injEq] at hread
      exact ⟨(readCode hidden (codeOf line)).2, ⟨line, hline, hne', Prod.ext hread.1 rfl⟩,
        hread.2.symm⟩
    · exact absurd hnil hne
  · intro hj
    obtain ⟨g, ⟨line, hline, hne, hread⟩, rfl⟩ := hj
    obtain ⟨line', hline', hr⟩ := h.right more hline
    refine ⟨line', hline', fun hnil => hne (hr.code.mp hnil), ?_⟩
    rw [hr.instr hne, hread]

theorem Lines.denotes_iff (h : Lines hidden φ out out') (hmore : ∀ l ∈ more, codeOf l = []) {x : Str} :
    Denotes (out' ++ more) x j ↔ Denotes out x j := by
  rw [Machine.denotes_iff, Machine.denotes_iff, h.hasCode_iff hmore]
  apply and_congr_left
  intro hj
  obtain ⟨l, hl, -⟩ := hj
  have hlt := (List.getElem?_eq_some_iff.mp hl).1
  apply exists_congr
  intro p
  apply and_congr_right
  intro hp
  simp only [h.hasCode_iff hmore]
  apply and_congr_left
  intro _
  constructor
  · intro hlabel
    obtain ⟨line', hline', rfl⟩ := hlabel
    rcases h.left hmore hline' with ⟨line, hline, hr⟩ | ⟨hnone, -⟩
    · exact ⟨line, hline, hr.label.symm⟩
    · exact absurd (List.getElem?_eq_none_iff.mp hnone) (by omega)
  · intro hlabel
    obtain ⟨line, hline, rfl⟩ := hlabel
    obtain ⟨line', hline', hr⟩ := h.right more hline
    exact ⟨line', hline', hr.label⟩

/-- Such a listing, with lines without code behind it, is the same program up to the names. -/
theorem program_retarget (h : Lines hidden φ out out') (hmore : ∀ l ∈ more, codeOf l = []) :
    program hidden (out' ++ more) = (program hidden out).retarget φ := by
  have hholds : (program hidden (out' ++ more)).Holds = ((program hidden out).retarget φ).Holds := by
    ext j i f
    exact h.holds_iff hmore
  have hnext : NextCode (out' ++ more) = NextCode out := by
    ext j n
    simp only [NextCode, h.hasCode_iff hmore]
  have hnames : Denotes (out' ++ more) = Denotes out := by
    ext x j
    exact h.denotes_iff hmore
  simp only [program, Program.retarget] at hholds ⊢
  rw [hholds, hnext, hnames]

/-- Lines that say the same, with lines without code behind them, are the same program. -/
theorem program_congr (h : Lines hidden (fun _ => id) out out') (hmore : ∀ l ∈ more, codeOf l = []) :
    program hidden (out' ++ more) = program hidden out := by
  rw [program_retarget h hmore, Program.retarget_id]

end Retarget

/-! ## Lines with the same instruction under other labels -/

section Relabel
variable {hidden out : List Str} {g : Str → Str} (hcode : ∀ line ∈ out, codeOf (g line) = codeOf line)
include hcode

theorem exists_code_map_iff (p : Str → Prop) {j : ℕ} :
    (∃ line, (out.map g)[j]? = some line ∧ p (codeOf line)) ↔
      ∃ line, out[j]? = some line ∧ p (codeOf line) := by
  rw [List.getElem?_map]
  cases hline : out[j]? with
  | none => simp
  | some line => simp [hcode line (List.mem_of_getElem? hline)]

theorem hasCode_map {j : ℕ} : HasCode (out.map g) j ↔ HasCode out j :=
  exists_code_map_iff hcode (· ≠ [])

theorem holds_map : (program hidden (out.map g)).Holds = (program hidden out).Holds := by
  ext j i f
  exact exists_code_map_iff hcode fun code => code ≠ [] ∧ readCode hidden code = (i, f)

theorem next_map : (program hidden (out.map g)).Next = (program hidden out).Next := by
  ext j n
  simp only [program, NextCode, hasCode_map hcode]

/-- A name stands for what the label in its place stood for. -/
theorem denotes_map {x y : Str} (hlabel : ∀ line ∈ out, labelOf (g line) = x ↔ labelOf line = y)
    (j : ℕ) : Denotes (out.map g) x j ↔ Denotes out y j := by
  have hdefined : ∀ p : ℕ, (∃ line, (out.map g)[p]? = some line ∧ labelOf line = x) ↔
      ∃ line, out[p]? = some line ∧ labelOf line = y := by
    intro p
    rw [List.getElem?_map]
    cases hline : out[p]? with
    | none => simp
    | some line => simp [hlabel line (List.mem_of_getElem? hline)]
  rw [denotes_iff, denotes_iff]
  simp only [hdefined, hasCode_map hcode]

end Relabel

/-! ## Directives in front -/

/-- A line that defines no label of an instruction: without a colon, and not a word. -/
def IsDirective (line : Str) : Prop := ':' ∉ line ∧ ∃ c ∈ line, isWord c = false

instance : DecidablePred IsDirective := fun _ => inferInstanceAs (Decidable (_ ∧ _))

/-- Places behind `n` lines more. -/
def Shifted (n : ℕ) (j j' : ℕ) : Prop := j' = n + j

/-- A name of word characters, which stays as it is. -/
def SameName (x x' : Str) : Prop := x' = x ∧ ∀ c ∈ x, isWord c

theorem flow_dest {ν : Type*} {mnem : Str} {dest : Option ν} {link cond : Bool} {x : ν}
    (h : flow mnem dest = .transfer link cond (some x)) : dest = some x := by
  unfold flow at h
  split_ifs at h
  · exact absurd h (by simp)
  · exact absurd h (by simp)
  · exact (Flow.transfer.inj h).2.2

theorem isWord_of_readCode {hidden : List Str} {code x : Str} {i : Instr} {link cond : Bool}
    (h : readCode hidden code = (i, .transfer link cond (some x))) : ∀ c ∈ x, isWord c := by
  by_cases hd : Direct (mnemonic code)
  · rw [readCode, if_pos hd] at h
    have hx := flow_dest (Prod.mk.inj h).2
    rw [← Option.some.inj hx]
    intro c hc
    exact List.mem_rtakeWhile_imp hc
  · rw [readCode_other hd] at h
    exact absurd (flow_dest (Prod.mk.inj h).2) (by simp)

theorem rel_sameName {hidden : List Str} {code : Str} {i : Instr} {f : Flow Str}
    (h : readCode hidden code = (i, f)) : f.Rel SameName f := by
  apply ( Flow.Rel.refl f).imp_of_dest
  rintro link cond x x' rfl rfl
  exact ⟨rfl, isWord_of_readCode h⟩

section Prefix
variable {hidden pre outs : List Str} {j n : ℕ} {x : Str}

theorem labelOf_directive {line : Str} (h : IsDirective line) : labelOf line = line := by
  rw [labelOf, List.takeWhile_eq_self_iff]
  intro c hc
  exact bne_iff_ne.mpr fun hcolon => h.1 (hcolon ▸ hc)

theorem getElem?_shifted (pre outs : List Str) (j : ℕ) : (pre ++ outs)[pre.length + j]? = outs[j]? := by
  rw [List.getElem?_append_right (by omega)]
  congr 1
  omega

theorem hasCode_shifted : HasCode (pre ++ outs) (pre.length + j) ↔ HasCode outs j := by
  simp only [HasCode, getElem?_shifted]

/-- Instructions stand behind the directives only. -/
theorem hasCode_behind (hpre : ∀ l ∈ pre, IsDirective l) :
    HasCode (pre ++ outs) n ↔ ∃ j, Shifted pre.length j n ∧ HasCode outs j := by
  constructor
  · intro h
    obtain ⟨line, hline, hcode⟩ := h
    rcases Nat.lt_or_ge n pre.length with hlt | hge
    · rw [List.getElem?_append_left hlt] at hline
      exact absurd (codeOf_eq_nil (hpre line (List.mem_of_getElem? hline)).1) hcode
    · have hn : n = pre.length + (n - pre.length) := by omega
      refine ⟨n - pre.length, hn, ?_⟩
      have hcode' : HasCode (pre ++ outs) (pre.length + (n - pre.length)) := by
        rw [← hn]
        exact ⟨line, hline, hcode⟩
      exact hasCode_shifted.mp hcode'
  · rintro ⟨j, rfl, h⟩
    exact hasCode_shifted.mpr h

theorem nextCode_shifted {m : ℕ} :
    NextCode (pre ++ outs) (pre.length + j) (pre.length + m) ↔ NextCode outs j m := by
  simp only [NextCode, hasCode_shifted]
  constructor
  · intro h
    obtain ⟨hlt, hm, hq⟩ := h
    refine ⟨by omega, hm, fun q hjq hqm hcode => ?_⟩
    exact hq (pre.length + q) (by omega) (by omega) (hasCode_shifted.mpr hcode)
  · intro h
    obtain ⟨hlt, hm, hq⟩ := h
    refine ⟨by omega, hm, fun q hjq hqm hcode => ?_⟩
    have hn : q = pre.length + (q - pre.length) := by omega
    rw [hn] at hcode
    exact hq (q - pre.length) (by omega) (by omega) (hasCode_shifted.mp hcode)

theorem denotes_shifted (hpre : ∀ l ∈ pre, IsDirective l) (hx : ∀ c ∈ x, isWord c) :
    Denotes (pre ++ outs) x (pre.length + j) ↔ Denotes outs x j := by
  rw [denotes_iff, denotes_iff, hasCode_shifted]
  apply and_congr_left
  intro _
  constructor
  · intro h
    obtain ⟨p, hp, ⟨line, hline, rfl⟩, hq⟩ := h
    rcases Nat.lt_or_ge p pre.length with hlt | hge
    · rw [List.getElem?_append_left hlt] at hline
      have hdir := hpre line (List.mem_of_getElem? hline)
      rw [labelOf_directive hdir] at hx
      obtain ⟨c, hc, hnot⟩ := hdir.2
      exact absurd (hx c hc) (by simp [hnot])
    · obtain ⟨r, rfl⟩ := Nat.exists_eq_add_of_le hge
      rw [getElem?_shifted] at hline
      refine ⟨r, by omega, ⟨line, hline, rfl⟩, fun q hrq hqj hcode => ?_⟩
      exact hq (pre.length + q) (by omega) (by omega) (hasCode_shifted.mpr hcode)
  · intro h
    obtain ⟨p, hp, ⟨line, hline, rfl⟩, hq⟩ := h
    refine ⟨pre.length + p, by omega, ⟨line, by rwa [getElem?_shifted], rfl⟩, fun q hrq hqj hcode => ?_⟩
    obtain ⟨r, rfl⟩ := Nat.exists_eq_add_of_le (show pre.length ≤ q by omega)
    exact hq r (by omega) (by omega) (hasCode_shifted.mp hcode)

/-- Lines behind directives do what they do without them. -/
theorem simulates_shifted (hpre : ∀ l ∈ pre, IsDirective l) :
    (program hidden outs).Simulates (program hidden (pre ++ outs)) (Shifted pre.length) SameName where
  holds := by
    rintro j j' i f rfl ⟨line, hline, hcode, hread⟩
    exact ⟨f, ⟨line, by rwa [getElem?_shifted], hcode, hread⟩, rel_sameName hread⟩
  next := by
    rintro j j' n rfl - hn
    exact ⟨_, nextCode_shifted.mpr hn, rfl⟩
  names := by
    rintro x x' j ⟨rfl, hx⟩ hj
    exact ⟨_, (denotes_shifted hpre hx).mpr hj, rfl⟩
  outside := by
    rintro x x' ⟨rfl, hx⟩ hnone n hn
    obtain ⟨j, rfl, -⟩ := (hasCode_behind hpre).mp (denotes_iff.mp hn).2
    exact hnone j ((denotes_shifted hpre hx).mp hn)
  place := by
    intro j hj
    exact ⟨_, place_program.mpr (hasCode_shifted.mpr (place_program.mp hj)), rfl⟩

/-- And nothing else. -/
theorem shifted_simulates (hpre : ∀ l ∈ pre, IsDirective l) :
    (program hidden (pre ++ outs)).Simulates (program hidden outs) (flip (Shifted pre.length))
      (flip SameName) where
  holds := by
    rintro j' j i f rfl ⟨line, hline, hcode, hread⟩
    rw [getElem?_shifted] at hline
    exact ⟨f, ⟨line, hline, hcode, hread⟩, (rel_sameName hread).flip⟩
  next := by
    rintro j' j n rfl - hn
    obtain ⟨m, rfl, -⟩ := (hasCode_behind hpre).mp hn.2.1
    exact ⟨m, nextCode_shifted.mp hn, rfl⟩
  names := by
    rintro x' x n ⟨rfl, hx⟩ hn
    obtain ⟨j, rfl, -⟩ := (hasCode_behind hpre).mp (denotes_iff.mp hn).2
    exact ⟨j, (denotes_shifted hpre hx).mp hn, rfl⟩
  outside := by
    rintro x' x ⟨rfl, hx⟩ hnone j hj
    exact hnone _ ((denotes_shifted hpre hx).mpr hj)
  place := by
    intro n hn
    obtain ⟨j, hj, hcode⟩ := (hasCode_behind hpre).mp (place_program.mp hn)
    exact ⟨j, place_program.mpr hcode, hj⟩

end Prefix

end Rebench.Machine
