import Rebench.Post.Source

/-!
# The lines that the patterns read

An `adrp` line and the three kinds of lines that use its register are read in
one way only, and no line is of two kinds.
-/
namespace Rebench.Post
open Text Pattern

/-! ## The texts of the lines -/

/-- A register name of the source's class; the reader also takes a bar. -/
def IsReg (r : Str) : Prop := ∃ c n, r = c :: n ∧ c ∈ ['x', '|', 'd', 'q'] ∧ IsRun isDec n

structure IsAdrp (line label reg addr rest : Str) : Prop where
  text : line = 'L' :: (label ++ ':' :: ("\tadrp ".toList ++ (reg ++ (", ?".toList ++ (addr ++ rest)))))
  label : IsRun isHex label
  reg : IsReg reg
  addr : IsRun isHex addr
  rest : ∀ c ∈ rest.head?, isHex c = false

inductive Kind where
  | add | ldr | ldrBase
  deriving DecidableEq

namespace Kind

def opcode : Kind → Str
  | add => "\tadd ".toList
  | ldr | ldrBase => "\tldr ".toList

def between : Kind → Str
  | add => ", ".toList
  | ldr | ldrBase => ", [".toList

def mark : Kind → Str
  | add => ", #0x".toList
  | ldr => ",#".toList
  | ldrBase => "]".toList

def pat : Kind → Pat
  | add => Pat.add
  | ldr => Pat.ldr
  | ldrBase => Pat.ldrBase

end Kind

/-- A line that uses a register, by the parts that the loop looks at. -/
@[ext] structure Use where
  kind : Kind
  label : Str
  base : Str
  offset : Str
  deriving DecidableEq

/-- The line of a use, with its first register and what stands behind the offset. -/
structure IsUse (line : Str) (u : Use) (reg rest : Str) : Prop where
  text : line = 'L' :: (u.label ++ ':' :: (u.kind.opcode ++ (reg ++ (u.kind.between ++ (u.base ++
    (u.kind.mark ++ (u.offset ++ rest)))))))
  label : IsRun isHex u.label
  reg : IsReg reg
  base : IsReg u.base
  offset : if u.kind = .ldrBase then u.offset = [] else
    IsRun isHex u.offset ∧ ∀ c ∈ rest.head?, isHex c = false

/-! ## Matching -/

section Match
variable {w s t line label reg addr rest : Str} {c m : Captures Char Group} {a : Pat} {n : Group}

theorem first_append_register (ha : a.first s = some (c, w ++ t)) (hw : IsReg w)
    (ht : ∀ x ∈ t.head?, isDec x = false) :
    (a ++ Pat.register n).first s = some (c ++ [(n, w)], t) := by
  apply first_append_of_first ha
  obtain ⟨d, k, rfl, hd, hk⟩ := hw
  have hclass : (exactly 1 (fun c => c ∈ ['x', '|', 'd', 'q']) : Pat).first ([d] ++ (k ++ t)) =
      some ([], k ++ t) := first_exactly _ rfl (by simpa using hd)
  exact first_named (first_append_of_first hclass (first_plus hk ht))

theorem first_label (hl : IsRun isHex label) (t : Str) :
    Pat.label.first ('L' :: (label ++ ':' :: t)) = some ([(.label, label)], t) := by
  have hL : (Pat.str "L").first ('L' :: (label ++ ':' :: t)) = some ([], label ++ ':' :: t) :=
    first_lit ['L'] _
  have hcolon : ∀ x ∈ (':' :: t).head?, isHex x = false := by
    intro x hx
    rw [← Option.some.inj hx]
    rfl
  exact first_append_lit (first_append_run hL hl hcolon)

theorem first_opcode (hl : IsRun isHex label) (op : String) (t : Str) :
    (Pat.label ++ Pat.str op).first ('L' :: (label ++ ':' :: (op.toList ++ t))) =
      some ([(.label, label)], t) :=
  first_append_lit (first_label hl _)

theorem first_append_register_str (op : String) {d : Char} {ds : Str} (hop : op.toList = d :: ds)
    (hd : isDec d = false) (ha : a.first s = some (c, w ++ (op.toList ++ t))) (hw : IsReg w) :
    (a ++ Pat.register n ++ Pat.str op).first s = some (c ++ [(n, w)], t) := by
  apply first_append_lit
  apply first_append_register ha hw
  intro x hx
  rw [hop] at hx
  rw [← Option.some.inj hx]
  exact hd

theorem IsAdrp.match? (h : IsAdrp line label reg addr rest) :
    Pat.adrp.match? line = some [(.label, label), (.reg, reg), (.addr, addr)] := by
  rw [h.text]
  have hop := first_opcode h.label "\tadrp " (reg ++ (", ?".toList ++ (addr ++ rest)))
  have hreg := first_append_register_str (n := .reg) ", ?" rfl rfl hop h.reg
  exact congrArg (Option.map Prod.fst) (first_append_run hreg h.addr h.rest)

def Use.captures (u : Use) (reg : Str) : Captures Char Group :=
  [(.label, u.label), (.reg, reg), (.reg2, u.base)] ++
    if u.kind = .ldrBase then [] else [(.offset, u.offset)]

theorem IsUse.match? {u : Use} (h : IsUse line u reg rest) :
    u.kind.pat.match? line = some (u.captures reg) := by
  obtain ⟨kind, label, base, offset⟩ := u
  obtain ⟨htext, hlabel, hreg, hbase, hoffset⟩ := h
  rw [htext]
  cases kind with
  | add =>
    have hop := first_opcode hlabel "\tadd " (reg ++ (", ".toList ++ (base ++ (", ".toList ++
      ("#0x".toList ++ (offset ++ rest))))))
    have hfirst := first_append_register_str (n := .reg) ", " rfl rfl hop hreg
    have hsecond := first_append_register_str (n := .reg2) ", " rfl rfl hfirst hbase
    have hoff := first_append_run (n := .offset) (first_append_lit hsecond) hoffset.1 hoffset.2
    rw [first_append_assoc] at hoff
    exact congrArg (Option.map Prod.fst) hoff
  | ldr =>
    have hop := first_opcode hlabel "\tldr " (reg ++ (", [".toList ++ (base ++ (",".toList ++
      ("#".toList ++ (offset ++ rest))))))
    have hfirst := first_append_register_str (n := .reg) ", [" rfl rfl hop hreg
    have hsecond := first_append_register_str (n := .reg2) "," rfl rfl hfirst hbase
    have hoff := first_append_run (n := .offset) (first_append_lit hsecond) hoffset.1 hoffset.2
    rw [first_append_assoc] at hoff
    exact congrArg (Option.map Prod.fst) hoff
  | ldrBase =>
    have hop := first_opcode hlabel "\tldr " (reg ++ (", [".toList ++ (base ++ ("]".toList ++
      (offset ++ rest)))))
    have hfirst := first_append_register_str (n := .reg) ", [" rfl rfl hop hreg
    have hsecond := first_append_register_str (n := .reg2) "]" rfl rfl hfirst hbase
    exact congrArg (Option.map Prod.fst) hsecond

theorem exists_of_reads_label (h : Pat.label.Reads w m) :
    ∃ l, IsRun isHex l ∧ w = 'L' :: (l ++ [':']) := by
  obtain ⟨_, _, rfl, _, _, -, h, rfl, -⟩ := h
  obtain ⟨_, l, rfl, _, _, -, ⟨rfl, -⟩, _, -, hl, -⟩ := h
  exact ⟨l, hl, by simp⟩

theorem isReg_of_reads (h : (Pat.register n).Reads w m) : IsReg w := by
  obtain ⟨_, -, c, k, rfl, _, _, -, ⟨hlen, hclass, -⟩, hk, -⟩ := h
  obtain ⟨d, rfl⟩ := List.length_eq_one_iff.mp hlen
  exact ⟨d, k, rfl, by simpa using hclass d (by simp), hk⟩

theorem exists_of_reads_front {op between : String} (h : (Pat.label ++ Pat.str op ++ Pat.reg ++
      Pat.str between ++ Pat.reg2).Reads w m) :
    ∃ l r r2, IsRun isHex l ∧ IsReg r ∧ IsReg r2 ∧
      w = 'L' :: (l ++ ':' :: (op.toList ++ (r ++ (between.toList ++ r2)))) := by
  obtain ⟨_, r2, rfl, _, _, -, h, hr2⟩ := h
  obtain ⟨_, _, rfl, _, _, -, h, rfl, -⟩ := h
  obtain ⟨_, r, rfl, _, _, -, h, hr⟩ := h
  obtain ⟨_, _, rfl, _, _, -, h, rfl, -⟩ := h
  obtain ⟨l, hl, rfl⟩ := exists_of_reads_label h
  exact ⟨l, r, r2, hl, isReg_of_reads hr, isReg_of_reads hr2, by simp⟩

theorem exists_isAdrp (hm : Pat.adrp.match? line = some m) :
    ∃ label reg addr rest, IsAdrp line label reg addr rest := by
  obtain ⟨w, r, rfl, h⟩ := exists_reads_of_match? hm
  obtain ⟨_, a, rfl, _, _, -, h, _, -, ha, -⟩ := h
  obtain ⟨_, _, rfl, _, _, -, h, rfl, -⟩ := h
  obtain ⟨_, reg, rfl, _, _, -, h, hreg⟩ := h
  obtain ⟨_, _, rfl, _, _, -, h, rfl, -⟩ := h
  obtain ⟨l, hl, rfl⟩ := exists_of_reads_label h
  obtain ⟨addr, rest, hsplit, haddr, hrest⟩ := ha.exists_maximal r
  refine ⟨l, reg, addr, rest, ?_, hl, isReg_of_reads hreg, haddr, hrest⟩
  simp only [List.append_assoc, hsplit, List.cons_append]
  rfl

theorem exists_isUse {k : Kind} (hm : k.pat.match? line = some m) :
    ∃ u reg rest, IsUse line u reg rest ∧ u.kind = k := by
  obtain ⟨w, r, rfl, h⟩ := exists_reads_of_match? hm
  cases k with
  | add =>
    obtain ⟨_, _, rfl, _, _, -, h, hoff⟩ := h
    obtain ⟨_, o, rfl, _, _, -, ⟨rfl, -⟩, _, -, ho, -⟩ := hoff
    obtain ⟨_, _, rfl, _, _, -, h, rfl, -⟩ := h
    obtain ⟨l, reg, base, hl, hreg, hbase, rfl⟩ := exists_of_reads_front h
    obtain ⟨offset, rest, hsplit, hoffset, hrest⟩ := ho.exists_maximal r
    refine ⟨⟨.add, l, base, offset⟩, reg, rest, ⟨?_, hl, hreg, hbase, hoffset, hrest⟩, rfl⟩
    simp only [List.append_assoc, hsplit, List.cons_append]
    rfl
  | ldr =>
    obtain ⟨_, _, rfl, _, _, -, h, hoff⟩ := h
    obtain ⟨_, o, rfl, _, _, -, ⟨rfl, -⟩, _, -, ho, -⟩ := hoff
    obtain ⟨_, _, rfl, _, _, -, h, rfl, -⟩ := h
    obtain ⟨l, reg, base, hl, hreg, hbase, rfl⟩ := exists_of_reads_front h
    obtain ⟨offset, rest, hsplit, hoffset, hrest⟩ := ho.exists_maximal r
    refine ⟨⟨.ldr, l, base, offset⟩, reg, rest, ⟨?_, hl, hreg, hbase, hoffset, hrest⟩, rfl⟩
    simp only [List.append_assoc, hsplit, List.cons_append]
    rfl
  | ldrBase =>
    obtain ⟨_, _, rfl, _, _, -, h, rfl, -⟩ := h
    obtain ⟨l, reg, base, hl, hreg, hbase, rfl⟩ := exists_of_reads_front h
    refine ⟨⟨.ldrBase, l, base, []⟩, reg, r, ⟨?_, hl, hreg, hbase, rfl⟩, rfl⟩
    simp only [List.append_assoc, List.cons_append]
    rfl

end Match

/-! ## One reading -/

section Unique
variable {line : Str}

theorem label_unique {l l' s s' : Str} (hl : IsRun isHex l) (hl' : IsRun isHex l')
    (h : 'L' :: (l ++ ':' :: s) = 'L' :: (l' ++ ':' :: s')) : l = l' ∧ s = s' := by
  obtain ⟨hll, hss⟩ := run_unique hl.2 hl'.2 (by simp; rfl) (by simp; rfl) (List.cons.inj h).2
  exact ⟨hll, (List.cons.inj hss).2⟩

theorem register_unique {r r' s s' : Str} (hr : IsReg r) (hr' : IsReg r')
    (hs : ∀ c ∈ s.head?, isDec c = false) (hs' : ∀ c ∈ s'.head?, isDec c = false)
    (h : r ++ s = r' ++ s') : r = r' ∧ s = s' := by
  obtain ⟨c, k, rfl, -, hk⟩ := hr
  obtain ⟨c', k', rfl, -, hk'⟩ := hr'
  obtain ⟨hc, hks⟩ := List.cons.inj h
  obtain ⟨hkk, hss⟩ := run_unique hk.2 hk'.2 hs hs' hks
  exact ⟨by rw [hc, hkk], hss⟩

theorem opcode_take (k : Kind) (s : Str) : (k.opcode ++ s).take 4 = k.opcode.take 4 := by
  cases k <;> rfl

theorem between_head? (k : Kind) (s : Str) : (k.between ++ s).head? = k.between.head? := by
  cases k <;> rfl

theorem mark_head? (k : Kind) (s : Str) : (k.mark ++ s).head? = k.mark.head? := by
  cases k <;> rfl

theorem opcode_inj {k k' : Kind} {s s' : Str} (h : k.opcode ++ s = k'.opcode ++ s') :
    k.opcode = k'.opcode ∧ k.between = k'.between := by
  have htake : k.opcode.take 4 = k'.opcode.take 4 := by
    rw [← opcode_take k s, ← opcode_take k' s', h]
  revert htake
  cases k <;> cases k' <;> decide

theorem mark_inj {k k' : Kind} {s s' : Str} (hop : k.opcode = k'.opcode)
    (h : k.mark ++ s = k'.mark ++ s') : k = k' := by
  have hhead : k.mark.head? = k'.mark.head? := by
    rw [← mark_head? k s, ← mark_head? k' s', h]
  revert hop hhead
  cases k <;> cases k' <;> decide

theorem IsAdrp.not_isUse {label reg addr rest reg' rest' : Str} {u : Use}
    (h : IsAdrp line label reg addr rest) : ¬ IsUse line u reg' rest' := by
  intro hu
  have htext := h.text.symm.trans hu.text
  obtain ⟨-, hop⟩ := label_unique h.label hu.label htext
  have htake : "\tadr".toList = u.kind.opcode.take 4 := by
    rw [← opcode_take, ← hop]
    rfl
  revert htake
  cases u.kind <;> decide

theorem between_head (k : Kind) (s : Str) : ∀ c ∈ (k.between ++ s).head?, isDec c = false := by
  rw [between_head?]
  cases k <;> decide

theorem mark_head (k : Kind) (s : Str) : ∀ c ∈ (k.mark ++ s).head?, isDec c = false := by
  rw [mark_head?]
  cases k <;> decide

theorem IsUse.unique {u u' : Use} {reg rest reg' rest' : Str} (h : IsUse line u reg rest)
    (h' : IsUse line u' reg' rest') : u = u' ∧ reg = reg' ∧ rest = rest' := by
  have htext := h.text.symm.trans h'.text
  obtain ⟨hlabel, htext⟩ := label_unique h.label h'.label htext
  have hops := opcode_inj htext
  rw [hops.1] at htext
  obtain ⟨hreg, htext⟩ := register_unique h.reg h'.reg (between_head _ _) (between_head _ _)
    (List.append_cancel_left htext)
  rw [hops.2] at htext
  obtain ⟨hbase, htext⟩ := register_unique h.base h'.base (mark_head _ _) (mark_head _ _)
    (List.append_cancel_left htext)
  have hkind := mark_inj hops.1 htext
  rw [hkind] at htext
  have htext := List.append_cancel_left htext
  have hoff := h.offset
  have hoff' := h'.offset
  rw [hkind] at hoff
  by_cases hb : u'.kind = .ldrBase
  · rw [if_pos hb] at hoff hoff'
    rw [hoff, hoff'] at htext
    exact ⟨Use.ext hkind hlabel hbase (hoff.trans hoff'.symm), hreg, htext⟩
  · rw [if_neg hb] at hoff hoff'
    obtain ⟨hoffset, hrest⟩ := run_unique hoff.1.2 hoff'.1.2 hoff.2 hoff'.2 htext
    exact ⟨Use.ext hkind hlabel hbase hoffset, hreg, hrest⟩

end Unique

end Rebench.Post
