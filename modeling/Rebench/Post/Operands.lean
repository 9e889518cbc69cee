import Rebench.Machine.Operand
import Rebench.Post.Edits

/-!
# The operands of the lines of a pair

The edited line of a use has the operand of the line before, with the low part
of the label for the offset; what stands behind the offset stays.
-/
namespace Rebench.Post
open Text Machine

section Tokens
variable {label reg : Str}

theorem isToken_label (h : IsRun isHex label) : IsToken ('L' :: (label ++ [':'])) := by
  refine ⟨by simp, fun c hc => ?_⟩
  cases List.mem_cons.mp hc with
  | inl hc =>
    rw [hc]
    rfl
  | inr hc =>
    cases List.mem_append.mp hc with
    | inl hc => exact isBlank_eq_false_of_isHex (h.2 c hc)
    | inr hc =>
      rw [List.mem_singleton.mp hc]
      rfl

theorem isToken_register (h : IsReg reg) : IsToken (reg ++ [',']) := by
  obtain ⟨d, k, rfl, hd, hk⟩ := h
  refine ⟨by simp, fun c hc => ?_⟩
  cases List.mem_append.mp hc with
  | inl hc =>
    cases List.mem_cons.mp hc with
    | inl hc => exact hc ▸ (by decide : ∀ d ∈ ['x', '|', 'd', 'q'], isBlank d = false) d hd
    | inr hc => exact isBlank_eq_false_of_isHex (isHex_of_isDec (hk.2 c hc))
  | inr hc =>
    rw [List.mem_singleton.mp hc]
    rfl

theorem comma_notMem_register (h : IsReg reg) : ',' ∉ reg := notMem_register h rfl (by decide)

theorem isToken_append {u v : Str} (hu : ∀ c ∈ u, isBlank c = false) (hv : IsToken v) :
    IsToken (u ++ v) := by
  refine ⟨by simp [hv.1], fun c hc => ?_⟩
  cases List.mem_append.mp hc with
  | inl hc => exact hu c hc
  | inr hc => exact hv.2 c hc

theorem isRun_label (a : ℕ) : IsRun isWord (Post.label a) := by
  refine ⟨by simp [Post.label], fun c hc => ?_⟩
  cases List.mem_cons.mp hc with
  | inl hc =>
    rw [hc]
    rfl
  | inr hc => exact isWord_of_isHex (isHex_of_mem_hex hc)

theorem isToken_target (a : ℕ) : IsToken (Post.label a) :=
  isToken_append (u := ['L']) (by decide)
    (IsRun.isToken ⟨hex_ne_nil a, fun _ => isHex_of_mem_hex⟩)

end Tokens

/-! ## Lines by their parts -/

section Lines
variable {label reg base t : Str}

theorem pageOperand_adrpEdited (hl : IsRun isHex label) (hreg : IsReg reg) (a : ℕ) :
    pageOperand (adrpEdited label reg (Post.label a) []) = some (reg, Post.label a) := by
  have hline : adrpEdited label reg (Post.label a) [] =
      'L' :: (label ++ [':']) ++ '\t' :: ("adrp".toList ++ ' ' ::
        ((reg ++ [',']) ++ ' ' :: Post.label a)) := by
    simp [adrpEdited]
  rw [hline, pageOperand, words_instruction (isToken_label hl) (by decide),
    words_token_blank (isToken_register hreg) rfl, words_token (isToken_target a)]
  exact congrArg (fun r => some (r, Post.label a)) (beforeComma_comma (comma_notMem_register hreg) [])

theorem addressOperand_addLine (hl : IsRun isHex label) (hreg : IsReg reg) (hbase : IsReg base)
    (t : Str) :
    addressOperand ('L' :: (label ++ ':' :: (Kind.add.opcode ++ (reg ++ (Kind.add.between ++
      (base ++ (", ".toList ++ t))))))) = addImmediate base (words t) := by
  have hline := addressOperand_add (isToken_label hl) (isToken_register hreg)
    (isToken_register hbase) t
  rw [beforeComma_comma (comma_notMem_register hbase)] at hline
  rw [← hline]
  congr 1
  simp [Kind.opcode, Kind.between]

theorem addressOperand_ldrLine (hl : IsRun isHex label) (hreg : IsReg reg) (t : Str) :
    addressOperand ('L' :: (label ++ ':' :: ("\tldr ".toList ++ (reg ++ (", [".toList ++ t))))) =
      closedOperand t := by
  have hu : '[' ∉ 'L' :: (label ++ ':' :: ("\tldr ".toList ++ (reg ++ [',']))) := by
    simp only [List.mem_cons, List.mem_append, notMem_label hl (c := '[') rfl,
      notMem_register hreg (c := '[') rfl (by decide), false_or]
    decide
  have hline : 'L' :: (label ++ ':' :: ("\tldr ".toList ++ (reg ++ (", [".toList ++ t)))) =
      'L' :: (label ++ ':' :: ("\tldr ".toList ++ (reg ++ [',']))) ++ ' ' :: '[' :: t := by
    rw [show ", [".toList = [',', ' ', '['] from rfl]
    simp
  have hlabel : 'L' :: (label ++ ':' :: ("\tldr ".toList ++ (reg ++ (", [".toList ++ t)))) =
      'L' :: (label ++ [':']) ++ '\t' :: ("ldr".toList ++ ' ' :: (reg ++ (", [".toList ++ t))) := by
    simp
  rw [addressOperand, hlabel, words_instruction (isToken_label hl) (by decide), ← hlabel, hline,
    memoryOperand, behindBracket_append hu]
  exact if_neg (by decide)

end Lines

/-! ## The line of a use, before and after -/

section Uses
variable {line reg rest : Str} {u : Use} {o : AddressOperand} {d : ℤ}

theorem takeWhile_bracket {r : Str} (h : ']' ∉ r) (s : Str) :
    (r ++ s).takeWhile (· != ']') = r ++ s.takeWhile (· != ']') := by
  apply List.takeWhile_append_of_pos
  intro c hc
  exact bne_iff_ne.mpr fun heq => h (heq ▸ hc)

/-- What stands before the closing bracket may be exchanged. -/
theorem closedOperand_exchange {r r' s : Str} (hr : ']' ∉ r) (hr' : ']' ∉ r')
    (h : closedOperand (r ++ s) = some o) : ∃ behind,
      o = bracketed (r ++ s.takeWhile (· != ']')) behind ∧
        closedOperand (r' ++ s) = some (bracketed (r' ++ s.takeWhile (· != ']')) behind) := by
  obtain ⟨behind, hcut, ho⟩ := closedOperand_eq_some h
  rw [takeWhile_bracket hr] at hcut ho
  rw [List.append_assoc, List.append_cancel_left_eq] at hcut
  have hinner : ']' ∉ r' ++ s.takeWhile (· != ']') := by
    rw [List.mem_append, not_or]
    exact ⟨hr', fun hc => absurd (List.mem_takeWhile_imp hc) (by simp)⟩
  refine ⟨behind, ho, ?_⟩
  conv_lhs => rw [hcut, ← List.append_assoc]
  exact closedOperand_append hinner behind

theorem number_offset {offset w : Str} (ho : IsRun isHex offset)
    (hw : ∀ c ∈ w.head?, isHex c = false) :
    number ("#0x".toList ++ (offset ++ w)) = if w = [] then some (hexVal offset : ℤ) else none := by
  rw [number_hex]
  cases w with
  | nil => rw [List.append_nil, if_pos ho, if_pos rfl]
  | cons c w =>
    rw [if_neg, if_neg (by simp)]
    intro h
    have hc := h.2 c (by simp)
    rw [hw c rfl] at hc
    exact absurd hc (by simp)

/-- The digits end before another character, so that a numeric operand ends with them. -/
theorem displacement_offset {base offset w behind : Str} {shifted : Bool} (ho : IsRun isHex offset)
    (hw : ∀ c ∈ w.head?, isHex c = false)
    (hd : (⟨base, some ("#0x".toList ++ offset ++ w), shifted, behind⟩ : AddressOperand).displacement
      (fun _ => none) = some d) :
    w = [] ∧ d = if shifted then (hexVal offset : ℤ) * 4096 else hexVal offset := by
  rw [displacement_none, List.append_assoc, number_offset ho hw] at hd
  by_cases hnil : w = []
  · rw [if_pos hnil] at hd
    exact ⟨hnil, (Option.some.inj hd).symm⟩
  · rw [if_neg hnil] at hd
    exact absurd hd (by simp)

theorem head?_takeWhile_notHex (p : Char → Bool) (h : ∀ c ∈ rest.head?, isHex c = false) :
    ∀ c ∈ (rest.takeWhile p).head?, isHex c = false := by
  intro c hc
  rw [List.head?_takeWhile] at hc
  exact h c (Option.filter_eq_some_iff.mp hc).1

theorem IsUse.operand_add (h : IsUse line u reg rest) (hk : u.kind = .add)
    (ho : addressOperand line = some o) (hd : o.displacement (fun _ => none) = some d) (a : ℕ) :
    o.base = u.base ∧ o.behind = [] ∧
      d = (if o.shifted then (hexVal u.offset : ℤ) * 4096 else hexVal u.offset) ∧
      addressOperand (useEdited u reg (Post.label a) rest) =
        some ⟨u.base, some ("#:lo12:".toList ++ Post.label a), o.shifted, []⟩ := by
  obtain ⟨kind, label, base, offset⟩ := u
  obtain ⟨htext, hl, hreg, hbase, hoffset⟩ := h
  subst hk
  obtain ⟨hoffset, hrest⟩ := hoffset
  have hline : line = 'L' :: (label ++ ':' :: (Kind.add.opcode ++ (reg ++ (Kind.add.between ++
      (base ++ (", ".toList ++ (("#0x".toList ++ offset) ++ rest))))))) := by
    rw [htext, show Kind.add.mark = ", ".toList ++ "#0x".toList from rfl]
    simp only [List.append_assoc]
  have hedited : useEdited ⟨.add, label, base, offset⟩ reg (Post.label a) rest =
      'L' :: (label ++ ':' :: (Kind.add.opcode ++ (reg ++ (Kind.add.between ++ (base ++
        (", ".toList ++ (("#:lo12:".toList ++ Post.label a) ++ rest))))))) := by
    rw [useEdited, if_pos rfl]
    simp only [List.append_assoc]
  have hmark := isToken_append (u := "#0x".toList) (by decide) hoffset.isToken
  have hlow := isToken_append (u := "#:lo12:".toList) (by decide) (isToken_target a)
  rw [hline, addressOperand_addLine hl hreg hbase, words_append hmark] at ho
  rw [hedited, addressOperand_addLine hl hreg hbase, words_append hlow]
  have hfront := head?_takeWhile_notHex (fun c => !isBlank c) hrest
  rcases addImmediate_eq_some ho with ⟨hwords, rfl⟩ | ⟨hwords, rfl⟩
  · obtain ⟨hw, hvalue⟩ := displacement_offset hoffset hfront hd
    rw [hwords, hw, List.append_nil (_ ++ Post.label a)]
    exact ⟨rfl, rfl, hvalue, rfl⟩
  · have hcomma : ',' ∉ "#0x".toList ++ offset := by
      rw [List.mem_append, not_or]
      exact ⟨by decide, notMem_label hoffset rfl⟩
    have hcomma' : ',' ∉ "#:lo12:".toList ++ Post.label a := by
      rw [List.mem_append, not_or]
      exact ⟨by decide, fun h => absurd ((isRun_label a).2 _ h) (by decide)⟩
    rw [beforeComma_append hcomma] at hd
    have hbefore : ∀ c ∈ (beforeComma (rest.takeWhile fun c => !isBlank c)).head?,
        isHex c = false := head?_takeWhile_notHex _ hfront
    obtain ⟨hw, hvalue⟩ := displacement_offset hoffset hbefore hd
    rw [hwords, addImmediate, if_pos (And.intro rfl rfl), beforeComma_append hcomma', hw,
      List.append_nil]
    exact ⟨rfl, rfl, hvalue, rfl⟩

/-- An `ldr` with an offset keeps what stands behind the offset. -/
theorem IsUse.operand_ldr (h : IsUse line u reg rest) (hk : u.kind = .ldr)
    (ho : addressOperand line = some o) (a : ℕ) :
    o = ⟨u.base, some ('#' :: (u.offset ++ rest.takeWhile (· != ']'))), false, o.behind⟩ ∧
      addressOperand (useEdited u reg (Post.label a) rest) = some ⟨u.base,
        some ("#:lo12:".toList ++ (Post.label a ++ rest.takeWhile (· != ']'))), false, o.behind⟩ := by
  obtain ⟨kind, label, base, offset⟩ := u
  obtain ⟨htext, hl, hreg, hbase, hoffset⟩ := h
  subst hk
  have hcomma := comma_notMem_register hbase
  have hclose := notMem_register hbase (c := ']') rfl (by decide)
  have hlow : "#:lo12:".toList = '#' :: ":lo12:".toList := rfl
  have hline : line = 'L' :: (label ++ ':' :: ("\tldr ".toList ++ (reg ++ (", [".toList ++
      ((base ++ ',' :: '#' :: offset) ++ rest))))) := by
    rw [htext, show Kind.ldr.mark = [',', '#'] from rfl]
    simp [Kind.opcode, Kind.between]
  have hedited : useEdited ⟨.ldr, label, base, offset⟩ reg (Post.label a) rest =
      'L' :: (label ++ ':' :: ("\tldr ".toList ++ (reg ++ (", [".toList ++
        ((base ++ ',' :: '#' :: (":lo12:".toList ++ Post.label a)) ++ rest))))) := by
    rw [useEdited, if_neg (by simp), hlow, show ",".toList = [','] from rfl]
    simp only [Kind.opcode, Kind.between, List.append_assoc, List.cons_append, List.nil_append]
  have hoff : ']' ∉ base ++ ',' :: '#' :: offset := by
    simp [hclose, notMem_label hoffset.1 (c := ']') rfl]
  have hclosed : ']' ∉ base ++ ',' :: '#' :: (":lo12:".toList ++ Post.label a) := by
    have hword : ']' ∉ Post.label a := fun h => absurd ((isRun_label a).2 _ h) (by decide)
    simp [hclose, hword]
  rw [hline, addressOperand_ldrLine hl hreg] at ho
  rw [hedited, addressOperand_ldrLine hl hreg]
  obtain ⟨behind, rfl, hafter⟩ := closedOperand_exchange hoff hclosed ho
  rw [hafter, List.append_assoc, List.append_assoc, List.cons_append, List.cons_append,
    List.cons_append, List.cons_append, bracketed_offset hcomma rfl, bracketed_offset hcomma rfl,
    hlow, List.append_assoc]
  exact ⟨rfl, rfl⟩

theorem IsUse.operand_ldrBase (h : IsUse line u reg rest) (hk : u.kind = .ldrBase) :
    addressOperand line = some ⟨u.base, none, false, rest.dropWhile isBlank⟩ := by
  obtain ⟨kind, label, base, offset⟩ := u
  obtain ⟨htext, hl, hreg, hbase, hoffset⟩ := h
  subst hk
  obtain rfl : offset = [] := by simpa using hoffset
  rw [htext, show Kind.ldrBase.opcode = "\tldr ".toList from rfl,
    show Kind.ldrBase.between = ", [".toList from rfl, addressOperand_ldrLine hl hreg,
    show Kind.ldrBase.mark = [']'] from rfl, List.nil_append, List.singleton_append,
    closedOperand_append (notMem_register hbase rfl (by decide)),
    bracketed_base (comma_notMem_register hbase)]

/-- A label that goes on with something else than a digit is none of the loop's labels. -/
theorem label_append_ne {a b : ℕ} {w : Str} (hw : w ≠ []) (hhead : ∀ c ∈ w.head?, isHex c = false) :
    Post.label b ++ w ≠ Post.label a := by
  intro heq
  obtain ⟨c, w, rfl⟩ := List.exists_cons_of_ne_nil hw
  have hc : isHex c = true := isHex_of_mem_hex (n := a) (by
    rw [← (List.cons.inj heq).2]
    simp)
  rw [hhead c rfl] at hc
  exact absurd hc (by simp)

/-- The edit of the use replaces the displacement that the instruction adds: an `add` without a
shift, or an `ldr` whose displacement is the digits that the pattern reads. -/
def Use.Replaces (u : Use) (o : AddressOperand) : Prop :=
  u.kind = .add ∧ o.shifted = false ∨ u.kind = .ldr ∧ o.imm = some ('#' :: u.offset)

/-- Such an operand may have a label for its displacement, since it does not write its base back. -/
def Use.Covers (u : Use) (o : AddressOperand) : Prop := u.Replaces o ∧ o.behind = []

instance (u : Use) (o : AddressOperand) : Decidable (u.Replaces o) :=
  inferInstanceAs (Decidable (_ ∨ _))

instance (u : Use) (o : AddressOperand) : Decidable (u.Covers o) :=
  inferInstanceAs (Decidable (_ ∧ _))

theorem Use.Replaces.kind_ne (h : u.Replaces o) : u.kind ≠ .ldrBase := by
  intro hk
  cases h with
  | inl h => exact absurd (hk.symm.trans h.1) (by decide)
  | inr h => exact absurd (hk.symm.trans h.1) (by decide)

/-- The operand of such a use is the low part of the new label. -/
theorem operand_of_replaces (hu : IsUse line u reg rest) (hcover : u.Replaces o)
    (ho : addressOperand line = some o) (hdisp : o.displacement (fun _ => none) = some d) (a : ℕ) :
    addressOperand (useEdited u reg (Post.label a) rest) =
      some ⟨u.base, some ("#:lo12:".toList ++ Post.label a), false, o.behind⟩ := by
  cases hcover with
  | inl h =>
    obtain ⟨-, hbehind, -, hedited⟩ := hu.operand_add h.1 ho hdisp a
    rw [hedited, h.2, hbehind]
  | inr h =>
    obtain ⟨hline, hedited⟩ := hu.operand_ldr h.1 ho a
    have himm := h.2
    rw [hline, Option.some_inj, List.cons_inj_right, List.append_right_eq_self] at himm
    rw [hedited, himm, List.append_nil]

/-- The digits that the loop reads are the number of such an operand. -/
theorem disp_of_replaces (hu : IsUse line u reg rest) (hread : u.Readable) (hcover : u.Replaces o)
    (ho : addressOperand line = some o) (hdisp : o.displacement (fun _ => none) = some d) :
    d = u.disp := by
  cases hcover with
  | inl h =>
    obtain ⟨-, -, hd, -⟩ := hu.operand_add h.1 ho hdisp 0
    rw [hd, h.2, Use.disp, h.1]
    rfl
  | inr h =>
    obtain ⟨hline, -⟩ := hu.operand_ldr h.1 ho 0
    have himm := h.2
    rw [hline, Option.some_inj] at himm
    rw [hline, himm, displacement_none, number_dec (hread h.1)] at hdisp
    rw [Use.disp, h.1]
    exact (Option.some.inj hdisp).symm

end Uses

end Rebench.Post
