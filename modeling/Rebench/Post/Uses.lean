import Rebench.Post.Operands

/-!
# All uses of a page

A rewritten `adrp` loads the page of a label, so that every line which still
adds a raw offset to the register reads elsewhere. The script rewrites the first
use alone: all uses follow exactly if there is no other one and the edit replaces
its displacement.
-/
namespace Rebench.Post
open Text Machine

/-- The line writes the register: an `adrp` does, and otherwise the instruction set tells. -/
def Overwrites (writes : Str → Str → Prop) (line reg : Str) : Prop :=
  (∃ p, adrpOf line = some (reg, p)) ∨ writes line reg

/-- Line `j` takes the register that line `i` loads as the base of an address, by an operand with a
displacement in figures; up to it no line writes the register or, having no tab, begins another
function. -/
structure LiveUse (writes : Str → Str → Prop) (file : List Str) (i j : ℕ) (reg : Str)
    (o : AddressOperand) (d : ℤ) : Prop where
  lt : i < j
  operand : file[j]?.bind addressOperand = some o
  base : o.base = reg
  disp : o.displacement (fun _ => none) = some d
  live : ∀ k l, i < k → k < j → file[k]? = some l → '\t' ∈ l ∧ ¬ Overwrites writes l reg

/-- Line `j` adds the low part of the label to the register. -/
def RefersTo (out : List Str) (j : ℕ) (reg label : Str) : Prop :=
  ∃ o, out[j]?.bind addressOperand = some o ∧ o.base = reg ∧
    o.imm = some ("#:lo12:".toList ++ label)

/-- Behind every rewritten `adrp`, the uses of its register are rewritten to refer to the label of
the page and their own displacement. -/
def UsesFollow (writes : Str → Str → Prop) (file out : List Str) : Prop :=
  ∀ i line reg p, file[i]? = some line → adrpOf line = some (reg, p) → out[i]? ≠ file[i]? →
    ∀ j o d, LiveUse writes file i j reg o d →
      out[j]? ≠ file[j]? ∧ RefersTo out j reg (Post.label (hexVal p.addr + d).toNat)

section Uses
variable {path : Str} {file out : List Str} {i j j₀ : ℕ} {q : Pairing} {line line' reg rest : Str}
  {u : Use} {o : AddressOperand} {d : ℤ} {writes : Str → Str → Prop}

theorem label_injective : Function.Injective Post.label := fun _ _ h =>
  hex_injective (List.cons.inj h).2

theorem displacement_ne_of_low {t : Str} (h : o.imm = some ("#:lo12:".toList ++ t)) :
    o.displacement (fun _ => none) ≠ some d := by
  obtain ⟨base, imm, shifted, behind⟩ := o
  obtain rfl : imm = _ := h
  rw [displacement_none, number_low]
  simp

theorem IsAdrp.addressOperand {label addr : Str} (h : IsAdrp line label reg addr []) :
    addressOperand line = none := by
  have hline : line = 'L' :: (label ++ [':']) ++ '\t' :: ("adrp".toList ++ ' ' ::
      (reg ++ (", ?".toList ++ addr))) := by
    rw [h.text]
    simp
  have hopen : '[' ∉ line := by
    rw [h.text]
    simp only [List.mem_cons, List.mem_append, notMem_label h.label (c := '[') rfl,
      notMem_label h.addr (c := '[') rfl, notMem_register h.reg (c := '[') rfl (by decide), false_or]
    decide
  rw [Machine.addressOperand, memoryOperand, behindBracket_of_notMem hopen, hline,
    words_instruction (isToken_label h.label) (by decide)]
  exact if_neg (by decide)

theorem IsUse.operand_base (h : IsUse line u reg rest) (ho : addressOperand line = some o)
    (hd : o.displacement (fun _ => none) = some d) : o.base = u.base := by
  cases hk : u.kind with
  | add => exact (h.operand_add hk ho hd 0).1
  | ldr => rw [(h.operand_ldr hk ho 0).1]
  | ldrBase =>
    rw [h.operand_ldrBase hk, Option.some_inj] at ho
    rw [← ho]

/-- The edited line refers to the label of the displacement exactly if the edit replaces it, or if a
shifted immediate is zero. -/
theorem refersTo_edited_iff (h : IsUse line u reg rest) (hread : u.Readable) (hk : u.kind ≠ .ldrBase)
    (ho : addressOperand line = some o) (hd : o.displacement (fun _ => none) = some d) (page : ℕ) :
    (∃ o', addressOperand (useEdited u reg (Post.label (page + u.disp)) rest) = some o' ∧
      o'.base = u.base ∧ o'.imm = some ("#:lo12:".toList ++ Post.label (page + d).toNat)) ↔
        u.Replaces o ∨ u.kind = .add ∧ d = 0 := by
  constructor
  · rintro ⟨o', ho', -, himm⟩
    cases hkind : u.kind with
    | add =>
      obtain ⟨-, -, hvalue, hedited⟩ := h.operand_add hkind ho hd (page + u.disp)
      rw [hedited, Option.some_inj] at ho'
      rw [← ho', Option.some_inj, List.append_cancel_left_eq] at himm
      have hsum := label_injective himm
      simp only [Use.disp, hkind] at hsum
      by_cases hs : o.shifted = true
      · rw [if_pos hs] at hvalue
        exact .inr ⟨rfl, by omega⟩
      · exact .inl (.inl ⟨hkind, by simpa using hs⟩)
    | ldr =>
      obtain ⟨hline, hedited⟩ := h.operand_ldr hkind ho (page + u.disp)
      rw [hedited, Option.some_inj] at ho'
      rw [← ho', Option.some_inj, List.append_cancel_left_eq] at himm
      have hoffset := h.offset
      rw [if_neg hk] at hoffset
      have hfront := head?_takeWhile_notHex (· != ']') hoffset.2
      have hnil : rest.takeWhile (· != ']') = [] := by
        by_contra hne
        exact label_append_ne hne hfront himm
      rw [hnil, List.append_nil] at hline
      exact .inl (.inr ⟨hkind, by rw [hline]⟩)
    | ldrBase => exact absurd hkind hk
  · intro hcover
    cases hcover with
    | inl hcover =>
      refine ⟨_, operand_of_replaces h hcover ho hd _, rfl, ?_⟩
      rw [disp_of_replaces h hread hcover ho hd]
      rfl
    | inr hzero =>
      obtain ⟨-, -, hvalue, hedited⟩ := h.operand_add hzero.1 ho hd (page + u.disp)
      refine ⟨_, hedited, rfl, ?_⟩
      have hdisp : u.disp = 0 := by
        simp only [Use.disp, hzero.1]
        rw [hzero.2] at hvalue
        split_ifs at hvalue <;> omega
      rw [hzero.2, hdisp]
      rfl

theorem adrp_rewritten_iff (hl : Listing file) (hout : post path file = .ok out)
    (hline : file[i]? = some line) {p : Adrp} (ha : adrpOf line = some (reg, p)) :
    out[i]? ≠ file[i]? ↔ ∃ j q, Paired file j q ∧ q.first = i := by
  have hadrp := hl.isAdrp (List.mem_of_getElem? hline) ha
  rw [post_line hout hline, hline, ne_eq, Option.some_inj]
  constructor
  · intro hne
    by_contra hnone
    apply hne
    apply edited_other hl.labels hline
    intro j q h
    refine ⟨fun hi => hnone ⟨j, q, h, hi.symm⟩, ?_⟩
    rintro rfl
    obtain ⟨line₁, line₂, hp⟩ := h.pair
    obtain ⟨reg', rest', hu⟩ := useOf_eq_some.mp hp.use
    obtain rfl : line₂ = line := Option.some.inj (hp.second.symm.trans hline)
    exact absurd hu hadrp.not_isUse
  · rintro ⟨j, q, h, rfl⟩
    obtain ⟨line₁, line₂, hp⟩ := h.pair
    obtain rfl : line₁ = line := Option.some.inj (hp.first.symm.trans hline)
    have hend := hl.isAdrp (List.mem_of_getElem? hline) hp.adrp
    rw [h.edited_first hl.labels hline hend]
    intro heq
    rw [hend.text, adrpEdited, show ", ?".toList = ", ".toList ++ ['?'] from rfl] at heq
    simp [Pairing.target, Use.target, Post.label] at heq

/-- A rewritten line with an operand is a use with an offset, and paired. -/
theorem paired_of_rewritten (hl : Listing file) (hout : post path file = .ok out)
    (hline : file[j]? = some line) (ho : addressOperand line = some o)
    (hne : out[j]? ≠ file[j]?) : ∃ q, Paired file j q ∧ q.use.kind ≠ .ldrBase := by
  by_contra hnone
  apply hne
  rw [post_line hout hline, hline, Option.some_inj]
  apply edited_other hl.labels hline
  intro j' q h
  constructor
  · rintro rfl
    obtain ⟨line₁, line₂, hp⟩ := h.pair
    have hadrp := hl.isAdrp (List.mem_of_getElem? hp.first) hp.adrp
    rw [Option.some.inj (hp.first.symm.trans hline)] at hadrp
    rw [hadrp.addressOperand] at ho
    exact absurd ho (by simp)
  · rintro rfl
    by_contra hkind
    exact hnone ⟨q, h, hkind⟩

/-- Where a live use of a page is paired, it is with that page. -/
theorem LiveUse.first_eq (hlive : LiveUse writes file i j reg o d) (hp : Pair file j q line line')
    {line₀ : Str} (hline : file[i]? = some line₀) {p : Adrp} (ha : adrpOf line₀ = some (reg, p))
    (hbase : q.use.base = reg) : q.first = i := by
  subst hbase
  rcases lt_trichotomy q.first i with h | h | h
  · exact absurd ha ((hp.between i line₀ h hlive.lt hline).2.1 p)
  · exact h
  · exact absurd (.inl ⟨q.adrp, hp.adrp⟩) (hlive.live q.first line h hp.lt hp.first).2

theorem Paired.refersTo_iff (hl : Listing file) (hout : post path file = .ok out)
    (h : Paired file j q) (hline : file[j]? = some line) (hu : IsUse line q.use reg rest)
    (hkind : q.use.kind ≠ .ldrBase) (ho : addressOperand line = some o)
    (hd : o.displacement (fun _ => none) = some d) :
    RefersTo out j q.use.base (Post.label (hexVal q.adrp.addr + d).toNat) ↔
      q.use.Replaces o ∨ q.use.kind = .add ∧ d = 0 := by
  have hread := (post_eq_ok hout).2 q (List.mem_of_getElem? h)
  rw [RefersTo, post_line hout hline, Option.bind_some, h.edited_second hl.labels hline hu hkind]
  exact refersTo_edited_iff hu hread hkind ho hd _

theorem RefersTo.ne {label : Str} (h : RefersTo out j reg label)
    (ho : file[j]?.bind addressOperand = some o) (hd : o.displacement (fun _ => none) = some d) :
    out[j]? ≠ file[j]? := by
  intro heq
  obtain ⟨o', ho', -, himm⟩ := h
  rw [heq, ho, Option.some_inj] at ho'
  rw [← ho'] at himm
  exact displacement_ne_of_low himm hd

end Uses

/-- All uses of the rewritten pages follow exactly if each of them is the one that is paired, and
the edit replaces its displacement. -/
theorem uses_follow_iff {writes : Str → Str → Prop} {path : Str} {file out : List Str}
    (hl : Listing file) (hout : post path file = .ok out) :
    UsesFollow writes file out ↔
      ∀ j₀ q line line', Pair file j₀ q line line' →
        ∀ j o d, LiveUse writes file q.first j q.use.base o d →
          j = j₀ ∧ (q.use.Replaces o ∨ q.use.kind = .add ∧ d = 0) := by
  constructor
  · intro h j₀ q line line' hp j o d hlive
    have hpaired : Paired file j₀ q := paired_iff.mpr ⟨line, line', hp⟩
    obtain ⟨hne, href⟩ := h q.first line q.use.base q.adrp hp.first hp.adrp
      ((adrp_rewritten_iff hl hout hp.first hp.adrp).mpr ⟨j₀, q, hpaired, rfl⟩) j o d hlive
    obtain ⟨l, hline, ho⟩ := Option.bind_eq_some_iff.mp hlive.operand
    obtain ⟨q', hpaired', hkind⟩ := paired_of_rewritten hl hout hline ho hne
    obtain ⟨line₁, line₂, hp'⟩ := hpaired'.pair
    obtain rfl : line₂ = l := Option.some.inj (hp'.second.symm.trans hline)
    obtain ⟨reg, rest, hu⟩ := useOf_eq_some.mp hp'.use
    have hbase : q'.use.base = q.use.base := (hu.operand_base ho hlive.disp).symm.trans hlive.base
    have hfirst := hlive.first_eq hp' hp.first hp.adrp hbase
    obtain rfl := hpaired'.unique hpaired hfirst
    obtain rfl : q' = q := Option.some.inj (Option.some.inj (hpaired'.symm.trans hpaired))
    refine ⟨rfl, ?_⟩
    exact (hpaired.refersTo_iff hl hout hline hu hkind ho hlive.disp).mp href
  · intro h i line reg p hline ha hne j o d hlive
    obtain ⟨j₀, q, hpaired, rfl⟩ := (adrp_rewritten_iff hl hout hline ha).mp hne
    obtain ⟨line₁, line', hp⟩ := hpaired.pair
    obtain rfl : line₁ = line := Option.some.inj (hp.first.symm.trans hline)
    have hsame := hp.adrp
    rw [ha, Option.some_inj, Prod.mk.injEq] at hsame
    obtain ⟨rfl, rfl⟩ := hsame
    obtain ⟨rfl, hcover⟩ := h j₀ q line₁ line' hp j o d hlive
    obtain ⟨reg, rest, hu⟩ := useOf_eq_some.mp hp.use
    have hkind : q.use.kind ≠ .ldrBase := by
      intro hk
      cases hcover with
      | inl hcover => exact hcover.kind_ne hk
      | inr hzero => exact absurd (hk.symm.trans hzero.1) (by decide)
    have ho : addressOperand line' = some o := by
      rw [← hlive.operand, hp.second, Option.bind_some]
    have href := (hpaired.refersTo_iff hl hout hp.second hu hkind ho hlive.disp).mpr hcover
    exact ⟨href.ne hlive.operand hlive.disp, href⟩

/-! ## Two listings -/

def WritesFirst (line reg : Str) : Prop := (words line)[2]? = some (reg ++ [','])

instance : DecidableRel WritesFirst := fun _ _ => inferInstanceAs (Decidable (_ = _))

def onceListing : List Str :=
  ["L583bc:\tadrp x8, ?14a000".toList, "L583c0:\tadd x9, x8, #0x8d8".toList,
    "L583c4:\tldr x10, [x9,#24]".toList]

def onceOutput : List Str :=
  ["L583bc:\tadrp x8, L14a8d8".toList, "L583c0:\tadd x9, x8, #:lo12:L14a8d8".toList,
    "L583c4:\tldr x10, [x9,#24]".toList, [], ".include \"once.inc\"".toList]

def oncePairing : Pairing :=
  ⟨0, ⟨"583bc".toList, "14a000".toList⟩, ⟨.add, "583c0".toList, "x8".toList, "8d8".toList⟩⟩

theorem listing_onceListing : Listing onceListing :=
  ⟨labelsDistinct_of_nodup (by decide), by decide +kernel⟩

theorem paired_onceListing {j : ℕ} {q : Pairing} (h : Paired onceListing j q) :
    j = 1 ∧ q = oncePairing := by
  have hpairings : pairings onceListing = [none, some oncePairing, none] := by decide +kernel
  rw [Paired, hpairings] at h
  have hlt : j < 3 := by
    by_contra hge
    rw [List.getElem?_eq_none (Nat.le_of_not_lt hge)] at h
    exact absurd h (by simp)
  obtain rfl | rfl | rfl : j = 0 ∨ j = 1 ∨ j = 2 := by omega
  · exact absurd h (by simp)
  · exact ⟨rfl, (Option.some.inj (Option.some.inj h)).symm⟩
  · exact absurd h (by simp)

theorem operand_onceListing {j : ℕ} {o : AddressOperand} (hj : 0 < j)
    (h : onceListing[j]?.bind addressOperand = some o) :
    j = 1 ∧ o = ⟨"x8".toList, some "#0x8d8".toList, false, []⟩ ∨
      o = ⟨"x9".toList, some "#24".toList, false, []⟩ := by
  have hfirst : onceListing[1]?.bind addressOperand =
      some ⟨"x8".toList, some "#0x8d8".toList, false, []⟩ := by decide +kernel
  have hsecond : onceListing[2]?.bind addressOperand =
      some ⟨"x9".toList, some "#24".toList, false, []⟩ := by decide +kernel
  have hlt : j < 3 := by
    by_contra hge
    rw [List.getElem?_eq_none (Nat.le_of_not_lt hge)] at h
    exact absurd h (by simp)
  obtain rfl | rfl : j = 1 ∨ j = 2 := by omega
  · rw [hfirst, Option.some_inj] at h
    exact .inl ⟨rfl, h.symm⟩
  · rw [hsecond, Option.some_inj] at h
    exact .inr h.symm

theorem uses_follow_once : UsesFollow WritesFirst onceListing onceOutput := by
  have hout : post "once.s".toList onceListing = .ok onceOutput := by decide +kernel
  apply (uses_follow_iff listing_onceListing hout).mpr
  intro j₀ q line line' hp j o d hlive
  obtain ⟨rfl, rfl⟩ := paired_onceListing (paired_iff.mpr ⟨line, line', hp⟩)
  cases operand_onceListing hlive.lt hlive.operand with
  | inl hfirst =>
    obtain ⟨rfl, rfl⟩ := hfirst
    exact ⟨rfl, .inl (.inl ⟨rfl, rfl⟩)⟩
  | inr hsecond =>
    have hbase := hlive.base
    rw [hsecond] at hbase
    exact absurd hbase (by decide)

def twiceListing : List Str :=
  ["L583bc:\tadrp x8, ?14a000".toList, "L583c0:\tldr x9, [x8,#16]".toList,
    "L583c4:\tldr x10, [x8,#24]".toList]

def twiceOutput : List Str :=
  ["L583bc:\tadrp x8, L14a010".toList, "L583c0:\tldr x9, [x8,#:lo12:L14a010]".toList,
    "L583c4:\tldr x10, [x8,#24]".toList, [], ".include \"twice.inc\"".toList]

theorem listing_twiceListing : Listing twiceListing :=
  ⟨labelsDistinct_of_nodup (by decide), by decide +kernel⟩

theorem liveUse_twiceListing : LiveUse WritesFirst twiceListing 0 2 "x8".toList
    ⟨"x8".toList, some "#24".toList, false, []⟩ 24 where
  lt := by decide
  operand := by decide +kernel
  base := rfl
  disp := by decide +kernel
  live := by
    intro k l hk hk' hl
    obtain rfl : k = 1 := by omega
    obtain rfl : "L583c0:\tldr x9, [x8,#16]".toList = l := Option.some.inj hl
    refine ⟨by decide, ?_⟩
    rintro (⟨p, hp⟩ | hwrites)
    · have hnone : adrpOf "L583c0:\tldr x9, [x8,#16]".toList = none := by decide +kernel
      rw [hnone] at hp
      exact absurd hp (by simp)
    · exact absurd hwrites (by decide +kernel)

/-- The second use keeps its raw offset. -/
theorem second_use_left :
    Listing twiceListing ∧ post "twice.s".toList twiceListing = .ok twiceOutput ∧
      ¬ UsesFollow WritesFirst twiceListing twiceOutput := by
  have hout : post "twice.s".toList twiceListing = .ok twiceOutput := by decide +kernel
  refine ⟨listing_twiceListing, hout, fun h => ?_⟩
  have hadrp : adrpOf "L583bc:\tadrp x8, ?14a000".toList =
      some ("x8".toList, ⟨"583bc".toList, "14a000".toList⟩) := by decide +kernel
  have hrewritten : twiceOutput[0]? ≠ twiceListing[0]? := by decide +kernel
  have hsame : twiceOutput[2]? = twiceListing[2]? := by decide +kernel
  exact (h 0 _ _ _ rfl hadrp hrewritten 2 _ 24 liveUse_twiceListing).1 hsame

end Rebench.Post
