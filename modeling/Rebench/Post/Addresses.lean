import Rebench.Post.Operands

/-!
# The address of a rewritten pair

Whatever addresses the labels get, the page of the label in the rewritten `adrp`
and the displacement in the rewritten use make up the address of the label that
stands for the original address. They do so exactly for an unshifted `add` and
for an `ldr` whose displacement is all digits and that does not write its base
back; the page of a label lies below it unless the label begins a page.
-/
namespace Rebench.Post
open Text Machine

def linesBetween (out : List Str) (i j : ℕ) : List Str := (out.take j).drop (i + 1)

/-- The address that line `j` forms after the page load in line `i` and the lines between, whose
effects on the registers are given. -/
def pairAddress (effect : (Str → Word) → Str → Regs → Regs) (σ : Str → Word) (out : List Str)
    (i j : ℕ) (r : Regs) : Option Word :=
  match out[i]?, out[j]? with
  | some line, some line' =>
    (loadPage σ line r).bind fun r =>
      formed σ line' ((linesBetween out i j).foldl (fun r l => effect σ l r) r)
  | _, _ => none

section Pairs
variable {path : Str} {file out : List Str} {j : ℕ} {q : Pairing} {line line' : Str}
  {o o' : AddressOperand} {d : ℤ} {effect : (Str → Word) → Str → Regs → Regs} {σ : Str → Word}
  {r : Regs} {reg rest : Str} {u : Use}

theorem foldl_keeps {f : Regs → Str → Regs} {reg : Str} {ls : List Str}
    (h : ∀ l ∈ ls, ∀ r, f r l reg = r reg) (r : Regs) : ls.foldl f r reg = r reg := by
  induction ls generalizing r with
  | nil => rfl
  | cons l ls ih =>
    rw [List.foldl_cons, ih fun l hl => h l (by simp [hl]), h l (by simp)]

theorem exists_of_mem_linesBetween {i : ℕ} {l : Str} (h : l ∈ linesBetween file i j) :
    ∃ k, i < k ∧ k < j ∧ file[k]? = some l := by
  obtain ⟨m, hm⟩ := List.mem_iff_getElem?.mp h
  rw [linesBetween, List.getElem?_drop, List.getElem?_take] at hm
  split_ifs at hm with hlt
  exact ⟨i + 1 + m, by omega, hlt, hm⟩

theorem pairAddress_eq (hl : Listing file) (hout : post path file = .ok out)
    (hp : Pair file j q line line')
    (hkeep : ∀ l ∈ linesBetween out q.first j, ∀ r, effect σ l r q.use.base = r q.use.base)
    (ho : addressOperand ((commands (pairings file)).foldl (fun l c => c.apply l) line') = some o')
    (hbase : o'.base = q.use.base) (r : Regs) :
    pairAddress effect σ out q.first j r = (o'.displacement fun s => some (lowPart (σ s))).map
      fun d => pageBase (σ q.target) + BitVec.ofInt 64 d := by
  have hpaired : Paired file j q := paired_iff.mpr ⟨line, line', hp⟩
  have hend := hl.isAdrp (List.mem_of_getElem? hp.first) hp.adrp
  have hpage := pageOperand_adrpEdited hend.label hend.reg (hexVal q.adrp.addr + q.use.disp)
  rw [pairAddress, post_line hout hp.first, post_line hout hp.second,
    hpaired.edited_first hl.labels hp.first hend]
  simp only [loadPage, Pairing.target, Use.target, hpage, Option.map_some, Option.bind_some, formed,
    ho, hbase, foldl_keeps hkeep, Function.update_self]

/-- A covered pair forms the address of the label for the original address. -/
theorem forms_of_covers (hl : Listing file) (hout : post path file = .ok out)
    (hp : Pair file j q line line') (hu : IsUse line' q.use reg rest) (hcover : q.use.Covers o)
    (ho : addressOperand line' = some o) (hdisp : o.displacement (fun _ => none) = some d)
    (hkeep : ∀ l ∈ linesBetween out q.first j, ∀ r, effect σ l r q.use.base = r q.use.base)
    (r : Regs) : pairAddress effect σ out q.first j r =
      some (σ (Post.label (hexVal q.adrp.addr + d).toNat)) := by
  obtain ⟨hreplaces, hbehind⟩ := hcover
  have hpaired : Paired file j q := paired_iff.mpr ⟨line, line', hp⟩
  have hread := (post_eq_ok hout).2 q (List.mem_of_getElem? hpaired)
  have hedit := hpaired.edited_second hl.labels hp.second hu hreplaces.kind_ne
  have hafter := operand_of_replaces hu hreplaces ho hdisp (hexVal q.adrp.addr + q.use.disp)
  rw [hbehind] at hafter
  have hlow : AddressOperand.displacement (fun s => some (lowPart (σ s))) ⟨q.use.base,
      some ("#:lo12:".toList ++ Post.label (hexVal q.adrp.addr + q.use.disp)), false, []⟩ =
        some (lowPart (σ (Post.label (hexVal q.adrp.addr + q.use.disp)))) :=
    displacement_low (isRun_label _)
  rw [disp_of_replaces hu hread hreplaces ho hdisp,
    pairAddress_eq hl hout hp hkeep ((congrArg addressOperand hedit).trans hafter) rfl, hlow]
  exact congrArg some (pageBase_add_lowPart _)

def oneAt (s : Str) : Str → Word := fun t => if t = s then 1 else 0

theorem oneAt_self (s : Str) : oneAt s s = 1 := if_pos rfl

theorem pageBase_oneAt (s t : Str) : pageBase (oneAt s t) = 0 := by
  rw [oneAt]
  split_ifs <;> rfl

theorem lowPart_oneAt_of_ne {s t : Str} (h : t ≠ s) : lowPart (oneAt s t) = 0 := by
  rw [oneAt, if_neg h]
  rfl

theorem ofInt_ne_one {d : ℤ} (h : d % 4096 = 0) : BitVec.ofInt 64 d ≠ 1 := by
  intro heq
  have hnat := congrArg BitVec.toNat heq
  rw [BitVec.toNat_ofInt] at hnat
  change _ = 1 at hnat
  omega

/-- Without cover the displacement comes to whole pages, where all other labels are at 0. -/
theorem operand_of_not_covers (hu : IsUse line u reg rest) (hcover : ¬ u.Covers o)
    (ho : addressOperand line = some o) (hdisp : o.displacement (fun _ => none) = some d)
    (hline' : if u.kind = .ldrBase then line' = line else
      ∃ b, line' = useEdited u reg (Post.label b) rest) (a : ℕ) :
    ∃ o', addressOperand line' = some o' ∧ o'.base = u.base ∧ ∀ d',
      o'.displacement (fun s => some (lowPart (oneAt (Post.label a) s))) = some d' →
        d' % 4096 = 0 := by
  cases hk : u.kind with
  | add =>
    rw [hk, if_neg (by decide)] at hline'
    obtain ⟨b, rfl⟩ := hline'
    obtain ⟨-, hbehind, -, hedited⟩ := hu.operand_add hk ho hdisp b
    have hshifted : o.shifted = true := by
      by_contra hs
      exact hcover ⟨.inl ⟨hk, by simpa using hs⟩, hbehind⟩
    refine ⟨_, hedited, rfl, fun d' hd' => ?_⟩
    rw [displacement_low (isRun_label b), Option.map_some, hshifted, if_pos rfl,
      Option.some_inj] at hd'
    rw [← hd']
    exact Int.mul_emod_left _ _
  | ldr =>
    rw [hk, if_neg (by decide)] at hline'
    obtain ⟨b, rfl⟩ := hline'
    obtain ⟨hline, hedited⟩ := hu.operand_ldr hk ho b
    have hoffset := hu.offset
    rw [hk, if_neg (by decide)] at hoffset
    refine ⟨_, hedited, rfl, fun d' hd' => ?_⟩
    by_cases hplain : IsRun isWord (Post.label b ++ rest.takeWhile (· != ']')) ∧ o.behind = []
    · obtain ⟨hword, hbehind⟩ := hplain
      have hopen : rest.takeWhile (· != ']') ≠ [] := by
        intro hnil
        rw [hnil, List.append_nil] at hline
        exact hcover ⟨.inr ⟨hk, by rw [hline]⟩, hbehind⟩
      have hfront := head?_takeWhile_notHex (· != ']') hoffset.2
      rw [hbehind, displacement_low hword, lowPart_oneAt_of_ne (label_append_ne hopen hfront)] at hd'
      rw [← Option.some.inj hd']
      rfl
    · rw [displacement_low_of_not hplain] at hd'
      exact absurd hd' (by simp)
  | ldrBase =>
    rw [hk, if_pos rfl] at hline'
    rw [hline']
    refine ⟨_, hu.operand_ldrBase hk, rfl, fun d' hd' => ?_⟩
    rw [← Option.some.inj hd']
    rfl

end Pairs

/-- The rewritten pair forms the address of the label for the original address under every
placement exactly if the edit covers the operand. -/
theorem pair_address_iff {path : Str} {file out : List Str} {j : ℕ} {q : Pairing} {line : Str}
    {o : AddressOperand} {d : ℤ} {effect : (Str → Word) → Str → Regs → Regs} (hl : Listing file)
    (hout : post path file = .ok out) (hpaired : Paired file j q) (hline : file[j]? = some line)
    (ho : addressOperand line = some o) (hdisp : o.displacement (fun _ => none) = some d)
    (hkeep : ∀ σ, ∀ l ∈ linesBetween out q.first j, ∀ r,
      effect σ l r q.use.base = r q.use.base) :
    (∀ σ r, pairAddress effect σ out q.first j r =
      some (σ (Post.label (hexVal q.adrp.addr + d).toNat))) ↔ q.use.Covers o := by
  obtain ⟨line₁, line₂, hp⟩ := hpaired.pair
  obtain rfl : line₂ = line := Option.some.inj (hp.second.symm.trans hline)
  obtain ⟨reg, rest, hu⟩ := useOf_eq_some.mp hp.use
  constructor
  · intro h
    by_contra hcover
    have hafter : if q.use.kind = .ldrBase then
        (commands (pairings file)).foldl (fun l c => c.apply l) line₂ = line₂ else
        ∃ b, (commands (pairings file)).foldl (fun l c => c.apply l) line₂ =
          useEdited q.use reg (Post.label b) rest := by
      split_ifs with hk
      · exact hpaired.edited_base hl.labels hline hu hk
      · exact ⟨_, hpaired.edited_second hl.labels hline hu hk⟩
    obtain ⟨o', ho', hbase, hpages⟩ := operand_of_not_covers hu hcover ho hdisp hafter
      (hexVal q.adrp.addr + d).toNat
    have hone := h (oneAt (Post.label (hexVal q.adrp.addr + d).toNat)) fun _ => 0
    rw [pairAddress_eq hl hout hp (hkeep _) ho' hbase, pageBase_oneAt, oneAt_self,
      Option.map_eq_some_iff] at hone
    obtain ⟨d', hd', hvalue⟩ := hone
    rw [zero_add] at hvalue
    exact ofInt_ne_one (hpages d' hd') hvalue
  · intro hcover σ r
    exact forms_of_covers hl hout hp hu hcover ho hdisp (hkeep σ) r

/-! ## Two listings -/

def addListing : List Str :=
  ["L583bc:\tadrp x8, ?14a000".toList, "L583c0:\tmov w0, w1".toList,
    "L583c4:\tadd x9, x8, #0x8d8".toList]

def addOutput : List Str :=
  ["L583bc:\tadrp x8, L14a8d8".toList, "L583c0:\tmov w0, w1".toList,
    "L583c4:\tadd x9, x8, #:lo12:L14a8d8".toList, [], ".include \"add.inc\"".toList]

def addPairing : Pairing :=
  ⟨0, ⟨"583bc".toList, "14a000".toList⟩, ⟨.add, "583c4".toList, "x8".toList, "8d8".toList⟩⟩

def moveEffect (_ : Str → Word) (line : Str) (r : Regs) : Regs :=
  if line = "L583c0:\tmov w0, w1".toList then Function.update r "w0".toList (r "w1".toList) else r

theorem listing_addListing : Listing addListing :=
  ⟨labelsDistinct_of_nodup (by decide), by decide +kernel⟩

theorem moveEffect_keeps (σ : Str → Word) (line : Str) (r : Regs) :
    moveEffect σ line r "x8".toList = r "x8".toList := by
  rw [moveEffect]
  split_ifs
  · exact Function.update_of_ne (by decide) ..
  · rfl

theorem pair_address_add :
    pairAddress moveEffect (fun _ => 0x1238) addOutput 0 2 (fun _ => 0) = some 0x1238 := by
  have hout : post "add.s".toList addListing = .ok addOutput := by decide +kernel
  exact (pair_address_iff (q := addPairing) (j := 2) (d := 0x8d8)
    (o := ⟨"x8".toList, some "#0x8d8".toList, false, []⟩) listing_addListing hout rfl rfl
    (by decide +kernel) (by decide +kernel) fun σ l _ r => moveEffect_keeps σ l r).mpr
      ⟨.inl ⟨rfl, rfl⟩, rfl⟩ (fun _ => 0x1238) fun _ => 0

def loadListing : List Str :=
  ["L44577c:\tadrp x10, ?14a000".toList, "L445780:\tldr d2, [x10]".toList]

def loadOutput : List Str :=
  ["L44577c:\tadrp x10, L14a000".toList, "L445780:\tldr d2, [x10]".toList, [],
    ".include \"load.inc\"".toList]

def loadPairing : Pairing :=
  ⟨0, ⟨"44577c".toList, "14a000".toList⟩, ⟨.ldrBase, "445780".toList, "x10".toList, []⟩⟩

/-- The load reads from the start of the page, wherever in it the label is. -/
theorem load_address_misses :
    Listing loadListing ∧ post "load.s".toList loadListing = .ok loadOutput ∧
      Paired loadListing 1 loadPairing ∧
      addressOperand "L445780:\tldr d2, [x10]".toList = some ⟨"x10".toList, none, false, []⟩ ∧
      ¬ ∀ σ r, pairAddress (fun _ _ r => r) σ loadOutput 0 1 r =
        some (σ (Post.label (hexVal loadPairing.adrp.addr + 0))) := by
  refine ⟨⟨labelsDistinct_of_nodup (by decide), by decide +kernel⟩, rfl, rfl, by decide +kernel, ?_⟩
  intro h
  exact absurd (h (fun _ => 0x1238) fun _ => 0) (by decide +kernel)

end Rebench.Post
