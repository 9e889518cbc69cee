import Rebench.Perf.Buffers
import Rebench.Text.Words

/-!
# The headings of the counters

A request is accepted as a whole or changes nothing. The accepted requests
determine the counters, the ratios and the headings, so that the headings name
the fields that `perf_print` prints.
-/
namespace Rebench.Perf
open Text Machine

abbrev Request := Char × BitVec 32

def eventName (r : Request) : Str :=
  " ".toList ++
    (if r.1 = 'h' then "HW" else if r.1 = 'c' then "CACHE" else "RAW").toList ++
    "(0x".toList ++ upperHex r.2.toNat ++ ")".toList

def heading (r : Request) : Str :=
  if r.1 = 'i' then
    if r.2 = 0 then pairHeading "RETIRED" "CYCLES" "IPC"
    else if r.2 = 1 then pairHeading "L1D_REFILL" "L1D" "%"
    else pairHeading "L2D_REFILL" "L2D" "%"
  else " ".toList ++ padLeft 12 (eventName r)

def opened (r : Request) : List Attr :=
  if r.1 = 'i' then
    if r.2 = 0 then
      [⟨perfTypeRaw, pmuInstRetired.signExtend 64⟩, ⟨perfTypeRaw, pmuCpuCycles.signExtend 64⟩]
    else if r.2 = 1 then
      [⟨perfTypeRaw, pmuL1dCacheRefill.signExtend 64⟩, ⟨perfTypeRaw, pmuL1dCache.signExtend 64⟩]
    else
      [⟨perfTypeRaw, pmuL2dCacheRefill.signExtend 64⟩, ⟨perfTypeRaw, pmuL2dCache.signExtend 64⟩]
  else
    [⟨if r.1 = 'h' then perfTypeHardware else if r.1 = 'c' then perfTypeHwCache
      else perfTypeRaw, r.2.signExtend 64⟩]

def counters (acc : List Request) : ℕ := (acc.map requested).sum

/-- The event is not supported, or there is no room for it beside `n` counters. -/
def Rejected (n : ℕ) (r : Request) : Prop := requested r = 0 ∨ maxCounters < n + requested r

instance (n : ℕ) : DecidablePred (Rejected n) := fun _ => inferInstanceAs (Decidable (_ ∨ _))

def accept (acc : List Request) (r : Request) : List Request :=
  if Rejected (counters acc) r then acc else acc ++ [r]

def accepted (requests : List Request) : List Request := requests.foldl accept []

inductive Kind where
  | value
  | ratio
  deriving DecidableEq

def Field.kind : Field → Kind
  | .value _ => .value
  | .ratio .. => .ratio

def headingKind (w : Str) : Kind :=
  if w = "IPC".toList ∨ w = "%".toList then .ratio else .value

def kinds (r : Request) : List Kind :=
  if r.1 = 'i' then [.value, .value, .ratio] else [.value]

def kindsAt (ratios : ℕ → ℕ) (i : ℕ) : List Kind :=
  if ratios i ≠ 0 then [.value, .ratio] else [.value]

section Texts
variable {r : Request} {n : ℕ}

theorem length_upperHex (e : BitVec 32) : (upperHex e.toNat).length ≤ 8 := by
  rw [upperHex, List.length_map, hex]
  apply Nat.toDigits_length 16 e.toNat 8 (by norm_num)
  exact e.isLt.trans_le (by norm_num)

theorem isBlank_upperHex {c : Char} (h : c ∈ upperHex n) : isBlank c = false := by
  obtain ⟨c', hc', rfl⟩ := List.mem_map.mp h
  obtain ⟨d, hd, rfl⟩ := exists_of_mem_toDigits (by norm_num) hc'
  interval_cases d <;> decide

theorem eventName_token (r : Request) : ∃ w, eventName r = ' ' :: w ∧ IsToken w ∧
    5 ≤ w.length ∧ w.length ≤ 17 := by
  obtain ⟨kind, hkind⟩ : ∃ kind, kind =
      (if r.1 = 'h' then "HW" else if r.1 = 'c' then "CACHE" else "RAW").toList := ⟨_, rfl⟩
  have hname : eventName r =
      ' ' :: (kind ++ "(0x".toList ++ upperHex r.2.toNat ++ ")".toList) := by
    rw [hkind]
    simp [eventName]
  have hlength : 2 ≤ kind.length ∧ kind.length ≤ 5 := by
    rw [hkind]
    split_ifs <;> decide
  have hblank : ∀ c ∈ kind, isBlank c = false := by
    rw [hkind]
    split_ifs <;> decide
  refine ⟨_, hname, ⟨by simp, ?_⟩, ?_⟩
  · intro c hc
    rw [List.mem_append, List.mem_append, List.mem_append] at hc
    rcases hc with ((hc | hc) | hc) | hc
    · exact hblank c hc
    · revert c
      decide
    · exact isBlank_upperHex hc
    · revert c
      decide
  · have hdigits := length_upperHex r.2
    simp only [List.length_append, show "(0x".toList.length = 3 from rfl,
      show ")".toList.length = 1 from rfl]
    omega

theorem length_eventName (r : Request) : (eventName r).length ≤ 18 := by
  obtain ⟨w, hw, -, -, hlength⟩ := eventName_token r
  rw [hw, List.length_cons]
  omega

theorem length_heading (r : Request) : (heading r).length ≤ 32 := by
  rw [heading]
  split_ifs
  · decide
  · decide
  · decide
  · have hname := length_eventName r
    rw [List.length_append, padLeft, List.length_append, List.length_replicate,
      show " ".toList.length = 1 from rfl]
    omega

/-- A heading takes up at most nineteen characters for each counter. -/
theorem length_heading_le (h : requested r ≠ 0) : (heading r).length ≤ 19 * requested r := by
  rw [requested] at h ⊢
  by_cases hi : r.1 = 'i'
  · rw [if_pos hi] at h ⊢
    split_ifs at h ⊢
    · have hle := length_heading r
      omega
    · exact absurd rfl h
  · have hname := length_eventName r
    rw [if_neg hi, heading, if_neg hi, List.length_append, padLeft, List.length_append,
      List.length_replicate, show " ".toList.length = 1 from rfl]
    omega

/-- A heading begins with a blank, and its words are those of its columns. -/
theorem heading_kinds (r : Request) : ∃ s, heading r = ' ' :: s ∧
    (words s).map headingKind = kinds r := by
  rw [heading, kinds]
  split_ifs
  · exact ⟨_, rfl, by decide +kernel⟩
  · exact ⟨_, rfl, by decide +kernel⟩
  · exact ⟨_, rfl, by decide +kernel⟩
  · obtain ⟨w, hw, htoken, hlong, -⟩ := eventName_token r
    refine ⟨padLeft 12 (eventName r), rfl, ?_⟩
    have hblanks : ∀ c ∈ List.replicate (12 - (eventName r).length) ' ', isBlank c := by
      intro c hc
      rw [List.eq_of_mem_replicate hc]
      rfl
    rw [padLeft, words_blanks hblanks, hw, words_blank (by decide), words_token htoken,
      List.map_singleton, headingKind, if_neg]
    rintro (h | h)
    · rw [h] at hlong
      exact absurd hlong (by decide)
    · rw [h] at hlong
      exact absurd hlong (by decide)

end Texts

/-- What the accepted requests show of a state. -/
structure InStep (s : State) (acc : List Request) : Prop where
  nCounters : s.nCounters = counters acc
  le : s.nCounters ≤ maxCounters
  supported : ∀ r ∈ acc, requested r ≠ 0
  headers : s.headers = acc.flatMap heading
  events : s.events = acc.flatMap opened
  ratios : ∀ i, s.ratios i ≠ 0 ↔
    ∃ before event after, acc = before ++ ('i', event) :: after ∧ i = counters before + 1
  columns : (List.range s.nCounters).flatMap (kindsAt s.ratios) = acc.flatMap kinds

/-- What an accepted request changes. -/
structure Admits (s : State) (r : Request) (t : State) : Prop where
  nCounters : t.nCounters = s.nCounters + requested r
  headers : t.headers = s.headers ++ heading r
  events : t.events = s.events ++ opened r
  pair : r.1 = 'i' → ∃ ratio, ratio ≠ 0 ∧ t.ratios = Function.update s.ratios (s.nCounters + 1) ratio
  single : r.1 ≠ 'i' → t.ratios = s.ratios

section Steps
variable {perfEventOpen : List Attr → Attr → ℤ} {s t : State} {r : Request} {acc : List Request}

theorem perfOpen_some (hopen : ∀ l a, 0 ≤ perfEventOpen l a) (type : ℕ) (event : BitVec 32)
    (s : State) : ∃ t, perfOpen perfEventOpen type event s = some t ∧
      t.nCounters = s.nCounters + 1 ∧ t.ratios = s.ratios ∧ t.headers = s.headers ∧
      t.events = s.events ++ [⟨type, event.signExtend 64⟩] :=
  ⟨_, if_neg (not_lt.mpr (hopen _ _)), rfl, rfl, rfl, rfl⟩

theorem openPair_some (hopen : ∀ l a, 0 ≤ perfEventOpen l a) (ratio : ℕ)
    (first second : BitVec 32) (buf : Str) (s : State) :
    ∃ t, openPair perfEventOpen ratio first second buf s = some t ∧
      t.nCounters = s.nCounters + 2 ∧
      t.ratios = Function.update s.ratios (s.nCounters + 1) ratio ∧
      t.headers = s.headers ++ buf ∧
      t.events = s.events ++
        [⟨perfTypeRaw, first.signExtend 64⟩, ⟨perfTypeRaw, second.signExtend 64⟩] := by
  obtain ⟨u, hu, hn, hr, hh, he⟩ :=
    perfOpen_some hopen perfTypeRaw first (setRatio (s.nCounters + 1) ratio s)
  obtain ⟨v, hv, hn', hr', hh', he'⟩ := perfOpen_some hopen perfTypeRaw second u
  refine ⟨addHeading buf v, by simp [openPair, hu, hv], ?_, ?_, ?_, ?_⟩
  · rw [addHeading, hn', hn]
    rfl
  · rw [addHeading, hr', hr]
    rfl
  · rw [addHeading, hh', hh]
    rfl
  · rw [addHeading, he', he]
    simp [setRatio]

theorem perfConfig_rejected (h : Rejected s.nCounters r) :
    perfConfig perfEventOpen r.1 r.2 s = some s := by
  rw [Rejected, requested] at h
  rw [perfConfig]
  by_cases hi : r.1 = 'i'
  · rw [if_pos hi] at h ⊢
    by_cases hfull : s.nCounters + 2 > maxCounters
    · rw [if_pos hfull]
    · rw [if_neg hfull]
      by_cases hevent : r.2 = 0 ∨ r.2 = 1 ∨ r.2 = 2
      · rw [if_pos hevent] at h
        omega
      · obtain ⟨h₀, h₁₂⟩ := not_or.mp hevent
        obtain ⟨h₁, h₂⟩ := not_or.mp h₁₂
        rw [if_neg h₀, if_neg h₁, if_neg h₂]
  · rw [if_neg hi] at h ⊢
    rw [if_pos (by omega)]

/-- A pair is described by its ratio, its two events and its heading. -/
theorem openPair_admits (hopen : ∀ l a, 0 ≤ perfEventOpen l a) (hi : r.1 = 'i')
    (htwo : requested r = 2) {ratio : ℕ} {first second : BitVec 32} {buf : Str} (hratio : ratio ≠ 0)
    (hbuf : heading r = buf)
    (hopened : opened r =
      [⟨perfTypeRaw, first.signExtend 64⟩, ⟨perfTypeRaw, second.signExtend 64⟩]) :
    ∃ t, openPair perfEventOpen ratio first second buf s = some t ∧ Admits s r t := by
  obtain ⟨t, ht, hn, hr, hh, he⟩ := openPair_some hopen ratio first second buf s
  refine ⟨t, ht, ?_, ?_, ?_, ?_, ?_⟩
  · rw [hn, htwo]
  · rw [hh, hbuf]
  · rw [he, hopened]
  · intro _
    exact ⟨ratio, hratio, hr⟩
  · intro hne
    exact absurd hi hne

theorem perfConfig_accepted (hopen : ∀ l a, 0 ≤ perfEventOpen l a)
    (h : ¬ Rejected s.nCounters r) :
    ∃ t, perfConfig perfEventOpen r.1 r.2 s = some t ∧ Admits s r t := by
  obtain ⟨hsupported, hroom⟩ := not_or.mp h
  rw [perfConfig]
  by_cases hi : r.1 = 'i'
  · have hevent : r.2 = 0 ∨ r.2 = 1 ∨ r.2 = 2 := by
      by_contra hnot
      rw [requested, if_pos hi, if_neg hnot] at hsupported
      exact hsupported rfl
    have htwo : requested r = 2 := by
      rw [requested, if_pos hi, if_pos hevent]
    rw [if_pos hi, if_neg (by omega)]
    by_cases h₀ : r.2 = 0
    · rw [if_pos h₀]
      exact openPair_admits hopen hi htwo (by norm_num) (by rw [heading, if_pos hi, if_pos h₀])
        (by rw [opened, if_pos hi, if_pos h₀])
    · rw [if_neg h₀]
      by_cases h₁ : r.2 = 1
      · rw [if_pos h₁]
        exact openPair_admits hopen hi htwo (by norm_num)
          (by rw [heading, if_pos hi, if_neg h₀, if_pos h₁])
          (by rw [opened, if_pos hi, if_neg h₀, if_pos h₁])
      · rw [if_neg h₁, if_pos (by tauto)]
        exact openPair_admits hopen hi htwo (by norm_num)
          (by rw [heading, if_pos hi, if_neg h₀, if_neg h₁])
          (by rw [opened, if_pos hi, if_neg h₀, if_neg h₁])
  · have hone : requested r = 1 := by
      rw [requested, if_neg hi]
    rw [if_neg hi, if_neg (by omega)]
    obtain ⟨u, hu, hn, hr, hh, he⟩ := perfOpen_some hopen
      (if r.1 = 'h' then perfTypeHardware else if r.1 = 'c' then perfTypeHwCache
        else perfTypeRaw) r.2 s
    refine ⟨addHeading (" ".toList ++ padLeft 12 (eventName r)) u, ?_, ?_, ?_, ?_, ?_, ?_⟩
    · rw [hu]
      rfl
    · rw [addHeading, hn, hone]
    · rw [addHeading, hh, heading, if_neg hi]
    · rw [addHeading, he, opened, if_neg hi]
    · intro hpair
      exact absurd hpair hi
    · intro _
      rw [addHeading, hr]

/-! ## Runs -/

@[simp] theorem counters_nil : counters [] = 0 := rfl

@[simp] theorem counters_append (l m : List Request) :
    counters (l ++ m) = counters l + counters m := by
  simp [counters]

@[simp] theorem counters_singleton (r : Request) : counters [r] = requested r := by
  simp [counters]

theorem inStep_initial : InStep initial [] where
  nCounters := rfl
  le := Nat.zero_le _
  supported := by simp
  headers := rfl
  events := rfl
  ratios := by simp [initial]
  columns := rfl

theorem requested_pair (hi : r.1 = 'i') (h : requested r ≠ 0) : requested r = 2 := by
  rw [requested, if_pos hi] at h ⊢
  split_ifs at h ⊢
  · rfl
  · exact absurd rfl h

/-- There is no ratio behind the counters. -/
theorem InStep.ratios_eq_zero (h : InStep s acc) {i : ℕ} (hi : s.nCounters ≤ i) :
    s.ratios i = 0 := by
  by_contra hne
  obtain ⟨before, event, after, hsplit, rfl⟩ := (h.ratios i).mp hne
  have htwo : requested ('i', event) = 2 := requested_pair rfl (h.supported _ (by simp [hsplit]))
  have hcount : counters acc = counters before + (requested ('i', event) + counters after) := by
    rw [hsplit, ← List.singleton_append, counters_append, counters_append, counters_singleton]
  have hn := h.nCounters
  omega

theorem pair_concat {i : ℕ} :
    (∃ before event after, acc ++ [r] = before ++ ('i', event) :: after ∧
        i = counters before + 1) ↔
      (∃ before event after, acc = before ++ ('i', event) :: after ∧ i = counters before + 1) ∨
        r.1 = 'i' ∧ i = counters acc + 1 := by
  constructor
  · rintro ⟨before, event, after, hsplit, hi⟩
    cases concat_eq_append_cons hsplit with
    | inl hold =>
      obtain ⟨rest, hrest⟩ := hold
      exact .inl ⟨before, event, rest, hrest, hi⟩
    | inr hnew =>
      obtain ⟨rfl, rfl⟩ := hnew
      exact .inr ⟨rfl, hi⟩
  · rintro (⟨before, event, after, rfl, hi⟩ | ⟨hpair, hi⟩)
    · exact ⟨before, event, after ++ [r], by simp, hi⟩
    · exact ⟨acc, r.2, [], by rw [← hpair], hi⟩

theorem columns_congr {ratios ratios' : ℕ → ℕ} {n : ℕ} (h : ∀ i < n, ratios' i = ratios i) :
    (List.range n).flatMap (kindsAt ratios') = (List.range n).flatMap (kindsAt ratios) := by
  apply List.flatMap_congr
  intro i hi
  rw [kindsAt, kindsAt, h i (List.mem_range.mp hi)]

/-- An accepted request adds its own columns behind the old ones. -/
theorem InStep.columns_admits (h : InStep s acc) (hsupported : requested r ≠ 0)
    (ht : Admits s r t) : (List.range t.nCounters).flatMap (kindsAt t.ratios) =
      (List.range s.nCounters).flatMap (kindsAt s.ratios) ++ kinds r := by
  rw [ht.nCounters]
  by_cases hi : r.1 = 'i'
  · obtain ⟨ratio, hratio, heq⟩ := ht.pair hi
    have hold : ∀ i < s.nCounters, t.ratios i = s.ratios i := by
      intro i hlt
      rw [heq, Function.update_of_ne (by omega)]
    have hfirst : kindsAt t.ratios s.nCounters = [.value] := by
      rw [kindsAt, heq, Function.update_of_ne (by omega), h.ratios_eq_zero le_rfl]
      rfl
    have hsecond : kindsAt t.ratios (s.nCounters + 1) = [.value, .ratio] := by
      rw [kindsAt, heq, Function.update_self, if_pos hratio]
    rw [requested_pair hi hsupported, List.range_succ, List.range_succ, List.flatMap_append,
      List.flatMap_append, List.flatMap_singleton, List.flatMap_singleton, columns_congr hold,
      hfirst, hsecond, kinds, if_pos hi]
    simp
  · have hone : requested r = 1 := by
      rw [requested, if_neg hi]
    have hlast : kindsAt t.ratios s.nCounters = [.value] := by
      rw [kindsAt, ht.single hi, h.ratios_eq_zero le_rfl]
      rfl
    rw [hone, List.range_succ, List.flatMap_append, List.flatMap_singleton, hlast, ht.single hi,
      kinds, if_neg hi]

theorem InStep.concat (h : InStep s acc) (hr : ¬ Rejected s.nCounters r) (ht : Admits s r t) :
    InStep t (acc ++ [r]) := by
  obtain ⟨hsupported, hroom⟩ := not_or.mp hr
  constructor
  · rw [ht.nCounters, h.nCounters, counters_append, counters_singleton]
  · rw [ht.nCounters]
    omega
  · intro q hq
    cases List.mem_append.mp hq with
    | inl hq => exact h.supported q hq
    | inr hq =>
      rw [List.mem_singleton.mp hq]
      exact hsupported
  · rw [ht.headers, h.headers, List.flatMap_append, List.flatMap_singleton]
  · rw [ht.events, h.events, List.flatMap_append, List.flatMap_singleton]
  · intro i
    rw [pair_concat, ← h.ratios, ← h.nCounters]
    by_cases hi : r.1 = 'i'
    · obtain ⟨ratio, hratio, heq⟩ := ht.pair hi
      rw [heq]
      by_cases hnew : i = s.nCounters + 1
      · rw [hnew, Function.update_self]
        exact iff_of_true hratio (.inr ⟨hi, rfl⟩)
      · rw [Function.update_of_ne hnew]
        exact ⟨.inl, fun hor => hor.resolve_right fun hand => hnew hand.2⟩
    · rw [ht.single hi]
      exact ⟨.inl, fun hor => hor.resolve_right fun hand => hi hand.1⟩
  · rw [List.flatMap_append, List.flatMap_singleton, ← h.columns]
    exact h.columns_admits hsupported ht

/-- One request keeps the state in step with the accepted requests. -/
theorem perfConfig_inStep (hopen : ∀ l a, 0 ≤ perfEventOpen l a) (h : InStep s acc)
    (r : Request) :
    ∃ t, perfConfig perfEventOpen r.1 r.2 s = some t ∧ InStep t (accept acc r) := by
  rw [accept, ← h.nCounters]
  by_cases hr : Rejected s.nCounters r
  · rw [if_pos hr]
    exact ⟨s, perfConfig_rejected hr, h⟩
  · obtain ⟨t, ht, hadmits⟩ := perfConfig_accepted hopen hr
    rw [if_neg hr]
    exact ⟨t, ht, h.concat hr hadmits⟩

theorem configure_inStep (hopen : ∀ l a, 0 ≤ perfEventOpen l a) (requests : List Request)
    (h : InStep s acc) :
    ∃ t, configure perfEventOpen requests s = some t ∧ InStep t (requests.foldl accept acc) := by
  induction requests generalizing s acc with
  | nil => exact ⟨s, rfl, h⟩
  | cons r requests ih =>
    obtain ⟨u, hu, hstep⟩ := perfConfig_inStep hopen h r
    obtain ⟨t, ht, hend⟩ := ih hstep
    refine ⟨t, ?_, hend⟩
    rw [configure, List.foldlM_cons, hu]
    exact ht

end Steps

section Columns
variable {s t : State} {acc : List Request}

/-- The words of the headings are the columns. -/
theorem words_headers (acc : List Request) :
    (words (acc.flatMap heading)).map headingKind = acc.flatMap kinds := by
  induction acc using List.reverseRecOn with
  | nil => rfl
  | append_singleton acc r ih =>
    obtain ⟨u, hu, hkinds⟩ := heading_kinds r
    rw [List.flatMap_append, List.flatMap_singleton, hu, words_append_blank (by decide),
      List.map_append, ih, hkinds, List.flatMap_append, List.flatMap_singleton]

/-- The printed fields are the columns of the counters. -/
theorem perfPrint_kinds (hn : t.nCounters = s.nCounters) (hr : t.ratios = s.ratios)
    (hv : t.countersValid = true) : (perfPrint t).2.1.map Field.kind =
      (List.range s.nCounters).flatMap (kindsAt s.ratios) := by
  rw [perfPrint, if_pos hv, hn, List.map_flatMap]
  apply List.flatMap_congr
  intro i _
  rw [printCounter, kindsAt, hr]
  by_cases h : s.ratios i ≠ 0
  · rw [if_pos h, if_pos h]
    rfl
  · rw [if_neg h, if_neg h]
    rfl

theorem length_headers (h : ∀ r ∈ acc, requested r ≠ 0) :
    (acc.flatMap heading).length ≤ 19 * counters acc := by
  induction acc with
  | nil => simp
  | cons r acc ih =>
    have hhead := length_heading_le (h r (by simp))
    have htail := ih fun q hq => h q (by simp [hq])
    rw [List.flatMap_cons, List.length_append, ← List.singleton_append, counters_append,
      counters_singleton]
    omega

end Columns

/-- Behind every sequence of requests the accepted ones give the counters in order: `ratios` marks
the second counters of the pairs, the headings name the opened events, their columns are those that
`perf_print` prints, and the texts fit their buffers. A rejected request changes nothing. -/
theorem headings_inStep (perfEventOpen : List Attr → Attr → ℤ)
    (hopen : ∀ l a, 0 ≤ perfEventOpen l a) (requests : List Request) :
    ∃ s, configure perfEventOpen requests initial = some s ∧
      s.nCounters ≤ maxCounters ∧ s.nCounters = counters (accepted requests) ∧
      (∀ i, s.ratios i ≠ 0 ↔ ∃ before event after,
        accepted requests = before ++ ('i', event) :: after ∧ i = counters before + 1) ∧
      s.headers = (accepted requests).flatMap heading ∧
      s.events = (accepted requests).flatMap opened ∧
      (∀ t : State, t.nCounters = s.nCounters → t.ratios = s.ratios → t.countersValid = true →
        (words s.headers).map headingKind = (perfPrint t).2.1.map Field.kind) ∧
      s.headers.length < 1024 ∧
      (∀ r ∈ accepted requests, (heading r).length < 128 ∧ (eventName r).length < 20) ∧
      ∀ r, Rejected s.nCounters r → perfConfig perfEventOpen r.1 r.2 s = some s := by
  obtain ⟨s, hs, h⟩ := configure_inStep hopen requests inStep_initial
  refine ⟨s, hs, h.le, h.nCounters, h.ratios, h.headers, h.events, ?_, ?_, ?_, ?_⟩
  · intro t hn hr hv
    rw [h.headers, words_headers, perfPrint_kinds hn hr hv, h.columns]
  · have hlength := length_headers h.supported
    have hle := h.le
    rw [h.nCounters, maxCounters] at hle
    rw [h.headers]
    omega
  · intro r _
    have hheading := length_heading r
    have hname := length_eventName r
    omega
  · intro r hr
    exact perfConfig_rejected hr

theorem headings_inStep_pairs : ∃ s,
    configure fileNumber [('i', 1), ('i', 7), ('h', 3)] initial = some s ∧
      s.headers = "   L1D_REFILL          L1D     %      HW(0x3)".toList := by
  obtain ⟨s, hs, -, -, -, hheaders, -⟩ :=
    headings_inStep fileNumber (fun l _ => by rw [fileNumber]; omega) [('i', 1), ('i', 7), ('h', 3)]
  exact ⟨s, hs, hheaders.trans (by decide +kernel)⟩

end Rebench.Perf
