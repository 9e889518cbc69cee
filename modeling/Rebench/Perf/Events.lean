import Rebench.Perf.Options

/-!
# From an argument to an event

The value of an argument is cut to the parameter `int event`, and the parameter
is extended with its sign to the field `config` and printed without one.
-/
namespace Rebench.Perf
open Text Machine

/-- A hexadecimal argument as `strtoul` takes it, with a value of at most 64 bits. -/
structure HexArg where
  blanks : Str
  sign : Str
  marker : Str
  digits : Str
  blanks_space : ∀ c ∈ blanks, isSpace c
  sign_form : sign = [] ∨ sign = ['+']
  marker_form : marker = [] ∨ marker = ['0', 'x'] ∨ marker = ['0', 'X']
  digits_run : IsRun isHex digits
  fits : hexVal digits < 2 ^ 64

namespace HexArg
variable (a : HexArg)

def text : Str := a.blanks ++ (a.sign ++ (a.marker ++ a.digits))

def value : ℕ := hexVal a.digits

end HexArg

/-- `perf_config` admits the argument: it hands one event to `perf_event_open`. -/
structure Opens (perfEventOpen : List Attr → Attr → ℤ) (c : Char) (arg : Str) (s t : State)
    (e : Attr) : Prop where
  run : perfConfig perfEventOpen c (eventArg arg) s = some t
  events : t.events = s.events ++ [e]

/-- The new heading ends with the value in parentheses. -/
def Shows (s t : State) (v : ℕ) : Prop :=
  ∃ front, t.headers = s.headers ++ (front ++ "(0x".toList ++ upperHex v ++ ")".toList)

/-- The event that is counted and the event that is headed are the one with this number. -/
structure Requested (s t : State) (e : Attr) (v : ℕ) : Prop where
  config : e.config.toNat = v
  shown : Shows s t v

/-! ## Reading an argument -/

section Strtoul
variable {s : Str} {d : Char}

theorem takeSign_of_isHex (h : isHex d) : takeSign (d :: s) = (false, d :: s) := by
  have hminus : d ≠ '-' := fun heq => absurd (heq ▸ h) (by decide)
  have hplus : d ≠ '+' := fun heq => absurd (heq ▸ h) (by decide)
  simp [takeSign, hminus, hplus]

theorem dropMarker_of_isHex (h : ∀ c ∈ s, isHex c) : dropMarker s = s := by
  unfold dropMarker
  split
  next x d s =>
    rw [if_neg]
    rintro ⟨hx | hx, -⟩
    · exact absurd (h x (by simp)) (hx ▸ by decide)
    · exact absurd (h x (by simp)) (hx ▸ by decide)
  next => rfl

theorem dropMarker_marker {x : Char} (hx : x = 'x' ∨ x = 'X') (hs : IsRun isHex s) :
    dropMarker ('0' :: x :: s) = s := by
  obtain ⟨hne, hhex⟩ := hs
  cases s with
  | nil => exact absurd rfl hne
  | cons d s => exact if_pos ⟨hx, hhex d (by simp)⟩

namespace HexArg
variable (a : HexArg)

theorem dropMarker_text : dropMarker (a.marker ++ a.digits) = a.digits := by
  rcases a.marker_form with h | h | h
  · rw [h]
    exact dropMarker_of_isHex a.digits_run.2
  · rw [h]
    exact dropMarker_marker (.inl rfl) a.digits_run
  · rw [h]
    exact dropMarker_marker (.inr rfl) a.digits_run

theorem exists_digit : ∃ d s, a.marker ++ a.digits = d :: s ∧ isHex d := by
  rcases a.marker_form with h | h | h
  · obtain ⟨hne, hhex⟩ := a.digits_run
    cases hd : a.digits with
    | nil => exact absurd hd hne
    | cons d s => exact ⟨d, s, by rw [h, List.nil_append], hhex d (by simp [hd])⟩
  · exact ⟨'0', 'x' :: a.digits, by rw [h]; rfl, by decide⟩
  · exact ⟨'0', 'X' :: a.digits, by rw [h]; rfl, by decide⟩

theorem takeSign_text :
    takeSign (a.text.dropWhile isSpace) = (false, a.marker ++ a.digits) := by
  obtain ⟨d, s, heq, hd⟩ := a.exists_digit
  rw [text, List.dropWhile_append_of_pos a.blanks_space, heq]
  rcases a.sign_form with h | h
  · rw [h, List.nil_append, List.dropWhile_cons_of_neg (by simp [isSpace_eq_false_of_isHex hd])]
    exact takeSign_of_isHex hd
  · rw [h, List.singleton_append, List.dropWhile_cons_of_neg (by decide)]
    rfl

/-- An argument that fits is read as its value. -/
theorem strtoul_text : strtoul a.text = BitVec.ofNat 64 a.value := by
  have hdigits : a.digits.takeWhile isHex = a.digits := by
    simpa using a.digits_run.2
  simp only [strtoul, a.takeSign_text, a.dropMarker_text, hdigits]
  rw [if_neg (not_le.mpr a.fits)]
  rfl

theorem value_lt : a.value < 2 ^ 64 := a.fits

theorem toNat_eventArg : (eventArg a.text).toNat = a.value % 2 ^ 32 := by
  have hv := a.value_lt
  rw [eventArg, a.strtoul_text, BitVec.toNat_setWidth, BitVec.toNat_ofNat,
    Nat.mod_eq_of_lt hv]

/-- The field `config` has the value at both ends of the 64 bits, where the sign fits. -/
theorem config_eq_iff : ((eventArg a.text).signExtend 64).toNat = a.value ↔
    a.value < 2 ^ 31 ∨ 2 ^ 64 - 2 ^ 31 ≤ a.value := by
  have hv := a.value_lt
  rw [BitVec.toNat_signExtend, BitVec.toNat_setWidth, a.toNat_eventArg, BitVec.msb_eq_decide,
    a.toNat_eventArg]
  simp only [decide_eq_true_eq]
  split_ifs with hmsb <;> omega

end HexArg

end Strtoul

/-! ## Printing a value -/

theorem digitVal_toUpper {d : ℕ} (h : d < 16) :
    digitVal d.digitChar.toUpper = digitVal d.digitChar := by
  interval_cases d <;> decide

theorem hexVal_upperHex (n : ℕ) : hexVal (upperHex n) = n := by
  have hmap : ∀ s : Str, (∀ c ∈ s, digitVal c.toUpper = digitVal c) →
      valueIn 16 (s.map Char.toUpper) = valueIn 16 s := by
    intro s hs
    induction s using List.reverseRecOn with
    | nil => rfl
    | append_singleton s c ih =>
      rw [List.map_append, List.map_singleton, valueIn_append_singleton, valueIn_append_singleton,
        ih fun d hd => hs d (by simp [hd]), hs c (by simp)]
  rw [upperHex, hexVal, hmap, ← hexVal, hexVal_hex]
  intro c hc
  obtain ⟨d, hd, rfl⟩ := exists_of_mem_toDigits (by norm_num) hc
  exact digitVal_toUpper hd

theorem ne_x_of_mem_upperHex {n : ℕ} {c : Char} (h : c ∈ upperHex n) : c ≠ 'x' := by
  obtain ⟨c', hc', rfl⟩ := List.mem_map.mp h
  obtain ⟨d, hd, rfl⟩ := exists_of_mem_toDigits (by norm_num) hc'
  interval_cases d <;> decide

/-- A text ends with one value in parentheses only. -/
theorem shown_unique {front front' : Str} {m n : ℕ}
    (h : front ++ "(0x".toList ++ upperHex m ++ ")".toList =
      front' ++ "(0x".toList ++ upperHex n ++ ")".toList) : m = n := by
  have hne : ∀ {k : ℕ}, ∀ c ∈ upperHex k, (c != 'x') = true := by
    intro k c hc
    simpa using ne_x_of_mem_upperHex hc
  have hlast : ∀ {f : Str}, ∀ c ∈ (f ++ "(0x".toList).getLast?, (c != 'x') = false := by
    intro f c hc
    rw [List.getLast?_append_of_ne_nil _ (by decide)] at hc
    revert c
    decide
  have hdigits := (run_unique_right (p := fun c => c != 'x') hne hne hlast hlast
    (List.append_cancel_right h)).2
  rw [← hexVal_upperHex m, hdigits, hexVal_upperHex]

/-! ## The event of an option -/

section Events
variable {perfEventOpen : List Attr → Attr → ℤ} {c c' : Char} {arg : Str} {s t s' t' : State}
  {e e' : Attr} {a a' : HexArg}

theorem perfOpen_opened {type : ℕ} {event : BitVec 32}
    (h : perfOpen perfEventOpen type event s = some t) :
    t.events = s.events ++ [⟨type, event.signExtend 64⟩] ∧ t.headers = s.headers := by
  simp only [perfOpen] at h
  by_cases hret : perfEventOpen s.events ⟨type, event.signExtend 64⟩ < 0
  · simp [if_pos hret] at h
  · rw [if_neg hret] at h
    obtain rfl := Option.some.inj h
    exact ⟨rfl, rfl⟩

/-- The event and the heading of a single event. -/
theorem Opens.single (h : Opens perfEventOpen c arg s t e) (hc : c ≠ 'i') :
    e.config = (eventArg arg).signExtend 64 ∧
      t.headers = s.headers ++ heading (c, eventArg arg) := by
  obtain ⟨hrun, hevents⟩ := h
  rw [perfConfig, if_neg hc] at hrun
  by_cases hfull : s.nCounters + 1 > maxCounters
  · rw [if_pos hfull, Option.some_inj] at hrun
    simp [hrun] at hevents
  · rw [if_neg hfull] at hrun
    obtain ⟨u, hu, ht⟩ := Option.bind_eq_some_iff.mp hrun
    obtain ⟨hopened, hheaders⟩ := perfOpen_opened hu
    obtain rfl := Option.some.inj ht
    simp only [addHeading] at hevents
    rw [hopened] at hevents
    obtain rfl := (List.cons.inj (List.append_cancel_left hevents)).1
    refine ⟨rfl, ?_⟩
    rw [addHeading, hheaders, heading, if_neg hc]
    rfl

theorem Opens.shows_iff (h : Opens perfEventOpen c arg s t e) (hc : c ≠ 'i') (v : ℕ) :
    Shows s t v ↔ v = (eventArg arg).toNat := by
  have hheading : t.headers = s.headers ++ (" ".toList ++ List.replicate
      (12 - (eventName (c, eventArg arg)).length) ' ' ++ " ".toList ++
      (if c = 'h' then "HW" else if c = 'c' then "CACHE" else "RAW").toList ++ "(0x".toList ++
      upperHex (eventArg arg).toNat ++ ")".toList) := by
    rw [(h.single hc).2, heading, if_neg hc, padLeft]
    simp [eventName]
  constructor
  · rintro ⟨front, hfront⟩
    rw [hheading] at hfront
    exact (shown_unique (List.append_cancel_left hfront)).symm
  · rintro rfl
    exact ⟨_, hheading⟩

/-- An option gets what it asks for exactly if its value is below the sign of `int`. -/
theorem Opens.requested_iff (h : Opens perfEventOpen c a.text s t e) (hc : c ≠ 'i') :
    Requested s t e a.value ↔ a.value < 2 ^ 31 := by
  have hshown := h.shows_iff hc a.value
  rw [a.toNat_eventArg] at hshown
  have hconfig := a.config_eq_iff
  rw [← (h.single hc).1] at hconfig
  constructor
  · rintro ⟨hcfg, hshow⟩
    have h₁ := hconfig.mp hcfg
    have h₂ := hshown.mp hshow
    omega
  · intro hlt
    exact ⟨hconfig.mpr (.inl hlt), hshown.mpr (by omega)⟩

/-- For every option letter and every hexadecimal argument that `perf_config` admits, the event and
its heading are the requested ones, and two values give two events, exactly if the values are below
two to the thirty-one. -/
theorem events_requested_iff (hc : c ∈ ['h', 'c', 'r']) (hc' : c' ∈ ['h', 'c', 'r'])
    (h : Opens perfEventOpen c a.text s t e) (h' : Opens perfEventOpen c' a'.text s' t' e') :
    (Requested s t e a.value ∧ Requested s' t' e' a'.value ∧ (a.value ≠ a'.value → e ≠ e')) ↔
      a.value < 2 ^ 31 ∧ a'.value < 2 ^ 31 := by
  have hletter : ∀ c ∈ ['h', 'c', 'r'], c ≠ 'i' := by
    decide
  rw [h.requested_iff (hletter c hc), h'.requested_iff (hletter c' hc'), ← and_assoc,
    and_iff_left_iff_imp]
  rintro ⟨hlt, hlt'⟩ hne rfl
  apply hne
  rw [← ((h.requested_iff (hletter c hc)).mpr hlt).config,
    ((h'.requested_iff (hletter c' hc')).mpr hlt').config]

end Events

/-! ## Two arguments -/

def cycles : HexArg where
  blanks := []
  sign := []
  marker := []
  digits := "11".toList
  blanks_space := by decide
  sign_form := .inl rfl
  marker_form := .inl rfl
  digits_run := by decide
  fits := by decide

def wideCycles : HexArg where
  blanks := []
  sign := []
  marker := ['0', 'x']
  digits := "100000011".toList
  blanks_space := cycles.blanks_space
  sign_form := .inl rfl
  marker_form := .inr (.inl rfl)
  digits_run := by decide
  fits := by decide

theorem opens_raw (a : HexArg) : ∃ t e, Opens fileNumber 'r' a.text initial t e :=
  ⟨_, _, rfl, rfl⟩

theorem cycles_requested : ∃ t e, Opens fileNumber 'r' "11".toList initial t e ∧
    Requested initial t e 0x11 := by
  obtain ⟨t, e, h⟩ := opens_raw cycles
  exact ⟨t, e, h, ((events_requested_iff (by decide) (by decide) h h).mpr ⟨by decide, by decide⟩).1⟩

/-- Two values and one event, which is headed by the smaller value. -/
theorem wideCycles_not_requested : ∃ t t' e, Opens fileNumber 'r' "11".toList initial t e ∧
    Opens fileNumber 'r' "0x100000011".toList initial t' e ∧
    t'.headers = "    RAW(0x11)".toList ∧ ¬ Requested initial t' e wideCycles.value := by
  refine ⟨_, _, ⟨perfTypeRaw, 0x11⟩, ⟨rfl, ?_⟩, ⟨rfl, ?_⟩, ?_, ?_⟩
  · decide +kernel
  · decide +kernel
  · decide +kernel
  · intro h
    exact absurd h.config (by decide +kernel)

end Rebench.Perf
