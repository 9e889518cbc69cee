import Rebench.Perf.Headings

/-!
# main.c: the option loop

`getopt` cuts the argument vector into options, `strtoul` reads the argument of
each, and `perf_config` gets whatever `getopt` returns. An option that `getopt`
does not know is returned as `?` and without an argument.
-/
namespace Rebench.Perf
open Text Machine

/-! ## `strtoul` with base 16 -/

def takeSign : Str → Bool × Str
  | '-' :: s => (true, s)
  | '+' :: s => (false, s)
  | s => (false, s)

/-- `0x` or `0X` in front of a digit. -/
def dropMarker : Str → Str
  | '0' :: x :: d :: s => if (x = 'x' ∨ x = 'X') ∧ isHex d then d :: s else '0' :: x :: d :: s
  | s => s

/-- `strtoul(s, NULL, 16)`: the first digits behind white space, a sign and a marker; a value that
does not fit gives `ULONG_MAX`. -/
def strtoul (s : Str) : BitVec 64 :=
  let (minus, s) := takeSign (s.dropWhile isSpace)
  let n := hexVal ((dropMarker s).takeWhile isHex)
  if 2 ^ 64 ≤ n then BitVec.allOnes 64
  else if minus then -BitVec.ofNat 64 n
  else BitVec.ofNat 64 n

/-- The parameter `int event` of an argument. -/
def eventArg (arg : Str) : BitVec 32 := (strtoul arg).setWidth 32

/-! ## `getopt` -/

/-- Whether a letter of the option string takes an argument; `none` for other characters. -/
def takesArg : Str → Char → Option Bool
  | [], _ => none
  | d :: ds, c => if d = c ∧ c ≠ ':' then some (ds.head? = some ':') else takesArg ds c

inductive Opt where
  | arg (c : Char) (value : Str)
  | flag (c : Char)
  | unknown (c : Char)
  | missing (c : Char)
  deriving DecidableEq

/-- The options of one element behind its hyphen; the last may need the next element. -/
def cluster (optstring : Str) : Str → List Opt × Option Char
  | [] => ([], none)
  | c :: cs =>
    match takesArg optstring c with
    | none => (.unknown c :: (cluster optstring cs).1, (cluster optstring cs).2)
    | some false => (.flag c :: (cluster optstring cs).1, (cluster optstring cs).2)
    | some true => if cs = [] then ([], some c) else ([.arg c cs], none)

/-- The options of an argument vector, from an option that waits for its argument on. The first
operand ends them unless `getopt` moves the operands behind the options. -/
def optionsFrom (permute : Bool) (optstring : Str) : Option Char → List Str → List Opt
  | none, [] => []
  | some c, [] => [.missing c]
  | some c, a :: argv => .arg c a :: optionsFrom permute optstring none argv
  | none, a :: argv =>
    if a = "--".toList then []
    else if "-".toList <+: a ∧ a ≠ "-".toList then
      (cluster optstring a.tail).1 ++
        optionsFrom permute optstring (cluster optstring a.tail).2 argv
    else if permute then optionsFrom permute optstring none argv
    else []

/-- What `getopt` returns for an option, and `optarg`. -/
def Opt.result : Opt → Char × Option Str
  | arg c value => (c, some value)
  | flag c => (c, none)
  | unknown _ => ('?', none)
  | missing _ => ('?', none)

/-! ## The loop -/

/-- `"h:c:r:i:?"`. -/
def optstring : Str := "h:c:r:i:?".toList

def options (permute : Bool) (argv : List Str) : List Opt := optionsFrom permute optstring none argv

inductive Call where
  | strtoul (arg : Option Str)
  | perfConfig (type : Char) (event : BitVec 32)

section Loop
/- `perf_event_open` of the kernel, and what `strtoul` does with a null pointer: it returns a value
or stops the program. -/
variable (perfEventOpen : List Attr → Attr → ℤ) (strtoulNull : Option (BitVec 64))

/-- The loop over the results of `getopt`: the calls, and the state unless the program ends. -/
def optionLoop : List (Char × Option Str) → State → List Call × Option State
  | [], s => ([], some s)
  | (c, optarg) :: results, s =>
    match optarg.elim strtoulNull (some ∘ Perf.strtoul) with
    | none => ([.strtoul optarg], none)
    | some value =>
      let event := value.setWidth 32
      match perfConfig perfEventOpen c event s with
      | none => ([.strtoul optarg, .perfConfig c event], none)
      | some t =>
        (.strtoul optarg :: .perfConfig c event :: (optionLoop results t).1,
          (optionLoop results t).2)

def mainOptions (permute : Bool) (argv : List Str) : List Call × Option State :=
  optionLoop perfEventOpen strtoulNull ((options permute argv).map Opt.result) initial

end Loop

/-! ## Well-formed options -/

def documented : Str := "hcri".toList

def Opt.WellFormed : Opt → Prop
  | arg c _ => c ∈ documented
  | _ => False

instance : DecidablePred Opt.WellFormed
  | .arg c _ => inferInstanceAs (Decidable (c ∈ documented))
  | .flag _ => isFalse id
  | .unknown _ => isFalse id
  | .missing _ => isFalse id

/-- What a well-formed option asks of `perf_config`. -/
def Opt.request : Opt → Option Request
  | arg c value => some (c, eventArg value)
  | _ => none

def requests (opts : List Opt) : List Request := opts.filterMap Opt.request

/-- `strtoul` gets arguments only, `perf_config` the documented letters only, and the counters and
headings are those of the well-formed options in order. -/
structure Harmless (perfEventOpen : List Attr → Attr → ℤ) (opts : List Opt) (s : State)
    (run : List Call × Option State) : Prop where
  strtoul_arg : ∀ arg, .strtoul arg ∈ run.1 → arg ≠ none
  perfConfig_type : ∀ type event, .perfConfig type event ∈ run.1 → type ∈ documented
  configured : run.2 = configure perfEventOpen (requests opts) s

section Letters
variable {permute : Bool} {argv : List Str} {c : Char} {value : Str}

theorem mem_documented (h : takesArg optstring c = some true) : c ∈ documented := by
  rw [show optstring = ['h', ':', 'c', ':', 'r', ':', 'i', ':', '?'] from rfl] at h
  have hcolon : ¬ (':' = c ∧ c ≠ ':') := fun hand => hand.2 hand.1.symm
  simp only [takesArg, if_neg hcolon] at h
  split_ifs at h with h₁ h₂ h₃ h₄ h₅
  · exact h₁.1 ▸ by decide
  · exact h₂.1 ▸ by decide
  · exact h₃.1 ▸ by decide
  · exact h₄.1 ▸ by decide
  · exact absurd h (by decide)

theorem mem_documented_cluster {w : Str} :
    (∀ c value, .arg c value ∈ (cluster optstring w).1 → c ∈ documented) ∧
      ∀ c ∈ (cluster optstring w).2, c ∈ documented := by
  induction w with
  | nil => simp [cluster]
  | cons x w ih =>
    rw [cluster]
    cases hx : takesArg optstring x with
    | none => simpa using ih
    | some takes =>
      cases takes with
      | false => simpa using ih
      | true =>
        by_cases hw : w = []
        · simpa [hw] using mem_documented hx
        · simpa [hw] using mem_documented hx

theorem mem_documented_optionsFrom (pending : Option Char) (hp : ∀ c ∈ pending, c ∈ documented)
    (argv : List Str) (h : .arg c value ∈ optionsFrom permute optstring pending argv) :
    c ∈ documented := by
  induction argv generalizing pending with
  | nil =>
    cases pending with
    | none => simp [optionsFrom] at h
    | some d => simp [optionsFrom] at h
  | cons a argv ih =>
    cases pending with
    | some d =>
      rw [optionsFrom, List.mem_cons] at h
      cases h with
      | inl h =>
        rw [(Opt.arg.inj h).1]
        exact hp d rfl
      | inr h => exact ih none (by simp) h
    | none =>
      rw [optionsFrom] at h
      split_ifs at h
      · simp at h
      · cases List.mem_append.mp h with
        | inl h => exact mem_documented_cluster.1 c value h
        | inr h => exact ih _ mem_documented_cluster.2 h
      · exact ih none (by simp) h
      · simp at h

theorem mem_documented_options (h : .arg c value ∈ options permute argv) : c ∈ documented :=
  mem_documented_optionsFrom none (by simp) argv h

end Letters

/-! ## Runs of the loop -/

section Runs
variable {perfEventOpen : List Attr → Attr → ℤ} {strtoulNull : Option (BitVec 64)} {s t : State}
  {opts : List Opt} {o : Opt} {c : Char} {value : Str}

theorem configure_cons (r : Request) (rs : List Request) : configure perfEventOpen (r :: rs) s =
    (perfConfig perfEventOpen r.1 r.2 s).bind fun t => configure perfEventOpen rs t := by
  rw [configure, List.foldlM_cons]
  rfl

theorem optionLoop_arg (ht : perfConfig perfEventOpen c (eventArg value) s = some t) :
    optionLoop perfEventOpen strtoulNull ((Opt.arg c value :: opts).map Opt.result) s =
      (.strtoul (some value) :: .perfConfig c (eventArg value) ::
        (optionLoop perfEventOpen strtoulNull (opts.map Opt.result) t).1,
        (optionLoop perfEventOpen strtoulNull (opts.map Opt.result) t).2) := by
  rw [eventArg] at ht
  simp only [List.map_cons, Opt.result, optionLoop, Option.elim_some, Function.comp_apply, ht]
  rfl

theorem optionLoop_arg_none (ht : perfConfig perfEventOpen c (eventArg value) s = none) :
    optionLoop perfEventOpen strtoulNull ((Opt.arg c value :: opts).map Opt.result) s =
      ([.strtoul (some value), .perfConfig c (eventArg value)], none) := by
  rw [eventArg] at ht
  simp only [List.map_cons, Opt.result, optionLoop, Option.elim_some, Function.comp_apply, ht]
  rfl

/-- An option without an argument gives its null pointer to `strtoul`. -/
theorem strtoul_none_mem (h : o.result.2 = none) : .strtoul none ∈
    (optionLoop perfEventOpen strtoulNull ((o :: opts).map Opt.result) s).1 := by
  rw [List.map_cons, ← Prod.mk.eta (p := o.result), h, optionLoop]
  cases strtoulNull with
  | none => simp
  | some value =>
    simp only [Option.elim_none]
    cases perfConfig perfEventOpen o.result.1 (value.setWidth 32) s with
    | none => simp
    | some t => simp

theorem result_eq_none (h : ¬ o.WellFormed)
    (hletter : ∀ c value, o = .arg c value → c ∈ documented) : o.result.2 = none := by
  cases o with
  | arg c value => exact absurd (hletter c value rfl) h
  | flag c => rfl
  | unknown c => rfl
  | missing c => rfl

theorem configure_requests_cons : configure perfEventOpen (requests (.arg c value :: opts)) s =
    (perfConfig perfEventOpen c (eventArg value) s).bind
      (configure perfEventOpen (requests opts)) :=
  configure_cons _ _

/-- A documented option that the program survives is harmless. -/
theorem harmless_cons_iff {run : List Call × Option State} (hc : c ∈ documented)
    (ht : perfConfig perfEventOpen c (eventArg value) s = some t) :
    Harmless perfEventOpen (.arg c value :: opts) s
        (.strtoul (some value) :: .perfConfig c (eventArg value) :: run.1, run.2) ↔
      Harmless perfEventOpen opts t run := by
  have hconfigure : configure perfEventOpen (requests (.arg c value :: opts)) s =
      configure perfEventOpen (requests opts) t := by
    rw [configure_requests_cons, ht, Option.bind_some]
  constructor
  · intro h
    refine ⟨?_, ?_, ?_⟩
    · intro arg hmem
      exact h.strtoul_arg arg (by simp [hmem])
    · intro type event hmem
      exact h.perfConfig_type type event (by simp [hmem])
    · exact h.configured.trans hconfigure
  · intro h
    refine ⟨?_, ?_, ?_⟩
    · simpa using h.strtoul_arg
    · intro type event hmem
      rw [List.mem_cons, List.mem_cons] at hmem
      rcases hmem with hmem | hmem | hmem
      · cases hmem
      · obtain ⟨rfl, -⟩ := Call.perfConfig.inj hmem
        exact hc
      · exact h.perfConfig_type type event hmem
    · exact h.configured.trans hconfigure.symm

/-- So is one that ends the program. -/
theorem harmless_stopped (hc : c ∈ documented)
    (ht : perfConfig perfEventOpen c (eventArg value) s = none) :
    Harmless perfEventOpen (.arg c value :: opts) s
      ([.strtoul (some value), .perfConfig c (eventArg value)], none) := by
  refine ⟨by simp, ?_, ?_⟩
  · intro type event hmem
    obtain ⟨rfl, -⟩ : type = c ∧ event = eventArg value := by simpa using hmem
    exact hc
  · rw [configure_requests_cons, ht]
    rfl

/-- The loop is harmless exactly if no malformed option is reached. -/
theorem optionLoop_harmless_iff (hletter : ∀ c value, .arg c value ∈ opts → c ∈ documented) :
    Harmless perfEventOpen opts s (optionLoop perfEventOpen strtoulNull (opts.map Opt.result) s) ↔
      (∀ o ∈ opts, o.WellFormed) ∨
        configure perfEventOpen (requests (opts.takeWhile (·.WellFormed))) s = none := by
  induction opts generalizing s with
  | nil => exact iff_of_true ⟨by simp [optionLoop], by simp [optionLoop], rfl⟩ (.inl (by simp))
  | cons o opts ih =>
    by_cases ho : o.WellFormed
    · obtain ⟨c, value, rfl⟩ : ∃ c value, o = .arg c value := by
        cases o with
        | arg c value => exact ⟨c, value, rfl⟩
        | _ => exact absurd ho id
      have htake : (Opt.arg c value :: opts).takeWhile (·.WellFormed) =
          .arg c value :: opts.takeWhile (·.WellFormed) :=
        List.takeWhile_cons_of_pos (by simpa using ho)
      rw [htake, configure_requests_cons]
      cases ht : perfConfig perfEventOpen c (eventArg value) s with
      | none =>
        rw [optionLoop_arg_none ht]
        exact iff_of_true (harmless_stopped ho ht) (.inr rfl)
      | some t =>
        rw [optionLoop_arg ht, harmless_cons_iff ho ht, Option.bind_some, List.forall_mem_cons,
          and_iff_right ho]
        exact ih fun c value hmem => hletter c value (List.mem_cons_of_mem _ hmem)
    · refine iff_of_false ?_ ?_
      · intro h
        exact h.strtoul_arg none (strtoul_none_mem (result_eq_none ho fun c value heq =>
          hletter c value (by simp [heq]))) rfl
      · have htake : (o :: opts).takeWhile (·.WellFormed) = [] :=
          List.takeWhile_cons_of_neg (by simpa using ho)
        rw [htake]
        rintro (h | h)
        · exact ho (h o (by simp))
        · cases h

end Runs

/-- Whatever the kernel and a null pointer do, the option loop is harmless exactly if the argument
vector has no malformed option, or the program ends before the first one. -/
theorem mainOptions_harmless_iff (perfEventOpen : List Attr → Attr → ℤ)
    (strtoulNull : Option (BitVec 64)) (permute : Bool) (argv : List Str) :
    Harmless perfEventOpen (options permute argv) initial
        (mainOptions perfEventOpen strtoulNull permute argv) ↔
      (∀ o ∈ options permute argv, o.WellFormed) ∨
        configure perfEventOpen
          (requests ((options permute argv).takeWhile (·.WellFormed))) initial = none :=
  optionLoop_harmless_iff fun _ _ h => mem_documented_options h

/-- An unknown letter, where `strtoul` reads a null pointer as zero, adds a raw event. -/
theorem unknownOption_adds_counter : ∃ s, options false ["-x".toList] = [.unknown 'x'] ∧
    (mainOptions fileNumber (some 0) false ["-x".toList]).2 = some s ∧
    s.headers = "     RAW(0x0)".toList ∧ s.nCounters = 1 ∧
    ¬ Harmless fileNumber (options false ["-x".toList]) initial
      (mainOptions fileNumber (some 0) false ["-x".toList]) := by
  refine ⟨_, by decide, rfl, by decide, rfl, ?_⟩
  intro h
  have hmem : .strtoul none ∈
      (optionLoop fileNumber (some 0) ([Opt.unknown 'x'].map Opt.result) initial).1 :=
    strtoul_none_mem rfl
  exact h.strtoul_arg none hmem rfl

end Rebench.Perf
