import Rebench.Text.Pattern
import Rebench.Text.Ascii

/-!
# refine.py: from a disassembly listing to an assembly listing

The loop reads the listing line by line. A header line becomes a label, an
instruction line becomes the same instruction behind the label of its address,
with a code address among the operands replaced by a label or a symbol name.
A line of any other form stops the run with an error.
-/
namespace Rebench.Refine
open Text

def unsafeSymbols : List Str :=
  ["fopen", "fread", "fwrite", "fclose", "exit", "abort", "setjmp", "longjmp",
    "__stack_chk_fail", "__sfp_handle_exceptions", "__cxa_begin_catch", "__cxa_end_catch",
    "__cxa_rethrow", "_Unwind_Resume"].map String.toList

def staticSymbols : List Str :=
  ["malloc", "free", "calloc", "realloc", "_ZdaPv", "_ZdlPv", "_Znam", "_Znwm",
    "memset", "memcpy", "memcmp", "memmove", "sin", "cos", "sqrt", "pow",
    "crc32", "inflate", "inflateEnd", "inflateInit_", "inflateReset",
    "sprintf", "fprintf", "fputc"].map String.toList

inductive Group where
  | addr | sym | offset | bin | inst | operands | reg | op1 | op2
  deriving DecidableEq

abbrev Pat := Pattern Char Group
abbrev Match := Captures Char Group

/-! ## Operand patterns -/

namespace Pat

def str (s : String) : Pat := .lit s.toList
def addr : Pat := .named .addr (.plus isHex)
def word : Pat := .named .sym (.plus isWord)
def hexOffset : Pat := .named .offset (.plus isHex)
def sym : Pat := str "<" ++ word ++ str ">"
def symOffset : Pat := str "<" ++ word ++ str "+0x" ++ hexOffset ++ str ">"
def symPlt : Pat := str "<" ++ word ++ str "@plt>"
def symBase : Pat := str "<" ++ word ++ str "@@Base>"
def symBaseOffset : Pat := str "<" ++ word ++ str "@@Base+0x" ++ hexOffset ++ str ">"
def bin : Pat := .named .bin (.exactly 8 isHex)
def inst : Pat := .named .inst (.plus isDot)
def operands : Pat := .named .operands (.plus isDot)
/-- `[x|d]` is a class of three characters, the bar among them. -/
def reg : Pat := .named .reg (.exactly 1 (fun c => c ∈ ['x', '|', 'd']) ++ .plus isDec)
def space : Pat := .plus isSpace
def tab : Pat := str "\t"
def op1 : Pat := .named .op1 (.plus isDot)
def op2 : Pat := .named .op2 (.plus isDot)

end Pat

def label (addr : ℕ) : Str := 'L' :: hex addr

def codeLine (addr : ℕ) (inst operands : Str) : Str :=
  label addr ++ ":\t".toList ++ inst ++ " ".toList ++ operands

/-- The name that stands for a symbol in the output; the symbol is recorded for the report. -/
def importSym (symbols : List Str) (sym : Str) : Str × List Str :=
  let symbols := if sym ∈ symbols then symbols else symbols ++ [sym]
  if sym ∈ unsafeSymbols then ("o_".toList ++ sym, symbols)
  else if sym ∈ staticSymbols then ("s_".toList ++ sym, symbols)
  else (sym, symbols)

/-! ## Instruction lines -/

/-- The cases `b`, `bl` and `b.<cond>`: four operand forms, tried in this order. -/
def branchCase (symbols : List Str) (addr : ℕ) (inst operands : Str) : Option (Str × List Str) :=
  match (Pat.addr ++ Pat.space ++ Pat.sym).match? operands with
  | some mo =>
    let (name, symbols) := importSym symbols (mo.group .sym)
    some (codeLine addr inst name, symbols)
  | none =>
    match (Pat.addr ++ Pat.space ++ Pat.symPlt).match? operands with
    | some mo =>
      let (name, symbols) := importSym symbols (mo.group .sym)
      some (codeLine addr inst name, symbols)
    | none =>
      match (Pat.addr ++ Pat.space ++ Pat.symOffset).match? operands with
      | some mo =>
        some (codeLine addr inst ('L' :: mo.group .addr ++ " // <".toList ++ mo.group .sym ++
          "+0x".toList ++ mo.group .offset ++ ">".toList), symbols)
      | none =>
        match (Pat.addr ++ Pat.space ++ Pat.symBaseOffset).match? operands with
        | some mo =>
          some (codeLine addr inst ('L' :: mo.group .addr ++ " // <".toList ++ mo.group .sym ++
            "@@Base+0x".toList ++ mo.group .offset ++ ">".toList), symbols)
        | none => none

/-- The case `tbz`, `tbnz`; without a result the line falls through to the later cases. -/
def tbzCase (addr : ℕ) (inst operands : Str) : Option Str :=
  if inst ∈ ["tbz".toList, "tbnz".toList] then
    let op := Pat.op1 ++ Pat.str ", " ++ Pat.op2 ++ Pat.str ", " ++ Pat.addr ++ Pat.space
    ((op ++ Pat.symBaseOffset).match? operands <|> (op ++ Pat.symOffset).match? operands).map
      fun mo => codeLine addr inst (mo.group .op1 ++ ", ".toList ++ mo.group .op2 ++
        ", L".toList ++ mo.group .addr ++ " // <".toList ++ mo.group .sym ++
        "@@Base+0x".toList ++ mo.group .offset ++ ">".toList)
  else none

/-- The case `cbz`, `cbnz`; without a result the line falls through to the later cases. -/
def cbzCase (addr : ℕ) (inst operands : Str) : Option Str :=
  if inst ∈ ["cbz".toList, "cbnz".toList] then
    let op := Pat.op1 ++ Pat.str ", " ++ Pat.addr ++ Pat.space
    ((op ++ Pat.symBaseOffset).match? operands <|> (op ++ Pat.symOffset).match? operands).map
      fun mo => codeLine addr inst (mo.group .op1 ++ ", L".toList ++ mo.group .addr ++
        " // <".toList ++ mo.group .sym ++ "@@Base+0x".toList ++ mo.group .offset ++ ">".toList)
  else none

/-- The case `adrp`: the page keeps a mark that only post.py removes. -/
def adrpCase (addr : ℕ) (inst operands : Str) : Option Str :=
  let op := Pat.reg ++ Pat.str ", " ++ Pat.addr ++ Pat.space
  ((op ++ Pat.symBaseOffset).match? operands <|> (op ++ Pat.symBase).match? operands <|>
      (op ++ Pat.symOffset).match? operands).map
    fun mo => codeLine addr inst (mo.group .reg ++ ", ?".toList ++ mo.group .addr)

def adrCase (addr : ℕ) (inst operands : Str) : Option Str :=
  if inst = "adr".toList then
    ((Pat.reg ++ Pat.str ", " ++ Pat.addr ++ Pat.space ++ Pat.symBaseOffset).match? operands).map
      fun mo => codeLine addr inst (mo.group .reg ++ ", L".toList ++ mo.group .addr)
  else none

/-- The last case copies the operands unless they hold `@` or `+0x`. -/
def genericCase (addr : ℕ) (inst operands : Str) : Option Str :=
  if '@' ∈ operands then none
  else if "+0x".toList <:+: operands then none
  else some (codeLine addr inst operands)

def IsBranch (inst : Str) : Prop := inst ∈ ["b".toList, "bl".toList] ∨ "b.".toList <+: inst

instance : DecidablePred IsBranch := fun _ => inferInstanceAs (Decidable (_ ∨ _))

/-- The printed line and the recorded symbols; `none` where the source returns `False`. -/
def processInsts (symbols : List Str) (m : Match) : Option (Str × List Str) :=
  let inst := m.group .inst
  let addr := hexVal (m.group .addr)
  let operands := m.group .operands
  if IsBranch inst then
    branchCase symbols addr inst operands
  else
    (tbzCase addr inst operands <|> cbzCase addr inst operands <|>
      if inst = "adrp".toList then adrpCase addr inst operands
      else adrCase addr inst operands <|> genericCase addr inst operands).map (·, symbols)

/-! ## The main loop -/

/-- What the loop carries from line to line, and what it has printed. -/
structure State where
  lineno : ℕ
  symbols : List Str
  localSymbols : List Str
  stdout : List Str

/-- A run that exits with status -1: the number and the text of the line on stderr. -/
structure Failure where
  lineno : ℕ
  line : Str
  stdout : List Str

def header : Pat := Pat.addr ++ Pat.space ++ Pat.sym ++ Pat.str ":"
def headerBase : Pat := Pat.addr ++ Pat.space ++ Pat.symBase ++ Pat.str ":"
def headerBaseOffset : Pat := Pat.addr ++ Pat.space ++ Pat.symBaseOffset ++ Pat.str ":"
def instOperands : Pat :=
  Pat.addr ++ Pat.str ":" ++ Pat.space ++ Pat.bin ++ Pat.space ++ Pat.inst ++ Pat.tab ++
    Pat.operands
def instOnly : Pat :=
  Pat.addr ++ Pat.str ":" ++ Pat.space ++ Pat.bin ++ Pat.space ++ Pat.inst

/-- What one line of the listing does to the run. -/
inductive Action where
  | skip
  | define (sym : Str)
  | print (line : Str) (symbols : List Str)
  | fail

def action (symbols : List Str) (line : Str) : Action :=
  if line.length = 0 then .skip
  else if "#".toList <+: line then .skip
  else if "file format".toList <:+: line then .skip
  else if "Disassembly".toList <+: line then .skip
  else match header.match? line <|> headerBase.match? line with
  | some m => .define (m.group .sym)
  | none =>
    match headerBaseOffset.match? line with
    | some _ => .skip
    | none =>
      match instOperands.match? line with
      | some m =>
        match processInsts symbols m with
        | some (out, symbols) => .print out symbols
        | none => .fail
      | none =>
        match instOnly.match? line with
        | some m =>
          if m.group .inst ∈ ["ret".toList, "nop".toList] then
            .print (label (hexVal (m.group .addr)) ++ ":\t".toList ++ m.group .inst) symbols
          else .fail
        | none => .fail

def step (s : State) (raw : Str) : Except Failure State :=
  let lineno := s.lineno + 1
  let line := strip raw
  match action s.symbols line with
  | .skip => .ok { s with lineno }
  | .define sym => .ok { s with
      lineno
      localSymbols := if sym ∈ s.localSymbols then s.localSymbols else s.localSymbols ++ [sym]
      stdout := s.stdout ++ [sym ++ ":".toList] }
  | .print out symbols => .ok { s with lineno, symbols, stdout := s.stdout ++ [out] }
  | .fail => .error { lineno, line, stdout := s.stdout }

def start : State := { lineno := 0, symbols := [], localSymbols := [], stdout := [] }

/-- The whole run on the text of a listing; `ok` is exit status 0. -/
def refine (file : Str) : Except Failure State := (readlines file).foldlM step start

/-! ## The symbol report -/

def reportTag (localSymbols : List Str) (sym : Str) : Str :=
  if sym ∈ unsafeSymbols then "(unsafe) ".toList
  else if sym ∈ localSymbols then "(local) ".toList
  else if sym ∈ staticSymbols then "(static) ".toList
  else []

/-- Texts are compared by their code points. -/
def textLe : Str → Str → Bool
  | [], _ => true
  | _ :: _, [] => false
  | a :: s, b :: t => a < b || (a == b && textLe s t)

/-- The lines on stderr behind `symbols:`. -/
def symbolReport (s : State) : List Str :=
  ((s.symbols.map fun sym => reportTag s.localSymbols sym ++ sym).mergeSort textLe).map
    ("  ".toList ++ ·)

end Rebench.Refine
