import Rebench.Text.Pattern
import Rebench.Text.Replace

/-!
# post.py: page marks become labels

The script reads the neighbourhood of every `adrp` line, remembers for every
register the last page loaded into it, and pairs it with the first line that
adds an offset to the register. A pair becomes substitutions for its two lines,
which sed applies to the file one after the other.
-/
namespace Rebench.Post
open Text

inductive Group where
  | label | reg | reg2 | addr | offset
  deriving DecidableEq

abbrev Pat := Pattern Char Group

namespace Pat

def str (s : String) : Pat := .lit s.toList
def label : Pat := str "L" ++ .named .label (.plus isHex) ++ str ":"
/-- `[x|d|q]` is a class of four characters, the bar among them. -/
def register (name : Group) : Pat :=
  .named name (.exactly 1 (fun c => c ∈ ['x', '|', 'd', 'q']) ++ .plus isDec)
def reg : Pat := register .reg
def reg2 : Pat := register .reg2
def addr : Pat := .named .addr (.plus isHex)
def offset : Pat := str "#" ++ .named .offset (.plus isHex)
def offsetHex : Pat := str "#0x" ++ .named .offset (.plus isHex)

def adrp : Pat := label ++ str "\tadrp " ++ reg ++ str ", ?" ++ addr
def add : Pat := label ++ str "\tadd " ++ reg ++ str ", " ++ reg2 ++ str ", " ++ offsetHex
def ldr : Pat := label ++ str "\tldr " ++ reg ++ str ", [" ++ reg2 ++ str "," ++ offset
def ldrBase : Pat := label ++ str "\tldr " ++ reg ++ str ", [" ++ reg2 ++ str "]"

end Pat

/-- `grep adrp -A 7`: the lines with the word and the seven behind each of them, with `--` where
lines were left out in between. A file is the list of its lines, without their newlines. -/
def grepFrom (left : ℕ) (printed gap : Bool) : List Str → List Str
  | [] => []
  | l :: ls =>
    if "adrp".toList <:+: l then
      (if printed && gap then ["--".toList] else []) ++ l :: grepFrom 7 true false ls
    else
      match left with
      | 0 => grepFrom 0 printed true ls
      | left + 1 => l :: grepFrom left printed false ls

def grep (file : List Str) : List Str := grepFrom 0 false false file

def label (addr : ℕ) : Str := 'L' :: hex addr

/-- The command `/^L<label>:/s/<pattern>/<replacement>/`, whose sides are literal texts. -/
structure Sed where
  label : Str
  pattern : Str
  replacement : Str

/-- What `tmp` keeps of an `adrp` line. -/
structure Adrp where
  label : Str
  addr : Str
  deriving DecidableEq

structure State where
  tmp : Str → Option Adrp
  replaces : List Sed

structure ValueError where
  text : Str
  deriving DecidableEq

def int (text : Str) : Except ValueError ℕ :=
  if IsRun isDec text then .ok (decVal text) else .error ⟨text⟩

/-- The mark of the page is replaced by the label, the partner is edited, and the entry is gone. -/
def State.pair (s : State) (reg : Str) (p : Adrp) (addr : Str) (edit : List Sed) : State where
  tmp := Function.update s.tmp reg none
  replaces := s.replaces ++ ⟨p.label, '?' :: p.addr, addr⟩ :: edit

/-- The case `add`, with a hexadecimal offset. -/
def addCase (s : State) (line : Str) : State :=
  match Pat.add.match? line with
  | some mo =>
    match s.tmp (mo.group .reg2) with
    | some p =>
      let addr := label (hexVal p.addr + hexVal (mo.group .offset))
      s.pair (mo.group .reg2) p addr
        [⟨mo.group .label, "#0x".toList ++ mo.group .offset, "#:lo12:".toList ++ addr⟩]
    | none => s
  | none => s

/-- The case `ldr` with an offset, which is read as a decimal number. -/
def ldrCase (s : State) (line : Str) : Except ValueError State :=
  match Pat.ldr.match? line with
  | some mo =>
    match s.tmp (mo.group .reg2) with
    | some p => do
      let offset ← int (mo.group .offset)
      let addr := label (hexVal p.addr + offset)
      return s.pair (mo.group .reg2) p addr
        [⟨mo.group .label, '#' :: mo.group .offset, "#:lo12:".toList ++ addr⟩]
    | none => return s
  | none => return s

/-- The case `ldr` without an offset: only the page gets a label. -/
def ldrBaseCase (s : State) (line : Str) : State :=
  match Pat.ldrBase.match? line with
  | some mo =>
    match s.tmp (mo.group .reg2) with
    | some p => s.pair (mo.group .reg2) p (label (hexVal p.addr)) []
    | none => s
  | none => s

def step (s : State) (line : Str) : Except ValueError State :=
  if "--".toList <+: line then .ok { s with tmp := fun _ => none }
  else match Pat.adrp.match? line with
  | some mo =>
    .ok { s with
      tmp := Function.update s.tmp (mo.group .reg) (some ⟨mo.group .label, mo.group .addr⟩) }
  | none => do
    let s ← ldrCase (addCase s line) line
    return ldrBaseCase s line

def start : State := { tmp := fun _ => none, replaces := [] }

/-- `sed -i` on one line. -/
def Sed.apply (c : Sed) (line : Str) : Str :=
  if 'L' :: (c.label ++ [':']) <+: line then replaceFirst c.pattern c.replacement line else line

def basename (path : Str) : Str := path.rtakeWhile (· ≠ '/')

def includeLine (path : Str) : Str :=
  ".include \"".toList ++ replaceAll ".s".toList ".inc".toList (basename path) ++ ['"']

/-- The file afterwards; nothing is changed if the loop fails. -/
def post (path : Str) (file : List Str) : Except ValueError (List Str) := do
  let s ← (grep file).foldlM step start
  return s.replaces.foldl (fun ls c => ls.map c.apply) file ++ [[], includeLine path]

end Rebench.Post
