import Rebench.Reloc.Script
import Rebench.Text.Grep

/-!
# The disass script: from a symbol table to an address range

The rows of the symbol table that `grep -w` selects are put into one line, and
awk takes the columns from that line. The disassembler runs on the range that
the first and the fifth column give.
-/
namespace Rebench.Disass
open Text Reloc

/-- What is printed above a disassembly, and the digits of the two addresses. -/
structure Disassembly where
  heading : Str
  start : Str
  stop : Str

def hex16 (n : ℕ) : Str := List.replicate (16 - (hex n).length) '0' ++ hex n

/-- `0x$s` in an arithmetic expansion, where `0x` alone is zero. -/
def shellHex (s : Str) : Option Machine.Word := if s = [] then some 0 else hexLiteral s

/-- `printf "%016x\n" $((0x$start+0x$size))`; without output where the expansion is an error. -/
def stopText (start size : Str) : Str :=
  match shellHex start, shellHex size with
  | some a, some n => hex16 (a + n).toNat
  | _, _ => []

section Script
/- The lines that `grep -w` selects for a pattern. -/
variable (grepW : Str → Str → Bool)

/-- The pipe behind `objdump`. -/
def selects (static : Bool) (name line : Str) : Bool :=
  grepW name line && (!static || grepW "g".toList line)

/-- The function on the listing that `objdump -t` or `objdump -T` prints. -/
def disass (static : Bool) (listing : List Str) (name : Str) : Option Disassembly :=
  let sym := listing.filter (selects grepW static name)
  if ∀ line ∈ sym, line = [] then none
  else
    let fields := sym.flatMap words
    let start := fields.getD 0 []
    -- without a word the test of the source is an error, and the range is not printed either
    if start = [] ∨ start = "0000000000000000".toList then none
    else
      let type := fields.getD 3 []
      let size := fields.getD 4 []
      let stop := stopText start size
      some {
        heading := "# ".toList ++ padLeft 24 name ++ " ".toList ++ start ++ " ".toList ++ stop ++
          " ".toList ++ size ++ " ".toList ++ type
        start, stop }

def disassLoc (location : Str) : Option Disassembly :=
  let arr := words (location.map fun c => if c = '-' then ' ' else c)
  let start := arr.getD 0 []
  some { heading := "# ".toList ++ start ++ ":".toList, start, stop := arr.getD 1 [] }

/-- The body of the symbol loop. -/
def disassArg (static : Bool) (listing : List Str) : Str → Option Disassembly
  | '?' :: _ => none
  | 'L' :: location => disassLoc location
  | '@' :: name => disass grepW static listing name
  | name => disass grepW static listing name

end Script

end Rebench.Disass
