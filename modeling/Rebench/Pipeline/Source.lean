import Rebench.Disass.Source
import Rebench.Refine.Source
import Rebench.Post.Source

/-!
# The ututna script: from a library to an assembly file

A file is begun with directives for the exported symbols. The disassembly of the
symbols, printed one after the other, is refined into the file, which is then
edited in place. A step that fails does not stop the script.
-/
namespace Rebench.Pipeline
open Text

def echo (ws : List Str) : Str := [' '].intercalate ws

def globals (args : List Str) : List Str :=
  args.filterMap fun sym =>
    match sym with
    | '@' :: name => some (echo ("\t.global".toList :: words name))
    | _ => none

/-- What is written into the file before the code. -/
def preamble (args : List Str) : List Str :=
  "\t.text".toList :: (globals args ++ ["\t.align 3".toList])

def refined (tmpfile : Str) : List Str :=
  match Refine.refine tmpfile with
  | .ok s => s.stdout
  | .error f => f.stdout

section Script
/- The lines that `grep -w` selects for a pattern, and what the disassembler prints for a range. -/
variable (grepW : Str → Str → Bool) (objdump : Str → Str → Str)

/-- The symbol loop of disass, with the symbol table that `objdump -T` prints; the shell splits the
arguments. -/
def disass (table : List Str) (args : List Str) : Str :=
  (args.flatMap words).flatMap fun symbol =>
    match Disass.disassArg grepW false table symbol with
    | some d => d.heading ++ '\n' :: objdump d.start d.stop
    | none => []

/-- The function `process` for the file `out/<name>`; post.py leaves the file if it fails. -/
def process (table : List Str) (name : Str) (args : List Str) : List Str :=
  let file := preamble args ++ refined (disass grepW objdump table args)
  match Post.post ("out/".toList ++ name) file with
  | .ok out => out
  | .error _ => file

end Script

/-- The function `replace`, for texts without special characters. -/
def replace (location pat rep : Str) (file : List Str) : List Str :=
  file.map fun line => if location <+: line then replaceFirst pat rep line else line

/-- The function `replace_global`, for texts without special characters. -/
def replaceGlobal (pat rep : Str) (file : List Str) : List Str := file.map (replaceAll pat rep)

end Rebench.Pipeline
