import Rebench.Reloc.Source
import Rebench.Text.Words

/-!
# The reloc script: from readelf listings to a header

The script turns the section table and the relocation table of an ELF file
into macros and a table of entries, and the build adds the function that calls
`reloc` with them. The header is read as the compiler reads it: a literal that
is none, or a macro that is missing, is an error.
-/
namespace Rebench.Reloc
open Text Machine

/-! ## Sections -/

def firstMark : Str := "[ 1".toList

/-- `grep "\[ 1" | awk '{print $5}'`, unquoted: the lines found are joined by spaces. -/
def romStartText (listing : List Str) : Str :=
  [' '].intercalate ((listing.filter (firstMark <:+: ·)).map (wordAt · 4))

/-- The macros defined for one line of the section table. -/
def sectionMacros (line : Str) : List (Str × Str) :=
  if wordAt line 1 = ".text".toList then
    [("TEXT_START".toList, wordAt line 3), ("TEXT_SIZE".toList, wordAt line 5)]
  else if wordAt line 1 = ".bss".toList then
    [("BSS_START".toList, wordAt line 3), ("BSS_SIZE".toList, wordAt line 5)]
  else []

/-- The names and the digits behind `0x` of the macros, in the order of the header. The first
listing is the one of `obj/local/arm64-v8a/jemalloc.elf`, whatever the file of the second is. -/
def processSections (jemalloc listing : List Str) : List (Str × Str) :=
  ("ROM_START".toList, romStartText jemalloc) :: listing.flatMap sectionMacros

/-! ## Relocations -/

/-- `${symbol%@*}`: what stands before the last `@`. -/
def stripVersion (symbol : Str) : Str :=
  if '@' ∈ symbol then ((symbol.reverse.dropWhile (· ≠ '@')).drop 1).reverse else symbol

/-- The second field of a table row: `(uint64_t)s_<sym>` or the digits behind `0x`. -/
inductive AddrText where
  | shim (sym : Str)
  | literal (digits : Str)

structure TableRow where
  offset : Str
  addr : AddrText
  type : Word

def tableRow (line : Str) : Option TableRow :=
  if wordAt line 2 = "R_AARCH64_JUMP_SLOT".toList then
    some ⟨wordAt line 0, .shim (stripVersion (wordAt line 4)), rAarch64JumpSlot⟩
  else if wordAt line 2 = "R_AARCH64_RELATIVE".toList then
    some ⟨wordAt line 0, .literal (wordAt line 3), rAarch64Relative⟩
  else if wordAt line 2 = "R_AARCH64_GLOB_DAT".toList then
    some ⟨wordAt line 0, .shim (stripVersion (wordAt line 4)), rAarch64GlobDat⟩
  else none

def processRelocs (listing : List Str) : List TableRow := listing.filterMap tableRow

/-! ## The header as compiled -/

def hexLiteral (digits : Str) : Option Word :=
  if IsRun isHex digits then some (BitVec.ofNat 64 (hexVal digits)) else none

/-- The value of a macro that stands for a literal; a later definition replaces an earlier one. -/
def macroValue (macros : List (Str × Str)) (name : String) : Option Word :=
  (macros.reverse.lookup name.toList).bind hexLiteral

section Compile
/- The addresses of the shims `s_<sym>`. -/
variable (shim : Str → Word)

def AddrText.compile : AddrText → Option Word
  | .shim sym => if IsRun isWord sym then some (shim sym) else none
  | .literal digits => hexLiteral digits

def TableRow.compile (r : TableRow) : Option Entry := do
  return ⟨← hexLiteral r.offset, ← r.addr.compile shim, r.type⟩

/-- `relocs`, with its terminator. -/
def relocTable (listing : List Str) : Option (List Entry) :=
  ((processRelocs listing).mapM (TableRow.compile shim)).map (· ++ [⟨0, 0, 0⟩])

def initArgs (binStart binSize libStart libSize : Word) (jemalloc sections relocations : List Str) :
    Option Args := do
  let macros := processSections jemalloc sections
  return {
    binStart, binSize
    addr := libStart
    size := libSize
    romStart := ← macroValue macros "ROM_START"
    textStart := ← macroValue macros "TEXT_START"
    textSize := ← macroValue macros "TEXT_SIZE"
    bssStart := ← macroValue macros "BSS_START"
    bssSize := ← macroValue macros "BSS_SIZE"
    relocs := ← relocTable shim relocations }

end Compile

/-- `<sym>_ptr`, from the address that `objdump -t` prints for the symbol. -/
def exportedPtr (libStart : Word) (addr : Str) : Option Word := (hexLiteral addr).map (· + libStart)

end Rebench.Reloc
