import Rebench.Machine.Operand
import Rebench.Reloc.Image
import Rebench.Reloc.Placement

/-!
# The exported functions of a library

The build script writes a pointer variable for every function that a library
exports, from the row of the symbol table, and a stub of three instructions
branches through the variable. A call of a stub reaches the code of the function
in the loaded image.
-/
namespace Rebench.Reloc
open Text Machine

/-! ## The pointer variables -/

section Script
/- The lines that `grep -w` selects for a pattern. -/
variable (grepW : Str → Str → Bool)

/-- `$objdump -t $elf | grep -w $sym | grep -w F`. -/
def functionRows (table : List Str) (sym : Str) : List Str :=
  table.filter fun line => grepW sym line && grepW "F".toList line

/-- The arguments behind the format: the symbol, and the first words of the rows. -/
def printfArgs (table : List Str) (sym : Str) : List Str :=
  sym :: ((functionRows grepW table sym).map (wordAt · 0)).flatMap words

/-- `printf "uint64_t %s_ptr = 0x%s + LIB_START;\n"`: the symbols and the digits of the lines. The
format is used until no argument is left, and one that is missing is empty. -/
def pointerLines : List Str → List (Str × Str)
  | [] => []
  | [sym] => [(sym, [])]
  | sym :: addr :: more => (sym, addr) :: pointerLines more

def processPointers (table syms : List Str) : List (Str × Str) :=
  syms.flatMap fun sym => pointerLines (printfArgs grepW table sym)

end Script

def ptrName (sym : Str) : Str := sym ++ "_ptr".toList

def IsIdentifier (s : Str) : Prop := IsRun isWord s ∧ ∀ c ∈ s.head?, isDec c = false

instance : DecidablePred IsIdentifier := fun _ => inferInstanceAs (Decidable (_ ∧ _))

/-- The variable that a line defines, with its value; `none` where the compiler rejects it. -/
def compilePointer (libStart : Word) (line : Str × Str) : Option (Str × Word) :=
  if IsIdentifier (ptrName line.1) then (exportedPtr libStart line.2).map (ptrName line.1, ·)
  else none

def pointers (grepW : Str → Str → Bool) (libStart : Word) (table syms : List Str) :
    Option (List (Str × Word)) :=
  if ((processPointers grepW table syms).map Prod.fst).Nodup then
    (processPointers grepW table syms).mapM (compilePointer libStart)
  else none

/-- An address as the first column of a symbol table has it: digits that do not begin with a
letter. -/
def IsAddress (w : Str) : Prop := IsRun isHex w ∧ ∀ c ∈ w.head?, isDec c

instance : DecidablePred IsAddress := fun _ => inferInstanceAs (Decidable (_ ∧ _))

/-- The symbol has one function row, and its variable points behind the start of the library. -/
def PointsTo (grepW : Str → Str → Bool) (libStart : Word) (table : List Str) (sym : Str)
    (p : Str × Word) : Prop :=
  ∃ row, functionRows grepW table sym = [row] ∧
    p = (ptrName sym, BitVec.ofNat 64 (hexVal (wordAt row 0)) + libStart)

theorem mapM_eq_some_iff {α β : Type*} {f : α → Option β} {l : List α} {r : List β} :
    l.mapM f = some r ↔ List.Forall₂ (fun a b => f a = some b) l r := by
  induction l generalizing r with
  | nil =>
    rw [List.mapM_nil, List.forall₂_nil_left_iff]
    exact ⟨fun h => (Option.some.inj h).symm, fun h => congrArg some h.symm⟩
  | cons a l ih =>
    rw [List.mapM_cons, List.forall₂_cons_left_iff]
    constructor
    · intro h
      obtain ⟨b, hb, h⟩ := Option.bind_eq_some_iff.mp h
      obtain ⟨bs, hbs, h⟩ := Option.bind_eq_some_iff.mp h
      exact ⟨b, bs, hb, ih.mp hbs, (Option.some.inj h).symm⟩
    · rintro ⟨b, bs, hb, hbs, rfl⟩
      rw [hb, ih.mpr hbs]
      rfl

section Pointers
variable {grepW : Str → Str → Bool} {libStart : Word} {table syms : List Str} {sym : Str}
  {p : Str × Word} {ptrs ps : List (Str × Word)}

theorem not_isIdentifier_of_isAddress {w : Str} (h : IsAddress w) : ¬ IsIdentifier (ptrName w) := by
  intro hid
  obtain ⟨c, cs, rfl⟩ := List.exists_cons_of_ne_nil h.1.1
  have hdec := h.2 c (by simp)
  rw [hid.2 c (by simp [ptrName])] at hdec
  exact absurd hdec Bool.false_ne_true

theorem flatMap_words_of_isAddress {rows : List Str} (h : ∀ row ∈ rows, IsAddress (wordAt row 0)) :
    (rows.map (wordAt · 0)).flatMap words = rows.map (wordAt · 0) := by
  induction rows with
  | nil => rfl
  | cons row rows ih =>
    rw [List.map_cons, List.flatMap_cons, words_token (h row List.mem_cons_self).1.isToken,
      ih fun r hr => h r (List.mem_cons_of_mem row hr)]
    rfl

theorem compilePointer_iff {row : Str} (hfound : functionRows grepW table sym = [row])
    (haddr : IsAddress (wordAt row 0)) : compilePointer libStart (sym, wordAt row 0) = some p ↔
      IsIdentifier (ptrName sym) ∧ PointsTo grepW libStart table sym p := by
  have hlit : exportedPtr libStart (wordAt row 0) =
      some (BitVec.ofNat 64 (hexVal (wordAt row 0)) + libStart) := by
    rw [exportedPtr, hexLiteral, if_pos haddr.1]
    rfl
  have hpoints : PointsTo grepW libStart table sym p ↔
      p = (ptrName sym, BitVec.ofNat 64 (hexVal (wordAt row 0)) + libStart) := by
    constructor
    · rintro ⟨row', hrow', hp⟩
      obtain rfl := (List.cons.inj (hfound.symm.trans hrow')).1
      exact hp
    · exact fun hp => ⟨row, hfound, hp⟩
  rw [hpoints, compilePointer, hlit]
  by_cases hid : IsIdentifier (ptrName sym)
  · rw [if_pos hid, and_iff_right hid, Option.map_some, Option.some_inj]
    exact eq_comm
  · rw [if_neg hid]
    exact iff_of_false (by simp) fun h => hid h.1

theorem exists_pointerLines_cons (w : Str) (ws : List Str) :
    ∃ digits more, pointerLines (w :: ws) = (w, digits) :: more := by
  cases ws with
  | nil => exact ⟨_, _, rfl⟩
  | cons v ws => exact ⟨_, _, rfl⟩

/-- The lines of a symbol compile exactly if it has one function row, and then they are one. -/
theorem forall₂_pointerLines_iff
    (hrows : ∀ row ∈ functionRows grepW table sym, IsAddress (wordAt row 0)) :
    List.Forall₂ (fun l p => compilePointer libStart l = some p)
      (pointerLines (printfArgs grepW table sym)) ps ↔
      IsIdentifier (ptrName sym) ∧ ∃ p, ps = [p] ∧ PointsTo grepW libStart table sym p := by
  rw [printfArgs, flatMap_words_of_isAddress hrows]
  match hfound : functionRows grepW table sym with
  | [] =>
    apply iff_of_false
    · intro h
      obtain ⟨p, _, hp, _⟩ := List.forall₂_cons_left_iff.mp h
      rw [compilePointer] at hp
      split_ifs at hp
      exact absurd hp (by simp [exportedPtr, hexLiteral, IsRun])
    · rintro ⟨-, p, -, row, hrow, -⟩
      exact absurd (hfound.symm.trans hrow) (by simp)
  | [row] =>
    have haddr := hrows row (by rw [hfound]; exact List.mem_cons_self)
    constructor
    · intro h
      obtain ⟨p, qs, hp, hqs, rfl⟩ := List.forall₂_cons_left_iff.mp h
      rw [List.forall₂_nil_left_iff.mp hqs]
      obtain ⟨hid, hpoints⟩ := (compilePointer_iff hfound haddr).mp hp
      exact ⟨hid, p, rfl, hpoints⟩
    · rintro ⟨hid, p, rfl, hp⟩
      exact .cons ((compilePointer_iff hfound haddr).mpr ⟨hid, hp⟩) .nil
  | row :: row' :: rows =>
    -- the second address becomes the name of the next variable
    have haddr := hrows row' (by rw [hfound]; simp)
    apply iff_of_false
    · intro h
      obtain ⟨digits, more, hnext⟩ :=
        exists_pointerLines_cons (wordAt row' 0) (rows.map (wordAt · 0))
      obtain ⟨_, _, -, h, _⟩ := List.forall₂_cons_left_iff.mp h
      rw [List.map_cons, hnext] at h
      obtain ⟨p, _, hp, _⟩ := List.forall₂_cons_left_iff.mp h
      rw [compilePointer, if_neg (not_isIdentifier_of_isAddress haddr)] at hp
      exact absurd hp (by simp)
    · rintro ⟨-, p, -, r, hr, -⟩
      exact absurd (hfound.symm.trans hr) (by simp)

theorem mapM_pointers_iff
    (hrows : ∀ sym ∈ syms, ∀ row ∈ functionRows grepW table sym, IsAddress (wordAt row 0)) :
    (processPointers grepW table syms).mapM (compilePointer libStart) = some ptrs ↔
      (∀ sym ∈ syms, IsIdentifier (ptrName sym)) ∧
        List.Forall₂ (PointsTo grepW libStart table) syms ptrs := by
  rw [processPointers]
  induction syms generalizing ptrs with
  | nil => simp [eq_comm]
  | cons sym syms ih =>
    obtain ⟨hhead, htail⟩ := List.forall_mem_cons.mp hrows
    rw [List.flatMap_cons, List.mapM_append, List.forall_mem_cons, List.forall₂_cons_left_iff]
    constructor
    · intro h
      obtain ⟨ps, hps, h⟩ := Option.bind_eq_some_iff.mp h
      obtain ⟨qs, hqs, h⟩ := Option.bind_eq_some_iff.mp h
      obtain ⟨hid, p, rfl, hp⟩ := (forall₂_pointerLines_iff hhead).mp (mapM_eq_some_iff.mp hps)
      obtain ⟨hids, hforall⟩ := (ih htail).mp hqs
      exact ⟨⟨hid, hids⟩, p, qs, hp, hforall, (Option.some.inj h).symm⟩
    · rintro ⟨⟨hid, hids⟩, p, qs, hp, hforall, rfl⟩
      rw [mapM_eq_some_iff.mpr ((forall₂_pointerLines_iff hhead).mpr ⟨hid, p, rfl, hp⟩),
        (ih htail).mpr ⟨hids, hforall⟩]
      rfl

theorem processPointers_names
    (hrows : ∀ sym ∈ syms, ∀ row ∈ functionRows grepW table sym, IsAddress (wordAt row 0))
    (h : List.Forall₂ (PointsTo grepW libStart table) syms ptrs) :
    (processPointers grepW table syms).map Prod.fst = syms := by
  rw [processPointers]
  induction h with
  | nil => rfl
  | @cons sym p syms ps hp _ ih =>
    obtain ⟨hhead, htail⟩ := List.forall_mem_cons.mp hrows
    obtain ⟨row, hrow, -⟩ := hp
    rw [List.flatMap_cons, List.map_append, ih htail, printfArgs, flatMap_words_of_isAddress hhead,
      hrow]
    rfl

/-- The header compiles exactly if the symbols differ, name variables and have one function row each,
and then the variables point behind the start of the library. -/
theorem pointers_eq_some_iff
    (hrows : ∀ sym ∈ syms, ∀ row ∈ functionRows grepW table sym, IsAddress (wordAt row 0)) :
    pointers grepW libStart table syms = some ptrs ↔
      syms.Nodup ∧ (∀ sym ∈ syms, IsIdentifier (ptrName sym)) ∧
        List.Forall₂ (PointsTo grepW libStart table) syms ptrs := by
  rw [pointers, Option.ite_none_right_eq_some, mapM_pointers_iff hrows]
  constructor
  · rintro ⟨hnodup, hids, hforall⟩
    exact ⟨processPointers_names hrows hforall ▸ hnodup, hids, hforall⟩
  · rintro ⟨hnodup, hids, hforall⟩
    exact ⟨(processPointers_names hrows hforall).symm ▸ hnodup, hids, hforall⟩

theorem pointsTo_of_pointers
    (hrows : ∀ sym ∈ syms, ∀ row ∈ functionRows grepW table sym, IsAddress (wordAt row 0))
    (h : pointers grepW libStart table syms = some ptrs) :
    List.Forall₂ (PointsTo grepW libStart table) syms ptrs := by
  rw [pointers, Option.ite_none_right_eq_some] at h
  exact ((mapM_pointers_iff hrows).mp h.2).2

end Pointers

/-! ## The stubs -/

structure Export where
  name : Str
  ptr : Str
  deriving DecidableEq

/-- Where the branch of the stub leads: `adrp` has the page of the variable, `ldr` adds the low part
and loads the variable. `σ` gives the addresses of the variables. -/
def Export.target (σ : Str → Word) (m : Mem) (e : Export) : Word :=
  m.read64 (pageBase (σ e.ptr) + BitVec.ofInt 64 (lowPart (σ e.ptr)))

/-- The symbols that the build script looks up for a library, and the stubs that are assembled for it;
a stub goes through the variable of one of the symbols. -/
structure Library where
  symbols : List Str
  exports : List Export
  defined : ∀ e ∈ exports, ∃ sym ∈ symbols, e.ptr = ptrName sym

/-- `process` for `jemalloc`, and jemalloc_exports.s. -/
def jemalloc : Library where
  symbols := ["je_malloc", "je_calloc", "je_realloc", "je_free"].map String.toList
  exports := [("s_malloc", "je_malloc_ptr"), ("s_calloc0", "je_calloc_ptr"),
    ("s_realloc", "je_realloc_ptr"), ("s_free", "je_free_ptr"), ("s__Znam", "je_malloc_ptr"),
    ("s__Znwm", "je_malloc_ptr"), ("s__ZdaPv", "je_free_ptr"), ("s__ZdlPv", "je_free_ptr")].map
      fun e => ⟨e.1.toList, e.2.toList⟩
  defined := by decide

/-- `process` for `stdlib`, and stdlib_exports.s. -/
def stdlib : Library where
  symbols := ["memset", "memcpy", "memcmp", "memmove", "strncmp", "strcmp", "strchr", "strlen",
    "strtol", "sin", "cos", "pow", "sqrt", "crc32", "inflate", "inflateEnd", "inflateInit_",
    "inflateReset", "sprintf", "fprintf", "fputc"].map String.toList
  exports := [("s_memset", "memset_ptr"), ("s_memcpy", "memcpy_ptr"), ("s_memcmp", "memcmp_ptr"),
    ("s_memmove", "memmove_ptr"), ("s_strncmp", "strncmp_ptr"), ("s_strcmp", "strcmp_ptr"),
    ("s_strchr", "strchr_ptr"), ("s_strlen", "strlen_ptr"), ("s_strtol", "strtol_ptr"),
    ("s_sin", "sin_ptr"), ("s_cos", "cos_ptr"), ("s_pow", "pow_ptr"), ("s_sqrt", "sqrt_ptr"),
    ("s_crc32", "crc32_ptr"), ("s_inflate", "inflate_ptr"), ("s_inflateEnd", "inflateEnd_ptr"),
    ("s_inflateInit_", "inflateInit__ptr"), ("s_inflateReset", "inflateReset_ptr"),
    ("s_sprintf", "sprintf_ptr"), ("s_fprintf", "fprintf_ptr"), ("s_fputc", "fputc_ptr")].map
      fun e => ⟨e.1.toList, e.2.toList⟩
  defined := by decide

/-- The variables hold the values of the header, outside the pages of the library. -/
structure Initialized (b : Build) (σ : Str → Word) (ptrs : List (Str × Word)) (m : Mem) : Prop where
  value : ∀ p ∈ ptrs, m.read64 (σ p.1) = p.2
  apart : ∀ p ∈ ptrs, ∀ x, InRange (σ p.1) 8 x → ¬ PageIn b.libStart b.libSize (pageOf x)

section Frame
variable {b : Build} {jem elf : Elf} {shim : Str → Word} {a : Args} {m : Mem} {x : Addr} {off : Word}
  {n : ℕ}

theorem pageIn_of_inRange (hb : b.Describes jem elf)
    (hin : ∀ i < n, off.toNat + i < b.libSize.toNat) (hx : InRange (b.libStart + off) n x) :
    PageIn b.libStart b.libSize (pageOf x) := by
  obtain ⟨i, hi, rfl⟩ := exists_of_inRange hx
  have hoff : b.libStart + off + BitVec.ofNat 64 i = b.libStart + BitVec.ofNat 64 (off.toNat + i) := by
    rw [add_assoc, BitVec.ofNat_add, BitVec.ofNat_toNat, BitVec.setWidth_eq]
  rw [hoff]
  exact pageIn_add (hin i hi) hb.mapping_le

theorem image_lt (hb : b.Describes jem elf) {i : ℕ} (hi : i < elf.imageSize) :
    elf.first.start + i < b.libSize.toNat := by
  rw [Elf.imageSize] at hi
  have hall : ∀ s ∈ elf.sections.filter (fun s => s.Loaded),
      elf.first.start ≤ s.start ∧ s.start + s.size ≤ b.libSize.toNat := by
    intro s hs
    obtain ⟨hs, hloaded⟩ := List.mem_filter.mp hs
    rw [decide_eq_true_eq] at hloaded
    exact ⟨hb.first_le s hs hloaded, hb.fits s hs (.inl hloaded.1)⟩
  generalize elf.sections.filter (fun s => s.Loaded) = ss at hi hall
  induction ss with
  | nil => exact absurd hi (by simp)
  | cons s ss ih =>
    rw [List.foldr_cons, lt_max_iff] at hi
    obtain ⟨hs, hss⟩ := List.forall_mem_cons.mp hall
    rcases hi with hi | hi
    · omega
    · exact ih hi hss

/-- Nothing outside the pages of the library is written. -/
theorem load_other (hb : b.Describes jem elf) (ha : b.args elf shim = some a)
    (hfirst : jem.first.start = elf.first.start)
    (hwords : ∀ r ∈ elf.relocs, r.offset.toNat + 8 ≤ b.libSize.toNat)
    (hx : ¬ PageIn b.libStart b.libSize (pageOf x)) :
    doReloc a.addr a.relocs (loadImage a a.addr m) x = m x := by
  obtain ⟨-, hsize, haddr, -, hrom, hstart, hlen, htable⟩ := initArgs_eq_some ha
  obtain ⟨hromStart, s, hs, hname, hbss, hbssSize⟩ :=
    processSections_values hb.jemalloc rfl hb.sections hstart hlen
  rw [doReloc_eq_writes, writes_of_not_inRange, loadImage, fill_of_not_inRange, copy_of_not_inRange]
  · intro hin
    rw [haddr] at hin
    refine hx (pageIn_of_inRange hb (fun i hi => ?_) hin)
    rw [hsize, BitVec.toNat_ofNat, Nat.mod_eq_of_lt (imageSize_lt hb)] at hi
    rw [hromStart, Option.some_inj] at hrom
    rw [← hrom, hfirst, BitVec.toNat_ofNat]
    have hlt := image_lt hb hi
    have hlib := b.libSize.isLt
    omega
  · intro hin
    rw [haddr] at hin
    refine hx (pageIn_of_inRange hb (fun i hi => ?_) hin)
    have hfits := hb.fits s hs (.inr hname)
    have hlib := b.libSize.isLt
    rw [hbssSize, BitVec.toNat_ofNat] at hi
    rw [hbss, BitVec.toNat_ofNat]
    omega
  · intro w hw hin
    rw [relocTable_eq hb.relocations htable, applied_terminated] at hw
    obtain ⟨e, he, rfl⟩ := List.mem_map.mp hw
    obtain ⟨r, hr, he⟩ := List.mem_filterMap.mp ((List.takeWhile_prefix _).subset he)
    have hword := hwords r hr
    rw [Entry.target, offset_of_entry he, haddr, add_comm] at hin
    exact hx (pageIn_of_inRange hb (fun i hi => by omega) hin)

end Frame

section Calls
variable {b : Build} {jem elf : Elf} {shim : Str → Word} {a : Args} {grepW : Str → Str → Bool}
  {table : List Str} {σ : Str → Word} {ptrs : List (Str × Word)} {content : ℕ → Byte} {e : Export}

/-- The stub leads to the address of the function that the row describes, and its code is there. -/
structure Export.Reaches (e : Export) (b : Build) (elf : Elf) (σ : Str → Word) (content : ℕ → Byte)
    (row : Str) (m : Mem) : Prop where
  target : e.target σ m = b.libStart + BitVec.ofNat 64 (hexVal (wordAt row 0))
  code : ∀ k, elf.Checked (hexVal (wordAt row 0) + k) →
    m (e.target σ m + BitVec.ofNat 64 k) = content (hexVal (wordAt row 0) + k)

/-- Behind `<lib>_init` every stub of a library leads to the code of the one function that the symbol
table has for it, in both builds, if the first section has the address of that of jemalloc.elf and the
relocated words lie in the mapping. -/
theorem exports_reach (hb : b.Describes jem elf) (ha : b.args elf shim = some a)
    (hfirst : jem.first.start = elf.first.start)
    (hwords : ∀ r ∈ elf.relocs, r.offset.toNat + 8 ≤ b.libSize.toNat) (l : Library)
    (hrows : ∀ sym ∈ l.symbols, ∀ row ∈ functionRows grepW table sym, IsAddress (wordAt row 0))
    (hptrs : pointers grepW b.libStart table l.symbols = some ptrs) {s : Space}
    (hvars : Initialized b σ ptrs s.mem) (hholds : b.Holds (elf.image content) s.mem)
    (he : e ∈ l.exports) :
    ∃ sym row, e.ptr = ptrName sym ∧ functionRows grepW table sym = [row] ∧
      (∀ t, reloc a.addr a s = some t → e.Reaches b elf σ content row t.mem) ∧
      e.Reaches b elf σ content row (relocSemihosting a s.mem) := by
  obtain ⟨sym, hsym, hptr⟩ := l.defined e he
  obtain ⟨p, hp, row, hrow, hvalue⟩ : ∃ p ∈ ptrs, PointsTo grepW b.libStart table sym p := by
    obtain ⟨i, hi, rfl⟩ := List.getElem_of_mem hsym
    have hforall := pointsTo_of_pointers hrows hptrs
    have hi' : i < ptrs.length := hforall.length_eq ▸ hi
    exact ⟨ptrs[i], List.getElem_mem hi', (List.forall₂_iff_get.mp hforall).2 i hi hi'⟩
  refine ⟨sym, row, hptr, hrow, ?_⟩
  have hreach : ∀ m, b.Holds (elf.image content) m → Initialized b σ ptrs m →
      e.Reaches b elf σ content row (doReloc a.addr a.relocs (loadImage a a.addr m)) := by
    intro m hm hv
    have hsame := read64_congr fun x hx =>
      load_other (m := m) hb ha hfirst hwords (hv.apart p hp x hx)
    have htarget : e.target σ (doReloc a.addr a.relocs (loadImage a a.addr m)) =
        b.libStart + BitVec.ofNat 64 (hexVal (wordAt row 0)) := by
      have hname : σ e.ptr = σ p.1 := by rw [hptr, hvalue]
      rw [Export.target, pageBase_add_lowPart, hname, hsame, hv.value p hp, hvalue, add_comm]
    refine ⟨htarget, fun k hk => ?_⟩
    rw [htarget, add_assoc, ← BitVec.ofNat_add]
    exact (placed_of_first_eq hb ha hfirst hm).bytes _ hk
  obtain ⟨-, -, haddr, hsize, -⟩ := initArgs_eq_some ha
  constructor
  · intro t ht
    rw [(reloc_eq_some_iff.mp ht).2.2]
    apply hreach _ (hholds.mapAnonymous hb ha)
    rw [haddr, hsize]
    refine ⟨fun q hq => ?_, hvars.apart⟩
    rw [← hvars.value q hq]
    exact read64_congr fun x hx => if_neg (hvars.apart q hq x hx)
  · exact hreach s.mem hholds hvars

end Calls

/-! ## One stub -/

def memsetLibrary : Library where
  symbols := ["memset".toList]
  exports := [⟨"s_memset".toList, "memset_ptr".toList⟩]
  defined := by decide

def memsetTable : List Str :=
  ["00000000000037f0 g     F .text 0000000000000010 memset".toList,
    "0000000000042000 g     O .bss 0000000000000008 memset".toList]

def memsetMem : Mem :=
  Mem.write64 (fun x => ((fileAt 0x238).image fun _ => 7).getD (x - 0x400000).toNat 0) 0x500000
    0x420037f0

theorem isAddress_memsetTable : ∀ sym ∈ memsetLibrary.symbols, ∀ row ∈
    functionRows (fun w line => w ∈ words line) memsetTable sym, IsAddress (wordAt row 0) := by
  decide +kernel

theorem pointers_eq_some_iff_memset :
    pointers (fun w line => w ∈ words line) 0x42000000 memsetTable memsetLibrary.symbols =
      some [("memset_ptr".toList, 0x420037f0)] := by
  refine (pointers_eq_some_iff isAddress_memsetTable).mpr ⟨by decide, by decide, ?_⟩
  refine .cons ⟨"00000000000037f0 g     F .text 0000000000000010 memset".toList, ?_, ?_⟩ .nil
  · decide +kernel
  · decide +kernel

def memsetSpace : Space := ⟨memsetMem, fun _ => ⟨false, false, false⟩⟩

theorem holds_memsetMem :
    (buildAt 0x238).Holds ((fileAt 0x238).image fun _ => 7) memsetMem := by
  intro i hi
  have hlen : i < 0x40000 := by
    rw [length_image] at hi
    have hsize : (fileAt 0x238).imageSize ≤ 0x40000 := by decide
    omega
  have hout : ¬ InRange 0x500000 8 (0x400000 + BitVec.ofNat 64 i : Addr) := by
    rw [InRange]
    bv_omega
  have hdist : ((0x400000 : Addr) + BitVec.ofNat 64 i - 0x400000).toNat = i :=
    sub_toNat_of_add (by omega)
  have hbyte := write64_of_not_inRange (v := 0x420037f0)
    (m := fun x => ((fileAt 0x238).image fun _ => 7).getD (x - 0x400000).toNat 0) hout
  rw [hdist, List.getD_eq_getElem?_getD, List.getElem?_eq_getElem hi, Option.getD_some] at hbyte
  exact hbyte

theorem exports_reach_memset : ∃ a t,
    (buildAt 0x238).args (fileAt 0x238) (fun _ => 0) = some a ∧
      reloc a.addr a memsetSpace = some t ∧
      t.mem (Export.target (fun _ => 0x500000) t.mem ⟨"s_memset".toList, "memset_ptr".toList⟩) = 7 := by
  obtain ⟨a, ha⟩ : ∃ a, (buildAt 0x238).args (fileAt 0x238) (fun _ => 0) = some a :=
    Option.isSome_iff_exists.mp (by decide +kernel)
  have hrow : functionRows (fun w line => w ∈ words line) memsetTable "memset".toList =
      ["00000000000037f0 g     F .text 0000000000000010 memset".toList] := by
    decide +kernel
  have hptrs : pointers (fun w line => w ∈ words line) 0x42000000 memsetTable
      memsetLibrary.symbols = some [("memset_ptr".toList, 0x420037f0)] := by
    decide +kernel
  have hvars : Initialized (buildAt 0x238) (fun _ => 0x500000)
      [("memset_ptr".toList, 0x420037f0)] memsetMem := by
    constructor
    · intro p hp
      rw [List.mem_singleton.mp hp]
      exact read64_write64
    · intro p hp x hx hin
      obtain ⟨i, hi, rfl⟩ := exists_of_inRange hx
      have hlow : (0x42000000 : ℕ) / 4096 ≤ (0x500000 + BitVec.ofNat 64 i : Addr).toNat / 4096 :=
        hin.1
      bv_omega
  obtain ⟨sym, row, hptr, hfound, hreach, -⟩ := exports_reach (describes_buildAt (by norm_num)) ha
    rfl (by simp [fileAt]) memsetLibrary isAddress_memsetTable hptrs (s := memsetSpace) hvars
    holds_memsetMem List.mem_cons_self
  have hsym : "memset".toList = sym := List.append_cancel_right (hptr : "memset".toList ++ _ = _)
  rw [← hsym, hrow] at hfound
  have hstores : Stores a.addr a.relocs (mapped a memsetSpace) := by
    intro r hr
    rw [applied_buildAt ha (describes_buildAt (by norm_num))] at hr
    exact absurd hr (by simp)
  have ht := reloc_eq_some_iff.mpr ⟨rfl, hstores, rfl⟩
  refine ⟨a, _, ha, ht, ?_⟩
  have hbyte := (hreach _ ht).code 0
  rw [← (List.cons.inj hfound).1] at hbyte
  have hvalue : hexVal (wordAt "00000000000037f0 g     F .text 0000000000000010 memset".toList 0) =
      0x37f0 := by
    decide +kernel
  rw [hvalue] at hbyte
  simpa using hbyte checked_fileAt

end Rebench.Reloc
