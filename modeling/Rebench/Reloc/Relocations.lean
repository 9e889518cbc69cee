import Rebench.Reloc.Script

/-!
# The relocations of a listing and their table

The script knows three of the relocation types. For these the table gives every
word its value as long as a symbol comes without an addend; what the script
does not know it leaves out.
-/
namespace Rebench.Reloc
open Text Machine

/-! ## Relocations as readelf prints them -/

inductive RelocType where
  | relative | jumpSlot | globDat | abs64 | other (name : Str)
  deriving DecidableEq

def RelocType.name : RelocType → Str
  | relative => "R_AARCH64_RELATIVE".toList
  | jumpSlot => "R_AARCH64_JUMP_SLOT".toList
  | globDat => "R_AARCH64_GLOB_DAT".toList
  | abs64 => "R_AARCH64_ABS64".toList
  | other name => name

structure Relocation where
  offset : Word
  type : RelocType
  sym : Str
  addend : Word
  deriving DecidableEq

namespace Relocation

/-- The value the ABI gives to the relocated word, for the types of a 64-bit word. -/
def abi (shim : Str → Word) (base : Word) (r : Relocation) : Option Word :=
  match r.type with
  | .relative => some (base + r.addend)
  | .jumpSlot | .globDat | .abs64 => some (shim r.sym + r.addend)
  | .other _ => none

end Relocation

/-- The sign and the digits of an addend, with the minus sign in front of the digits or alone. -/
def PrintsAddend (sign digits : Str) (addend : Word) : Prop :=
  IsRun isHex digits ∧ (sign = [] ∨ sign = ['+']) ∧ addend = BitVec.ofNat 64 (hexVal digits) ∨
    IsRun isHex digits ∧ sign = ['-'] ∧ addend = -BitVec.ofNat 64 (hexVal digits)

/-- The line is the row of a relocation: offset, info and type, and behind them the addend or the
symbol's value, its name with a version, a sign and the addend. -/
def PrintsRow (line : Str) (r : Relocation) : Prop :=
  ∃ offset info rest, words line = offset :: info :: r.type.name :: rest ∧
    IsRun isHex offset ∧ r.offset = BitVec.ofNat 64 (hexVal offset) ∧
    match r.type with
    | .relative => ∃ sign digits, rest = [sign ++ digits] ∧ sign ≠ ['+'] ∧
        PrintsAddend sign digits r.addend
    | .jumpSlot | .globDat | .abs64 => ∃ value version sign digits,
        rest = [value, r.sym ++ version, sign, digits] ∧ '@' ∉ r.sym ∧
          (version = [] ∨ ∃ v, version = '@' :: v) ∧ PrintsAddend sign digits r.addend
    | .other name => ∀ t ∈ [RelocType.relative, .jumpSlot, .globDat, .abs64], name ≠ t.name

/-- The lines that are no headings are the rows of the relocations, in order. -/
inductive Lists : List Str → List Relocation → Prop where
  | nil : Lists [] []
  | heading {line : Str} {lines : List Str} {rs : List Relocation}
      (h : ¬ "R_AARCH64_".toList <+: wordAt line 2) (hl : Lists lines rs) : Lists (line :: lines) rs
  | row {line : Str} {lines : List Str} {r : Relocation} {rs : List Relocation}
      (h : PrintsRow line r) (hl : Lists lines rs) : Lists (line :: lines) (r :: rs)

/-! ## The table of a listing -/

theorem stripVersion_append {u v : Str} (h : '@' ∉ v) : stripVersion (u ++ '@' :: v) = u := by
  have hdrop : (u ++ '@' :: v).reverse.dropWhile (· ≠ '@') = '@' :: u.reverse := by
    rw [List.reverse_append, List.reverse_cons, List.append_assoc,
      List.dropWhile_append_of_pos]
    · simp
    · intro c hc
      have hne : c ≠ '@' := fun hat => h (hat ▸ List.mem_reverse.mp hc)
      simpa using hne
  rw [stripVersion, if_pos (by simp), hdrop]
  simp

theorem stripVersion_eq {sym version : Str} (hsym : '@' ∉ sym)
    (hversion : version = [] ∨ ∃ v, version = '@' :: v)
    (hword : IsRun isWord (stripVersion (sym ++ version))) :
    stripVersion (sym ++ version) = sym := by
  cases hversion with
  | inl hnil => rw [hnil, List.append_nil, stripVersion, if_neg hsym]
  | inr hat =>
    obtain ⟨v, rfl⟩ := hat
    by_cases hv : '@' ∈ v
    · -- an earlier `@` stays behind, which no identifier has
      obtain ⟨t, s, hts, ht⟩ := List.eq_append_cons_of_mem (List.mem_reverse.mpr hv)
      have hvs : v = s.reverse ++ '@' :: t.reverse := by
        rw [← List.reverse_reverse v, hts]
        simp
      have hstrip : stripVersion (sym ++ '@' :: v) = sym ++ '@' :: s.reverse := by
        rw [hvs, ← List.cons_append, ← List.append_assoc]
        exact stripVersion_append (by simpa using ht)
      rw [hstrip] at hword
      exact absurd (hword.2 '@' (by simp)) (by decide)
    · exact stripVersion_append hv

def Relocation.entry (shim : Str → Word) (r : Relocation) : Option Entry :=
  match r.type with
  | .relative => some ⟨r.offset, r.addend, rAarch64Relative⟩
  | .jumpSlot => some ⟨r.offset, shim r.sym, rAarch64JumpSlot⟩
  | .globDat => some ⟨r.offset, shim r.sym, rAarch64GlobDat⟩
  | _ => none

section Table
variable {shim : Str → Word} {line : Str} {r : Relocation}

theorem hexLiteral_eq_some {digits : Str} {w : Word} (h : hexLiteral digits = some w) :
    IsRun isHex digits ∧ w = BitVec.ofNat 64 (hexVal digits) := by
  rw [hexLiteral] at h
  split_ifs at h with hrun
  exact ⟨hrun, (Option.some.inj h).symm⟩

theorem compile_eq_some {row : TableRow} {e : Entry} (h : row.compile shim = some e) :
    hexLiteral row.offset = some e.offset ∧ row.addr.compile shim = some e.addr ∧
      row.type = e.type := by
  obtain ⟨offset, hoffset, h⟩ := Option.bind_eq_some_iff.mp h
  obtain ⟨addr, haddr, h⟩ := Option.bind_eq_some_iff.mp h
  rw [← Option.some.inj h]
  exact ⟨hoffset, haddr, rfl⟩

theorem entry_of_shim {offset info value version sign digits : Str} {type : Word} {e : Entry}
    (hwords : words line = [offset, info, r.type.name, value, r.sym ++ version, sign, digits])
    (hoffset : r.offset = BitVec.ofNat 64 (hexVal offset)) (hsym : '@' ∉ r.sym)
    (hversion : version = [] ∨ ∃ v, version = '@' :: v)
    (h : (⟨wordAt line 0, .shim (stripVersion (wordAt line 4)), type⟩ : TableRow).compile shim =
      some e) : e = ⟨r.offset, shim r.sym, type⟩ := by
  obtain ⟨ho, ha, ht⟩ := compile_eq_some h
  simp only [wordAt, hwords, List.getD_cons_zero, List.getD_cons_succ, AddrText.compile] at ho ha
  split_ifs at ha with hword
  have hstrip := stripVersion_eq hsym hversion hword
  apply Entry.ext
  · exact (hexLiteral_eq_some ho).2.trans hoffset.symm
  · exact (Option.some.inj ha).symm.trans (congrArg shim hstrip)
  · exact ht.symm

theorem entry_of_literal {offset info sign digits : Str} {type : Word} {e : Entry}
    (hwords : words line = [offset, info, r.type.name, sign ++ digits])
    (hoffset : r.offset = BitVec.ofNat 64 (hexVal offset)) (hplus : sign ≠ ['+'])
    (haddend : PrintsAddend sign digits r.addend)
    (h : (⟨wordAt line 0, .literal (wordAt line 3), type⟩ : TableRow).compile shim = some e) :
    e = ⟨r.offset, r.addend, type⟩ := by
  obtain ⟨ho, ha, ht⟩ := compile_eq_some h
  simp only [wordAt, hwords, List.getD_cons_zero, List.getD_cons_succ, AddrText.compile] at ho ha
  obtain ⟨hhex, haddr⟩ := hexLiteral_eq_some ha
  have hsign : sign = [] ∧ r.addend = BitVec.ofNat 64 (hexVal digits) := by
    rcases haddend with ⟨-, hs | hs, ha⟩ | ⟨-, hs, -⟩
    · exact ⟨hs, ha⟩
    · exact absurd hs hplus
    · exact absurd (hhex.2 '-' (by simp [hs])) (by decide)
  rw [hsign.1, List.nil_append] at haddr
  apply Entry.ext
  · exact (hexLiteral_eq_some ho).2.trans hoffset.symm
  · exact haddr.trans hsign.2.symm
  · exact ht.symm

theorem tableRow_eq_none
    (h : ∀ t ∈ [RelocType.relative, .jumpSlot, .globDat], wordAt line 2 ≠ t.name) :
    tableRow line = none := by
  have hrelative : wordAt line 2 ≠ "R_AARCH64_RELATIVE".toList := h .relative (by simp)
  have hjump : wordAt line 2 ≠ "R_AARCH64_JUMP_SLOT".toList := h .jumpSlot (by simp)
  have hglob : wordAt line 2 ≠ "R_AARCH64_GLOB_DAT".toList := h .globDat (by simp)
  rw [tableRow, if_neg hjump, if_neg hrelative, if_neg hglob]

/-- The script prints an entry for the known types only, and it is the relocation's. -/
theorem entry_of_row (hr : PrintsRow line r) (hc : ∀ row, tableRow line = some row →
      ∃ e, row.compile shim = some e) :
    (tableRow line).bind (TableRow.compile shim) = r.entry shim := by
  obtain ⟨offset, info, rest, hwords, hrun, hoffset, hrest⟩ := hr
  have htype : wordAt line 2 = r.type.name := by
    simp [wordAt, hwords]
  cases htypes : r.type with
  | relative =>
    simp only [htypes] at hrest htype
    obtain ⟨sign, digits, rfl, hplus, haddend⟩ := hrest
    have hrow : tableRow line = some ⟨wordAt line 0, .literal (wordAt line 3), rAarch64Relative⟩ := by
      rw [tableRow, htype, if_neg (by decide), if_pos (by decide)]
    obtain ⟨e, he⟩ := hc _ hrow
    rw [hrow, Option.bind_some, he, Relocation.entry, htypes,
      entry_of_literal hwords hoffset hplus haddend he]
  | jumpSlot =>
    simp only [htypes] at hrest htype
    obtain ⟨value, version, sign, digits, rfl, hsym, hversion, -⟩ := hrest
    have hrow : tableRow line = some ⟨wordAt line 0, .shim (stripVersion (wordAt line 4)),
        rAarch64JumpSlot⟩ := by
      rw [tableRow, htype, if_pos (by decide)]
    obtain ⟨e, he⟩ := hc _ hrow
    rw [hrow, Option.bind_some, he, Relocation.entry, htypes,
      entry_of_shim hwords hoffset hsym hversion he]
  | globDat =>
    simp only [htypes] at hrest htype
    obtain ⟨value, version, sign, digits, rfl, hsym, hversion, -⟩ := hrest
    have hrow : tableRow line = some ⟨wordAt line 0, .shim (stripVersion (wordAt line 4)),
        rAarch64GlobDat⟩ := by
      rw [tableRow, htype, if_neg (by decide), if_neg (by decide), if_pos (by decide)]
    obtain ⟨e, he⟩ := hc _ hrow
    rw [hrow, Option.bind_some, he, Relocation.entry, htypes,
      entry_of_shim hwords hoffset hsym hversion he]
  | abs64 =>
    have hrow : tableRow line = none := by
      apply tableRow_eq_none
      rw [htype, htypes]
      decide
    rw [hrow, Relocation.entry, htypes]
    rfl
  | other name =>
    simp only [htypes] at hrest
    have hrow : tableRow line = none := by
      apply tableRow_eq_none
      intro t ht
      rw [htype, htypes]
      exact hrest t (List.mem_append_left [RelocType.abs64] ht)
    rw [hrow, Relocation.entry, htypes]
    rfl

theorem tableRow_of_heading (h : ¬ "R_AARCH64_".toList <+: wordAt line 2) :
    tableRow line = none := by
  apply tableRow_eq_none
  intro t ht heq
  have hprefix : ∀ t ∈ [RelocType.relative, .jumpSlot, .globDat],
      "R_AARCH64_".toList <+: t.name := by
    decide
  exact h (heq ▸ hprefix t ht)

/-- The table is the list of the entries of the relocations whose type the script knows. -/
theorem relocTable_eq {lines : List Str} {rs : List Relocation} (hl : Lists lines rs)
    {t : List Entry} (ht : relocTable shim lines = some t) :
    t = rs.filterMap (Relocation.entry shim) ++ [⟨0, 0, 0⟩] := by
  obtain ⟨es, hes, rfl⟩ := Option.map_eq_some_iff.mp ht
  congr 1
  clear ht
  induction hl generalizing es with
  | nil => simpa [processRelocs] using hes.symm
  | heading h _ ih =>
    rw [processRelocs, List.filterMap_cons, tableRow_of_heading h] at hes
    exact ih es hes
  | @row line lines r rs h _ ih =>
    rw [processRelocs, List.filterMap_cons] at hes
    rw [List.filterMap_cons]
    cases hrow : tableRow line with
    | none =>
      have hentry : (tableRow line).bind (TableRow.compile shim) = r.entry shim :=
        entry_of_row h (by simp [hrow])
      rw [hrow, Option.bind_none] at hentry
      rw [hrow] at hes
      rw [← hentry]
      exact ih es hes
    | some row =>
      simp only [hrow, List.mapM_cons] at hes
      obtain ⟨e, he, hes⟩ := Option.bind_eq_some_iff.mp hes
      obtain ⟨es', hes', heq⟩ := Option.bind_eq_some_iff.mp hes
      have hentry : (tableRow line).bind (TableRow.compile shim) = r.entry shim := by
        apply entry_of_row h
        intro row' hrow'
        rw [hrow, Option.some_inj] at hrow'
        exact ⟨e, hrow' ▸ he⟩
      rw [hrow, Option.bind_some, he] at hentry
      rw [← hentry, ← Option.some.inj heq, ih es' hes']

end Table

/-! ## The relocated words -/

/-- Every relocation has the entry that the run applies for it, in order. -/
def AllApplied (rs : List Relocation) (t : List Entry) : Prop :=
  (applied t).map Entry.offset = rs.map Relocation.offset

def AllRelocated (rs : List Relocation) (shim : Str → Word) (base : Word) (m : Mem) : Prop :=
  ∀ r ∈ rs, ∀ v, r.abi shim base = some v → m.read64 (r.offset + base) = v

/-- What the script and the loader support: three types, symbols without an addend, and no word at
offset zero, where the table ends. The values of overlapping words have to agree, or no memory
holds them all. -/
structure Supported (rs : List Relocation) : Prop where
  types : ∀ r ∈ rs, r.type ∈ [RelocType.relative, .jumpSlot, .globDat]
  addends : ∀ r ∈ rs, r.type ≠ .relative → r.addend = 0
  offsets : ∀ r ∈ rs, r.offset ≠ 0
  agree : ∀ shim base x, ∀ r ∈ rs, ∀ r' ∈ rs, InRange (r.offset + base) 8 x →
    InRange (r'.offset + base) 8 x → ∀ v v', r.abi shim base = some v → r'.abi shim base = some v' →
      byteOf v (x - (r.offset + base)).toNat = byteOf v' (x - (r'.offset + base)).toNat

/-- What the loader stores for a relocation of a known type, and where. -/
def Relocation.write (shim : Str → Word) (base : Word) (r : Relocation) : Addr × Word :=
  (r.offset + base, if r.type = .relative then r.addend + base else shim r.sym)

section Words
variable {rs : List Relocation} {shim : Str → Word}

theorem entry_isSome_iff {r : Relocation} : (r.entry shim).isSome ↔
    r.type ∈ [RelocType.relative, .jumpSlot, .globDat] := by
  rw [Relocation.entry]
  cases r.type <;> simp

theorem offset_of_entry {r : Relocation} {e : Entry} (h : r.entry shim = some e) :
    e.offset = r.offset := by
  cases htype : r.type <;> simp only [Relocation.entry, htype, Option.some.injEq, reduceCtorEq] at h
  all_goals rw [← h]

theorem target_of_entry {r : Relocation} {e : Entry} (base : Word) (h : r.entry shim = some e) :
    e.target base = r.write shim base := by
  cases htype : r.type <;> simp only [Relocation.entry, htype, Option.some.injEq, reduceCtorEq] at h
  all_goals
    rw [← h, Entry.target, Relocation.write, htype]
    simp [rAarch64Relative, rAarch64JumpSlot, rAarch64GlobDat]

theorem map_filterMap_entry {α : Type*} {f : Entry → α} {g : Relocation → α}
    (hsome : ∀ r ∈ rs, (r.entry shim).isSome)
    (hfg : ∀ r ∈ rs, ∀ e, r.entry shim = some e → f e = g r) :
    (rs.filterMap (Relocation.entry shim)).map f = rs.map g := by
  induction rs with
  | nil => rfl
  | cons r rs ih =>
    obtain ⟨e, he⟩ := Option.isSome_iff_exists.mp (hsome r (by simp))
    rw [List.filterMap_cons, he, List.map_cons, List.map_cons, hfg r (by simp) e he,
      ih (fun r hr => hsome r (by simp [hr])) fun r hr => hfg r (by simp [hr])]

theorem applied_terminated (es : List Entry) : applied (es ++ [⟨0, 0, 0⟩]) = applied es := by
  induction es with
  | nil => rfl
  | cons e es ih =>
    rw [applied, applied, List.cons_append]
    by_cases h : e.offset = 0
    · rw [List.takeWhile_cons_of_neg (by simpa using h), List.takeWhile_cons_of_neg (by simpa using h)]
    · rw [List.takeWhile_cons_of_pos (by simpa using h), List.takeWhile_cons_of_pos (by simpa using h)]
      exact congrArg (e :: ·) ih

theorem applied_entries (hne : ∀ r ∈ rs, r.offset ≠ 0) :
    applied (rs.filterMap (Relocation.entry shim)) = rs.filterMap (Relocation.entry shim) := by
  apply List.takeWhile_eq_self_iff.mpr
  intro e he
  obtain ⟨r, hr, he⟩ := List.mem_filterMap.mp he
  rw [offset_of_entry he]
  simpa using hne r hr

/-- All relocations are applied exactly if their types are known and no offset is zero. -/
theorem allApplied_iff : AllApplied rs (rs.filterMap (Relocation.entry shim) ++ [⟨0, 0, 0⟩]) ↔
    (∀ r ∈ rs, (r.entry shim).isSome) ∧ ∀ r ∈ rs, r.offset ≠ 0 := by
  rw [AllApplied, applied_terminated]
  constructor
  · intro h
    have hlen := congrArg List.length h
    rw [List.length_map, List.length_map] at hlen
    have hpre : applied (rs.filterMap (Relocation.entry shim)) <+:
        rs.filterMap (Relocation.entry shim) := List.takeWhile_prefix _
    have hle := hpre.length_le
    have hle' := List.length_filterMap_le (Relocation.entry shim) rs
    have hsome := List.filterMap_length_eq_length.mp (by omega :
      (rs.filterMap (Relocation.entry shim)).length = rs.length)
    have hall := hpre.eq_of_length (by omega)
    refine ⟨hsome, fun r hr hzero => ?_⟩
    obtain ⟨e, he⟩ := Option.isSome_iff_exists.mp (hsome r hr)
    have hmem : e ∈ applied (rs.filterMap (Relocation.entry shim)) := by
      rw [hall]
      exact List.mem_filterMap.mpr ⟨r, hr, he⟩
    have hne := List.mem_takeWhile_imp hmem
    rw [offset_of_entry he, hzero] at hne
    exact absurd hne (by simp)
  · intro h
    obtain ⟨hsome, hne⟩ := h
    rw [applied_entries hne]
    exact map_filterMap_entry hsome fun r _ e he => offset_of_entry he

/-- Where all relocations are applied the run is the sequence of their writes. -/
theorem doReloc_of_allApplied (base : Word) (m : Mem)
    (h : AllApplied rs (rs.filterMap (Relocation.entry shim) ++ [⟨0, 0, 0⟩])) :
    doReloc base (rs.filterMap (Relocation.entry shim) ++ [⟨0, 0, 0⟩]) m =
      m.writes (rs.map (Relocation.write shim base)) := by
  obtain ⟨hsome, hne⟩ := allApplied_iff.mp h
  rw [doReloc_eq_writes, applied_terminated, applied_entries hne]
  congr 1
  exact map_filterMap_entry hsome fun r _ e he => target_of_entry base he

theorem abi_of_known {r : Relocation} (base : Word)
    (htype : r.type ∈ [RelocType.relative, .jumpSlot, .globDat]) :
    r.abi shim base = some (if r.type = .relative then base + r.addend
      else shim r.sym + r.addend) := by
  rw [Relocation.abi]
  cases h : r.type <;> simp_all

/-- The supported relocations store their values. -/
theorem allRelocated_of_supported (h : Supported rs) (base : Word) (m : Mem) :
    AllRelocated rs shim base (m.writes (rs.map (Relocation.write shim base))) := by
  have hvalue : ∀ r ∈ rs, r.abi shim base = some (r.write shim base).2 := by
    intro r hr
    rw [abi_of_known base (h.types r hr), Relocation.write]
    by_cases hrel : r.type = .relative
    · simp only [hrel, if_true]
      rw [add_comm]
    · simp only [if_neg hrel]
      rw [h.addends r hr hrel, add_zero]
  intro r hr v hv
  rw [read64_eq_iff]
  intro i hi
  have hin : InRange (r.offset + base) 8 (r.offset + base + BitVec.ofNat 64 i) :=
    inRange_add hi (by norm_num)
  have hw : r.write shim base ∈ rs.map (Relocation.write shim base) := List.mem_map_of_mem hr
  rw [writes_of_agree hw hin]
  · rw [hvalue r hr, Option.some_inj] at hv
    rw [hv, Relocation.write, sub_toNat_of_add (by omega)]
  · intro w' hw' hin'
    obtain ⟨r', hr', rfl⟩ := List.mem_map.mp hw'
    exact h.agree shim base _ r' hr' r hr hin' hin _ _ (hvalue r' hr') (hvalue r hr)

/-- A symbol with an addend has some byte that no shim address and no base gives it. -/
theorem addend_of_allRelocated {r : Relocation} (hr : r ∈ rs)
    (hknown : ∀ r ∈ rs, r.type ∈ [RelocType.relative, .jumpSlot, .globDat])
    (hsym : r.type ≠ .relative)
    (h : ∀ shim base m,
      AllRelocated rs shim base (Mem.writes m (rs.map (Relocation.write shim base)))) :
    r.addend = 0 := by
  apply eq_of_byteOf_eq
  intro i hi
  by_contra hne
  have habi : ∀ c : Word, r.abi (fun _ => c) 0 = some (c + r.addend) := by
    intro c
    rw [abi_of_known 0 (hknown r hr), if_neg hsym]
  have hbyte : ∀ c : Word, Mem.writes (fun _ => 0)
      (rs.map (Relocation.write (fun _ => c) 0)) (r.offset + 0 + BitVec.ofNat 64 i) =
        byteOf (c + r.addend) i := by
    intro c
    exact read64_eq_iff.mp (h (fun _ => c) 0 _ r hr _ (habi c)) i hi
  -- the last write to the byte is found by the offsets alone
  have hfind : ∀ c : Word, ((rs.map (Relocation.write (fun _ => c) 0)).reverse.find?
      fun w => InRange w.1 8 (r.offset + 0 + BitVec.ofNat 64 i)) =
        (rs.reverse.find? fun r' => InRange (r'.offset + 0) 8
          (r.offset + 0 + BitVec.ofNat 64 i)).map (Relocation.write (fun _ => c) 0) := by
    intro c
    rw [← List.map_reverse, List.find?_map]
    rfl
  cases hlast : rs.reverse.find? fun r' => InRange (r'.offset + 0) 8
      (r.offset + 0 + BitVec.ofNat 64 i) with
  | none =>
    have hnone := List.find?_eq_none.mp hlast r (List.mem_reverse.mpr hr)
    exact hnone (decide_eq_true (inRange_add hi (by norm_num)))
  | some r' =>
    have hval : ∀ c : Word, byteOf (c + r.addend) i =
        byteOf (r'.write (fun _ => c) 0).2
          (r.offset + 0 + BitVec.ofNat 64 i - (r'.offset + 0)).toNat := by
      intro c
      rw [← hbyte c, writes_apply, hfind c, hlast]
      rfl
    have hzero := hval 0
    rw [zero_add] at hzero
    by_cases hrel : r'.type = .relative
    · -- a constant byte cannot follow the shim's address
      have hneg := hval (-r.addend)
      rw [neg_add_cancel] at hneg
      simp only [Relocation.write, if_pos hrel] at hzero hneg
      exact hne (hzero.trans hneg.symm)
    · simp only [Relocation.write, if_neg hrel] at hzero
      apply hne
      rw [hzero]
      simp [byteOf]

end Words

/-- Every relocation of a listing is applied with its value, at every base, exactly if the listing
is supported. -/
theorem relocations_applied_iff {lines : List Str} {rs : List Relocation} (hl : Lists lines rs)
    {table : (Str → Word) → List Entry}
    (ht : ∀ shim, relocTable shim lines = some (table shim)) :
    (∀ shim base m, AllApplied rs (table shim) ∧
      AllRelocated rs shim base (doReloc base (table shim) m)) ↔ Supported rs := by
  have htable : ∀ shim, table shim = rs.filterMap (Relocation.entry shim) ++ [⟨0, 0, 0⟩] :=
    fun shim => relocTable_eq hl (ht shim)
  simp only [htable]
  constructor
  · intro h
    have happlied := fun shim => (h shim 0 fun _ => 0).1
    obtain ⟨hsome, hne⟩ := allApplied_iff.mp (happlied fun _ => 0)
    have hknown : ∀ r ∈ rs, r.type ∈ [RelocType.relative, .jumpSlot, .globDat] :=
      fun r hr => entry_isSome_iff.mp (hsome r hr)
    have hwords : ∀ shim base m,
        AllRelocated rs shim base (Mem.writes m (rs.map (Relocation.write shim base))) := by
      intro shim base m
      rw [← doReloc_of_allApplied base m (happlied shim)]
      exact (h shim base m).2
    refine ⟨hknown, fun r hr hsym => addend_of_allRelocated hr hknown hsym hwords, hne, ?_⟩
    intro shim base x r hr r' hr' hx hx' v v' hv hv'
    have hbyte : ∀ r ∈ rs, ∀ v, r.abi shim base = some v → InRange (r.offset + base) 8 x →
        Mem.writes (fun _ => 0) (rs.map (Relocation.write shim base)) x =
          byteOf v (x - (r.offset + base)).toNat := by
      intro r hr v hv hx
      obtain ⟨i, hi, rfl⟩ := exists_of_inRange hx
      rw [sub_toNat_of_add (by omega)]
      exact read64_eq_iff.mp (hwords shim base _ r hr v hv) i hi
    rw [← hbyte r hr v hv hx, hbyte r' hr' v' hv' hx']
  · intro h shim base m
    have happlied : AllApplied rs (rs.filterMap (Relocation.entry shim) ++ [⟨0, 0, 0⟩]) :=
      allApplied_iff.mpr ⟨fun r hr => entry_isSome_iff.mpr (h.types r hr), h.offsets⟩
    rw [doReloc_of_allApplied base m happlied]
    exact ⟨happlied, allRelocated_of_supported h base m⟩

/-! ## Two listings -/

def jumpSlotLine : Str :=
  ("0000000041101c80  0000000600000402 R_AARCH64_JUMP_SLOT    " ++
    "0000000000000000 pthread_atfork@LIBC + 0").toList

def relativeLine : Str :=
  "0000000041101fd0  0000000000000403 R_AARCH64_RELATIVE                        41029073".toList

def abs64Line : Str :=
  "0000000041101d40  0000000800000101 R_AARCH64_ABS64        0000000000000000 stderr@LIBC + 0".toList

def jumpSlot : Relocation := ⟨0x41101c80, .jumpSlot, "pthread_atfork".toList, 0⟩
def relative : Relocation := ⟨0x41101fd0, .relative, [], 0x41029073⟩
def abs64 : Relocation := ⟨0x41101d40, .abs64, "stderr".toList, 0⟩

theorem lists_two : Lists [[], jumpSlotLine, relativeLine] [jumpSlot, relative] := by
  refine .heading (by decide) (.row ?_ (.row ?_ .nil))
  · refine ⟨"0000000041101c80".toList, "0000000600000402".toList,
      ["0000000000000000", "pthread_atfork@LIBC", "+", "0"].map String.toList, by decide +kernel,
      by decide, by decide, ?_⟩
    exact ⟨_, "@LIBC".toList, ['+'], ['0'], rfl, by decide, .inr ⟨_, rfl⟩,
      .inl ⟨by decide, .inr rfl, by decide⟩⟩
  · refine ⟨"0000000041101fd0".toList, "0000000000000403".toList, ["41029073".toList],
      by decide +kernel, by decide, by decide, ?_⟩
    exact ⟨[], "41029073".toList, rfl, by decide, .inl ⟨by decide, .inl rfl, by decide⟩⟩

theorem words_abs64Line : words abs64Line =
    ["0000000041101d40", "0000000800000101", "R_AARCH64_ABS64", "0000000000000000", "stderr@LIBC",
      "+", "0"].map String.toList := by
  decide +kernel

theorem lists_abs64 : Lists [abs64Line] [abs64] := by
  refine .row ?_ .nil
  refine ⟨"0000000041101d40".toList, "0000000800000101".toList,
    ["0000000000000000", "stderr@LIBC", "+", "0"].map String.toList, words_abs64Line,
    by decide, by decide, ?_⟩
  exact ⟨_, "@LIBC".toList, ['+'], ['0'], rfl, by decide, .inr ⟨_, rfl⟩,
    .inl ⟨by decide, .inr rfl, by decide⟩⟩

theorem relocTable_abs64 (shim : Str → Word) :
    relocTable shim [abs64Line] = some [⟨0, 0, 0⟩] := by
  have hrow : tableRow abs64Line = none := by
    have htype : wordAt abs64Line 2 = "R_AARCH64_ABS64".toList := by
      rw [wordAt, words_abs64Line]
      rfl
    apply tableRow_eq_none
    rw [htype]
    decide
  rw [relocTable, processRelocs, List.filterMap_cons, hrow]
  rfl

theorem abs64_skipped : ¬ ∀ shim base m table, relocTable shim [abs64Line] = some table →
    AllApplied [abs64] table ∧ AllRelocated [abs64] shim base (doReloc base table m) := by
  intro h
  obtain ⟨happlied, -⟩ := h (fun _ => 1) 0 (fun _ => 0) _ (relocTable_abs64 _)
  exact absurd (congrArg List.length happlied) (by decide)

def twoEntries (shim : Str → Word) : List Entry :=
  [⟨0x41101c80, shim "pthread_atfork".toList, rAarch64JumpSlot⟩,
    ⟨0x41101fd0, 0x41029073, rAarch64Relative⟩, ⟨0, 0, 0⟩]

theorem supported_two : Supported [jumpSlot, relative] where
  types := by decide
  addends := by decide
  offsets := by decide
  agree := by
    have hapart : ∀ base x : Word, InRange (jumpSlot.offset + base) 8 x →
        ¬ InRange (relative.offset + base) 8 x := by
      intro base x hx hx'
      simp only [InRange, jumpSlot, relative] at hx hx'
      bv_omega
    intro shim base x r hr r' hr' hx hx' v v' hv hv'
    have hsame : r = r' := by
      simp only [List.mem_cons, List.not_mem_nil, or_false] at hr hr'
      rcases hr with rfl | rfl <;> rcases hr' with rfl | rfl
      · rfl
      · exact absurd hx' (hapart base x hx)
      · exact absurd hx (hapart base x hx')
      · rfl
    rw [hsame, hv', Option.some_inj] at hv
    rw [hsame, hv]

theorem relocations_applied_two :
    AllApplied [jumpSlot, relative] (twoEntries fun _ => 0x2000) ∧
      AllRelocated [jumpSlot, relative] (fun _ => 0x2000) 0x1000
        (doReloc 0x1000 (twoEntries fun _ => 0x2000) fun _ => 0) :=
  (relocations_applied_iff lists_two fun _ => rfl).mpr supported_two (fun _ => 0x2000) 0x1000
    fun _ => 0

end Rebench.Reloc
