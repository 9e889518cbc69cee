import Rebench.Reloc.Placement

/-!
# The macros of a whole section table

The names of the sections are looked for in the second field of a row. That is
where they stand from row ten on; below ten the second field is the number.
-/
namespace Rebench.Reloc
open Text Machine

/-- A line of the listing that is no row names neither of the two sections. -/
def IsHeading (line : Str) : Prop := ".text".toList ∉ words line ∧ ".bss".toList ∉ words line

/-- What `readelf --sections --wide` prints: the rows of all sections in order, and headings. -/
def SectionTable (listing : List Str) (ss : List ElfSection) : Prop :=
  ∃ before rows after, listing = before ++ rows ++ after ∧
    (∀ line ∈ before ++ after, IsHeading line) ∧ rows.length = ss.length ∧
    ∀ (k : ℕ) row s, rows[k]? = some row → ss[k]? = some s → SectionRow k row s

structure OnlySection (ss : List ElfSection) (name : Str) (i : ℕ) (s : ElfSection) : Prop where
  getElem? : ss[i]? = some s
  name_eq : s.name = name
  unique : ∀ k t, ss[k]? = some t → t.name = name → k = i

/-- The macro is defined once, by the digits of a column with this value. -/
def DefinedOnce (macros : List (Str × Str)) (key : Str) (n : ℕ) : Prop :=
  ∃ digits, macros.filter (·.1 = key) = [(key, digits)] ∧ Column digits n

/-- The macros for the sections. -/
inductive Key where
  | textStart | textSize | bssStart | bssSize

namespace Key

def text : Key → Str
  | textStart => "TEXT_START".toList
  | textSize => "TEXT_SIZE".toList
  | bssStart => "BSS_START".toList
  | bssSize => "BSS_SIZE".toList

def name : Key → Str
  | textStart | textSize => ".text".toList
  | bssStart | bssSize => ".bss".toList

def column : Key → ElfSection → ℕ
  | textStart, s | bssStart, s => s.start
  | textSize, s | bssSize, s => s.size

end Key

theorem sectionMacros_of_heading {line : Str} (h : IsHeading line) : sectionMacros line = [] := by
  have hne : ∀ name : Str, name ≠ [] → name ∉ words line → wordAt line 1 ≠ name := by
    rintro name hname hmem rfl
    rw [wordAt, List.getD_eq_getElem?_getD] at hname hmem
    cases hword : (words line)[1]? with
    | none => simp [hword] at hname
    | some w =>
      rw [hword] at hmem
      exact hmem (List.mem_of_getElem? hword)
  rw [sectionMacros, if_neg (hne _ (by decide) h.1), if_neg (hne _ (by decide) h.2)]

section Row
variable {k : ℕ} {row : Str} {s : ElfSection}

/-- A row defines the macros of its own section, and only from ten on. -/
theorem filter_sectionMacros (key : Key) (h : SectionRow k row s) :
    ∃ digits, Column digits (key.column s) ∧ (sectionMacros row).filter (·.1 = key.text) =
      if 10 ≤ k ∧ s.name = key.name then [(key.text, digits)] else [] := by
  by_cases hk : 10 ≤ k
  · obtain ⟨addr, size, haddr, hsize, hmacros⟩ := sectionMacros_of_le h hk
    simp only [hk, true_and]
    rw [hmacros]
    by_cases htext : s.name = ".text".toList
    · rw [if_pos htext, htext]
      cases key with
      | textStart => exact ⟨addr, haddr, rfl⟩
      | textSize => exact ⟨size, hsize, rfl⟩
      | bssStart => exact ⟨addr, haddr, rfl⟩
      | bssSize => exact ⟨size, hsize, rfl⟩
    · rw [if_neg htext]
      by_cases hbss : s.name = ".bss".toList
      · rw [if_pos hbss, hbss]
        cases key with
        | textStart => exact ⟨addr, haddr, rfl⟩
        | textSize => exact ⟨size, hsize, rfl⟩
        | bssStart => exact ⟨addr, haddr, rfl⟩
        | bssSize => exact ⟨size, hsize, rfl⟩
      · rw [if_neg hbss]
        cases key with
        | textStart => exact ⟨addr, haddr, (if_neg htext).symm⟩
        | textSize => exact ⟨size, hsize, (if_neg htext).symm⟩
        | bssStart => exact ⟨addr, haddr, (if_neg hbss).symm⟩
        | bssSize => exact ⟨size, hsize, (if_neg hbss).symm⟩
  · refine ⟨hex (key.column s), ⟨⟨by simp, fun c hc => isHex_of_mem_hex hc⟩, hexVal_hex _⟩, ?_⟩
    rw [sectionMacros_of_lt h (by omega), if_neg fun hand => hk hand.1]
    rfl

end Row

theorem flatMap_of_only {α β : Type*} {f : α → List β} {l : List α} {i : ℕ} {a : α}
    (ha : l[i]? = some a) (h : ∀ k b, l[k]? = some b → k ≠ i → f b = []) : l.flatMap f = f a := by
  induction l generalizing i with
  | nil => simp at ha
  | cons x l ih =>
    rw [List.flatMap_cons]
    cases i with
    | zero =>
      have hnil : l.flatMap f = [] := by
        rw [List.flatMap_eq_nil_iff]
        intro b hb
        obtain ⟨k, hk⟩ := List.getElem?_of_mem hb
        exact h (k + 1) b hk (by omega)
      rw [hnil, List.append_nil, Option.some.inj ha]
    | succ i =>
      rw [h 0 x rfl (by omega), List.nil_append]
      exact ih ha fun k b hb hk => h (k + 1) b hb (by omega)

theorem flatMap_headings (key : Key) {lines : List Str} (h : ∀ line ∈ lines, IsHeading line) :
    lines.flatMap (fun line => (sectionMacros line).filter (·.1 = key.text)) = [] := by
  rw [List.flatMap_eq_nil_iff]
  intro line hline
  rw [sectionMacros_of_heading (h line hline)]
  rfl

section Table
variable {listing : List Str} {ss : List ElfSection}

theorem flatMap_rows (key : Key) {i : ℕ} {s : ElfSection} {rows : List Str}
    (hs : OnlySection ss key.name i s) (hlen : rows.length = ss.length)
    (hrows : ∀ (k : ℕ) row t, rows[k]? = some row → ss[k]? = some t → SectionRow k row t) :
    ∃ digits, Column digits (key.column s) ∧
      rows.flatMap (fun row => (sectionMacros row).filter (·.1 = key.text)) =
        if 10 ≤ i then [(key.text, digits)] else [] := by
  obtain ⟨row, hrow⟩ : ∃ row, rows[i]? = some row := by
    have hlt : i < rows.length := hlen ▸ (List.getElem?_eq_some_iff.mp hs.getElem?).1
    exact ⟨_, List.getElem?_eq_getElem hlt⟩
  obtain ⟨digits, hdigits, hfilter⟩ := filter_sectionMacros key (hrows i row s hrow hs.getElem?)
  have hothers : ∀ k line, rows[k]? = some line → k ≠ i →
      (sectionMacros line).filter (·.1 = key.text) = [] := by
    intro k line hline hk
    obtain ⟨t, ht⟩ : ∃ t, ss[k]? = some t := by
      have hlt : k < ss.length := hlen ▸ (List.getElem?_eq_some_iff.mp hline).1
      exact ⟨_, List.getElem?_eq_getElem hlt⟩
    obtain ⟨_, -, heq⟩ := filter_sectionMacros key (hrows k line t hline ht)
    rw [heq, if_neg fun hand => hk (hs.unique k t ht hand.2)]
  refine ⟨digits, hdigits, ?_⟩
  rw [flatMap_of_only hrow hothers, hfilter]
  simp only [hs.name_eq, and_true]

theorem filter_processSections (key : Key) (jemalloc listing : List Str) :
    (processSections jemalloc listing).filter (·.1 = key.text) =
      listing.flatMap fun line => (sectionMacros line).filter (·.1 = key.text) := by
  have hne : "ROM_START".toList ≠ key.text := by
    cases key <;> decide
  rw [processSections, List.filter_cons, ← List.filter_flatMap]
  exact if_neg fun heq => hne (of_decide_eq_true heq)

/-- A macro is defined once with the right value exactly if its section has a number from ten on. -/
theorem definedOnce_iff (key : Key) {i : ℕ} {s : ElfSection} (h : SectionTable listing ss)
    (hs : OnlySection ss key.name i s) (jemalloc : List Str) :
    DefinedOnce (processSections jemalloc listing) key.text (key.column s) ↔ 10 ≤ i := by
  obtain ⟨before, rows, after, rfl, hheading, hlen, hrows⟩ := h
  obtain ⟨digits, hdigits, hall⟩ := flatMap_rows key hs hlen hrows
  rw [DefinedOnce, filter_processSections, List.flatMap_append, List.flatMap_append,
    flatMap_headings key fun line hline => hheading line (List.mem_append_left _ hline),
    flatMap_headings key fun line hline => hheading line (List.mem_append_right _ hline), hall,
    List.append_nil, List.nil_append]
  constructor
  · rintro ⟨digits', hdefined, -⟩
    by_contra hi
    simp [hi] at hdefined
  · intro hi
    exact ⟨digits, if_pos hi, hdigits⟩

/-- Each of the four macros is defined once, with the address or the size of its section, exactly
if both sections have a number from ten on. -/
theorem processSections_defines_iff {i j : ℕ} {text bss : ElfSection}
    (h : SectionTable listing ss) (htext : OnlySection ss ".text".toList i text)
    (hbss : OnlySection ss ".bss".toList j bss) (jemalloc : List Str) :
    DefinedOnce (processSections jemalloc listing) "TEXT_START".toList text.start ∧
      DefinedOnce (processSections jemalloc listing) "TEXT_SIZE".toList text.size ∧
      DefinedOnce (processSections jemalloc listing) "BSS_START".toList bss.start ∧
      DefinedOnce (processSections jemalloc listing) "BSS_SIZE".toList bss.size ↔
    10 ≤ i ∧ 10 ≤ j := by
  have h₁ := definedOnce_iff .textStart h htext jemalloc
  have h₂ := definedOnce_iff .textSize h htext jemalloc
  have h₃ := definedOnce_iff .bssStart h hbss jemalloc
  have h₄ := definedOnce_iff .bssSize h hbss jemalloc
  constructor
  · rintro ⟨htextStart, -, hbssStart, -⟩
    exact ⟨h₁.mp htextStart, h₃.mp hbssStart⟩
  · rintro ⟨hi, hj⟩
    exact ⟨h₁.mpr hi, h₂.mpr hi, h₃.mpr hj, h₄.mpr hj⟩

end Table

/-! ## Two tables -/

theorem getElem?_sectionLines (i : ℕ) (ss : List ElfSection) (k : ℕ) :
    (sectionLines i ss)[k]? = ss[k]?.map (sectionLine (i + k)) := by
  induction ss generalizing i k with
  | nil => rfl
  | cons s ss ih =>
    cases k with
    | zero => rfl
    | succ k =>
      rw [sectionLines, List.getElem?_cons_succ, List.getElem?_cons_succ, ih]
      congr 2
      omega

theorem length_sectionLines (i : ℕ) (ss : List ElfSection) :
    (sectionLines i ss).length = ss.length := by
  induction ss generalizing i with
  | nil => rfl
  | cons s ss ih => exact congrArg (· + 1) (ih (i + 1))

theorem sectionTable_sectionLines {null : ElfSection} {ss : List ElfSection}
    (hname : null.name = []) (htype : IsToken null.type ∧ '[' ∉ null.type)
    (h : ∀ s ∈ ss, IsToken s.name ∧ IsToken s.type ∧ '[' ∉ s.name ∧ '[' ∉ s.type) :
    SectionTable (sectionLines 0 (null :: ss)) (null :: ss) := by
  refine ⟨[], _, [], by simp, by simp, length_sectionLines 0 _, ?_⟩
  intro k row s hrow hs
  rw [getElem?_sectionLines, hs, Option.map_some, Option.some_inj, Nat.zero_add] at hrow
  rw [← hrow]
  cases k with
  | zero =>
    obtain rfl := Option.some.inj hs
    exact sectionRow_sectionLine (.inr ⟨rfl, hname⟩) htype.1 ⟨by simp [hname], htype.2⟩
  | succ k =>
    obtain ⟨hname, htype, hbracket⟩ := h s (List.mem_of_getElem? hs)
    exact sectionRow_sectionLine (.inl hname) htype hbracket

theorem onlySection_of_nodup {ss : List ElfSection} {i : ℕ} {s : ElfSection}
    (h : (ss.map (·.name)).Nodup) (hs : ss[i]? = some s) : OnlySection ss s.name i s where
  getElem? := hs
  name_eq := rfl
  unique := by
    intro k t ht hname
    have hk : k < (ss.map (·.name)).length := by
      simpa using (List.getElem?_eq_some_iff.mp ht).1
    exact (List.getElem?_inj hk h).mp (by simp [ht, hs, hname])

theorem fileAt_defines : ∃ macros text bss,
    macros = processSections [] (sectionLines 0 (fileAt 0x238).sections) ∧
    (fileAt 0x238).sections[11]? = some text ∧ (fileAt 0x238).sections[12]? = some bss ∧
    DefinedOnce macros "TEXT_START".toList text.start ∧
    DefinedOnce macros "TEXT_SIZE".toList text.size ∧
    DefinedOnce macros "BSS_START".toList bss.start ∧
    DefinedOnce macros "BSS_SIZE".toList bss.size := by
  have htable : SectionTable (sectionLines 0 (fileAt 0x238).sections) (fileAt 0x238).sections :=
    sectionTable_sectionLines rfl (by decide) (by decide)
  have hnodup : ((fileAt 0x238).sections.map (·.name)).Nodup := by
    decide
  exact ⟨_, _, _, rfl, rfl, rfl, (processSections_defines_iff htable
    (onlySection_of_nodup (i := 11) hnodup rfl) (onlySection_of_nodup (i := 12) hnodup rfl) []).mpr
      ⟨by norm_num, by norm_num⟩⟩

def smallSections : List ElfSection :=
  [(fileAt 0).null, ⟨⟨0x41000000, 0x40⟩, ".text".toList, "PROGBITS".toList, true⟩,
    ⟨⟨0x41010000, 0x10⟩, ".bss".toList, "NOBITS".toList, true⟩]

theorem smallSections_undefined : ∃ macros text bss,
    macros = processSections (sectionLines 0 smallSections) (sectionLines 0 smallSections) ∧
    SectionTable (sectionLines 0 smallSections) smallSections ∧
    OnlySection smallSections ".text".toList 1 text ∧
    OnlySection smallSections ".bss".toList 2 bss ∧
    macros = [("ROM_START".toList, "41000000".toList)] ∧
    ¬ (DefinedOnce macros "TEXT_START".toList text.start ∧
      DefinedOnce macros "TEXT_SIZE".toList text.size ∧
      DefinedOnce macros "BSS_START".toList bss.start ∧
      DefinedOnce macros "BSS_SIZE".toList bss.size) := by
  have hnodup : (smallSections.map (·.name)).Nodup := by
    decide
  have hmacros : processSections (sectionLines 0 smallSections) (sectionLines 0 smallSections) =
      [("ROM_START".toList, "41000000".toList)] := by
    decide +kernel
  refine ⟨_, _, _, rfl, sectionTable_sectionLines rfl (by decide) (by decide),
    onlySection_of_nodup (i := 1) hnodup rfl, onlySection_of_nodup (i := 2) hnodup rfl, hmacros, ?_⟩
  rintro ⟨⟨digits, hfilter, -⟩, -⟩
  rw [hmacros] at hfilter
  cases hfilter

end Rebench.Reloc
