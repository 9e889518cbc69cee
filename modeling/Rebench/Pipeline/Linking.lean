import Rebench.Pipeline.Exits
import Rebench.Reloc.Exports

/-!
# What the ways out are linked with

A report that tags every symbol as local or static names only symbols that the
file defines or that the libraries provide. Then every way out of the file is
the name of a stub, or of the function that jemalloc.c puts around one.
-/
namespace Rebench.Pipeline
open Text Machine Control Refine

/-- The name of a stub of one of the libraries, or `s_calloc`. -/
def Provided (x : Str) : Prop :=
  x = "s_calloc".toList ∨ ∃ l ∈ [Reloc.jemalloc, Reloc.stdlib], ∃ e ∈ l.exports, e.name = x

instance : DecidablePred Provided := fun _ => inferInstanceAs (Decidable (_ ∨ _))

/-- The libraries provide every symbol that refine.py takes for a static one. -/
theorem provided_static : ∀ sym ∈ staticSymbols, Provided (importName sym) := by
  decide +kernel

def TaggedClean (line : Str) : Prop := "  (local) ".toList <+: line ∨ "  (static) ".toList <+: line

instance : DecidablePred TaggedClean := fun _ => inferInstanceAs (Decidable (_ ∨ _))

section Links
variable {s : Refine.State} {sym : Str}

/-- A missing symbol with one of the two tags is a static one. -/
theorem static_of_missing (hword : ∀ y ∈ s.symbols, IsRun isWord y) (hsym : IsRun isWord sym)
    (hclean : ∀ line ∈ symbolReport s, TaggedClean line) (h : Missing s sym) :
    sym ∈ staticSymbols := by
  have hmem := ((missing_iff hword hsym).mp h).1
  obtain ⟨tag, ht, hline, hlocal⟩ := h
  have htag := (reportLine_mem_iff hword ht hmem).mp hline
  have hprefix := hclean _ hline
  rw [htag] at hprefix hlocal
  rw [reportTag] at hprefix hlocal
  split_ifs at hprefix hlocal with hunsafe hheader hstatic
  · exact absurd hprefix (by simp [TaggedClean, reportLine])
  · exact hlocal rfl
  · exact hstatic
  · obtain ⟨c, cs, rfl⟩ := List.exists_cons_of_ne_nil hsym.1
    have hc := hsym.2 c List.mem_cons_self
    have hparen : ∀ tag : Str, ' ' :: ' ' :: '(' :: tag <+: ' ' :: ' ' :: c :: cs → '(' = c :=
      fun tag hpre => ( List.cons_prefix_cons.mp ( List.cons_prefix_cons.mp
        ( List.cons_prefix_cons.mp hpre).2).2).1
    have hc' : '(' = c := by
      rcases hprefix with hpre | hpre
      · exact hparen "local) ".toList hpre
      · exact hparen "static) ".toList hpre
    rw [← hc'] at hc
    exact absurd hc (by decide)

end Links

def mallocPlt : PltLine where
  addr := mallocCall.addr
  sp₁ := mallocCall.sp₁
  bin := mallocCall.bin
  sp₂ := mallocCall.sp₂
  inst := mallocCall.inst
  operands := "300 <malloc@plt>".toList
  addr_run := mallocCall.addr_run
  sp₁_run := mallocCall.sp₁_run
  bin_length := mallocCall.bin_length
  bin_hex := mallocCall.bin_hex
  sp₂_run := mallocCall.sp₂_run
  inst_ne := mallocCall.inst_ne
  inst_head := mallocCall.inst_head
  operands_ne := by decide
  operands_tab := by decide
  mnem := leafCall.mnem
  pre := leafCall.pre
  target := "300".toList
  sp := " ".toList
  body := "malloc@plt>".toList
  mnem_run := leafCall.mnem_run
  target_run := by decide
  sp_run := leafCall.sp_run
  pre_form := leafCall.pre_form
  pre_angle := leafCall.pre_angle
  body_angle := by decide
  code_eq := rfl
  not_format := by decide
  sym := "malloc".toList
  sym_run := by decide
  body_eq := rfl
  inst_eq := rfl
  branch := by decide

def pltEntries : List Entry := [.inst mallocPlt.toInstLine]

def pltListing : Str := "  404:\t97ffffff \tbl\t300 <malloc@plt>\n".toList

theorem inst_plt {l : InstLine} (hl : .inst l ∈ pltEntries) : l = mallocPlt.toInstLine := by
  simpa [pltEntries] using hl

theorem header_plt {h : HeaderLine} : .header h ∉ pltEntries := by
  simp [pltEntries]

theorem mentions_plt {x : Target} : Mentions pltEntries x ↔ x = .plt "malloc".toList := by
  obtain ⟨link, cond, hflow⟩ := flow_of_direct mallocPlt.aims.direct
    (some (Target.plt mallocPlt.sym))
  have hplt := Reads.plt mallocPlt
  rw [hflow] at hplt
  constructor
  · rintro ⟨e, he, i, link, cond, hread⟩
    rw [pltEntries, List.mem_singleton] at he
    rw [he] at hread
    have hf := flow_dest ((Reads.plt mallocPlt).unique hread).2
    exact (Option.some.inj hf).symm
  · rintro rfl
    exact ⟨_, List.mem_singleton_self _, _, link, cond, hplt⟩

theorem not_branchLine_plt (b : BranchLine) : .inst b.toInstLine ∉ pltEntries := by
  intro hb
  have hsuffix := (mallocPlt.aims.unique b.aims (inst_plt hb).symm).2.2.2.2
  rcases b.form with ⟨-, h⟩ | ⟨-, o, -, h | h⟩
  · exact absurd (hsuffix.symm.trans h) (by decide)
  · exact absurd (List.cons.inj (hsuffix.symm.trans h)).1 (by decide)
  · exact absurd (List.cons.inj (List.cons.inj (hsuffix.symm.trans h)).2).1 (by decide)

theorem objdump_pltEntries : Objdump pltEntries where
  addr_nodup := by decide
  header_next k h hk := absurd (List.mem_of_getElem? hk) header_plt
  sym_nodup := by decide
  sym_ne_label h hh := absurd hh header_plt
  target_hex b hb := absurd hb (not_branchLine_plt b)

theorem written_pltEntries : Written pltEntries where
  direct l hl _ := .inr ⟨mallocPlt, (inst_plt hl).symm⟩
  branch b hb := absurd hb (not_branchLine_plt b)
  plt b hb := by
    rw [(mallocPlt.aims.unique b.aims (inst_plt hb).symm).2.1]
    decide

theorem resolves_pltEntries : Resolves pltEntries where
  symbol_ne_label a sym h := absurd (mentions_plt.mp h) (by simp)
  plt_ne_label := by
    intro sym h n heq
    rw [Target.plt.inj (mentions_plt.mp h)] at heq
    exact absurd (List.cons.inj heq).1 (by decide)
  header_addr a h hm := absurd (mentions_plt.mp hm) (by simp)
  addr_header a sym h := absurd (mentions_plt.mp h) (by simp)
  plt_header h _ hh := absurd hh header_plt
  import_free h hh := absurd hh header_plt

def pltFile : List Str :=
  process (fun _ _ => false) (fun _ _ => pltListing) [] "plt.s".toList ["L404-408".toList]

end Rebench.Pipeline
