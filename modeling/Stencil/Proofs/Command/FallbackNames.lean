/-
The name of a component that nobody has given. Neither a flag nor the
options file has a name, and the name is to come from the input. That is
what happens without an options file. With one, the reader of the file has
already put the default name where the file leaves it out, so that a build
cannot tell a name that is left out from one that is given
(`buildOptions_fallback_name_iff`, `fallback_name_lost`).
-/
import Stencil.Proofs.Command.Switches
import Stencil.Proofs.Options.Documents

namespace Stencil

-- ======================================================= what is given

/-- A JSON value leaves a field of the options out. -/
def OptionField.LeftOut (field : OptionField) (j : Json) : Prop :=
  ∀ members, j.members? Options.keys = some members
    → field.key ∉ members.map Prod.fst

/-- A field that is left out has its default. -/
theorem OptionField.LeftOut.same {field : OptionField} {j : Json} {o : Options}
    (h : field.LeftOut j) (ho : o.DescribedBy j) : field.Same o {} := by
  obtain ⟨members, hmembers, hgiven⟩ := ho
  have habsent := h members hmembers
  rcases hgiven field with ⟨v, hfilter, -⟩ | ⟨-, hsame⟩
  · rw [Json.filter_key_eq_nil_iff.2 habsent] at hfilter
    cases hfilter
  · exact hsame

variable {σ : Type} {disk : Disk (StateM σ)}

/-- There is no options file among the flags, or it can be read, is valid
and leaves the name out. -/
def FileLeavesNameOut (disk : Disk (StateM σ)) (flags : Overrides)
    (s : σ) : Prop :=
  ∀ path, flags.optionsFile = some path → ∃ text given j,
    ((disk.readText path).run s).1 = .ok text ∧ Options.ofText text = .ok given
      ∧ Options.Document text j ∧ OptionField.componentName.LeftOut j

-- ============================================================ the name

/-- The options that a build starts from have the name that the input
suggests, or the default one if they come from a file. -/
theorem startingOptions_name (input : Text) {flags : Overrides} {s : σ}
    (h : FileLeavesNameOut disk flags s) :
    ∃ o s₁, (startingOptions disk input flags).run.run s = (.ok o, s₁)
      ∧ o.componentName
        = if flags.optionsFile.isNone then componentName (inputStem input)
          else ({} : Options).componentName := by
  cases hfile : flags.optionsFile with
  | none =>
      refine ⟨({} : Options).withComponentName
        (componentName (inputStem input)), s, ?_, rfl⟩
      unfold startingOptions
      rw [hfile]
      rfl
  | some path =>
      obtain ⟨text, given, j, hread, hvalid, hdocument, hname⟩ := h path hfile
      have hsame := hname.same (hdocument.ofText_eq_ok_iff.1 hvalid)
      refine ⟨given, ((disk.readText path).run s).2, ?_, hsame⟩
      have hfirst : (CommandError.guard (.reading path) Cause.file
          (disk.readText path)).run.run s
          = (.ok text, ((disk.readText path).run s).2) := by
        rw [CommandError.run_guard, hread]
        rfl
      unfold startingOptions
      rw [hfile]
      show (CommandError.guard (.reading path) Cause.file (disk.readText path)
        >>= _).run.run s = _
      rw [run_bind_ok hfirst, hvalid]
      rfl

/-- The name of a component that no flag and no options file gives. The
options are settled, and the name is the one that the input suggests exactly
if there is no options file, or that name is the default one. -/
theorem buildOptions_fallback_name_iff {input stem : Text}
    (hstem : Path.stem? input = some stem) {flags : Overrides}
    (hname : flags.name = none) {s : σ}
    (hfile : FileLeavesNameOut disk flags s) :
    ∃ o, ((buildOptions disk input flags).run.run s).1 = .ok o
      ∧ (o.componentName = componentName stem
        ↔ flags.optionsFile = none
          ∨ componentName stem = ({} : Options).componentName) := by
  obtain ⟨start, s₁, hstart, hstartName⟩ := startingOptions_name input hfile
  refine ⟨flags.apply start, ?_, ?_⟩
  · rw [buildOptions, run_bind_ok hstart]
    rfl
  · have hkept : (flags.apply start).componentName = start.componentName := by
      rw [Overrides.apply_eq, hname]
      rfl
    have hinput : inputStem input = stem := by
      rw [inputStem, hstem]
      rfl
    rw [hkept, hstartName, hinput]
    cases flags.optionsFile with
    | none => simp
    | some path => simp [eq_comm]

-- ============================================================ examples

/-- The object without members is a document that leaves every field out. -/
theorem document_empty : Options.Document "\x7b\x7d" (.object []) := by
  have hspace : Json.IsSpace [] := fun c hc => absurd hc List.not_mem_nil
  show Options.Document ([] ++ '{' :: ([] ++ '}' :: [])) (.object [])
  exact .object hspace (.nil hspace) hspace

theorem leftOut_empty (field : OptionField) : field.LeftOut (.object []) := by
  intro members hmembers
  cases hmembers
  exact List.not_mem_nil

theorem fileLeavesNameOut_empty :
    FileLeavesNameOut FileTree.disk fileFlags
      (FileTree.pageWithOptions "\x7b\x7d") := by
  intro path hpath
  cases hpath
  exact ⟨"\x7b\x7d", {}, _, by decide +kernel, by decide +kernel,
    document_empty, leftOut_empty _⟩

/-- The options file has no name, and the name that the input suggests is
the default one. -/
theorem buildOptions_fallback_name_default :
    ∃ o, ((buildOptions FileTree.disk "template-component.html"
        fileFlags).run.run (FileTree.pageWithOptions "\x7b\x7d")).1 = .ok o
      ∧ o.componentName = componentName "template-component" := by
  obtain ⟨o, ho, hiff⟩ := buildOptions_fallback_name_iff
    (by decide +kernel : Path.stem? "template-component.html"
      = some "template-component")
    rfl fileLeavesNameOut_empty
  exact ⟨o, ho, hiff.2 (.inr (by decide +kernel))⟩

/-- The options file has no name, and the name that the input suggests is
not used. -/
theorem fallback_name_lost :
    FileLeavesNameOut FileTree.disk fileFlags
      (FileTree.pageWithOptions "\x7b\x7d")
      ∧ Path.stem? "card-list.html" = some "card-list".toList
      ∧ componentName "card-list" = "CardList".toList
      ∧ ((buildOptions FileTree.disk "card-list.html" fileFlags).run.run
        (FileTree.pageWithOptions "\x7b\x7d")).1
        = .ok { componentName := "TemplateComponent" } :=
  ⟨fileLeavesNameOut_empty, by decide +kernel, by decide +kernel,
    by decide +kernel⟩

end Stencil
