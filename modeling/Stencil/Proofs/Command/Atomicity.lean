/-
The commands and the files. On a lawful disk a build changes one file or
none: it fails and every file is as it was, or it succeeds and the file at
the path it gives holds the component of the template, with every other
file as it was. A check changes nothing at all, and finds fault with a
template exactly where a build does, for the same reason.

# What a run can be

A build has five steps, each of which may fail, and `BuildRun` has a form
for each of the failures and one for success (`build_run`). Reading comes
first and changes nothing, so a run that fails before the output directory
is made ends in the state it started from. What remains is the directory,
which is no file, and the write, which is the last step.
-/
import Stencil.Command.Build
import Stencil.Proofs.Files.Regular

namespace Stencil

variable {σ place : Type} {disk : Disk (StateM σ)} {view : FileView σ place}

-- ============================================================== steps

/-- A sequence of steps fails in the first one, or goes on where that has
led. -/
theorem run_bind_cases {α β : Type} {x : ExceptT CommandError (StateM σ) α}
    {f : α → ExceptT CommandError (StateM σ) β} {s s' : σ}
    {result : Except CommandError β} (h : (x >>= f).run.run s = (result, s')) :
    (∃ e, x.run.run s = (.error e, s') ∧ result = .error e)
      ∨ ∃ a s₁, x.run.run s = (.ok a, s₁)
        ∧ (f a).run.run s₁ = (result, s') := by
  rw [ExceptT.run_bind, StateT.run_bind] at h
  cases hx : x.run.run s with
  | mk first s₁ =>
      rw [hx] at h
      cases first with
      | error e =>
          cases h
          exact .inl ⟨e, rfl, rfl⟩
      | ok a => exact .inr ⟨a, s₁, rfl, h⟩

namespace CommandError

variable {ε α β : Type} {step : CommandStep} {cause : ε → Cause}

/-- A guarded step does what its action does, and names the step if that
fails. -/
theorem run_guard (action : StateM σ (Except ε α)) (s : σ) :
    (guard step cause action).run.run s
      = ((action.run s).1.mapError fun e => ⟨step, cause e⟩,
        (action.run s).2) := by
  rw [guard, ExceptT.run_mk, StateT.run_bind]
  cases action.run s with
  | mk result s' => cases result <;> rfl

/-- What a sequence does that starts with a guarded step. -/
theorem run_guard_bind_cases {action : StateM σ (Except ε α)}
    {f : α → ExceptT CommandError (StateM σ) β} {s s' : σ}
    {result : Except CommandError β}
    (h : (guard step cause action >>= f).run.run s = (result, s')) :
    (∃ e, action.run s = (.error e, s') ∧ result = .error ⟨step, cause e⟩)
      ∨ ∃ a s₁, action.run s = (.ok a, s₁)
        ∧ (f a).run.run s₁ = (result, s') := by
  rw [ExceptT.run_bind, StateT.run_bind, run_guard] at h
  cases haction : action.run s with
  | mk first s₁ =>
      rw [haction] at h
      cases first with
      | error e =>
          cases h
          exact .inl ⟨e, rfl, rfl⟩
      | ok a => exact .inr ⟨a, s₁, rfl, h⟩

end CommandError

-- ============================================================ reading

/-- What a build starts from: a template that is there to read, and options
that the flags come to. -/
structure BuildInputs (disk : Disk (StateM σ)) (input : Text)
    (flags : Overrides) (s : σ) (source : Text) (options : Options) : Prop where
  read : ((disk.readText input).run s).1 = .ok source
  options : ((buildOptions disk input flags).run.run s).1 = .ok options

theorem BuildInputs.unique {input : Text} {flags : Overrides} {s : σ}
    {source source' : Text} {options options' : Options}
    (h : BuildInputs disk input flags s source options)
    (h' : BuildInputs disk input flags s source' options') :
    source' = source ∧ options' = options := by
  have hread := h'.read.symm.trans h.read
  have hoptions := h'.options.symm.trans h.options
  cases hread
  cases hoptions
  exact ⟨rfl, rfl⟩

theorem Disk.Lawful.eq_of_read (lawful : disk.Lawful view) {path : Text}
    {s s' : σ} {result : Except FileError Text}
    (h : (disk.readText path).run s = (result, s')) :
    s = s' := by
  rw [← lawful.read path s, h]

/-- Options are found by reading. -/
theorem Disk.Lawful.eq_of_buildOptions (lawful : disk.Lawful view)
    {input : Text} {flags : Overrides} {s s' : σ}
    {result : Except CommandError Options}
    (h : (buildOptions disk input flags).run.run s = (result, s')) :
    s = s' := by
  have hstart : ∀ {first s₁}, (startingOptions disk input flags).run.run s
      = (first, s₁) →
      s = s₁ := by
    intro first s₁ hfirst
    unfold startingOptions at hfirst
    split at hfirst
    · cases hfirst
      rfl
    · obtain ⟨e, hread, -⟩ | ⟨text, s₂, hread, hrest⟩ :=
        CommandError.run_guard_bind_cases hfirst
      · exact lawful.eq_of_read hread
      · rw [CommandError.run_guard] at hrest
        cases hrest
        exact lawful.eq_of_read hread
  obtain ⟨e, hfirst, -⟩ | ⟨o, s₁, hfirst, hrest⟩ := run_bind_cases h
  · exact hstart hfirst
  · cases hrest
    exact hstart hfirst

-- =========================================================== building

/-- The runs of a build from the state `s`: how each ends, and where. -/
inductive BuildRun (disk : Disk (StateM σ)) (input dir : Text)
    (flags : Overrides) (s : σ) :
    Except CommandError Text → σ → Prop
  | unread {e : FileError} (read : ((disk.readText input).run s).1 = .error e) :
      BuildRun disk input dir flags s (.error ⟨.reading input, .file e⟩) s
  | unresolved {e : CommandError}
      (options : ((buildOptions disk input flags).run.run s).1 = .error e) :
      BuildRun disk input dir flags s (.error e) s
  | uncompiled {source : Text} {options : Options} {e : TemplateError}
      (inputs : BuildInputs disk input flags s source options)
      (compiled : compile options source = .error e) :
      BuildRun disk input dir flags s
        (.error ⟨.compiling input, templateCause source e⟩) s
  | uncreated {source code : Text} {options : Options} {e : FileError} {s' : σ}
      (inputs : BuildInputs disk input flags s source options)
      (compiled : compile options source = .ok code)
      (created : (disk.createAll dir).run s = (.error e, s')) :
      BuildRun disk input dir flags s (.error ⟨.creating dir, .file e⟩) s'
  | unwritten {source code : Text} {options : Options} {e : FileError}
      {s₁ s' : σ} (inputs : BuildInputs disk input flags s source options)
      (compiled : compile options source = .ok code)
      (created : (disk.createAll dir).run s = (.ok (), s₁))
      (written : (disk.writeText (outputPath input dir) (code ++ ['\n'])).run s₁
        = (.error e, s')) :
      BuildRun disk input dir flags s
        (.error ⟨.writing (outputPath input dir), .file e⟩) s'
  | written {source code : Text} {options : Options} {s₁ s' : σ}
      (inputs : BuildInputs disk input flags s source options)
      (compiled : compile options source = .ok code)
      (created : (disk.createAll dir).run s = (.ok (), s₁))
      (written : (disk.writeText (outputPath input dir) (code ++ ['\n'])).run s₁
        = (.ok (), s')) :
      BuildRun disk input dir flags s (.ok (outputPath input dir)) s'

/-- The runs of a build are those of `BuildRun`. -/
theorem build_run (lawful : disk.Lawful view) {input : Text}
    {outDir : Option Text} {flags : Overrides} {s s' : σ}
    {result : Except CommandError Text}
    (h : (build disk input outDir flags).run.run s = (result, s')) :
    BuildRun disk input (outDir.getD defaultOutDir) flags s result s' := by
  unfold build at h
  -- up to the component nothing changes: every state on the way is `s`
  obtain ⟨e, hread, rfl⟩ | ⟨source, s₁, hread, hread_on⟩ :=
    CommandError.run_guard_bind_cases h
  · obtain rfl := lawful.eq_of_read hread
    exact .unread (by rw [hread])
  obtain rfl := lawful.eq_of_read hread
  obtain ⟨e, hoptions, rfl⟩ | ⟨options, s₁, hoptions, hoptions_on⟩ :=
    run_bind_cases hread_on
  · obtain rfl := lawful.eq_of_buildOptions hoptions
    exact .unresolved (by rw [hoptions])
  obtain rfl := lawful.eq_of_buildOptions hoptions
  have inputs : BuildInputs disk input flags s source options :=
    ⟨by rw [hread], by rw [hoptions]⟩
  obtain ⟨e, hpure, rfl⟩ | ⟨code, s₁, hpure, hcode⟩ :=
    CommandError.run_guard_bind_cases hoptions_on
  · obtain ⟨hcompile, rfl⟩ := Prod.mk.inj hpure
    exact .uncompiled inputs hcompile
  obtain ⟨hcompile, rfl⟩ := Prod.mk.inj hpure
  -- the directory is made before the write is tried, and stays if that fails
  obtain ⟨e, hcreate, rfl⟩ | ⟨_, s₁, hcreate, hcreated⟩ :=
    CommandError.run_guard_bind_cases hcode
  · exact .uncreated inputs hcompile hcreate
  obtain ⟨e, hwrite, rfl⟩ | ⟨_, s₂, hwrite, hwritten⟩ :=
    CommandError.run_guard_bind_cases hcreated
  · exact .unwritten inputs hcompile hcreate hwrite
  · cases hwritten
    exact .written inputs hcompile hcreate hwrite

namespace BuildRun

variable {input dir : Text} {flags : Overrides} {s s' : σ}

/-- A build that fails has changed no file. -/
theorem file?_of_error (lawful : disk.Lawful view) {e : CommandError}
    (run : BuildRun disk input dir flags s (.error e) s') (p : place) :
    view.file? s' p = view.file? s p := by
  cases run with
  | unread => rfl
  | unresolved => rfl
  | uncompiled => rfl
  | uncreated _ _ created =>
      have hcreate := lawful.create dir s p
      rwa [created] at hcreate
  | unwritten _ _ created written =>
      have hcreate := lawful.create dir s p
      rw [created] at hcreate
      exact (lawful.writeError _ _ _ _ _ written p).trans hcreate

/-- A build that succeeds has written its component and changed no other
file. -/
theorem file?_of_ok (lawful : disk.Lawful view) {output : Text}
    (run : BuildRun disk input dir flags s (.ok output) s') :
    ∃ source options code p, BuildInputs disk input flags s source options
      ∧ view.Holds s input source
      ∧ compile options source = .ok code
      ∧ view.place? s' output = some p
      ∧ view.file? s' p = some (String.ofList (code ++ ['\n'])).toUTF8
      ∧ ∀ q, q ≠ p → view.file? s' q = view.file? s q := by
  cases run with
  | written inputs compiled created written =>
      obtain ⟨p, hplace, hfile, hothers⟩ := lawful.writeOk _ _ _ _ written
      have hholds := lawful.readOk _ _ _ inputs.read
      refine ⟨_, _, _, p, inputs, hholds, compiled, hplace, hfile, ?_⟩
      intro q hq
      have hcreate := lawful.create dir s q
      rw [created] at hcreate
      exact (hothers q hq).trans hcreate

/-- A build fails for what is wrong with the template, if anything is. -/
theorem eq_of_compile_error {result : Except CommandError Text}
    (run : BuildRun disk input dir flags s result s') {source : Text}
    {options : Options} (inputs : BuildInputs disk input flags s source options)
    {e : TemplateError} (h : compile options source = .error e) :
    result = .error ⟨.compiling input, templateCause source e⟩ := by
  cases run with
  | unread read => cases read.symm.trans inputs.read
  | unresolved unresolved => cases unresolved.symm.trans inputs.options
  | uncompiled inputs' compiled =>
      obtain ⟨rfl, rfl⟩ := inputs.unique inputs'
      cases h.symm.trans compiled
      rfl
  | uncreated inputs' compiled =>
      obtain ⟨rfl, rfl⟩ := inputs.unique inputs'
      cases h.symm.trans compiled
  | unwritten inputs' compiled =>
      obtain ⟨rfl, rfl⟩ := inputs.unique inputs'
      cases h.symm.trans compiled
  | written inputs' compiled =>
      obtain ⟨rfl, rfl⟩ := inputs.unique inputs'
      cases h.symm.trans compiled

end BuildRun

/-- Options have no part in whether a template compiles. -/
theorem compile_eq_error_iff {options : Options} {source : Text}
    {e : TemplateError} :
    compile options source = .error e ↔ parse source = .error e := by
  unfold compile
  cases parse source with
  | error e' => simp [Except.map]
  | ok nodes => simp [Except.map]

/-- The faults for which a build fails in compiling. -/
theorem build_compiling_iff (lawful : disk.Lawful view) {input : Text}
    (outDir : Option Text) {flags : Overrides} {s : σ} {source : Text}
    {options : Options} (inputs : BuildInputs disk input flags s source options)
    (cause : Cause) :
    (∃ e s', (build disk input outDir flags).run.run s = (.error e, s')
        ∧ e.step = .compiling input ∧ e.cause = cause)
      ↔ ∃ fault, parse source = .error fault
        ∧ cause = templateCause source fault := by
  constructor
  · rintro ⟨e, s', hbuild, hstep, rfl⟩
    cases build_run lawful hbuild with
    | unread => cases hstep
    | unresolved unresolved => cases unresolved.symm.trans inputs.options
    | uncompiled inputs' compiled =>
        obtain ⟨rfl, rfl⟩ := inputs.unique inputs'
        exact ⟨_, compile_eq_error_iff.1 compiled, rfl⟩
    | uncreated => cases hstep
    | unwritten => cases hstep
  · rintro ⟨fault, hparse, rfl⟩
    have hresult : ((build disk input outDir flags).run.run s).1
        = .error ⟨.compiling input, templateCause source fault⟩ :=
      (build_run lawful rfl).eq_of_compile_error inputs
        (compile_eq_error_iff.2 hparse)
    exact ⟨_, _, Prod.ext hresult rfl, rfl, rfl⟩

-- =========================================================== checking

/-- A check ends where it started, with what it finds in the template. -/
theorem check_run (lawful : disk.Lawful view) {input : Text} {s s' : σ}
    {result : Except CommandError Nat}
    (h : (check disk input).run.run s = (result, s')) :
    s = s' ∧ ∀ source, ((disk.readText input).run s).1 = .ok source →
      result = ((parse source).map List.length).mapError
        fun e => ⟨.checking input, templateCause source e⟩ := by
  unfold check at h
  obtain ⟨e, hread, rfl⟩ | ⟨source, s₁, hread, hread_on⟩ :=
    CommandError.run_guard_bind_cases h
  · refine ⟨lawful.eq_of_read hread, ?_⟩
    intro source hsource
    rw [hread] at hsource
    cases hsource
  obtain rfl := lawful.eq_of_read hread
  have hresult : s = s' ∧ result = ((parse source).map List.length).mapError
      fun e => ⟨.checking input, templateCause source e⟩ := by
    obtain ⟨e, hpure, rfl⟩ | ⟨nodes, s₁, hpure, hnodes⟩ :=
      CommandError.run_guard_bind_cases hread_on
    · obtain ⟨hparse, rfl⟩ := Prod.mk.inj hpure
      rw [hparse]
      exact ⟨rfl, rfl⟩
    · obtain ⟨hparse, rfl⟩ := Prod.mk.inj hpure
      cases hnodes
      rw [hparse]
      exact ⟨rfl, rfl⟩
  refine ⟨hresult.1, ?_⟩
  intro source' hsource
  rw [hread] at hsource
  cases hsource
  exact hresult.2

/-- The faults for which a check fails. -/
theorem check_fails_iff (lawful : disk.Lawful view) {input : Text} {s : σ}
    {source : Text} (hread : ((disk.readText input).run s).1 = .ok source)
    (cause : Cause) :
    (∃ e s', (check disk input).run.run s = (.error e, s') ∧ e.cause = cause)
      ↔ ∃ fault, parse source = .error fault
        ∧ cause = templateCause source fault := by
  have hresult : ((check disk input).run.run s).1
      = ((parse source).map List.length).mapError
      fun e => ⟨.checking input, templateCause source e⟩ :=
        (check_run lawful rfl).2 source hread
  constructor
  · rintro ⟨e, s', hcheck, rfl⟩
    rw [hcheck] at hresult
    cases hparse : parse source with
    | error fault =>
        rw [hparse] at hresult
        cases hresult
        exact ⟨fault, rfl, rfl⟩
    | ok nodes =>
        rw [hparse] at hresult
        cases hresult
  · rintro ⟨fault, hparse, rfl⟩
    rw [hparse] at hresult
    exact ⟨_, _, Prod.ext hresult rfl, rfl⟩

-- ========================================================== atomicity

/-- Building is atomic on files and agrees with checking. A build that
fails leaves every file as it was. One that succeeds leaves the component
of what the file of the template held, and a newline, in the file at the
path it gives, and every other file as it was. A check changes nothing. For
a template that can be read and options that can be found, a build fails in
compiling if and only if a check fails, for the same reason. -/
theorem build_atomic (lawful : disk.Lawful view) (input : Text)
    (outDir : Option Text) (flags : Overrides) (s : σ) :
    (∀ e s', (build disk input outDir flags).run.run s = (.error e, s') →
        ∀ p, view.file? s' p = view.file? s p)
      ∧ (∀ output s', (build disk input outDir flags).run.run s
        = (.ok output, s') →
        ∃ source options code p, BuildInputs disk input flags s source options
          ∧ view.Holds s input source
          ∧ compile options source = .ok code
          ∧ view.place? s' output = some p
          ∧ view.file? s' p = some (String.ofList (code ++ ['\n'])).toUTF8
          ∧ ∀ q, q ≠ p → view.file? s' q = view.file? s q)
      ∧ ((check disk input).run.run s).2 = s
      ∧ ∀ source options, BuildInputs disk input flags s source options
        → ∀ cause,
        (∃ e s', (build disk input outDir flags).run.run s = (.error e, s')
            ∧ e.step = .compiling input ∧ e.cause = cause)
          ↔ ∃ e s', (check disk input).run.run s = (.error e, s')
            ∧ e.cause = cause := by
  refine ⟨?_, ?_, ?_, ?_⟩
  · intro e s' hbuild
    exact (build_run lawful hbuild).file?_of_error lawful
  · intro output s' hbuild
    exact (build_run lawful hbuild).file?_of_ok lawful
  · exact (check_run lawful rfl).1.symm
  · intro source options inputs cause
    rw [build_compiling_iff lawful outDir inputs,
      check_fails_iff lawful inputs.read]

/-- A tree with one page in its working directory. -/
def FileTree.onePage : FileTree :=
  fresh.put ["work".toList, "p.html".toList] (.file "<p>hi</p>".toUTF8)

/-- A page is built into a directory that is not there yet: the file at
`out/p.js` holds its component, and the page is as it was. -/
theorem build_atomic_page :
    ∃ t', (build FileTree.disk "p.html".toList (some "out".toList) {}).run.run
      FileTree.onePage
        = (.ok "out/p.js".toList, t')
      ∧ (∃ source options code,
        BuildInputs FileTree.disk "p.html".toList
          {} FileTree.onePage source options
        ∧ FileTree.view.Holds FileTree.onePage "p.html".toList source
        ∧ compile options source = .ok code
        ∧ FileTree.view.file? t' ["work".toList, "out".toList, "p.js".toList]
          = some (String.ofList (code ++ ['\n'])).toUTF8)
      ∧ FileTree.view.file? t' ["work".toList, "p.html".toList]
        = some "<p>hi</p>".toUTF8 := by
  obtain ⟨-, hatomic, -⟩ :=
    build_atomic FileTree.disk_lawful "p.html".toList (some "out".toList)
      {} FileTree.onePage
  have hdecided :
      ((build FileTree.disk "p.html".toList (some "out".toList) {}).run.run
          FileTree.onePage).1.toOption = some "out/p.js".toList
        ∧ FileTree.view.place?
          ((build FileTree.disk "p.html".toList (some "out".toList) {}).run.run
            FileTree.onePage).2 "out/p.js".toList
          = some ["work".toList, "out".toList, "p.js".toList] := by
    decide +kernel
  cases hrun : (build FileTree.disk "p.html".toList (some "out".toList)
      {}).run.run FileTree.onePage with
  | mk result t' =>
      rw [hrun] at hdecided
      obtain ⟨hresult, hplace⟩ := hdecided
      cases result with
      | error e => cases hresult
      | ok output =>
          cases hresult
          obtain ⟨source, options, code, p, inputs, hholds, hcompile, hp, hfile,
              hothers⟩ :=
            hatomic _ _ hrun
          cases hplace.symm.trans hp
          refine ⟨t', rfl, ⟨source, options, code, inputs, hholds, hcompile,
            hfile⟩, ?_⟩
          rw [hothers _ (by decide)]
          rfl

end Stencil
