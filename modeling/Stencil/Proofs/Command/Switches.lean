/-
Switches that are in effect already. A switch of a build asks for nested
calls, for a layout or for white space to be kept, and options may do that
without it. Then the switch changes nothing, with one exception: it asks
for nested calls by their default names, and so takes away the names that
the options give (`build_switch_iff`, `switch_drops_names`).

# From flags to the component

A switch among the flags sets one option of what the other flags come to
(`Overrides.apply_turnOn`). A component is made from four facts about the
options: the name, the layout, the names of calls, and whether white space
is kept. A switch in effect leaves these alone, the names of calls apart.
Names other than the default ones always show, in the statements that the
body starts with: each ends with a semicolon, which the default names do
not hold (`CallNames.eq_of_statements`).
-/
import Stencil.Command.Arguments
import Stencil.Proofs.Command.Atomicity
import Stencil.Proofs.Text.Scan

namespace Stencil

-- ============================================================ switches

namespace Switch

/-- The flags with a switch among them. -/
def turnOn (flags : Overrides) : Switch → Overrides
  | .jsx => { flags with jsx := true }
  | .pretty => { flags with pretty := true }
  | .preserveWhitespace => { flags with preserveWhitespace := true }

/-- Whether options do what a switch asks for. -/
def InEffect (o : Options) : Switch → Prop
  | .jsx => o.jsx.callNames?.isSome
  | .pretty => o.pretty.layout?.isSome
  | .preserveWhitespace => o.preserveWhitespace

/-- The options with a switch on: nested calls by their default names, the
layout that there is or the default one, white space kept. -/
def set (o : Options) : Switch → Options
  | .jsx => o.withJsx true
  | .pretty =>
    let layout := o.pretty.layout?.getD {}
    o.withIndent layout.initialIndent layout.indentSize
  | .preserveWhitespace => o.withPreserveWhitespace true

end Switch

/-- The options under the flags, field by field. -/
theorem Overrides.apply_eq (flags : Overrides) (o : Options) :
    flags.apply o =
      { componentName := flags.name.getD o.componentName
        pretty :=
          if flags.pretty || flags.indentSize.isSome
            || flags.initialIndent.isSome then
            .layout ⟨flags.initialIndent.getD
              (o.pretty.layout?.getD {}).initialIndent,
                flags.indentSize.getD (o.pretty.layout?.getD {}).indentSize⟩
          else o.pretty
        jsx := if flags.jsx then .flag true else o.jsx
        preserveWhitespace :=
          flags.preserveWhitespace || o.preserveWhitespace } := by
  obtain ⟨optionsFile, name, jsx, pretty, indentSize, initialIndent, keep⟩ :=
    flags
  unfold Overrides.apply Overrides.applyLayout
  by_cases hlayout : (pretty || indentSize.isSome || initialIndent.isSome)
    = true
  · simp only [hlayout, if_true]
    cases name <;> cases jsx <;> cases keep <;> rfl
  · simp only [hlayout, Bool.false_eq_true, if_false]
    cases name <;> cases jsx <;> cases keep <;> rfl

/-- A switch among the flags acts on what the other flags come to. -/
theorem Overrides.apply_turnOn (flags : Overrides) (on : Switch) (o : Options) :
    (on.turnOn flags).apply o = on.set (flags.apply o) := by
  obtain ⟨optionsFile, name, jsx, pretty, indentSize, initialIndent, keep⟩ :=
    flags
  rw [Overrides.apply_eq, Overrides.apply_eq]
  cases on with
  | jsx => rfl
  | preserveWhitespace => rfl
  | pretty =>
      by_cases hlayout : (pretty || indentSize.isSome || initialIndent.isSome)
        = true
      · simp only [Switch.set, hlayout, if_true]
        rfl
      · simp only [Switch.set, hlayout, Bool.false_eq_true, if_false]
        simp only [Bool.or_eq_true, not_or,
          Option.not_isSome_iff_eq_none] at hlayout
        obtain ⟨⟨-, hsize⟩, hinitial⟩ := hlayout
        rw [hsize, hinitial]
        rfl

-- ========================================================== components

/-- What a component is made from, the nodes apart. -/
theorem component_eq_of_same {o o' : Options}
    (name : o.componentName = o'.componentName)
    (layout : o.pretty.layout? = o'.pretty.layout?)
    (calls : o.jsx.callNames? = o'.jsx.callNames?)
    (space : o.preserveWhitespace = o'.preserveWhitespace) (nodes : List Node) :
    component o nodes = component o' nodes := by
  have hkeeps : o.keepsWhitespace = o'.keepsWhitespace := by
    rw [Options.keepsWhitespace, Options.keepsWhitespace, space, layout, calls]
  rw [component, component, name, layout, calls, hkeeps]

theorem component_set {on : Switch} {o : Options} (effect : on.InEffect o)
    (names : on = .jsx → o.jsx.callNames? = some {}) (nodes : List Node) :
    component (on.set o) nodes = component o nodes := by
  cases on with
  | jsx =>
      apply component_eq_of_same
      · rfl
      · rfl
      · exact (names rfl).symm
      · rfl
  | pretty =>
      obtain ⟨layout, hlayout⟩ := Option.isSome_iff_exists.1 effect
      apply component_eq_of_same
      · rfl
      · simp only [Switch.set, hlayout, Option.getD_some]
        rfl
      · rfl
      · rfl
  | preserveWhitespace =>
      have heffect : o.preserveWhitespace = true := effect
      apply component_eq_of_same
      · rfl
      · rfl
      · rfl
      · exact heffect.symm

-- =============================================================== names

theorem count_aliasStatement (pretty : Bool) (column : Nat)
    (short value : Text) :
    (aliasStatement pretty column short value).count ';'
      = short.count ';' + (value.count ';' + 1) := by
  have hspaces : (Text.spaces column).count ';' = 0 := by
    rw [Text.spaces, List.count_replicate]
    rfl
  cases pretty with
  | true =>
      simp [aliasStatement, Style.lead, Style.newline, Style.space, hspaces]
  | false => simp [aliasStatement, Style.lead, Style.space]

/-- A statement ends with its semicolon, so that what it defines can be told
from what follows. -/
theorem aliasStatement_append {pretty : Bool} {column : Nat}
    {short value value' r r' : Text}
    (h : aliasStatement pretty column short value ++ r
      = aliasStatement pretty column short value' ++ r')
    (hvalue : value.count ';' = 0) (hvalue' : value'.count ';' = 0) :
    value = value' ∧ r = r' := by
  have hsame : value ++ ';' :: r = value' ++ ';' :: r' := by
    simpa [aliasStatement] using h
  have hcut :=
    (Text.scan_mark_iff ';' _ value r).2 ⟨rfl, List.count_eq_zero.1 hvalue⟩
  have hcut' :=
    (Text.scan_mark_iff ';' _ value' r').2 ⟨hsame, List.count_eq_zero.1 hvalue'⟩
  exact ⟨hcut.1.symm.trans hcut'.1,
    (List.cons.inj (hcut.2.symm.trans hcut'.2)).2⟩

/-- No other names define the short names as the default ones do. -/
theorem CallNames.eq_of_statements {names : CallNames} {pretty : Bool}
    {column : Nat}
    (h : names.statements pretty column
      = ({} : CallNames).statements pretty column) :
    names = {} := by
  obtain ⟨fragment, jsx, jsxs⟩ := names
  have hcount := congrArg (List.count ';') h
  simp only [CallNames.statements, List.count_append,
    count_aliasStatement] at hcount
  have hfragment : "React.Fragment".toList.count ';' = 0 := by decide
  have hfunction : "React.createElement".toList.count ';' = 0 := by decide
  rw [hfragment, hfunction] at hcount
  simp only [CallNames.statements, List.append_assoc] at h
  obtain ⟨rfl, hrest⟩ := aliasStatement_append h (by omega) hfragment
  obtain ⟨rfl, hlast⟩ := aliasStatement_append hrest (by omega) hfunction
  obtain ⟨rfl, -⟩ :=
    aliasStatement_append (congrArg (· ++ []) hlast) (by omega) hfunction
  rfl

theorem statements_eq_of_functionAround {name : Text} {pretty : Bool}
    {outer inner : Nat} {body body' : FunctionBody}
    (h : functionAround name pretty outer inner body
      = functionAround name pretty outer inner body')
    (hresult : body.result = body'.result) :
    body.statements = body'.statements := by
  unfold functionAround at h
  rw [hresult] at h
  cases pretty with
  | true => simpa using h
  | false => simpa using h

/-- A component of nested calls. -/
theorem component_of_callNames? {o : Options} {names : CallNames}
    (h : o.jsx.callNames? = some names) (nodes : List Node) :
    let layout := o.pretty.layout?.getD {}
    component o nodes
      = functionAround o.componentName o.pretty.layout?.isSome
        layout.initialIndent
        (layout.initialIndent + layout.indentSize)
        (callBody ⟨o.pretty.layout?.isSome, layout.indentSize⟩
          (layout.initialIndent + layout.indentSize) names
          (normalRoot o.keepsWhitespace nodes)) := by
  simp only [component, h]

/-- Nested calls by other names than the default ones make another
component. -/
theorem callNames?_eq_of_component {o : Options} {names : CallNames}
    (hnames : o.jsx.callNames? = some names) {nodes : List Node}
    (h : component (o.withJsx true) nodes = component o nodes) :
    names = {} := by
  have hdefault : (o.withJsx true).jsx.callNames? = some {} := rfl
  have hkeeps : (o.withJsx true).keepsWhitespace = o.keepsWhitespace := by
    rw [Options.keepsWhitespace, Options.keepsWhitespace, hdefault, hnames]
    rfl
  rw [component_of_callNames? hdefault, component_of_callNames? hnames,
    hkeeps] at h
  have hstatements := statements_eq_of_functionAround h rfl
  exact CallNames.eq_of_statements hstatements.symm

-- ============================================================== builds

variable {σ place : Type} {disk : Disk (StateM σ)} {view : FileView σ place}

/-- A sequence of steps goes on from where the first one has led. -/
theorem run_bind_ok {α β : Type} {x : ExceptT CommandError (StateM σ) α}
    {f : α → ExceptT CommandError (StateM σ) β} {s s₁ : σ} {a : α}
    (h : x.run.run s = (.ok a, s₁)) :
    (x >>= f).run.run s = (f a).run.run s₁ := by
  rw [ExceptT.run_bind, StateT.run_bind, h]
  rfl

/-- A switch among the flags sets one of the options that a build finds. -/
theorem buildOptions_turnOn {input : Text} {flags : Overrides} {s s₁ : σ}
    {o : Options} (h : (buildOptions disk input flags).run.run s = (.ok o, s₁))
    (on : Switch) :
    (buildOptions disk input (on.turnOn flags)).run.run s
      = (.ok (on.set o), s₁) := by
  have hstart : startingOptions disk input (on.turnOn flags)
      = startingOptions disk input flags := by
    cases on <;> rfl
  obtain ⟨e, -, hfailed⟩ | ⟨base, s₂, hbase, hrest⟩ := run_bind_cases h
  · cases hfailed
  · cases hrest
    rw [buildOptions, hstart, run_bind_ok hbase, Overrides.apply_turnOn]
    rfl

/-- Two sequences that start alike and go on alike are alike. -/
theorem run_bind_congr {α β : Type} {x : ExceptT CommandError (StateM σ) α}
    {f f' : α → ExceptT CommandError (StateM σ) β} {s : σ}
    (h : ∀ a s₁, x.run.run s = (.ok a, s₁)
      → (f' a).run.run s₁ = (f a).run.run s₁) :
    (x >>= f').run.run s = (x >>= f).run.run s := by
  rw [ExceptT.run_bind, StateT.run_bind, ExceptT.run_bind, StateT.run_bind]
  cases hx : x.run.run s with
  | mk first s₁ =>
      cases first with
      | error e => rfl
      | ok a => exact h a s₁ hx

theorem Disk.Lawful.run_buildOptions (lawful : disk.Lawful view) {input : Text}
    {flags : Overrides} {s : σ} {o : Options}
    (h : ((buildOptions disk input flags).run.run s).1 = .ok o) :
    (buildOptions disk input flags).run.run s = (.ok o, s) := by
  cases hrun : (buildOptions disk input flags).run.run s with
  | mk result s₁ =>
      obtain rfl := lawful.eq_of_buildOptions hrun
      rw [hrun] at h
      exact congrArg (·, s) h

/-- Builds whose options make the same components are the same. -/
theorem build_eq_of_compile (lawful : disk.Lawful view) {input : Text}
    {flags flags' : Overrides} {s : σ} {o o' : Options}
    (h : (buildOptions disk input flags).run.run s = (.ok o, s))
    (h' : (buildOptions disk input flags').run.run s = (.ok o', s))
    (hcompile : ∀ source, compile o' source = compile o source)
    (outDir : Option Text) :
    (build disk input outDir flags').run.run s
      = (build disk input outDir flags).run.run s := by
  unfold build
  apply run_bind_congr
  intro source s₁ hread
  have hstate : s = s₁ := by
    rw [CommandError.run_guard] at hread
    exact (lawful.read input s).symm.trans (congrArg Prod.snd hread)
  subst hstate
  rw [run_bind_ok h', run_bind_ok h, hcompile]

/-- Two builds of one template that end alike have made the same component. -/
theorem compile_eq_of_build (lawful : disk.Lawful view) {input output : Text}
    {outDir : Option Text} {flags flags' : Overrides} {s s' : σ}
    {o o' : Options} (h : (buildOptions disk input flags).run.run s
      = (.ok o, s))
    (h' : (buildOptions disk input flags').run.run s = (.ok o', s))
    (hbuild : (build disk input outDir flags).run.run s = (.ok output, s'))
    (hbuild' : (build disk input outDir flags').run.run s = (.ok output, s')) :
    ∃ source code, compile o source = .ok code
      ∧ compile o' source = .ok code := by
  obtain ⟨source, o₁, code, p, inputs, -, hcode, hplace, hfile, -⟩ :=
    (build_run lawful hbuild).file?_of_ok lawful
  obtain ⟨source₂, o₂, code₂, p₂, inputs₂, -, hcode₂, hplace₂, hfile₂, -⟩ :=
    (build_run lawful hbuild').file?_of_ok lawful
  obtain rfl : o = o₁ := by simpa [h] using inputs.options
  obtain rfl : o' = o₂ := by simpa [h'] using inputs₂.options
  obtain rfl : source = source₂ :=
    Except.ok.inj (inputs.read.symm.trans inputs₂.read)
  obtain rfl : p = p₂ := Option.some.inj (hplace.symm.trans hplace₂)
  have hbytes := Option.some.inj (hfile.symm.trans hfile₂)
  have htexts := String.ofList_inj.1 (String.toByteArray_inj.1 hbytes)
  obtain rfl : code = code₂ := List.append_cancel_right htexts
  exact ⟨source, code, hcode, hcode₂⟩

/-- If the switch for nested calls leaves a build that succeeds as it is, the
names for nested calls are the default ones. -/
theorem callNames?_eq_of_build (lawful : disk.Lawful view) {input output : Text}
    {outDir : Option Text} {flags : Overrides} {s s' : σ} {o : Options}
    {names : CallNames}
    (hoptions : ((buildOptions disk input flags).run.run s).1 = .ok o)
    (hnames : o.jsx.callNames? = some names)
    (hbuild : (build disk input outDir flags).run.run s = (.ok output, s'))
    (hswitched : (build disk input outDir (Switch.jsx.turnOn flags)).run.run s
      = (.ok output, s')) : names = {} := by
  have hfound := lawful.run_buildOptions hoptions
  obtain ⟨source, code, hcode, hcode'⟩ :=
    compile_eq_of_build lawful hfound (buildOptions_turnOn hfound .jsx)
      hbuild hswitched
  unfold compile at hcode hcode'
  cases hparse : parse source with
  | error e =>
      rw [hparse] at hcode
      cases hcode
  | ok nodes =>
      rw [hparse] at hcode hcode'
      have hcomponent : component (o.withJsx true) nodes = component o nodes :=
        Except.ok.inj (hcode'.trans hcode.symm)
      exact callNames?_eq_of_component hnames hcomponent

/-- A switch that is in effect already, and a build with it. As long as the
switch is not the one for nested calls, or the options have the default names
for them, the build is the same in every respect. Of a build that succeeds
this is the only case: by any other names, the switch makes another
component. -/
theorem build_switch_iff (lawful : disk.Lawful view) {input : Text}
    (outDir : Option Text) {flags : Overrides} {s : σ} {o : Options}
    {on : Switch} (hoptions : ((buildOptions disk input flags).run.run s).1
      = .ok o) (effect : on.InEffect o) :
    ((on = .jsx → o.jsx.callNames? = some {}) →
        (build disk input outDir (on.turnOn flags)).run.run s
          = (build disk input outDir flags).run.run s)
      ∧ ∀ output s', (build disk input outDir flags).run.run s
        = (.ok output, s') →
        ((build disk input outDir (on.turnOn flags)).run.run s
          = (.ok output, s')
          ↔ (on = .jsx → o.jsx.callNames? = some {})) := by
  have hsame : (on = .jsx → o.jsx.callNames? = some {}) →
      (build disk input outDir (on.turnOn flags)).run.run s
        = (build disk input outDir flags).run.run s := by
    intro hnames
    have hfound := lawful.run_buildOptions hoptions
    apply build_eq_of_compile lawful hfound (buildOptions_turnOn hfound on)
    intro source
    unfold compile
    congr 1
    funext nodes
    exact component_set effect hnames nodes
  refine ⟨hsame, ?_⟩
  intro output s' hbuild
  constructor
  · intro hswitched hjsx
    subst hjsx
    obtain ⟨names, hnames⟩ := Option.isSome_iff_exists.1 effect
    rw [hnames, callNames?_eq_of_build lawful hoptions hnames hbuild hswitched]
  · intro hnames
    rw [hsame hnames, hbuild]

-- ============================================================ examples

/-- The tree with one page, and options for it in a file. -/
def FileTree.pageWithOptions (options : String) : FileTree :=
  onePage.put ["work".toList, "o.json".toList] (.file options.toUTF8)

/-- A build of the page with the options in the file. -/
def buildPage (flags : Overrides) (options : String) :
    Except CommandError Text × FileTree :=
  (build FileTree.disk "p.html".toList none flags).run.run
    (FileTree.pageWithOptions options)

/-- The flags that name the options file, and no others. -/
def fileFlags : Overrides := { optionsFile := some "o.json".toList }

/-- Options with a layout and a name for nested calls. -/
def layoutAndName : String :=
  "\x7b\"pretty\":4,\"jsx\":\x7b\"jsx\":\"h\"\x7d\x7d"

/-- Options with a name for nested calls. -/
def nameAlone : String := "\x7b\"jsx\":\x7b\"jsx\":\"h\"\x7d\x7d"

/-- The options have a layout and names for nested calls, and the switch for
a layout changes neither. -/
theorem build_switch_layout :
    Switch.pretty.InEffect
        { pretty := .indentSize 4, jsx := .names { jsx := "h".toList } }
      ∧ buildPage (Switch.pretty.turnOn fileFlags) layoutAndName
        = buildPage fileFlags layoutAndName := by
  have hoptions :
      ((buildOptions FileTree.disk "p.html".toList fileFlags).run.run
        (FileTree.pageWithOptions layoutAndName)).1
      = .ok
        { pretty := .indentSize 4, jsx := .names { jsx := "h".toList } } := by
    decide +kernel
  have heffect : Switch.pretty.InEffect
      { pretty := .indentSize 4, jsx := .names { jsx := "h".toList } } := rfl
  exact ⟨heffect,
    (build_switch_iff FileTree.disk_lawful none hoptions heffect).1 (by simp)⟩

/-- The options ask for nested calls by a name of their own. The switch for
nested calls is in effect, and the build that has it does not end as the one
without it. -/
theorem switch_drops_names :
    Switch.jsx.InEffect { jsx := .names { jsx := "h".toList } }
      ∧ ((buildOptions FileTree.disk "p.html".toList fileFlags).run.run
          (FileTree.pageWithOptions nameAlone)).1
        = .ok { jsx := .names { jsx := "h".toList } }
      ∧ ∃ output t, buildPage fileFlags nameAlone = (.ok output, t)
        ∧ buildPage (Switch.jsx.turnOn fileFlags) nameAlone
          ≠ (.ok output, t) := by
  have hoptions :
      ((buildOptions FileTree.disk "p.html".toList fileFlags).run.run
      (FileTree.pageWithOptions nameAlone)).1
        = .ok { jsx := .names { jsx := "h".toList } } := by
    decide +kernel
  have hbuilt : (buildPage fileFlags nameAlone).1
      = .ok "target/tplx-gen/p.js".toList := by
    decide +kernel
  refine ⟨rfl, hoptions, _, _, Prod.ext hbuilt rfl, ?_⟩
  intro hswitched
  have hnames := callNames?_eq_of_build FileTree.disk_lawful hoptions rfl
    (Prod.ext hbuilt rfl) hswitched
  exact absurd hnames (by decide)

end Stencil
