/-
Output as nested calls. Every tag becomes a call with three arguments: the
tag, an object of its attributes or null, and the array of its children.
Three short names stand for the fragment, the function of an inner tag and
the function of the root; the statements before the expression say what
they are.

`Node.calls` says what the expression of a node is, with columns of any
size. It is printed by `Node.callPieces`, in pieces that follow each other
and with the columns of some arithmetic. As long as that is exact for the
levels of the tree, the pieces make up the expression
(`Node.callPieces_prints`).
-/
import Stencil.Template.Node
import Stencil.Interpolation.Expression
import Stencil.Output.Columns
import Stencil.Output.Markup

namespace Stencil

-- ============================================================= aliases

/-- What the short names in nested calls stand for. -/
structure CallNames where
  fragment : Text := "React.Fragment".toList
  jsx : Text := "React.createElement".toList
  jsxs : Text := "React.createElement".toList
  deriving DecidableEq, Repr

/-- The short name of the fragment. -/
def fragmentAlias : Text := "frg"

/-- The short name of the function of a tag; the root has one of its own. -/
def functionAlias (isRoot : Bool) : Text := if isRoot then "jsxs" else "jsx"

/-- The statement that makes a short name stand for `value`. -/
def aliasStatement (pretty : Bool) (column : Nat) (short value : Text) : Text :=
  let style : Style := ⟨pretty, 0⟩
  style.lead column ++ "const ".toList ++ short ++ style.space ++ ['=']
    ++ style.space ++ value ++ [';']

/-- The statements that define the short names. -/
def CallNames.statements (names : CallNames) (pretty : Bool)
    (column : Nat) : Text :=
  aliasStatement pretty column fragmentAlias names.fragment
    ++ aliasStatement pretty column (functionAlias false) names.jsx
    ++ aliasStatement pretty column (functionAlias true) names.jsxs

-- =========================================================== arguments

/-- The tag as an argument. -/
def Name.argument : Name → Text
  | .literal t => t.quote
  | .fragment _ => fragmentAlias
  | name => name.bound?.getD name.raw

/-- The key of an attribute: quoted unless it is a variable name. -/
def attributeKey (name : Text) : Text :=
  if isVariableName name then name else name.quote

/-- One attribute as an entry of an object. -/
def Attribute.entry (style : Style) (a : Attribute) : Text :=
  let mode : ExpressionMode := ⟨false, true, true, style.pretty⟩
  attributeKey a.name ++ [':'] ++ style.space ++ expression mode a.value

/-- Items between two brackets, one to a line where there are lines. The
closing bracket stands at `column`, the items one step further in. -/
def spread (style : Style) (column : Nat) (items : List Text) : Text :=
  let lead := style.lead (column + style.step)
  lead ++ (',' :: lead).intercalate items ++ style.lead column

/-- The attributes of a tag at `column` as an argument. -/
def Attribute.argument (style : Style) (column : Nat)
    (attributes : List Attribute) : Text :=
  if attributes.isEmpty then "null"
  else
    let entries := attributes.map (Attribute.entry style)
    if style.pretty && Style.attributeWidth < Text.byteSize entries.flatten then
      '{' :: (spread style column entries ++ ['}'])
    else
      '{' :: (style.space ++ (',' :: style.space).intercalate entries
        ++ style.space ++ ['}'])

/-- The children of a tag at `column` as an argument. -/
def childrenArgument (style : Style) (column : Nat)
    (items : List Text) : Text :=
  if items.isEmpty then "[]" else ['['] ++ spread style column items ++ [']']

/-- The call for a tag at `column`, up to its last argument. -/
def callHead (style : Style) (column : Nat) (isRoot : Bool) (name : Name)
    (attributes : List Attribute) : Text :=
  functionAlias isRoot ++ ['('] ++ name.argument ++ [','] ++ style.space
    ++ Attribute.argument style column attributes ++ [','] ++ style.space

-- =============================================================== nodes

mutual

/-- The expression of a node whose line starts at `column`. -/
def Node.calls (style : Style) (column : Nat) (isRoot : Bool) : Node → Text
  | .comment _ => []
  | .text value => expression ⟨false, true, false, style.pretty⟩ value
  | .element name attributes children =>
    callHead style column isRoot name attributes
      ++ childrenArgument style column
        (Node.callsList style (column + style.step) children)
      ++ [')']
  | .selfClosing name attributes =>
    callHead style column isRoot name attributes
      ++ childrenArgument style column [] ++ [')']

/-- The expressions of some inner nodes; one without an expression is left
out. -/
def Node.callsList (style : Style) (column : Nat) : List Node → List Text
  | [] => []
  | node :: nodes =>
    let item := node.calls style column false
    if item.isEmpty then Node.callsList style column nodes
    else item :: Node.callsList style column nodes

end

-- ============================================================ printing

section Printing

variable {m : Type → Type} [Monad m] (c : Columns m) (style : Style)

/-- Items in pieces between two brackets, one to a line at `inner` where
there are lines. The column of the closing bracket is one step back. -/
def spreadPieces (inner : Nat) (opening closing : Char)
    (items : List (List Text)) :
    m (List Text) := do
  let outer ← if style.pretty then c.sub inner style.step else pure inner
  let lead := style.lead inner
  return (opening :: lead) ::
    ([',' :: lead].intercalate items ++ [style.lead outer ++ [closing]])

/-- The attributes of a tag in pieces; those on lines of their own are at
`inner`. -/
def Attribute.pieces (inner : Nat) (attributes : List Attribute) :
    m (List Text) :=
  let entries := attributes.map (Attribute.entry style)
  if style.pretty && Style.attributeWidth < Text.byteSize entries.flatten then
    spreadPieces c style inner '{' '}' (entries.map fun entry => [entry])
  else
    -- on the line of the tag there is no column to find
    pure [Attribute.argument style inner attributes]

/-- The children of a tag in pieces, given the pieces of each. -/
def childrenPieces (inner : Nat) (items : List (List Text)) : m (List Text) :=
  if items.isEmpty then pure ["[]".toList]
  else spreadPieces c style inner '[' ']' items

/-- The call for a tag at `column`, up to its last argument, in pieces. -/
def callHeadPieces (column : Nat) (isRoot : Bool) (name : Name)
    (attributes : List Attribute) : m (List Text) := do
  let inner ← c.add column style.step
  let object ← Attribute.pieces c style inner attributes
  return (functionAlias isRoot ++ ['('] ++ name.argument ++ [',']
    ++ style.space) ::
    (object ++ [',' :: style.space])

mutual

/-- The expression of a node in pieces. A level of the tree joins the pieces
of the levels below it, not their texts, so that each text is copied
once. -/
def Node.callPieces (column : Nat) (isRoot : Bool) : Node → m (List Text)
  | .comment _ => pure []
  | .text value => pure [expression ⟨false, true, false, style.pretty⟩ value]
  | .element name attributes children => do
    let inner ← c.add column style.step
    let items ← Node.callPiecesList inner children
    let content ← childrenPieces c style inner items
    let head ← callHeadPieces c style column isRoot name attributes
    return head ++ (content ++ [[')']])
  | .selfClosing name attributes => do
    let head ← callHeadPieces c style column isRoot name attributes
    return head ++ ["[]".toList, [')']]

/-- The expressions of some inner nodes, each in pieces; one without an
expression is left out. -/
def Node.callPiecesList (column : Nat) : List Node → m (List (List Text))
  | [] => pure []
  | node :: nodes => do
    let item ← Node.callPieces column false node
    let items ← Node.callPiecesList column nodes
    return if item.all List.isEmpty then items else item :: items

end

/-- The body that returns a root as nested calls, its expression at
`column`, by some arithmetic of columns. -/
def callBodyWith (column : Nat) (names : CallNames) (root : Node) :
    m FunctionBody := do
  let pieces ← root.asRoot.callPieces c style column true
  return ⟨names.statements style.pretty column, pieces.flatten⟩

end Printing

/-- The body that returns a root as nested calls, its expression at
`column`. -/
def callBody (style : Style) (column : Nat) (names : CallNames) (root : Node) :
    FunctionBody :=
  (callBodyWith .exact style column names root).run

-- ======================================================= what is printed

mutual

/-- How many levels of tags a node has. -/
def Node.levels : Node → Nat
  | .text _ | .comment _ => 0
  | .element _ _ children => Node.levelsList children + 1
  | .selfClosing _ _ => 1

/-- How many levels of tags some nodes have. -/
def Node.levelsList : List Node → Nat
  | [] => 0
  | node :: nodes => max node.levels (Node.levelsList nodes)

end

/-- Pieces between separators make up their texts between separators. -/
theorem flatten_intercalate_pieces (separator : Text)
    (items : List (List Text)) :
    ([separator].intercalate items).flatten
      = separator.intercalate (items.map List.flatten) := by
  induction items with
  | nil => rfl
  | cons item items ih =>
    cases items with
    | nil => simp
    | cons next items =>
      simp only [List.map_cons, List.intercalate_cons_cons] at ih ⊢
      simp [ih]

/-- Pieces make up nothing if each is empty. -/
theorem isEmpty_flatten_pieces (pieces : List Text) :
    pieces.flatten.isEmpty = pieces.all List.isEmpty := by
  induction pieces with
  | nil => rfl
  | cons piece pieces ih => cases piece <;> simp [ih]

section Prints

variable {m : Type → Type} [Monad m] [LawfulMonad m] {c : Columns m}
  {style : Style} {column n : Nat}

/-- All columns of a printer are found, and its pieces make up a text. -/
def Prints (printer : m (List Text)) (t : Text) : Prop :=
  ∃ pieces, printer = pure pieces ∧ pieces.flatten = t

omit [LawfulMonad m] in
theorem Prints.pure (pieces : List Text) :
    Prints (Pure.pure pieces : m (List Text)) pieces.flatten :=
  ⟨pieces, rfl, rfl⟩

theorem spreadPieces_prints (h : c.ExactFor style.step column n) (hn : 0 < n)
    (opening closing : Char) (items : List (List Text)) :
    Prints (spreadPieces c style (column + style.step) opening closing items)
      (opening :: (spread style column (items.map List.flatten)
        ++ [closing])) := by
  unfold spreadPieces
  split
  · rw [h.sub hn, pure_bind]
    exact ⟨_, rfl, by simp [spread, flatten_intercalate_pieces]⟩
  · next hline =>
    rw [pure_bind]
    refine ⟨_, rfl, ?_⟩
    simp [spread, flatten_intercalate_pieces, Style.lead, hline]

theorem Attribute.pieces_prints (h : c.ExactFor style.step column n)
    (hn : 0 < n) (as : List Attribute) :
    Prints (Attribute.pieces c style (column + style.step) as)
      (Attribute.argument style column as) := by
  unfold Attribute.pieces
  simp only
  split
  · next hwide =>
    have hne : as.isEmpty = false := by
      cases as with
      | nil => simp at hwide
      | cons a as => rfl
    have hprints := spreadPieces_prints h hn '{' '}'
      ((as.map (Attribute.entry style)).map fun entry => [entry])
    simpa [Attribute.argument, hne, hwide, Function.comp_def] using hprints
  · next hwide =>
    refine ⟨_, rfl, ?_⟩
    simp [Attribute.argument, hwide]

theorem childrenPieces_prints (h : c.ExactFor style.step column n) (hn : 0 < n)
    (items : List (List Text)) :
    Prints (childrenPieces c style (column + style.step) items)
      (childrenArgument style column (items.map List.flatten)) := by
  unfold childrenPieces childrenArgument
  cases items with
  | nil => exact .pure _
  | cons item items => exact spreadPieces_prints h hn '[' ']' (item :: items)

theorem callHeadPieces_prints (h : c.ExactFor style.step column n) (hn : 0 < n)
    (isRoot : Bool) (name : Name) (as : List Attribute) :
    Prints (callHeadPieces c style column isRoot name as)
      (callHead style column isRoot name as) := by
  obtain ⟨object, hobject, htext⟩ := Attribute.pieces_prints h hn as
  rw [callHeadPieces, h.add hn, pure_bind, hobject, pure_bind]
  exact ⟨_, rfl, by simp [callHead, htext]⟩

mutual

/-- With arithmetic that is exact for the levels of a node its expression is
printed. -/
theorem Node.callPieces_prints (node : Node) {column : Nat}
    (h : c.ExactFor style.step column node.levels) (isRoot : Bool) :
    Prints (node.callPieces c style column isRoot)
      (node.calls style column isRoot) := by
  cases node with
  | comment _ => exact ⟨[], by rw [callPieces], by rw [calls]; rfl⟩
  | text value => exact ⟨_, by rw [callPieces], by simp [calls]⟩
  | selfClosing name as =>
    rw [levels] at h
    obtain ⟨head, hhead, htext⟩ :=
      callHeadPieces_prints h Nat.one_pos isRoot name as
    rw [callPieces, hhead, pure_bind]
    exact ⟨_, rfl, by simp [calls, childrenArgument, htext]⟩
  | element name as children =>
    rw [levels] at h
    have hpos : 0 < levelsList children + 1 := Nat.succ_pos _
    obtain ⟨items, hitems, htexts⟩ :=
      Node.callPiecesList_prints children h.inner
    obtain ⟨content, hcontent, hargument⟩ := childrenPieces_prints h hpos items
    obtain ⟨head, hhead, htext⟩ := callHeadPieces_prints h hpos isRoot name as
    rw [callPieces, h.add hpos, pure_bind, hitems, pure_bind, hcontent,
      pure_bind, hhead, pure_bind]
    exact ⟨_, rfl, by simp [calls, htext, hargument, htexts]⟩

theorem Node.callPiecesList_prints (nodes : List Node) {column : Nat}
    (h : c.ExactFor style.step column (levelsList nodes)) :
    ∃ items, Node.callPiecesList c style column nodes = pure items
      ∧ items.map List.flatten = Node.callsList style column nodes := by
  cases nodes with
  | nil => exact ⟨[], by rw [callPiecesList], by rw [callsList]; rfl⟩
  | cons node nodes =>
    rw [levelsList] at h
    obtain ⟨item, hitem, htext⟩ :=
      Node.callPieces_prints node (h.mono (Nat.le_max_left ..)) false
    obtain ⟨items, hitems, htexts⟩ :=
      Node.callPiecesList_prints nodes (h.mono (Nat.le_max_right ..))
    rw [callPiecesList, hitem, pure_bind, hitems, pure_bind]
    refine ⟨_, rfl, ?_⟩
    simp only [callsList, ← isEmpty_flatten_pieces, htext]
    split
    · exact htexts
    · rw [List.map_cons, htext, htexts]

end

/-- With arithmetic that is exact for the levels of a root its body is that
of exact arithmetic. -/
theorem callBodyWith_eq (root : Node)
    (h : c.ExactFor style.step column root.asRoot.levels) (names : CallNames) :
    callBodyWith c style column names root
      = pure ⟨names.statements style.pretty column,
        root.asRoot.calls style column true⟩ := by
  obtain ⟨pieces, hpieces, htext⟩ := root.asRoot.callPieces_prints h true
  rw [callBodyWith, hpieces, pure_bind, htext]

end Prints

theorem callBody_eq (style : Style) (column : Nat) (names : CallNames)
    (root : Node) :
    callBody style column names root
      = ⟨names.statements style.pretty column,
        root.asRoot.calls style column true⟩ := by
  rw [callBody, callBodyWith_eq root (Columns.exactFor_exact _ _ _)]
  rfl

end Stencil
