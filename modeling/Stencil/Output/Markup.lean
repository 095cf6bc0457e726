/-
Output as markup: tags, attributes and text written out much as the
template has them. Tags that come from properties are written by the name
of their binding; the bindings are those of the tree in pre-order.

`Node.markup` says what the markup of a node is, given all bindings of the
tree. It is printed by `Node.markupPieces`, in pieces that follow each
other, and the bindings are made as their tags are printed. A binding that
is made later changes no name, so that the pieces make up the markup
(`Node.markupPieces_prints`).
-/
import Stencil.Template.Node
import Stencil.Text.Blank
import Stencil.Interpolation.Expression
import Stencil.Output.Bindings

namespace Stencil

-- =========================================================== bindings

/-- The expression behind a tag that comes from a property. -/
def Name.bound? : Name → Option Text
  | .placeholder t => some (reference t)
  | name => name.propertyExpr?

mutual

/-- The expressions behind the tags of a node, in pre-order. -/
def Node.boundExprs : Node → List Text
  | .text _ | .comment _ => []
  | .element name _ children =>
    name.bound?.toList ++ Node.boundExprsList children
  | .selfClosing name _ => name.bound?.toList

/-- The expressions behind the tags of some nodes, in pre-order. -/
def Node.boundExprsList : List Node → List Text
  | [] => []
  | node :: nodes => node.boundExprs ++ Node.boundExprsList nodes

end

/-- The bindings that the markup of a node refers to. -/
def Node.bindings (node : Node) : Bindings := .ofList node.boundExprs

-- =============================================================== tags

/-- The name in a tag. -/
def Name.tag (b : Bindings) (name : Name) : Text :=
  match name, name.bound? with
  | _, some expr => b.name expr
  | .fragment _, none => []
  | _, none => name.raw

/-- An attribute in a tag. -/
def Attribute.markup (style : Style) (a : Attribute) : Text :=
  let mode : ExpressionMode := ⟨true, true, true, style.pretty⟩
  a.name ++ ['='] ++ expression mode a.value

/-- The attributes of a tag, with the space or line break before them. A
tag that starts at `column` has its attributes one step further in. -/
def Attribute.markupList (style : Style) (column : Nat)
    (attributes : List Attribute) :
    Text :=
  let entries := attributes.map (Attribute.markup style)
  let inline := " ".toList.intercalate entries
  if inline.isEmpty then []
  else if style.pretty && Style.attributeWidth < Text.byteSize inline then
    entries.flatMap (fun entry => Style.newline (column + style.step) ++ entry)
      ++ Style.newline column
  else ' ' :: inline

-- ============================================================== nodes

/-- A text between tags; on one line its line breaks are escaped. -/
def markupText (style : Style) (value : Text) : Text :=
  if style.pretty then value
  else value.flatMap fun c => if c = '\n' then "\\n".toList else [c]

/-- An opening tag that starts at `column`, up to its end. -/
def openTag (style : Style) (column : Nat) (tag : Text)
    (attributes : List Attribute) :
    Text :=
  style.lead column ++ ['<'] ++ tag
    ++ Attribute.markupList style column attributes

/-- The closing tag for one that starts at `column`; it has a line of its
own unless there is nothing between the tags. -/
def closeTag (style : Style) (column : Nat) (tag : Text)
    (isEmpty : Bool) : Text :=
  (if isEmpty then [] else style.lead column) ++ "</".toList ++ tag ++ ['>']

/-- The opening tag of a node, up to its end. -/
def tagHead (style : Style) (b : Bindings) (column : Nat) (name : Name)
    (attributes : List Attribute) : Text :=
  openTag style column (name.tag b) attributes

/-- The closing tag of a node. -/
def tagEnd (style : Style) (b : Bindings) (column : Nat) (name : Name)
    (isEmpty : Bool) :
    Text :=
  closeTag style column (name.tag b) isEmpty

mutual

/-- The markup of a node that starts at `column`. -/
def Node.markup (style : Style) (b : Bindings) (column : Nat) : Node → Text
  | .comment _ => []
  | .text value => style.lead column ++ markupText style value
  | .selfClosing name attributes =>
    tagHead style b column name attributes ++ "/>".toList
  | .element name attributes children =>
    tagHead style b column name attributes ++ ['>']
      ++ Node.markupList style b (column + style.step) children
      ++ tagEnd style b column name children.isEmpty

/-- The markup of some nodes that start at `column`. -/
def Node.markupList (style : Style) (b : Bindings) (column : Nat) :
    List Node → Text
  | [] => []
  | node :: nodes =>
    node.markup style b column ++ Node.markupList style b column nodes

end

-- =========================================================== printing

/-- The name in a tag that is printed now; an expression is bound by its
first use. -/
def Name.useTag (name : Name) : StateM Bindings Text :=
  match name.bound? with
  | some expr => modifyGet fun b => b.use expr
  | none => return name.tag (← get)

mutual

/-- The markup of a node in pieces. A level of the tree joins the pieces of
the levels below it, not their texts, so that each text is copied once. -/
def Node.markupPieces (style : Style) (column : Nat) :
    Node → StateM Bindings (List Text)
  | .comment _ => return []
  | .text value => return [style.lead column ++ markupText style value]
  | .selfClosing name attributes => do
    let tag ← name.useTag
    return [openTag style column tag attributes, "/>".toList]
  | .element name attributes children => do
    let tag ← name.useTag
    let content ← Node.markupPiecesList style (column + style.step) children
    return openTag style column tag attributes :: ['>'] ::
      (content ++ [closeTag style column tag children.isEmpty])

/-- The markup of some nodes in pieces. -/
def Node.markupPiecesList (style : Style) (column : Nat) :
    List Node → StateM Bindings (List Text)
  | [] => return []
  | node :: nodes => do
    let first ← node.markupPieces style column
    let others ← Node.markupPiecesList style column nodes
    return first ++ others

end

theorem Name.tag_of_bound {name : Name} {expr : Text}
    (h : name.bound? = some expr) (b : Bindings) :
    name.tag b = b.name expr := by
  unfold tag
  rw [h]

theorem Name.tag_of_not_bound {name : Name} (h : name.bound? = none)
    (b whole : Bindings) :
    name.tag b = name.tag whole := by
  unfold tag
  rw [h]
  cases name with
  | fragment _ => rfl
  | _ => rfl

/-- What is printed after something else starts with the bindings of that. -/
theorem Bindings.run_bind_eq {α β : Type} {printer : StateM Bindings α}
    {b d : Bindings} {a : α} (h : printer.run b = (a, d))
    (next : α → StateM Bindings β) :
    (printer >>= next).run b = (next a).run d := by
  rw [StateT.run_bind, h]
  rfl

/-- A tag is printed as it is in the end, whatever else is bound until
then. -/
theorem Name.run_useTag (name : Name) (b whole : Bindings)
    (h : (name.bound?.toList.foldl Bindings.bind b).exprs <+: whole.exprs) :
    name.useTag.run b
      = (name.tag whole, name.bound?.toList.foldl Bindings.bind b) := by
  unfold useTag
  cases hbound : name.bound? with
  | none => exact congrArg (·, b) (name.tag_of_not_bound hbound b whole)
  | some expr =>
    rw [hbound] at h
    have hmem : expr ∈ (b.bind expr).exprs :=
      (b.mem_exprs_bind expr expr).2 (Or.inr rfl)
    rw [name.tag_of_bound hbound, Bindings.name_of_prefix h hmem]
    rfl

mutual

/-- A node is printed as its markup for the bindings in the end, and binds
its expressions. -/
theorem Node.markupPieces_prints (style : Style) (column : Nat) (node : Node)
    (b whole : Bindings)
    (h : (node.boundExprs.foldl Bindings.bind b).exprs <+: whole.exprs) :
    ∃ pieces, (node.markupPieces style column).run b
        = (pieces, node.boundExprs.foldl Bindings.bind b)
      ∧ pieces.flatten = node.markup style whole column := by
  cases node with
  | comment _ =>
      exact ⟨[], by rw [markupPieces, boundExprs]; rfl, by rw [markup]; rfl⟩
  | text _ => exact ⟨_, by rw [markupPieces, boundExprs]; rfl, by simp [markup]⟩
  | selfClosing name as =>
    rw [boundExprs] at h ⊢
    rw [markupPieces, Bindings.run_bind_eq (name.run_useTag b whole h)]
    exact ⟨_, rfl, by simp [markup, tagHead]⟩
  | element name as children =>
    rw [boundExprs, List.foldl_append] at h ⊢
    have hname :=
      (Bindings.exprs_prefix_foldl_bind (boundExprsList children) _).trans h
    obtain ⟨content, hcontent, htext⟩ :=
      Node.markupPiecesList_prints style (column + style.step)
        children _ whole h
    rw [markupPieces, Bindings.run_bind_eq (name.run_useTag b whole hname),
      Bindings.run_bind_eq hcontent]
    exact ⟨_, rfl, by simp [markup, tagHead, tagEnd, htext]⟩

theorem Node.markupPiecesList_prints (style : Style) (column : Nat)
    (nodes : List Node) (b whole : Bindings)
    (h : ((Node.boundExprsList nodes).foldl Bindings.bind b).exprs
      <+: whole.exprs) :
    ∃ pieces, (Node.markupPiecesList style column nodes).run b
        = (pieces, (Node.boundExprsList nodes).foldl Bindings.bind b)
      ∧ pieces.flatten = Node.markupList style whole column nodes := by
  cases nodes with
  | nil =>
      exact ⟨[], by rw [markupPiecesList, boundExprsList]; rfl,
        by rw [markupList]; rfl⟩
  | cons node nodes =>
    rw [boundExprsList, List.foldl_append] at h ⊢
    have hfirst :=
      (Bindings.exprs_prefix_foldl_bind (boundExprsList nodes) _).trans h
    obtain ⟨first, hrun, htext⟩ :=
      Node.markupPieces_prints style column node b whole hfirst
    obtain ⟨others, hothers, htexts⟩ :=
      Node.markupPiecesList_prints style column nodes _ whole h
    rw [markupPiecesList, Bindings.run_bind_eq hrun,
      Bindings.run_bind_eq hothers]
    exact ⟨_, rfl, by simp [markupList, htext, htexts]⟩

end

-- =============================================================== body

/-- Text at the root goes inside a fragment. -/
def Node.asRoot : Node → Node
  | .text value => .wrap [.text value]
  | node => node

/-- The body that returns a root as markup, its expression at `column`. -/
def markupBody (style : Style) (column : Nat) (root : Node) : FunctionBody :=
  let printed := (root.asRoot.markupPieces style column).run .empty
  let content := Text.trim printed.1.flatten
  let result :=
    if style.pretty && !content.isEmpty then '(' :: (content ++ [')'])
    else content
  ⟨printed.2.statements style.pretty column, result⟩

/-- The body has the bindings of the whole root, and its markup with them. -/
theorem markupBody_eq (style : Style) (column : Nat) (root : Node) :
    let b := root.asRoot.bindings
    let content := Text.trim (root.asRoot.markup style b column)
    markupBody style column root
      = ⟨b.statements style.pretty column,
          if style.pretty && !content.isEmpty then '(' :: (content ++ [')'])
          else content⟩ := by
  intro b content
  obtain ⟨pieces, hrun, htext⟩ :=
    root.asRoot.markupPieces_prints style column .empty b List.prefix_rfl
  have hcontent : Text.trim pieces.flatten = content := congrArg Text.trim htext
  unfold markupBody
  simp only [hrun, hcontent]
  rfl

end Stencil
