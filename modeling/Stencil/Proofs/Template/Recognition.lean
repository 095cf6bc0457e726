/-
Reading a template recognises exactly its grammar, with the right tree:
`parse s = .ok ns` if and only if `Document s ns`.

# From the grammar to the reader

A derivation spells a run of tokens in which tags pair up. `Balanced` says
what such a run does to the three passes over tokens: the count of open
tags and the stack of their names are the same after it as before, and the
forest of the innermost level grows by the nodes of the derivation. It is
closed under each rule of the grammar, and the tokens of a derived text
are read one after the other whatever follows, as long as that does not
extend a last text.

# From the reader to the grammar

The tree is built from the right, one forest for each level that is still
open on the left. `Levels` says what the rest of a template is, seen from
inside some open tags: the content of the innermost, its closing tag, then
what the level around it still needs, and so on to the root. One token to
the left turns a `Levels` into another, so that at the start of the
template, with no tag open, it is a derivation of the whole.
-/
import Stencil.Template.Parse
import Stencil.Proofs.Template.Tokens

namespace Stencil

-- =================================================== names and texts

/-- A name passes the search for capitals exactly if it is in lower case. -/
theorem Name.uppercase?_eq_none_iff {n : Name} :
    n.uppercase? = none ↔ n.IsLower := by
  cases n with
  | literal t => simp [Name.uppercase?, Name.IsLower]
  | placeholder t => simp [Name.uppercase?, Name.IsLower]
  | property t => simp [Name.uppercase?, Name.IsLower]
  | fragment t => simp [Name.uppercase?, Name.IsLower]

/-- A document that does not start with a text starts with a tag, if it is
not empty. -/
theorem Document.atTag {s r : Text} {ns : List Node} (h : Document s ns)
    (hns : startsWithText ns = false) (hr : r.AtTag) : (s ++ r).AtTag := by
  cases h with
  | nil => exact hr
  | text => cases hns
  | comment => simp [Text.AtTag]
  | selfClosing => simp [Text.AtTag]
  | element => simp [Text.AtTag]

/-- A document that starts with a text does not start with a tag. -/
theorem Document.startsWithText_eq_false {s r : Text} {ns : List Node}
    (h : Document s ns) (hr : (s ++ r).AtTag) : startsWithText ns = false := by
  cases h with
  | nil => rfl
  | @text t s ns hne hplain =>
      obtain ⟨c, t, rfl⟩ := List.exists_cons_of_ne_nil hne
      obtain rfl : c = '<' := hr c rfl
      exact absurd (List.mem_cons_self ..) hplain
  | comment => rfl
  | selfClosing => rfl
  | element => rfl

/-- The first token and the rest of them. -/
theorem Token.readAll_of_read? {sp : Spacing} {s r : Text} {t : Token}
    (h : Token.read? sp s = some (t, r)) :
    Token.readAll sp s
      = (⟨t, s⟩ :: (Token.readAll sp r).1, (Token.readAll sp r).2) := by
  rw [Token.readAll]
  split
  · next hnone => rw [h] at hnone; cases hnone
  · next hsome =>
    rw [h] at hsome
    cases hsome
    rfl

-- ===================================================== balanced runs

/-- A token that is a node by itself, with that node. -/
inductive Token.Leaf : Token → Node → Prop
  | text (t : Text) : Token.Leaf (.text t) (.text t)
  | comment (b : Text) : Token.Leaf (.comment b) (.comment b)
  | selfClosing {n : Name} (lower : n.IsLower) (as : List Attribute) :
      Token.Leaf (.selfClosing n as) (.selfClosing n as)

/-- Tokens whose tags pair up and that spell `ns`: what they do to the
three passes over tokens. -/
structure Balanced (run : List Located) (ns : List Node) : Prop where
  stuck : ∀ rest depth ts, stuck? rest depth (run ++ ts) = stuck? rest depth ts
  misnamed : ∀ opened ts, misnamed? opened (run ++ ts) = misnamed? opened ts
  forests : ∀ ts level outer, forests ts = level :: outer →
    Stencil.forests (run.map Located.token ++ ts) = (ns ++ level) :: outer

theorem Balanced.nil : Balanced [] [] where
  stuck _ _ _ := rfl
  misnamed _ _ := rfl
  forests _ _ _ h := h

theorem Balanced.leaf {run : List Located} {ns : List Node} {t : Token}
    {n : Node} (h : Balanced run ns) (hleaf : Token.Leaf t n) (start : Text) :
    Balanced (⟨t, start⟩ :: run) (n :: ns) where
  stuck rest depth ts := by
    rw [← h.stuck rest depth ts]
    cases hleaf <;> simp [stuck?]
  misnamed opened ts := by
    rw [← h.misnamed opened ts]
    cases hleaf with
    | text t => simp [misnamed?]
    | comment b => simp [misnamed?]
    | selfClosing lower as =>
        simp [misnamed?, Name.uppercase?_eq_none_iff.2 lower]
  forests ts level outer hts := by
    have hrun := h.forests ts level outer hts
    cases hleaf <;> simp [Stencil.forests, hrun, Node.graft]

theorem Balanced.element {inner run : List Located} {children ns : List Node}
    {n : Name} (hinner : Balanced inner children) (h : Balanced run ns)
    (lower : n.IsLower) (as : List Attribute) (start stop : Text) :
    Balanced (⟨.opening n as, start⟩ :: (inner ++ ⟨.closing n, stop⟩ :: run))
      (.element n as children :: ns) where
  stuck rest depth ts := by
    rw [← h.stuck rest depth ts]
    simp [stuck?, hinner.stuck]
  misnamed opened ts := by
    rw [← h.misnamed opened ts]
    simp [misnamed?, Name.uppercase?_eq_none_iff.2 lower, hinner.misnamed]
  forests ts level outer hts := by
    have hrun := h.forests ts level outer hts
    have hclosing : Stencil.forests
        (.closing n :: (run.map Located.token ++ ts))
        = [] :: (ns ++ level) :: outer := by
      rw [Stencil.forests, hrun]
    have hcontent := hinner.forests _ _ _ hclosing
    simp [Stencil.forests, hcontent, Node.graft]

/-- The text `s` starts with a balanced run that spells `ns`, and then
reads on as `r` does. -/
def ReadsAs (s : Text) (ns : List Node) (r : Text) : Prop :=
  ∃ run, Balanced run ns ∧ Token.readAll .grammar s
    = (run ++ (Token.readAll .grammar r).1, (Token.readAll .grammar r).2)

theorem ReadsAs.leaf {p s r : Text} {t : Token} {n : Node} {ns : List Node}
    (hs : ReadsAs s ns r) (hleaf : Token.Leaf t n)
    (hspells : Token.Spells .grammar p t) (hends : t.EndsBefore s) :
    ReadsAs (p ++ s) (n :: ns) r := by
  obtain ⟨run, hrun, hread⟩ := hs
  have htoken : Token.read? .grammar (p ++ s) = some (t, s) :=
    (Token.read?_eq_some_iff Spacing.grammar_lawful).2 ⟨p, rfl, hspells, hends⟩
  refine ⟨⟨t, p ++ s⟩ :: run, hrun.leaf hleaf _, ?_⟩
  rw [Token.readAll_of_read? htoken, hread]
  rfl

theorem ReadsAs.element {h d s r : Text} {n : Name} {as : List Attribute}
    {children ns : List Node} (head : TagHead .grammar h n as)
    (lower : n.IsLower) (hd : ReadsAs (d ++ (closingTag n.raw ++ s)) children
      (closingTag n.raw ++ s))
    (hs : ReadsAs s ns r) :
    ReadsAs ('<' :: (h ++ '>' :: (d ++ (closingTag n.raw ++ s))))
      (.element n as children :: ns) r := by
  obtain ⟨run, hrun, hread⟩ := hs
  obtain ⟨inner, hinner, hreadInner⟩ := hd
  have hname : n.Writable := by cases head; assumption
  have hopening : Token.read? .grammar
      ('<' :: (h ++ '>' :: (d ++ (closingTag n.raw ++ s))))
      = some (.opening n as, d ++ (closingTag n.raw ++ s)) :=
    (Token.read?_eq_some_iff Spacing.grammar_lawful).2
      ⟨_, by simp, .opening head, trivial⟩
  have hclosing : Token.read? .grammar (closingTag n.raw ++ s)
      = some (.closing n, s) :=
    (Token.read?_eq_some_iff Spacing.grammar_lawful).2
      ⟨_, by simp, .closing hname, trivial⟩
  have hall := Token.readAll_of_read? hopening
  rw [hreadInner, Token.readAll_of_read? hclosing, hread] at hall
  exact ⟨_, hinner.element hrun lower as _ _, by simpa using hall⟩

/-- The tokens of a derived text, read in front of anything that does not
extend a last text. -/
theorem Document.readsAs {s : Text} {ns : List Node} (h : Document s ns) :
    ∀ r : Text, r.AtTag → ReadsAs (s ++ r) ns r := by
  induction h with
  | nil =>
      intro r _
      exact ⟨[], .nil, rfl⟩
  | @text t s ns hne hplain halone hrest ih =>
      intro r hr
      rw [List.append_assoc]
      exact (ih r hr).leaf (.text t) (.text hne hplain) (hrest.atTag halone hr)
  | @comment b s ns hbody hrest ih =>
      intro r hr
      have := (ih r hr).leaf (.comment b) (.comment hbody) trivial
      simpa using this
  | @selfClosing h s n as ns hhead hlower hrest ih =>
      intro r hr
      have :=
        (ih r hr).leaf (.selfClosing hlower as) (.selfClosing hhead) trivial
      simpa using this
  | @element h d s n as children ns hhead hlower hcontent hrest
    ihcontent ihrest =>
      intro r hr
      have hd :=
        ihcontent (closingTag n.raw ++ (s ++ r))
          (by simp [Text.AtTag, closingTag])
      have := ReadsAs.element hhead hlower hd (ihrest r hr)
      simpa using this

theorem Document.textAlone {t : Text} (hne : t ≠ []) (hplain : '<' ∉ t) :
    Document t [.text t] := by
  simpa using Document.text hne hplain rfl .nil

/-- A document between two tags without attributes. -/
theorem Document.bare {d : Text} {n : Name} {children : List Node}
    (h : Document d children) (hname : n.Writable) (hlower : n.IsLower) :
    Document ('<' :: (n.raw ++ '>' :: (d ++ closingTag n.raw)))
      [.element n [] children] := by
  have hhead : TagHead .grammar (n.raw ++ ([] ++ [])) n [] :=
    .intro hname .nil (by simp) n.endsBefore_nil
  simpa using Document.element hhead hlower h .nil

/-- A derived text is read as its tree. -/
theorem Document.parse_eq {s : Text} {ns : List Node} (h : Document s ns) :
    parse s = .ok ns := by
  obtain ⟨run, hrun, hread⟩ := h.readsAs [] (by simp [Text.AtTag])
  have hnil : Token.readAll .grammar [] = ([], []) := by
    rw [Token.readAll]
    rfl
  rw [hnil, List.append_nil, List.append_nil] at hread
  have hstuck : stuck? [] 0 run = none := by
    simpa [stuck?] using hrun.stuck [] 0 []
  have hmisnamed : misnamed? [] run = none := by
    simpa [misnamed?] using hrun.misnamed [] []
  have hforests : forests (run.map Located.token) = [ns] := by
    simpa using hrun.forests [] [] [] rfl
  simp [parse, hread, hstuck, hmisnamed, document, hforests]

-- ======================================================= open levels

/-- What is left of a template inside the open tags given, innermost first:
the content of each up to its closing tag, and last that of the root. -/
inductive Levels : List Text → Text → List (List Node) → Prop
  | root {d : Text} {ns : List Node}
      (content : Document d ns) : Levels [] d [ns]
  | inner {d s name : Text} {opened : List Text} {ns : List Node}
      {outer : List (List Node)}
      (content : Document d ns) (rest : Levels opened s outer) :
      Levels (name :: opened) (d ++ (closingTag name ++ s)) (ns :: outer)

/-- The innermost content, at the front of what is left. -/
theorem Levels.extend {opened : List Text} {p s : Text}
    {forest : List (List Node)} {n : Node} (h : Levels opened s forest)
    (hn : ∀ d r ns, s = d ++ r → Document d ns → Document (p ++ d) (n :: ns)) :
    Levels opened (p ++ s) (n.graft forest) := by
  cases h with
  | root content => exact .root (hn _ [] _ (List.append_nil _).symm content)
  | inner content rest =>
      rw [← List.append_assoc]
      exact .inner (hn _ _ _ rfl content) rest

theorem Levels.leaf {opened : List Text} {p s : Text}
    {forest : List (List Node)} {t : Token} {n : Node}
    (h : Levels opened s forest) (hleaf : Token.Leaf t n)
    (hspells : Token.Spells .grammar p t) (hends : t.EndsBefore s) :
    Levels opened (p ++ s) (n.graft forest) := by
  refine h.extend fun d r ns hs hd => ?_
  cases hleaf with
  | text t =>
      cases hspells with
      | text hne hplain =>
          refine .text hne hplain (hd.startsWithText_eq_false (r := r) ?_) hd
          rw [← hs]
          exact hends
  | comment b =>
      cases hspells with
      | comment hbody => simpa using Document.comment hbody hd
  | selfClosing lower as =>
      cases hspells with
      | selfClosing head => simpa using Document.selfClosing head lower hd

theorem Levels.opening {opened : List Text} {h s : Text} {n : Name}
    {as : List Attribute} {children : List Node} {outer : List (List Node)}
    (hs : Levels (n.raw :: opened) s (children :: outer))
    (head : TagHead .grammar h n as) (lower : n.IsLower) :
    Levels opened ('<' :: (h ++ '>' :: s))
      ((Node.element n as children).graft outer) := by
  cases hs with
  | @inner d s _ _ _ _ content rest =>
      have := rest.extend (p := '<' :: (h ++ '>' :: (d ++ closingTag n.raw)))
        (n := .element n as children) fun d' r ns _ hd' => by
          simpa using Document.element head lower content hd'
      simpa using this

/-- The tokens from a point on, if they pair up with the tags open there
and break no rule on names, spell what is left of the template. -/
theorem levels_of_readAll (s : Text) : ∀ opened : List Text,
    stuck? (Token.readAll .grammar s).2 opened.length
      (Token.readAll .grammar s).1 = none →
    misnamed? opened (Token.readAll .grammar s).1 = none →
    Levels opened s (forests
      ((Token.readAll .grammar s).1.map Located.token)) := by
  fun_induction Token.readAll .grammar s with
  | case1 s hread =>
      intro opened hstuck _
      have hend : s = [] ∧ opened = [] := by simpa [stuck?] using hstuck
      obtain ⟨rfl, rfl⟩ := hend
      exact .root .nil
  | case2 s t r hread more ih =>
      obtain ⟨p, rfl, hspells, hends⟩ :=
        (Token.read?_eq_some_iff Spacing.grammar_lawful).1 hread
      intro opened hstuck hmisnamed
      cases t with
      | text t =>
          simp only [stuck?, misnamed?] at hstuck hmisnamed
          exact (ih opened hstuck hmisnamed).leaf (.text t) hspells hends
      | comment b =>
          simp only [stuck?, misnamed?] at hstuck hmisnamed
          exact (ih opened hstuck hmisnamed).leaf (.comment b) hspells hends
      | selfClosing n as =>
          simp only [stuck?, misnamed?] at hstuck hmisnamed
          split at hmisnamed
          · cases hmisnamed
          · next hlower =>
            have hleaf :=
              Token.Leaf.selfClosing (Name.uppercase?_eq_none_iff.1 hlower) as
            exact (ih opened hstuck hmisnamed).leaf hleaf hspells hends
      | opening n as =>
          simp only [stuck?, misnamed?] at hstuck hmisnamed
          split at hmisnamed
          · cases hmisnamed
          · next hlower =>
            have hinner := ih (n.raw :: opened) hstuck hmisnamed
            cases hspells with
            | opening head =>
                simp only [List.map_cons, forests]
                -- a level that is open has a forest of its own
                generalize forests (more.1.map Located.token)
                  = forest at hinner ⊢
                cases forest with
                | nil => cases hinner
                | cons children outer =>
                    simpa using hinner.opening head
                      (Name.uppercase?_eq_none_iff.1 hlower)
      | closing n =>
          cases hspells with
          | closing hname =>
              cases opened with
              | nil => simp [stuck?] at hstuck
              | cons expected opened =>
                  simp only [stuck?, misnamed?,
                    List.length_cons] at hstuck hmisnamed
                  split at hmisnamed
                  · next hsame =>
                    subst hsame
                    exact .inner .nil (ih opened hstuck hmisnamed)
                  · cases hmisnamed

/-- What is read as a tree is derived with that tree. -/
theorem document_of_parse {s : Text} {ns : List Node} (h : parse s = .ok ns) :
    Document s ns := by
  unfold parse at h
  dsimp only at h
  split at h
  · cases h
  · next hstuck =>
    split at h
    · cases h
    · next hmisnamed =>
      have hlevels := levels_of_readAll s [] hstuck hmisnamed
      simp only [Except.ok.injEq, document] at h
      generalize forests ((Token.readAll .grammar s).1.map Located.token)
        = forest at hlevels h
      cases hlevels with
      | root content =>
          obtain rfl : _ = ns := h
          exact content

-- ==================================================== the equivalence

/-- Reading accepts exactly the texts of the grammar, each with its tree,
and no text has two trees. -/
theorem parse_eq_ok_iff_document (s : Text) :
    (∀ ns, parse s = .ok ns ↔ Document s ns)
      ∧ ∀ ns ns', Document s ns → Document s ns' → ns = ns' := by
  refine ⟨fun ns => ⟨document_of_parse, Document.parse_eq⟩, ?_⟩
  intro ns ns' h h'
  have hparse := h.parse_eq
  rw [h'.parse_eq] at hparse
  exact (Except.ok.inj hparse).symm

end Stencil
