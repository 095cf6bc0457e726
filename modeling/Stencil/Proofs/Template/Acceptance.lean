/-
What the grammar accepts before the names of tags are checked. A closing
tag may have any name, and a name may have capitals; apart from that a
template is made as `Document` says. Its tree keeps what the rules on names
are about: how the head of each tag is spelled, and the name that stands
in the closing tag (`RawNode`).

Reading a template of this kind finds its tokens one after the other
(`RawDocument.readAll_eq`), and since every opening tag has a closing tag,
reading is not stuck behind them. Conversely, where reading does not get
stuck, the tokens are those of such a tree: seen from inside some open
tags, what is left of the template is the content of the innermost, some
closing tag, and so on to the root (`RawLevels`). So the grammar accepts a
template exactly if reading does not get stuck (`rawDocument_iff`).
-/
import Stencil.Proofs.Template.Recognition

namespace Stencil

-- ========================================================== raw trees

/-- A node of a template before its names are checked. A tag keeps what
stands between its `<` and its end, an element also the name of its
closing tag. -/
inductive RawNode where
  | text (value : Text)
  | comment (body : Text)
  | element (head : Text) (name : Name) (attributes : List Attribute)
      (children : List RawNode) (closing : Name)
  | selfClosing (head : Text) (name : Name) (attributes : List Attribute)

namespace RawNode

mutual

/-- The text of a node. -/
def spell : RawNode → Text
  | .text value => value
  | .comment body => "<!--".toList ++ (body ++ "-->".toList)
  | .element head _ _ children closing =>
    '<' :: (head ++ '>' :: (spellList children ++ closingTag closing.raw))
  | .selfClosing head _ _ => '<' :: (head ++ "/>".toList)

/-- The text of some nodes in a row. -/
def spellList : List RawNode → Text
  | [] => []
  | node :: nodes => node.spell ++ spellList nodes

end

mutual

/-- The tokens of a node in front of `rest`. -/
def tokens (rest : Text) : RawNode → List Located
  | .text value => [⟨.text value, value ++ rest⟩]
  | .comment body => [⟨.comment body, spell (.comment body) ++ rest⟩]
  | .element head name attributes children closing =>
    ⟨.opening name attributes,
      spell (.element head name attributes children closing) ++ rest⟩ ::
      (tokensList (closingTag closing.raw ++ rest) children
        ++ [⟨.closing closing, closingTag closing.raw ++ rest⟩])
  | .selfClosing head name attributes =>
    [⟨.selfClosing name attributes,
      spell (.selfClosing head name attributes) ++ rest⟩]

/-- The tokens of some nodes in front of `rest`. -/
def tokensList (rest : Text) : List RawNode → List Located
  | [] => []
  | node :: nodes =>
    node.tokens (spellList nodes ++ rest) ++ tokensList rest nodes

end

/-- Whether some nodes start with a text. -/
def startWithText : List RawNode → Bool
  | .text _ :: _ => true
  | _ => false

end RawNode

/-- The texts that the grammar accepts, each with its tree. -/
inductive RawDocument : Text → List RawNode → Prop
  | nil : RawDocument [] []
  | text {t s : Text} {ns : List RawNode}
      (nonempty : t ≠ []) (plain : '<' ∉ t)
      (alone : RawNode.startWithText ns = false) (rest : RawDocument s ns) :
      RawDocument (t ++ s) (.text t :: ns)
  | comment {b s : Text} {ns : List RawNode}
      (body : IsCommentBody b) (rest : RawDocument s ns) :
      RawDocument ("<!--".toList ++ (b ++ ("-->".toList ++ s)))
        (.comment b :: ns)
  | selfClosing {h s : Text} {n : Name} {as : List Attribute}
      {ns : List RawNode}
      (head : TagHead .grammar h n as) (rest : RawDocument s ns) :
      RawDocument ('<' :: (h ++ ("/>".toList ++ s))) (.selfClosing h n as :: ns)
  | element {h d s : Text} {n closing : Name} {as : List Attribute}
      {children ns : List RawNode} (head : TagHead .grammar h n as)
      (content : RawDocument d children) (closed : closing.Writable)
      (rest : RawDocument s ns) :
      RawDocument ('<' :: (h ++ '>' :: (d ++ (closingTag closing.raw ++ s))))
        (.element h n as children closing :: ns)

/-- A tree of the grammar spells its template. -/
theorem RawDocument.eq_spellList {s : Text} {ns : List RawNode}
    (h : RawDocument s ns) :
    s = RawNode.spellList ns := by
  induction h with
  | nil => rw [RawNode.spellList]
  | text _ _ _ _ ih => rw [RawNode.spellList, RawNode.spell, ← ih]
  | comment _ _ ih => simp [RawNode.spellList, RawNode.spell, ← ih]
  | selfClosing _ _ ih => simp [RawNode.spellList, RawNode.spell, ← ih]
  | element _ _ _ _ ihcontent ih =>
      simp [RawNode.spellList, RawNode.spell, ← ihcontent, ← ih]

-- ==================================================== from the grammar

theorem RawDocument.atTag {s r : Text} {ns : List RawNode}
    (h : RawDocument s ns) (hns : RawNode.startWithText ns = false)
    (hr : r.AtTag) : (s ++ r).AtTag := by
  cases h with
  | nil => exact hr
  | text => cases hns
  | comment => simp [Text.AtTag]
  | selfClosing => simp [Text.AtTag]
  | element => simp [Text.AtTag]

/-- The tokens of a text that the grammar accepts, in front of anything
that does not extend a last text. -/
theorem RawDocument.readAll_eq {s : Text} {ns : List RawNode}
    (h : RawDocument s ns) :
    ∀ r : Text, r.AtTag → Token.readAll .grammar (s ++ r)
      = (RawNode.tokensList r ns ++ (Token.readAll .grammar r).1,
        (Token.readAll .grammar r).2) := by
  -- one token and what is read behind it
  have hstep : ∀ {p s : Text} {t : Token} {more : List Located × Text},
      Token.Spells .grammar p t → t.EndsBefore s
        → Token.readAll .grammar s = more →
      Token.readAll .grammar (p ++ s) = (⟨t, p ++ s⟩ :: more.1, more.2) := by
    intro p s t more hspells hends hmore
    have htoken : Token.read? .grammar (p ++ s) = some (t, s) :=
      (Token.read?_eq_some_iff Spacing.grammar_lawful).2 ⟨p, rfl,
        hspells, hends⟩
    rw [Token.readAll_of_read? htoken, hmore]
  induction h with
  | nil =>
      intro r _
      rfl
  | @text t s ns hne hplain halone hrest ih =>
      intro r hr
      have hread := hstep (.text hne hplain) (hrest.atTag halone hr) (ih r hr)
      simpa [RawNode.tokensList, RawNode.tokens, ← hrest.eq_spellList]
        using hread
  | @comment b s ns hbody hrest ih =>
      intro r hr
      have hread := hstep (.comment hbody) trivial (ih r hr)
      simpa [RawNode.tokensList, RawNode.tokens,
        RawNode.spell, ← hrest.eq_spellList]
        using hread
  | @selfClosing h s n as ns hhead hrest ih =>
      intro r hr
      have hread := hstep (.selfClosing hhead) trivial (ih r hr)
      simpa [RawNode.tokensList, RawNode.tokens,
        RawNode.spell, ← hrest.eq_spellList]
        using hread
  | @element h d s n closing as children ns hhead hcontent hclosed hrest
    ihcontent ih =>
      intro r hr
      have hclosing := hstep (.closing hclosed) trivial (ih r hr)
      have hinner := ihcontent (closingTag closing.raw ++ (s ++ r))
        (by simp [Text.AtTag, closingTag])
      rw [hclosing] at hinner
      have hread := hstep (.opening hhead) trivial hinner
      simpa [RawNode.tokensList, RawNode.tokens,
        RawNode.spell, ← hcontent.eq_spellList, ← hrest.eq_spellList]
          using hread

/-- Tokens whose tags pair up do not change how many tags are open. -/
theorem RawDocument.stuck?_tokensList {s : Text} {ns : List RawNode}
    (h : RawDocument s ns) (rest : Text) :
    ∀ (r : Text) (depth : Nat) (ts : List Located),
      stuck? rest depth (RawNode.tokensList r ns ++ ts)
        = stuck? rest depth ts := by
  induction h with
  | nil =>
      intro r depth ts
      rfl
  | text _ _ _ _ ih =>
      intro r depth ts
      simp [RawNode.tokensList, RawNode.tokens, stuck?, ih]
  | comment _ _ ih =>
      intro r depth ts
      simp [RawNode.tokensList, RawNode.tokens, stuck?, ih]
  | selfClosing _ _ ih =>
      intro r depth ts
      simp [RawNode.tokensList, RawNode.tokens, stuck?, ih]
  | element _ _ _ _ ihcontent ih =>
      intro r depth ts
      simp [RawNode.tokensList, RawNode.tokens, stuck?, ihcontent, ih]

/-- What reading finds in a template that the grammar accepts. -/
theorem RawDocument.readAll {s : Text} {ns : List RawNode}
    (h : RawDocument s ns) :
    Token.readAll .grammar s = (RawNode.tokensList [] ns, []) := by
  have hnil : Token.readAll .grammar [] = ([], []) := by
    rw [Token.readAll]
    rfl
  have hread := h.readAll_eq [] (by simp [Text.AtTag])
  rw [hnil] at hread
  simpa using hread

theorem RawDocument.not_stuck {s : Text} {ns : List RawNode}
    (h : RawDocument s ns) :
    stuck? (Token.readAll .grammar s).2 0 (Token.readAll .grammar s).1
      = none := by
  have hstuck := h.stuck?_tokensList [] [] 0 []
  rw [List.append_nil] at hstuck
  rw [h.readAll, hstuck]
  rfl

-- ====================================================== to the grammar

/-- What is left of a template inside as many open tags as given: the
content of each up to a closing tag, and last that of the root. -/
inductive RawLevels : Nat → Text → Prop
  | root {d : Text} {ns : List RawNode}
      (content : RawDocument d ns) : RawLevels 0 d
  | inner {d s : Text} {closing : Name} {depth : Nat} {ns : List RawNode}
      (content : RawDocument d ns) (closed : closing.Writable)
        (rest : RawLevels depth s) :
      RawLevels (depth + 1) (d ++ (closingTag closing.raw ++ s))

/-- A document that starts with a text does not start with a tag. -/
theorem RawDocument.startWithText_eq_false {s r : Text} {ns : List RawNode}
    (h : RawDocument s ns) (hr : (s ++ r).AtTag) :
    RawNode.startWithText ns = false := by
  cases h with
  | nil => rfl
  | @text t s ns hne hplain =>
      obtain ⟨c, t, rfl⟩ := List.exists_cons_of_ne_nil hne
      obtain rfl : c = '<' := hr c rfl
      exact absurd (List.mem_cons_self ..) hplain
  | comment => rfl
  | selfClosing => rfl
  | element => rfl

/-- The innermost content, with something in front of it. -/
theorem RawLevels.extend {depth : Nat} {p s : Text} (h : RawLevels depth s)
    (hp : ∀ d r ns, s = d ++ r → RawDocument d ns → ∃ ns',
      RawDocument (p ++ d) ns') :
    RawLevels depth (p ++ s) := by
  cases h with
  | root content =>
      obtain ⟨ns', hns'⟩ := hp _ [] _ (List.append_nil _).symm content
      exact .root hns'
  | inner content closed rest =>
      obtain ⟨ns', hns'⟩ := hp _ _ _ rfl content
      rw [← List.append_assoc]
      exact .inner hns' closed rest

/-- An opening tag closes a level, seen from the right. -/
theorem RawLevels.opening {depth : Nat} {h s : Text} {n : Name}
    {as : List Attribute} (hs : RawLevels (depth + 1) s)
    (head : TagHead .grammar h n as) :
    RawLevels depth ('<' :: (h ++ '>' :: s)) := by
  cases hs with
  | @inner d s closing _ ns content closed rest =>
      have hlevels :=
        rest.extend (p := '<' :: (h ++ '>' :: (d ++ closingTag closing.raw)))
          fun d' r ns' _ hd' => ⟨.element h n as ns closing :: ns', by
            simpa using RawDocument.element head content closed hd'⟩
      simpa using hlevels

/-- Where the tokens from a point on pair up with the tags open there, they
are what the grammar wants inside so many tags. -/
theorem rawLevels_of_readAll (s : Text) : ∀ depth : Nat,
    stuck? (Token.readAll .grammar s).2 depth (Token.readAll .grammar s).1
      = none →
      RawLevels depth s := by
  fun_induction Token.readAll .grammar s with
  | case1 s hread =>
      intro depth hstuck
      obtain ⟨rfl, rfl⟩ : s = [] ∧ depth = 0 := by simpa [stuck?] using hstuck
      exact .root .nil
  | case2 s t r hread more ih =>
      obtain ⟨p, rfl, hspells, hends⟩ :=
        (Token.read?_eq_some_iff Spacing.grammar_lawful).1 hread
      intro depth hstuck
      cases hspells with
      | text hne hplain =>
          simp only [stuck?] at hstuck
          refine (ih depth hstuck).extend fun d r' ns hs hd =>
            ⟨_, .text hne hplain ?_ hd⟩
          rw [hs] at hends
          exact hd.startWithText_eq_false hends
      | @comment b hbody =>
          simp only [stuck?] at hstuck
          refine (ih depth hstuck).extend fun d _ ns _ hd =>
            ⟨.comment b :: ns, ?_⟩
          simpa using RawDocument.comment hbody hd
      | @selfClosing h n as head =>
          simp only [stuck?] at hstuck
          refine (ih depth hstuck).extend fun d _ ns _ hd =>
            ⟨.selfClosing h n as :: ns, ?_⟩
          simpa using RawDocument.selfClosing head hd
      | opening head =>
          simp only [stuck?] at hstuck
          simpa using (ih (depth + 1) hstuck).opening head
      | closing hname =>
          cases depth with
          | zero => simp [stuck?] at hstuck
          | succ depth =>
              simp only [stuck?] at hstuck
              exact .inner .nil hname (ih depth hstuck)

/-- The grammar accepts a template exactly if reading it does not get
stuck. -/
theorem rawDocument_iff (s : Text) :
    (∃ ns, RawDocument s ns)
      ↔ stuck? (Token.readAll .grammar s).2 0 (Token.readAll .grammar s).1
        = none := by
  constructor
  · rintro ⟨ns, hns⟩
    exact hns.not_stuck
  · intro hstuck
    cases rawLevels_of_readAll s 0 hstuck with
    | root content => exact ⟨_, content⟩

end Stencil
