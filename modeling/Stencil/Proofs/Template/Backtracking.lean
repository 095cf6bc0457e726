/-
How the grammar goes back. A tag is tried before a self-closing one, and
content goes on as long as a node can be read, so the whole content of a
tag that is never closed is read, given up and tried as something else,
and every attempt inside it counts.

The readers of tokens read a template once and count open tags. At each
node a run of the grammar does what they do (`ItemRun`): it reads the node,
and the readers are where they were; or it stops (`Stop`) where they can
read nothing, at a closing tag, or at an opening tag inside which they get
stuck. So content is read up to where it stops (`content`), by recursion on
the length of what is left, since the content of a tag is content again.
At the root this says that the grammar accepts a template where the readers
are not stuck, and that its furthest failed attempt is where they are
(`runs_template`).
-/
import Stencil.Proofs.Template.Acceptance
import Stencil.Proofs.Template.Attempts
import Stencil.Proofs.Template.TagReaders

namespace Stencil

-- ================================================== how readers go on

/-- A token that is a node by itself. -/
def Token.IsLeaf : Token → Prop
  | .opening .. | .closing _ => False
  | _ => True

/-- The point at which the readers get stuck, from a text on inside so many
open tags. -/
def stuckAt (s : Text) (depth : Nat) : Option Text :=
  stuck? (Token.readAll .grammar s).2 depth (Token.readAll .grammar s).1

section Stuck

variable {s r : Text} {n : Name} {as : List Attribute}

theorem stuckAt_leaf {t : Token} (h : Token.read? .grammar s = some (t, r))
    (hleaf : t.IsLeaf) (depth : Nat) : stuckAt s depth = stuckAt r depth := by
  rw [stuckAt, Token.readAll_of_read? h, stuckAt]
  cases t with
  | text t => rw [stuck?]; all_goals simp
  | comment b => rw [stuck?]; all_goals simp
  | selfClosing n as => rw [stuck?]; all_goals simp
  | opening n as => exact hleaf.elim
  | closing n => exact hleaf.elim

theorem stuckAt_opening (h : Token.read? .grammar s = some (.opening n as, r))
    (depth : Nat) :
    stuckAt s depth = stuckAt r (depth + 1) := by
  rw [stuckAt, Token.readAll_of_read? h, stuck?, stuckAt]

theorem stuckAt_closing (h : Token.read? .grammar s = some (.closing n, r))
    (depth : Nat) :
    stuckAt s (depth + 1) = stuckAt r depth := by
  rw [stuckAt, Token.readAll_of_read? h, stuck?, stuckAt]

theorem stuckAt_closing_zero
    (h : Token.read? .grammar s = some (.closing n, r)) :
    stuckAt s 0 = some (furthest false s) := by
  rw [stuckAt, Token.readAll_of_read? h, stuck?]

theorem stuckAt_none (h : Token.read? .grammar s = none) (depth : Nat) :
    stuckAt s depth
      = if s.isEmpty && depth == 0 then none
        else some (furthest (depth != 0) s) := by
  rw [stuckAt, Token.readAll_of_none h, stuck?]

end Stuck

-- ============================================================== items

/-- How the content of a tag ends: where nothing can be read, at a closing
tag, or at an opening tag that is never closed. The furthest attempt on the
way is the one that the readers compute there, or the point where they get
stuck inside the unclosed tag. -/
inductive Stop (s far : Text) : Prop
  | unread (read : Token.read? .grammar s = none)
      (here : far = furthest false s)
  | closing {n : Name} {r : Text}
      (read : Token.read? .grammar s = some (.closing n, r))
      (here : far = furthest false s)
  | unclosed {n : Name} {as : List Attribute} {r : Text}
      (read : Token.read? .grammar s = some (.opening n as, r))
      (stuck : ∀ depth, stuckAt s depth = some far)

/-- What a run of an item does: it reads a node, and the readers go on behind
it as before it; or the content ends. -/
inductive ItemRun (s : Text) : Prop
  | reads {r : Text} {f : List Text} (run : Tries Rule.item s (some r) f)
      (stuck : ∀ depth, stuckAt s depth = stuckAt r depth)
      (shorter : r.length < s.length) (before : ∀ u ∈ f, r.length < u.length)
  | stops {far : Text} {f : List Text} (run : Tries Rule.item s none f)
      (furthest : Furthest f (some far)) (stop : Stop s far)

/-- An item that fails in all its alternatives. -/
theorem tries_item_miss {s : Text} {f f' : List Text}
    (htag : Tries (.rule .tag) s none f)
    (hselfClosing : Tries (.rule .selfClosingTag) s none f') (hs : s.AtTag)
    (hcomment : ¬ "<!--".toList <+: s) :
    Tries Rule.item s none (f ++ (f' ++ [s]) ++ [s]) :=
  .alt (.alt htag (.alt hselfClosing (tries_text_miss hs)))
    (tries_comment_miss hcomment)

/-- The furthest attempt at a node is one at a tag. -/
theorem Furthest.node {s far : Text} {f f' : List Text}
    (h : Furthest f (some far)) (hf' : ∀ u ∈ f', far.length ≤ u.length)
    (hs : far.length ≤ s.length) :
    Furthest (f ++ (f' ++ [s])) (some far) := by
  refine h.append_left fun u hu => ?_
  rcases List.mem_append.1 hu with hu | hu
  · exact hf' u hu
  · rwa [List.mem_singleton.1 hu]

/-- The furthest attempt at an item is one at a tag. -/
theorem Furthest.item {s far : Text} {f f' : List Text}
    (h : Furthest f (some far)) (hf' : ∀ u ∈ f', far.length ≤ u.length)
    (hs : far.length ≤ s.length) :
    Furthest (f ++ (f' ++ [s]) ++ [s]) (some far) :=
  (h.node hf' hs).append_left (by simpa using hs)

/-- The furthest attempt of a run lies in the text. -/
theorem Furthest.length_le {e : Peg Rule} {s far : Text} {res : Option Text}
    {f : List Text} (h : Furthest f (some far)) (hrun : Tries e s res f) :
    far.length ≤ s.length :=
  (hrun.suffix.2 far h.1).length_le

/-- Away from a `<` there is a text, or nothing. -/
theorem itemRun_of_head {s : Text} (h : s.head? ≠ some '<') : ItemRun s := by
  have htag : Tries (.rule .tag) s none [s] :=
    .ruleMiss (.seqMiss (tries_tagStart_of_head h))
  have hselfClosing : Tries (.rule .selfClosingTag) s none [s] :=
    .ruleMiss (.seqMiss (tries_tagStart_of_head h))
  cases s with
  | nil =>
      exact .stops (tries_item_miss htag hselfClosing (by simp [Text.AtTag])
        (by decide))
        (Furthest.item (.single []) (by simp) (Nat.le_refl _)) (.unread rfl rfl)
  | cons c s =>
      have hc : c ≠ '<' := fun hc => h (congrArg some hc)
      have hle := Text.length_dropWhile_le (· != '<') s
      refine .reads (.altHit (.alt htag (.alt hselfClosing (tries_text hc s))))
        ?_ ?_ ?_
      · exact stuckAt_leaf (Token.read?_text .grammar hc s) trivial
      · rw [List.length_cons]
        omega
      · intro u hu
        obtain rfl : u = c :: s := by simpa using hu
        rw [List.length_cons]
        omega

/-- What the readers compute where no name follows a `<`. -/
theorem furthest_of_no_name {u far : Text} (h : Name.read? u = none)
    (hfar : Name.furthest? u = some far) : furthest false ('<' :: u) = far := by
  unfold furthest
  split
  · next heq =>
    obtain rfl := (List.cons.inj heq).2
    rw [if_neg Bool.false_ne_true]
    exact Option.some.inj hfar
  · next heq =>
    obtain rfl := (List.cons.inj heq).2
    rw [h]
    simp only [hfar, Option.getD_some]
  · next hlt => exact absurd rfl (hlt u)

/-- Where no name follows a `<` and no comment starts, a closing tag is the
only token that can be read. -/
theorem Token.read?_of_no_name {u : Text} (h : Name.read? u = none)
    (hcomment : ¬ "<!--".toList <+: '<' :: u) :
    Token.read? .grammar ('<' :: u) = none
      ∨ ∃ n r, Token.read? .grammar ('<' :: u) = some (.closing n, r) := by
  cases hread : Token.read? .grammar ('<' :: u) with
  | none => exact Or.inl rfl
  | some x =>
      obtain ⟨t, r⟩ := x
      obtain ⟨p, hp, hspells⟩ := Token.read?_lt_iff_spells.1 hread
      -- the head of a tag would start with a name
      have hname : ∀ {head : Text} {n : Name} {as : List Attribute} {c : Char}
          (rest : Text), TagHead .grammar head n as → c = '>' ∨ c = '/'
            → u ≠ head ++ c :: rest := by
        rintro head n as c rest hhead hc rfl
        obtain ⟨r₁, r₂, hsome, -⟩ :=
          hhead.read Spacing.grammar_lawful (r := rest) hc
        rw [h] at hsome
        cases hsome
      cases hspells with
      | text hne hplain =>
          obtain ⟨c, p, rfl⟩ := List.exists_cons_of_ne_nil hne
          obtain rfl := (List.cons.inj hp).1
          exact absurd (List.mem_cons_self ..) hplain
      | comment => exact absurd ⟨_, by rw [hp, List.append_assoc]⟩ hcomment
      | opening hhead =>
          exact absurd (by simpa using hp) (hname r hhead (Or.inl rfl))
      | selfClosing hhead =>
          exact absurd (by simpa using hp) (hname ('>' :: r) hhead (Or.inr rfl))
      | @closing n _ => exact Or.inr ⟨n, r, rfl⟩

/-- Where no name follows a `<`, no node can be read, and the furthest
attempt is one at the name. -/
theorem tries_node_of_no_name {u far : Text} (h : Name.read? u = none)
    (hfar : Name.furthest? u = some far) :
    ∃ f, Tries Rule.node ('<' :: u) none f ∧ Furthest f (some far) := by
  obtain ⟨f, hstart, hfurthest⟩ := tries_tagStart_of_none h
  rw [hfar] at hfurthest
  have hle := hfurthest.length_le hstart
  have htag : Tries (.rule .tag) ('<' :: u) none _ :=
    .ruleMiss (.seqMiss hstart)
  have hself : Tries (.rule .selfClosingTag) ('<' :: u) none _ :=
    .ruleMiss (.seqMiss hstart)
  have hcons := hfurthest.cons hle
  exact ⟨_, .alt htag (.alt hself (tries_text_miss (by simp [Text.AtTag]))),
    hcons.node hcons.2 hle⟩

theorem Token.read?_comment (v : Text) :
    Token.read? .grammar ('<' :: ("!--".toList ++ v))
      = (readComment? v).map fun x => (.comment x.1, x.2) := rfl

/-- A comment is read if it has an end. -/
theorem itemRun_of_comment (v : Text) :
    ItemRun ('<' :: ("!--".toList ++ v)) := by
  have hname : Name.read? ("!--".toList ++ v) = none := rfl
  have hfar : Name.furthest? ("!--".toList ++ v) = some ("!--".toList ++ v) :=
    rfl
  obtain ⟨f, hnode, hfurthest⟩ := tries_node_of_no_name hname hfar
  have hcomment := tries_comment v
  have htoken := Token.read?_comment v
  cases hread : readComment? v with
  | some x =>
      obtain ⟨b, r⟩ := x
      rw [hread] at hcomment htoken
      refine .reads (r := r) (.alt hnode hcomment) (stuckAt_leaf htoken trivial)
        (Token.length_lt_of_read? htoken) ?_
      intro w hw
      have hlt := length_lt_of_readComment? hread
      have hle := hfurthest.2 w (by simpa using hw)
      simp only [List.length_append] at hle
      omega
  | none =>
      rw [hread] at hcomment htoken
      refine .stops (.alt hnode hcomment) (hfurthest.append_left ?_)
        (.unread htoken (furthest_of_no_name hname hfar).symm)
      simp

/-- Where no name follows a `<` there is a comment, a closing tag or
nothing. -/
theorem itemRun_of_no_name {u : Text} (h : Name.read? u = none) :
    ItemRun ('<' :: u) := by
  by_cases hcomment : "<!--".toList <+: '<' :: u
  · obtain ⟨v, hv⟩ := hcomment
    obtain rfl : "!--".toList ++ v = u := (List.cons.inj hv).2
    exact itemRun_of_comment v
  · obtain ⟨far, hfar⟩ := Name.furthest?_of_none h
    obtain ⟨f, hnode, hfurthest⟩ := tries_node_of_no_name h hfar
    have hle := hfurthest.length_le hnode
    have hitem : Furthest (f ++ ['<' :: u]) (some far) :=
      hfurthest.append_left (by simpa using hle)
    have hmiss : Tries Rule.item ('<' :: u) none _ :=
      .alt hnode (tries_comment_miss hcomment)
    have hhere := furthest_of_no_name h hfar
    rcases Token.read?_of_no_name h hcomment with hread | ⟨n, r, hread⟩
    · exact .stops hmiss hitem (.unread hread hhere.symm)
    · exact .stops hmiss hitem (.closing hread hhere.symm)

-- ====================================================== content of tags

/-- A run over content reads all it can, and the readers go on behind it as
before it. -/
inductive Content (s : Text) : Prop
  | intro {r far : Text} {f : List Text}
      (run : Tries (.rule .document) s (some r) f)
      (stuck : ∀ depth, stuckAt s depth = stuckAt r depth)
      (furthest : Furthest f (some far)) (within : far.length ≤ r.length)
        (stop : Stop r far)

/-- A closing tag is tried where one can be read. -/
theorem tries_closeTag {s r : Text} {n : Name}
    (h : Token.read? .grammar s = some (.closing n, r)) :
    ∃ f, Tries (.rule .closeTag) s (some r) f ∧ ∀ u ∈ f,
      r.length < u.length := by
  obtain ⟨p, rfl, hspells, -⟩ :=
    (Token.read?_eq_some_iff Spacing.grammar_lawful).1 h
  cases hspells with
  | closing hwritable =>
      have hends : n.EndsBefore ('>' :: r) :=
        (Name.endsBefore_nil n).append (by simp [isNameChar])
      have hread : Name.read? (n.raw ++ '>' :: r) = some (n, '>' :: r) :=
        Name.read?_eq_some_iff.2 ⟨rfl, hwritable, hends⟩
      obtain ⟨f, hname, hfar⟩ := tries_tagName (n.raw ++ '>' :: r)
      rw [hread] at hname
      refine ⟨[] ++ (f ++ []), .ruleHit ?_, ?_⟩
      · have hsplit : closingTag n.raw ++ r
            = "</".toList ++ (n.raw ++ '>' :: r) := by
          simp [closingTag]
        rw [hsplit]
        exact .seq .strHit (.seq hname (.strHit (t := ">".toList)))
      · rw [List.append_nil, List.nil_append]
        refine hfar.forall_le fun w hw => ?_
        rw [Name.furthest?_of_read? hread w hw]
        have hlt := Name.length_lt_of_read? hread
        rw [List.length_cons] at hlt
        omega

/-- The name and the end of a closing tag fail where they cannot be read. -/
theorem tries_closeTag_name {v : Text} (h : Token.readClosing? v = none) :
    ∃ f, Tries (.seq Rule.tagName (.str ">".toList)) v none f
      ∧ Furthest f (Name.furthest? v) := by
  obtain ⟨f, hname, hfar⟩ := tries_tagName v
  cases hread : Name.read? v with
  | none =>
      rw [hread] at hname
      exact ⟨f, .seqMiss hname, hfar⟩
  | some x =>
      obtain ⟨n, r⟩ := x
      rw [hread] at hname
      have hend : r.head? ≠ some '>' := by
        intro hr
        obtain ⟨r, rfl⟩ := List.head?_eq_some_iff.1 hr
        simp [Token.readClosing?, hread] at h
      refine ⟨f ++ [], .seq hname (tries_char_miss hend), ?_⟩
      rwa [List.append_nil]

/-- Away from a `</` it does not matter whether a tag is open. -/
theorem furthest_eq_of_not_closing {s : Text} (h : ¬ "</".toList <+: s)
    (inside : Bool) :
    furthest inside s = furthest false s := by
  unfold furthest
  split
  · next v => exact absurd ⟨v, rfl⟩ h
  · rfl
  · rfl

/-- Where nothing can be read inside an open tag, a closing tag is tried
last, and behind its `</` the furthest attempt is one at its name. -/
theorem tries_closeTag_of_none {s : Text} {f : List Text}
    (h : Token.read? .grammar s = none)
    (hfar : Furthest f (some (furthest false s)))
    (hle : (furthest false s).length ≤ s.length) :
    ∃ f', Tries (.rule .closeTag) s none f'
      ∧ Furthest (f ++ f') (some (furthest true s)) := by
  by_cases hclose : "</".toList <+: s
  · obtain ⟨v, rfl⟩ := hclose
    obtain ⟨f', hname, hfurther⟩ := tries_closeTag_name (v := v) h
    refine ⟨_, .ruleMiss (.seq .strHit hname), ?_⟩
    rw [List.nil_append]
    have houtside : furthest false ("</".toList ++ v) = '/' :: v := rfl
    have hinside : furthest true ("</".toList ++ v)
        = (Name.furthest? v).getD ('/' :: v) := rfl
    rw [houtside] at hfar
    rw [hinside]
    cases hlast : Name.furthest? v with
    | none =>
        rw [hlast] at hfurther
        obtain rfl : f' = [] := hfurther
        exact hfar.append_left (by simp)
    | some far =>
        rw [hlast] at hfurther
        have hlt := hfurther.length_le hname
        have hfar : ∀ u ∈ f ++ ["</".toList ++ v], far.length ≤ u.length := by
          intro u hu
          have hu := (hfar.append_left (by simp)).2 u hu
          rw [List.length_cons] at hu
          omega
        rw [List.append_cons]
        exact hfurther.append hfar
  · rw [furthest_eq_of_not_closing hclose]
    exact ⟨[s], .ruleMiss (.seqMiss (.strMiss hclose)),
      hfar.append_left (by simpa using hle)⟩

/-- The attempts before a closing tag fail at its name at the latest. -/
theorem length_lt_furthest_of_closing {s r : Text} {n : Name}
    (h : Token.read? .grammar s = some (.closing n, r)) :
    r.length < (furthest false s).length := by
  obtain ⟨p, rfl, hspells, -⟩ :=
    (Token.read?_eq_some_iff Spacing.grammar_lawful).1 h
  cases hspells with
  | closing =>
      have hfar : furthest false (closingTag n.raw ++ r)
          = '/' :: (n.raw ++ ['>'] ++ r) := rfl
      rw [hfar]
      simp only [List.length_cons, List.length_append]
      omega

/-- No closing tag stands where an opening tag can be read. -/
theorem tries_closeTag_of_opening {s r : Text} {n : Name} {as : List Attribute}
    (h : Token.read? .grammar s = some (.opening n as, r)) :
    Tries (.rule .closeTag) s none [s] := by
  refine .ruleMiss (.seqMiss (.strMiss ?_))
  rintro ⟨v, rfl⟩
  have hread : Token.readClosing? v = some (.opening n as, r) := h
  obtain ⟨_, -, -, hclosing⟩ := Token.readClosing?_eq_some_iff.1 hread
  cases hclosing

-- =============================================================== tags

section Tags

variable {u r e : Text} {n : Name}

/-- What the readers compute where a name follows a `<`. -/
theorem furthest_of_name (h : Name.read? u = some (n, r)) :
    furthest false ('<' :: u)
      = Attribute.furthest (Attribute.readAll .grammar r).2 := by
  unfold furthest
  split
  · next heq =>
    obtain rfl := (List.cons.inj heq).2
    cases h
  · next heq =>
    obtain rfl := (List.cons.inj heq).2
    rw [h]
  · next hlt => exact absurd rfl (hlt u)

theorem not_comment_of_name (h : Name.read? u = some (n, r)) :
    ¬ "<!--".toList <+: '<' :: u := by
  rintro ⟨v, hv⟩
  obtain rfl := (List.cons.inj hv).2
  cases h

/-- At the end of a tag no name of an attribute starts. -/
theorem Attribute.furthest_of_end {s : Text} {c : Char} (hc : c.isAlpha = false)
    (h : s.dropWhile Spacing.grammar.isSpace = c :: e) :
    Attribute.furthest s = c :: e := by
  have hword : Text.word? isNameChar (s.dropWhile Spacing.grammar.isSpace)
      = none := by
    rw [h, Text.word?, hc]
    rfl
  rw [(Attribute.read?_of_no_name hword).2, h]

/-- Where a name follows a `<`, what can be read there is a tag. -/
theorem Token.read?_of_name (h : Name.read? u = some (n, r)) :
    Token.read? .grammar ('<' :: u) = Token.readTag? .grammar u := by
  obtain ⟨head, rfl, hhead⟩ := TagHead.of_read Spacing.grammar_lawful h rfl
  exact Token.read?_tag hhead

/-- A tag that has no end cannot be read. -/
theorem itemRun_of_no_end (h : Name.read? u = some (n, r))
    (he : (Attribute.readAll .grammar r).2.dropWhile Spacing.grammar.isSpace
      = e)
    (hopening : ¬ ">".toList <+: e) (hselfClosing : ¬ "/>".toList <+: e) :
    ItemRun ('<' :: u) := by
  obtain ⟨f, hstart, hfar⟩ := tries_tagStart_of_some h
  rw [he] at hstart
  have hread : Token.read? .grammar ('<' :: u) = none := by
    rw [Token.read?_of_name h]
    refine Option.eq_none_iff_forall_ne_some.2 fun x hx => ?_
    have hending := (Token.readTag?_eq_some_iff_tagEnding h).1 hx
    rw [he] at hending
    generalize x.1 = t, x.2 = rest at hending
    cases hending with
    | opening => exact hopening ⟨_, rfl⟩
    | selfClosing => exact hselfClosing ⟨_, rfl⟩
  have htag : Tries (.rule .tag) ('<' :: u) none _ :=
    .ruleMiss (.seq hstart (.seqMiss (.strMiss hopening)))
  have hself : Tries (.rule .selfClosingTag) ('<' :: u) none _ :=
    .ruleMiss (.seq hstart (.strMiss hselfClosing))
  have hle := hfar.length_le hstart
  have hcons : Furthest (('<' :: u) :: f ++ []) _ :=
    (hfar.cons hle).append_left (by simp)
  exact .stops (tries_item_miss htag hself (by simp [Text.AtTag])
    (not_comment_of_name h))
    (hcons.item hcons.2 hle) (.unread hread (furthest_of_name h).symm)

/-- A tag that ends with `/>` is read. -/
theorem itemRun_of_selfClosing (h : Name.read? u = some (n, r))
    (he : (Attribute.readAll .grammar r).2.dropWhile Spacing.grammar.isSpace
      = '/' :: '>' :: e) :
    ItemRun ('<' :: u) := by
  obtain ⟨f, hstart, hfar⟩ := tries_tagStart_of_some h
  rw [Attribute.furthest_of_end rfl he] at hfar
  rw [he] at hstart
  have hread : Token.read? .grammar ('<' :: u)
      = some (.selfClosing n (Attribute.readAll .grammar r).1, e) := by
    rw [Token.read?_of_name h, Token.readTag?_eq_some_iff_tagEnding h, he]
    exact .selfClosing
  have htag : Tries (.rule .tag) ('<' :: u) none _ :=
    .ruleMiss (.seq hstart (.seqMiss (tries_char_miss (c := '>') (by simp))))
  have hself : Tries (.rule .selfClosingTag) ('<' :: u) (some e) _ :=
    .ruleHit (.seq hstart (.strHit (t := "/>".toList)))
  refine .reads (.altHit (.alt htag (.altHit hself)))
    (stuckAt_leaf hread trivial) (Token.length_lt_of_read? hread) ?_
  intro w hw
  have hw : w = '<' :: u ∨ w ∈ f := by simpa using hw
  rcases hw with rfl | hw
  · exact Token.length_lt_of_read? hread
  · have hle := hfar.2 w hw
    simp only [List.length_cons] at hle
    omega

section Opening

variable (h : Name.read? u = some (n, r))
  (he : (Attribute.readAll .grammar r).2.dropWhile Spacing.grammar.isSpace
    = '>' :: e)

include h he

theorem Token.read?_of_opening :
    Token.read? .grammar ('<' :: u)
      = some (.opening n (Attribute.readAll .grammar r).1, e) := by
  rw [Token.read?_of_name h, Token.readTag?_eq_some_iff_tagEnding h, he]
  exact .opening

/-- A tag is read up to the closing tag behind its content. -/
theorem itemRun_of_closed {s far : Text} {f₂ : List Text}
    (hcontent : Tries (.rule .document) e (some s) f₂)
    (hstuck : ∀ depth, stuckAt e depth = stuckAt s depth)
    (hfar₂ : Furthest f₂ (some far)) {m : Name} {rest : Text}
    (hclosing : Token.read? .grammar s = some (.closing m, rest))
    (hhere : far = furthest false s) : ItemRun ('<' :: u) := by
  obtain ⟨f₁, hstart, hfar₁⟩ := tries_tagStart_of_some h
  rw [Attribute.furthest_of_end rfl he] at hfar₁
  rw [he] at hstart
  obtain ⟨f₃, hclose, hbefore⟩ := tries_closeTag hclosing
  have hopening := Token.read?_of_opening h he
  have htag : Tries (.rule .tag) ('<' :: u) (some rest) _ :=
    .ruleHit
      (.seq hstart (.seq (.strHit (t := ">".toList)) (.seq hcontent hclose)))
  -- what is left gets shorter from part to part
  have hle : s.length ≤ e.length := (hcontent.suffix.1 s rfl).length_le
  have hlt := Token.length_lt_of_read? hclosing
  refine .reads (.altHit (.altHit htag)) ?_ ?_ ?_
  · intro depth
    rw [stuckAt_opening hopening, hstuck, stuckAt_closing hclosing]
  · have := Token.length_lt_of_read? hopening
    omega
  · intro w hw
    have hw : w ∈ f₁ ∨ w ∈ f₂ ∨ w ∈ f₃ := by simpa using hw
    rcases hw with hw | hw | hw
    · have hw := hfar₁.2 w hw
      rw [List.length_cons] at hw
      omega
    · have hw := hfar₂.2 w hw
      have hlate := length_lt_furthest_of_closing hclosing
      rw [← hhere] at hlate
      omega
    · exact hbefore w hw

/-- A tag cannot be read if no closing tag is behind its content. What was
tried inside of it is further than anything tried before. -/
theorem itemRun_of_unclosed {s far : Text} {f₂ f₃ : List Text}
    (hcontent : Tries (.rule .document) e (some s) f₂)
    (hclose : Tries (.rule .closeTag) s none f₃)
    (hfar₂ : Furthest (f₂ ++ f₃) (some far))
    (hstuck : ∀ depth, stuckAt e (depth + 1) = some far) :
    ItemRun ('<' :: u) := by
  obtain ⟨f₁, hstart, hfar₁⟩ := tries_tagStart_of_some h
  rw [Attribute.furthest_of_end rfl he] at hfar₁
  rw [he] at hstart
  have hopening := Token.read?_of_opening h he
  have hinside : Tries (.seq (.str ">".toList)
      (.seq (.rule .document) (.rule .closeTag)))
      ('>' :: e) none ([] ++ (f₂ ++ f₃)) :=
    .seq (.strHit (t := ">".toList)) (.seq hcontent hclose)
  have htag : Tries (.rule .tag) ('<' :: u) none _ :=
    .ruleMiss (.seq hstart hinside)
  have hself : Tries (.rule .selfClosingTag) ('<' :: u) none _ :=
    .ruleMiss (.seq hstart (.strMiss (by simp)))
  have hle : far.length ≤ ('>' :: e).length := hfar₂.length_le hinside
  have hbefore : ∀ w ∈ f₁, far.length ≤ w.length :=
    fun w hw => Nat.le_trans hle (hfar₁.2 w hw)
  have hs : far.length ≤ ('<' :: u).length :=
    Nat.le_trans hle (hstart.suffix.1 _ rfl).length_le
  refine .stops (tries_item_miss htag hself (by simp [Text.AtTag])
    (not_comment_of_name h))
    (((hfar₂.append hbefore).cons hs).item ?_ hs)
      (.unclosed hopening fun depth => ?_)
  · intro w hw
    have hw : w = '<' :: u ∨ w ∈ f₁ := by simpa using hw
    rcases hw with rfl | hw
    · exact hs
    · exact hbefore w hw
  · rw [stuckAt_opening hopening, hstuck]

/-- A tag is read if its content is followed by a closing tag. -/
theorem itemRun_of_opening (hcontent : Content e) : ItemRun ('<' :: u) := by
  obtain ⟨hrun, hstuck, hfar, hwithin, hstop⟩ := hcontent
  cases hstop with
  | closing hread hhere =>
      exact itemRun_of_closed h he hrun hstuck hfar hread hhere
  | unread hread hhere =>
      rw [hhere] at hfar hwithin
      obtain ⟨f₃, hclose, hfurther⟩ := tries_closeTag_of_none hread hfar hwithin
      refine itemRun_of_unclosed h he hrun hclose hfurther fun depth => ?_
      rw [hstuck, stuckAt_none hread]
      simp
  | unclosed hread hinside =>
      refine itemRun_of_unclosed h he hrun (tries_closeTag_of_opening hread)
        (hfar.append_left (by simpa using hwithin)) fun depth => ?_
      rw [hstuck, hinside]

end Opening

/-- Where a name follows a `<` there is a tag or nothing. -/
theorem itemRun_of_name (h : Name.read? u = some (n, r))
    (hcontent : ∀ e : Text, e.length < ('<' :: u).length → Content e) :
    ItemRun ('<' :: u) := by
  generalize he : (Attribute.readAll .grammar r).2.dropWhile
    Spacing.grammar.isSpace = e
  by_cases hopening : ">".toList <+: e
  · obtain ⟨e, rfl⟩ := hopening
    have hlt := Token.length_lt_of_read? (Token.read?_of_opening h he)
    exact itemRun_of_opening h he (hcontent e hlt)
  · by_cases hselfClosing : "/>".toList <+: e
    · obtain ⟨e, rfl⟩ := hselfClosing
      exact itemRun_of_selfClosing h he
    · exact itemRun_of_no_end h he hopening hselfClosing

end Tags

/-- What becomes of an item. -/
theorem itemRun (s : Text)
    (hcontent : ∀ e : Text, e.length < s.length → Content e) :
    ItemRun s := by
  by_cases hhead : s.head? = some '<'
  · obtain ⟨u, rfl⟩ := List.head?_eq_some_iff.1 hhead
    cases hname : Name.read? u with
    | none => exact itemRun_of_no_name hname
    | some x => exact itemRun_of_name hname hcontent
  · exact itemRun_of_head hhead

/-- Content is read up to where it stops. -/
theorem content (s : Text) : Content s := by
  cases itemRun s fun e _ => content e with
  | @reads r f hrun hstuck hlt hbefore =>
      obtain ⟨hmore, hstuck', hfar, hwithin, hstop⟩ := content r
      have hle := hfar.length_le hmore
      cases hmore with
      | ruleHit hmore =>
          refine ⟨.ruleHit (.star hrun hmore),
            fun depth => (hstuck depth).trans (hstuck' depth),
            hfar.append fun u hu => ?_, hwithin, hstop⟩
          have hlt := hbefore u hu
          omega
  | stops hrun hfar hstop =>
      exact ⟨.ruleHit (.starMiss hrun), fun _ => rfl, hfar,
        hfar.length_le hrun, hstop⟩
termination_by s.length

-- ========================================================== templates

/-- The grammar accepts a template. -/
def Accepted (s : Text) : Prop := ∃ f, Tries (.rule .template) s (some []) f

/-- The grammar rejects a template, and the furthest attempt that has failed
is the one at `far`. -/
def RejectedAt (s far : Text) : Prop :=
  ∃ f, Tries (.rule .template) s none f ∧ Furthest f (some far)

theorem tries_endOfInput : Tries (.rule .endOfInput) [] (some []) [] :=
  .ruleHit (.notHit (.charMiss (by simp)))

theorem tries_endOfInput_miss {s : Text} (h : s ≠ []) :
    Tries (.rule .endOfInput) s none [s] := by
  obtain ⟨c, s, rfl⟩ := List.exists_cons_of_ne_nil h
  exact .ruleMiss (.notMiss (.charHit rfl))

/-- The grammar accepts where the readers are not stuck, and rejects at the
point at which they are. -/
theorem runs_template (s : Text) :
    Accepted s ∧ stuckAt s 0 = none ∨ ∃ far,
      RejectedAt s far ∧ stuckAt s 0 = some far := by
  obtain @⟨r, far, f, hrun, hstuck, hfar, hwithin, hstop⟩ := content s
  have hrejected : r ≠ [] → RejectedAt s far := by
    intro hr
    have hle := hfar.length_le hrun
    exact ⟨_, .ruleMiss (.seq hrun (tries_endOfInput_miss hr)),
      (hfar.append_left (by simpa using hwithin)).cons hle⟩
  have hne : ∀ {x : Token × Text}, Token.read? .grammar r = some x
      → r ≠ [] := by
    rintro x hx rfl
    cases hx
  rw [hstuck]
  cases hstop with
  | unread hread hhere =>
      rw [stuckAt_none hread]
      by_cases hr : r = []
      · subst hr
        exact Or.inl ⟨⟨_, .ruleHit (.seq hrun tries_endOfInput)⟩, rfl⟩
      · exact Or.inr ⟨far, hrejected hr, by simp [hr, hhere]⟩
  | closing hread hhere =>
      exact Or.inr ⟨far, hrejected
        (hne hread), by rw [stuckAt_closing_zero hread, hhere]⟩
  | unclosed hread hinside =>
      exact Or.inr ⟨far, hrejected (hne hread), hinside 0⟩

theorem accepted_iff (s : Text) : Accepted s ↔ stuckAt s 0 = none := by
  rcases runs_template s with ⟨haccepted, hnone⟩ | ⟨far, ⟨f, hrun, -⟩, hsome⟩
  · exact iff_of_true haccepted hnone
  · refine iff_of_false ?_ (by simp [hsome])
    rintro ⟨f', hrun'⟩
    cases (hrun.unique hrun').1

theorem rejectedAt_iff (s far : Text) :
    RejectedAt s far ↔ stuckAt s 0 = some far := by
  rcases runs_template s with ⟨⟨f, hrun⟩, hnone⟩
    | ⟨far', ⟨f, hrun, hfar⟩, hsome⟩
  · refine iff_of_false ?_ (by simp [hnone])
    rintro ⟨f', hrun', -⟩
    cases (hrun.unique hrun').1
  · rw [hsome, Option.some.injEq]
    constructor
    · rintro ⟨f', hrun', hfar'⟩
      obtain ⟨-, rfl⟩ := hrun.unique hrun'
      exact hfar.unique hfar' hrun.suffix.2
    · rintro rfl
      exact ⟨f, hrun, hfar⟩

end Stencil
