/-
The two readers of tags. The grammar and the search for a wrongly closed
tag read the same tags with two spacings: inside a tag the grammar takes
four characters for space and lets an attribute follow directly, the
search takes all white space and wants some before each attribute. Where
does this make a difference?

# One tag

Both spacings are narrower than `Spacing.loose`, which takes all white
space and wants none. So a tag that either reads is a tag for the loose
spacing, with the same name, attributes and end, and what is left to say
is which gaps the spacing allows (`Token.read?_within`). The two readers
agree at a `<` exactly if the tag there has only the four characters in
its gaps when it has a gap before every attribute, and the other way round
(`SpacedAlike`).

# The walk

The search walks from token to token with the names of the open tags
(`Walk`). Where the readers agree at every `<` that it comes to, it reports
the first closing tag that does not close the innermost open tag, and all
before it is read by the grammar.
-/
import Stencil.Proofs.Template.Recognition
import Mathlib.Data.List.Infix

namespace Stencil

-- ========================================================== spacings

/-- All white space, and none needed before an attribute. -/
def Spacing.loose : Spacing := ⟨Text.isBlank, false⟩

/-- A spacing takes only white space for space. -/
def Spacing.Within (sp : Spacing) : Prop := ∀ c, sp.isSpace c → Text.isBlank c

/-- The spacing allows `w` as the gap before an attribute. -/
def Spacing.Fits (sp : Spacing) (w : Text) : Prop :=
  (∀ c ∈ w, sp.isSpace c) ∧ (sp.separated → w ≠ [])

theorem Text.isAlpha_of_isBlank {c : Char} (h : Text.isBlank c) :
    c.isAlpha = false := by
  simp only [Text.isBlank, Text.blankRuns, List.any_cons, List.any_nil,
    Bool.or_false, Bool.or_eq_true, Bool.and_eq_true, decide_eq_true_eq] at h
  rw [Bool.eq_false_iff, ne_eq, Text.isAlpha_eq, Bool.or_eq_true,
    Text.isUpper_iff, Text.isLower_iff]
  omega

theorem Spacing.Within.lawful {sp : Spacing} (h : sp.Within) : sp.Lawful where
  notAlpha c hc := Text.isAlpha_of_isBlank (h c hc)
  notGreater := Bool.eq_false_iff.2 fun hc => by cases h _ hc
  notSlash := Bool.eq_false_iff.2 fun hc => by cases h _ hc

theorem Spacing.loose_within : Spacing.loose.Within := fun _ h => h

theorem Spacing.search_within : Spacing.search.Within := fun _ h => h

theorem Spacing.grammar_within : Spacing.grammar.Within := by
  intro c hc
  simp only [Spacing.grammar, Bool.or_eq_true, decide_eq_true_eq] at hc
  rcases hc with ((rfl | rfl) | rfl) | rfl <;> decide

-- ============================================================== gaps

/-- The white space before each of the attributes that follow. -/
def Attribute.gaps (s : Text) : List Text :=
  match _h : Attribute.read? .loose s with
  | none => []
  | some (_, r) => s.takeWhile Text.isBlank :: gaps r
termination_by s.length
decreasing_by exact Attribute.length_lt_of_read? _h

/-- The white space in the tag after its `<`: before each attribute, and
before the end. -/
def tagGaps (u : Text) : List Text × Text :=
  match Name.read? u with
  | none => ([], [])
  | some (_, r) =>
    (Attribute.gaps r, (Attribute.readAll .loose r).2.takeWhile Text.isBlank)

/-- The spacing allows the gaps of the tag after its `<`. -/
def Spacing.FitsTag (sp : Spacing) (u : Text) : Prop :=
  (∀ w ∈ (tagGaps u).1, sp.Fits w) ∧ ∀ c ∈ (tagGaps u).2, sp.isSpace c

variable {sp : Spacing}

/-- The gap before a word is all the white space there. -/
theorem Text.IsWord.scan_gap {w n : Text} (hn : n.IsWord isNameChar)
    (hw : ∀ c ∈ w, Text.isBlank c) (t : Text) :
    (w ++ (n ++ t)).takeWhile Text.isBlank = w
      ∧ (w ++ (n ++ t)).dropWhile Text.isBlank = n ++ t := by
  obtain ⟨c, n, rfl, hc⟩ := hn.exists_cons
  refine (Text.scan_eq_iff _ _ _ _).2 ⟨rfl, hw, ?_⟩
  intro d hd
  obtain rfl : c = d := by simpa using hd
  by_contra hblank
  rw [Text.isAlpha_of_isBlank (by simpa using hblank)] at hc
  cases hc

/-- A narrower spacing reads an attribute if it allows the gap before it. -/
theorem Attribute.read?_within (h : sp.Within) {s r : Text} {a : Attribute} :
    Attribute.read? sp s = some (a, r)
      ↔ Attribute.read? .loose s = some (a, r)
        ∧ sp.Fits (s.takeWhile Text.isBlank) := by
  rw [Attribute.read?_eq_some_iff h.lawful,
    Attribute.read?_eq_some_iff Spacing.loose_within.lawful]
  constructor
  · intro hread
    obtain ⟨p, rfl, @⟨w, n, v, mark, hspace, hapart, hname, hmark, hv⟩⟩ := hread
    have hblank : ∀ c ∈ w, Text.isBlank c := fun c hc => h c (hspace c hc)
    refine ⟨⟨_, rfl, .intro hblank (by simp [Spacing.loose]) hname hmark hv⟩,
      ?_⟩
    rw [List.append_assoc, List.append_assoc, (hname.scan_gap hblank _).1]
    exact ⟨hspace, hapart⟩
  · intro hread
    obtain ⟨⟨p, rfl, @⟨w, n, v, mark, hblank, -, hname, hmark, hv⟩⟩, hfits⟩ :=
      hread
    rw [List.append_assoc, List.append_assoc,
      (hname.scan_gap hblank _).1] at hfits
    exact ⟨_, rfl, .intro hfits.1 hfits.2 hname hmark hv⟩

/-- Space up to a character that is no white space, in a narrower spacing. -/
theorem dropWhile_within (h : sp.Within) {s r : Text} {c : Char}
    (hc : Text.isBlank c = false) :
    s.dropWhile sp.isSpace = c :: r
      ↔ s.dropWhile Text.isBlank = c :: r ∧ ∀ d ∈ s.takeWhile Text.isBlank,
        sp.isSpace d := by
  have hspace : sp.isSpace c = false := by
    by_contra hspace
    rw [h c (by simpa using hspace)] at hc
    cases hc
  constructor
  · intro hdrop
    obtain ⟨hs, hw, -⟩ := (Text.scan_eq_iff sp.isSpace s _ _).1 ⟨rfl, hdrop⟩
    have hscan := (Text.scan_eq_iff Text.isBlank s _ (c :: r)).2
      ⟨hs, fun d hd => h d (hw d hd), by simpa using hc⟩
    rw [hscan.1]
    exact ⟨hscan.2, hw⟩
  · intro hdrop
    obtain ⟨hs, -, -⟩ := (Text.scan_eq_iff Text.isBlank s _ _).1 ⟨rfl, hdrop.1⟩
    exact ((Text.scan_eq_iff sp.isSpace s _ _).2 ⟨hs,
      hdrop.2, by simpa using hspace⟩).2

theorem Attribute.readAll_of_none {s : Text} (h : Attribute.read? sp s = none) :
    Attribute.readAll sp s = ([], s) := by
  rw [Attribute.readAll]
  split
  · rfl
  · next hsome => rw [h] at hsome; cases hsome

/-- Where the spacing allows every gap, it reads the attributes as the loose
one does. -/
theorem Attribute.readAll_within (h : sp.Within) (s : Text)
    (hfits : ∀ w ∈ Attribute.gaps s, sp.Fits w) :
    Attribute.readAll sp s = Attribute.readAll .loose s := by
  fun_induction Attribute.gaps s with
  | case1 s hnone =>
      have hsp : Attribute.read? sp s = none := by
        refine Option.eq_none_iff_forall_ne_some.2 fun x hx => ?_
        rw [((Attribute.read?_within h).1 hx).1] at hnone
        cases hnone
      rw [Attribute.readAll_of_none hsp, Attribute.readAll_of_none hnone]
  | case2 s a r hsome ih =>
      obtain ⟨hgap, hgaps⟩ := List.forall_mem_cons.1 hfits
      have hsp := (Attribute.read?_within h).2 ⟨hsome, hgap⟩
      rw [Attribute.readAll_of_read? hsp,
        Attribute.readAll_of_read? hsome, ih hgaps]

/-- The spacing allows every gap where it comes to the end of a tag. -/
theorem Attribute.fits_of_readAll (h : sp.Within) {c : Char}
    (hc : Text.isBlank c = false) (halpha : c.isAlpha = false) {r : Text}
    (s : Text) (hend : (Attribute.readAll sp s).2.dropWhile sp.isSpace
      = c :: r) :
    ∀ w ∈ Attribute.gaps s, sp.Fits w := by
  fun_induction Attribute.gaps s with
  | case1 s hnone => simp
  | case2 s a r' hsome ih =>
      by_cases hgap : sp.Fits (s.takeWhile Text.isBlank)
      · have hsp := (Attribute.read?_within h).2 ⟨hsome, hgap⟩
        rw [Attribute.readAll_of_read? hsp] at hend
        exact List.forall_mem_cons.2 ⟨hgap, ih hend⟩
      · -- reading stops before the attribute, at its gap or at its name
        have hsp : Attribute.read? sp s = none := by
          refine Option.eq_none_iff_forall_ne_some.2 fun x hx => ?_
          exact hgap ((Attribute.read?_within h).1 hx).2
        rw [Attribute.readAll_of_none hsp, dropWhile_within h hc] at hend
        obtain ⟨p, rfl, @⟨w, n, v, mark, hblank, -, hname, -, -⟩⟩ :=
          (Attribute.read?_eq_some_iff Spacing.loose_within.lawful).1 hsome
        rw [List.append_assoc, List.append_assoc,
          (hname.scan_gap hblank _).2] at hend
        obtain ⟨d, n, rfl, hd⟩ := hname.exists_cons
        obtain rfl : d = c := (List.cons.inj hend.1).1
        rw [halpha] at hd
        cases hd

-- ============================================================ one tag

/-- The token for what follows the attributes of a tag. -/
inductive TagEnding (n : Name) (as : List Attribute) :
    Text → Token → Text → Prop
  | opening {r : Text} : TagEnding n as ('>' :: r) (.opening n as) r
  | selfClosing {r : Text} :
      TagEnding n as ('/' :: '>' :: r) (.selfClosing n as) r

/-- A tag is read where attributes and an end follow its name. -/
theorem Token.readTag?_eq_some_iff_tagEnding {u s r : Text} {n : Name}
    {t : Token} (hn : Name.read? u = some (n, s)) :
    Token.readTag? sp u = some (t, r)
      ↔ TagEnding n (Attribute.readAll sp s).1
          ((Attribute.readAll sp s).2.dropWhile sp.isSpace) t r := by
  simp only [Token.readTag?, hn]
  constructor
  · intro h
    split at h
    · next he =>
      rw [he]
      cases h
      exact .opening
    · next he =>
      rw [he]
      cases h
      exact .selfClosing
    · cases h
  · intro h
    generalize (Attribute.readAll sp s).2.dropWhile sp.isSpace = e at h
    cases h with
    | opening => rfl
    | selfClosing => rfl

/-- The end of a tag starts with neither white space nor a letter. -/
theorem TagEnding.exists_cons {n : Name} {as : List Attribute} {e r : Text}
    {t : Token} (h : TagEnding n as e t r) :
    ∃ c e', e = c :: e' ∧ Text.isBlank c = false ∧ c.isAlpha = false := by
  cases h with
  | opening => exact ⟨_, _, rfl, rfl, rfl⟩
  | selfClosing => exact ⟨_, _, rfl, rfl, rfl⟩

/-- A narrower spacing reads a tag if it allows the gaps in it. -/
theorem Token.readTag?_within (h : sp.Within) {u r : Text} {t : Token} :
    Token.readTag? sp u = some (t, r)
      ↔ Token.readTag? .loose u = some (t, r) ∧ sp.FitsTag u := by
  cases hn : Name.read? u with
  | none => simp [Token.readTag?, hn]
  | some x =>
      obtain ⟨n, s⟩ := x
      have hgaps : tagGaps u
          = (Attribute.gaps s, (Attribute.readAll .loose s).2.takeWhile
            Text.isBlank) := by
        simp only [tagGaps, hn]
      rw [readTag?_eq_some_iff_tagEnding hn, readTag?_eq_some_iff_tagEnding hn,
        Spacing.FitsTag, hgaps]
      constructor
      · intro hread
        obtain ⟨c, e, he, hblank, halpha⟩ := hread.exists_cons
        have hfits := Attribute.fits_of_readAll h hblank halpha s he
        rw [Attribute.readAll_within h s hfits] at he hread
        obtain ⟨hloose, hlast⟩ := (dropWhile_within h hblank).1 he
        rw [he] at hread
        refine ⟨?_, hfits, hlast⟩
        show TagEnding n _ ((Attribute.readAll .loose s).2.dropWhile
          Text.isBlank) t r
        rw [hloose]
        exact hread
      · intro hread
        obtain ⟨hread, hfits, hlast⟩ := hread
        obtain ⟨c, e, he, hblank, -⟩ := hread.exists_cons
        rw [he] at hread
        rw [Attribute.readAll_within h s hfits,
          (dropWhile_within h hblank).2 ⟨he, hlast⟩]
        exact hread

/-- At a `<`, a narrower spacing reads a token if it allows the gaps in it. -/
theorem Token.read?_within (h : sp.Within) {u r : Text} {t : Token} :
    Token.read? sp ('<' :: u) = some (t, r)
      ↔ Token.read? .loose ('<' :: u) = some (t, r) ∧ sp.FitsTag u := by
  -- neither the rest of a comment nor that of a closing tag starts with a name
  have hnone : ∀ {u : Text}, Name.read? u = none → sp.FitsTag u := by
    intro u hu
    simp [Spacing.FitsTag, tagGaps, hu]
  unfold Token.read?
  split
  · next heq => cases heq
  · next heq =>
    obtain rfl := (List.cons.inj heq).2
    exact (and_iff_left (hnone rfl)).symm
  · next heq =>
    obtain rfl := (List.cons.inj heq).2
    exact (and_iff_left (hnone rfl)).symm
  · next heq =>
    obtain rfl := (List.cons.inj heq).2
    exact readTag?_within h
  · next hlt heq =>
    exact absurd (List.cons.inj heq).1.symm hlt

-- ======================================================== agreement

/-- After a `<`, if a token stands there: every attribute has a gap before
it exactly if there are only the four characters of the grammar in the
gaps. -/
def SpacedAlike (u : Text) : Prop :=
  Token.read? .loose ('<' :: u) ≠ none →
    ((∀ w ∈ (tagGaps u).1, w ≠ [])
      ↔ ∀ w ∈ (tagGaps u).2 :: (tagGaps u).1, ∀ c ∈ w,
        Spacing.grammar.isSpace c)

instance : DecidablePred SpacedAlike := fun u =>
  decidable_of_iff (Token.read? .loose ('<' :: u) ≠ none →
      ((∀ w ∈ (tagGaps u).1, w ≠ [])
        ↔ ((tagGaps u).2 :: (tagGaps u).1).all (·.all Spacing.grammar.isSpace)))
    (by simp [SpacedAlike])

theorem Attribute.isBlank_of_mem_gaps (s : Text) :
    ∀ w ∈ Attribute.gaps s, ∀ c ∈ w, Text.isBlank c := by
  fun_induction Attribute.gaps s with
  | case1 s hnone => simp
  | case2 s a r hsome ih =>
      exact List.forall_mem_cons.2 ⟨fun c hc => List.mem_takeWhile_imp hc, ih⟩

theorem isBlank_of_mem_tagGaps (u : Text) :
    ∀ w ∈ (tagGaps u).2 :: (tagGaps u).1, ∀ c ∈ w, Text.isBlank c := by
  unfold tagGaps
  split
  · simp
  · next r _ =>
    exact List.forall_mem_cons.2
      ⟨fun c hc => List.mem_takeWhile_imp hc, Attribute.isBlank_of_mem_gaps r⟩

theorem Spacing.grammar_fitsTag {u : Text} :
    Spacing.grammar.FitsTag u
      ↔ ∀ w ∈ (tagGaps u).2 :: (tagGaps u).1, ∀ c ∈ w,
        Spacing.grammar.isSpace c := by
  have hfits : ∀ w, Spacing.grammar.Fits w
      ↔ ∀ c ∈ w, Spacing.grammar.isSpace c := by
    intro w
    exact and_iff_left (by simp [Spacing.grammar])
  simp only [Spacing.FitsTag, hfits, List.forall_mem_cons, and_comm]

theorem Spacing.search_fitsTag {u : Text} :
    Spacing.search.FitsTag u ↔ ∀ w ∈ (tagGaps u).1, w ≠ [] := by
  obtain ⟨hlast, hgaps⟩ := List.forall_mem_cons.1 (isBlank_of_mem_tagGaps u)
  constructor
  · intro h w hw
    exact (h.1 w hw).2 rfl
  · intro h
    exact ⟨fun w hw => ⟨hgaps w hw, fun _ => h w hw⟩, hlast⟩

/-- At a `<`, the two readers agree exactly if they allow the same gaps. -/
theorem Token.read?_search_iff_grammar (u : Text) :
    (∀ t r, Token.read? .search ('<' :: u) = some (t, r)
        ↔ Token.read? .grammar ('<' :: u) = some (t, r))
      ↔ SpacedAlike u := by
  simp only [Token.read?_within Spacing.search_within,
    Token.read?_within Spacing.grammar_within, Spacing.search_fitsTag,
    Spacing.grammar_fitsTag, SpacedAlike]
  constructor
  · intro h hsome
    obtain ⟨⟨t, r⟩, hread⟩ := Option.ne_none_iff_exists'.1 hsome
    simpa [hread] using h t r
  · intro h t r
    refine and_congr_right fun hread => h ?_
    rw [hread]
    simp

theorem SpacedAlike.read?_eq {u : Text} (h : SpacedAlike u) :
    Token.read? .search ('<' :: u) = Token.read? .grammar ('<' :: u) :=
  Option.ext fun x => (Token.read?_search_iff_grammar u).2 h x.1 x.2

/-- No text starts with a `<`, so what is spelled there can end anywhere. -/
theorem Token.read?_lt_iff_spells {u r : Text} {t : Token} :
    Token.read? .grammar ('<' :: u) = some (t, r)
      ↔ ∃ p, '<' :: u = p ++ r ∧ Token.Spells .grammar p t := by
  rw [Token.read?_eq_some_iff Spacing.grammar_lawful]
  constructor
  · intro h
    obtain ⟨p, hp, hspells, -⟩ := h
    exact ⟨p, hp, hspells⟩
  · intro h
    obtain ⟨p, hp, hspells⟩ := h
    refine ⟨p, hp, hspells, ?_⟩
    cases hspells with
    | text hne hplain =>
        obtain ⟨c, p, rfl⟩ := List.exists_cons_of_ne_nil hne
        obtain rfl := (List.cons.inj hp).1
        exact absurd (List.mem_cons_self ..) hplain
    | comment _ => trivial
    | opening _ => trivial
    | selfClosing _ => trivial
    | closing _ => trivial

-- ========================================================== the walk

/-- The open tags behind a token, innermost first, unless it closes another
than the innermost. -/
def Token.step (opened : List Text) : Token → Option (List Text)
  | .opening name _ => some (name.raw :: opened)
  | .closing name =>
    match opened with
    | [] => none
    | expected :: outer => if expected = name.raw then some outer else none
  | _ => some opened

/-- From a text with some open tags, tokens of the grammar that each may
stand there lead on to another text with its open tags. -/
inductive Walk : List Text → Text → List Text → Text → Prop
  | done {opened : List Text} {s : Text} : Walk opened s opened s
  | step {opened opened' opened'' : List Text} {p r r' : Text} {t : Token}
      (token : Token.Spells .grammar p t) (ends : t.EndsBefore r)
      (open' : t.step opened = some opened')
        (more : Walk opened' r opened'' r') :
      Walk opened (p ++ r) opened'' r'

/-- A walk stays where no token can be read. -/
theorem Walk.of_none {opened opened' : List Text} {s r : Text}
    (h : Token.read? .grammar s = none) (hwalk : Walk opened s opened' r) :
    opened = opened' ∧ s = r := by
  cases hwalk with
  | done => exact ⟨rfl, rfl⟩
  | step htoken hends _ _ =>
      rw [(Token.read?_eq_some_iff Spacing.grammar_lawful).2 ⟨_, rfl, htoken,
        hends⟩] at h
      cases h

/-- A walk stays or goes past the token that can be read. -/
theorem Walk.of_some {opened opened' : List Text} {s r r' : Text} {t : Token}
    (h : Token.read? .grammar s = some (t, r)) :
    Walk opened s opened' r'
      ↔ (opened = opened' ∧ s = r')
        ∨ ∃ next, t.step opened = some next ∧ Walk next r opened' r' := by
  constructor
  · intro hwalk
    cases hwalk with
    | done => exact Or.inl ⟨rfl, rfl⟩
    | step htoken hends hstep hmore =>
        rw [(Token.read?_eq_some_iff Spacing.grammar_lawful).2 ⟨_, rfl, htoken,
          hends⟩] at h
        cases h
        exact Or.inr ⟨_, hstep, hmore⟩
  · intro hwalk
    rcases hwalk with ⟨rfl, rfl⟩ | ⟨next, hstep, hmore⟩
    · exact .done
    · obtain ⟨p, rfl, htoken, hends⟩ :=
        (Token.read?_eq_some_iff Spacing.grammar_lawful).1 h
      exact .step htoken hends hstep hmore

theorem Walk.suffix {opened opened' : List Text} {s r : Text}
    (h : Walk opened s opened' r) :
    r <:+ s := by
  induction h with
  | done => exact List.suffix_refl _
  | step _ _ _ _ ih => exact ih.trans (List.suffix_append ..)

/-- A walk comes to a closing tag that does not close the innermost open
tag. -/
inductive WalksToMismatch (opened : List Text) (s : Text) : Fault → Text → Prop
  | intro {expected r : Text} {outer : List Text} {n : Name}
      (before : Walk opened s (expected :: outer) (closingTag n.raw ++ r))
      (name : n.Writable) (wrong : expected ≠ n.raw) :
      WalksToMismatch opened s (.mismatched expected n.raw)
        (closingTag n.raw ++ r)

theorem Token.read?_closingTag {n : Name} (h : n.Writable) (r : Text) :
    Token.read? .grammar (closingTag n.raw ++ r) = some (.closing n, r) :=
  (Token.read?_eq_some_iff Spacing.grammar_lawful).2 ⟨_, rfl,
    .closing h, trivial⟩

theorem mismatch?_of_step {opened next : List Text} {t : Token}
    (h : t.step opened = some next) (start : Text) (ts : List Located) :
    mismatch? opened (⟨t, start⟩ :: ts) = mismatch? next ts := by
  cases t with
  | text t => cases h; rw [mismatch?]; all_goals simp
  | comment b => cases h; rw [mismatch?]; all_goals simp
  | opening n as => cases h; rw [mismatch?]
  | selfClosing n as => cases h; rw [mismatch?]; all_goals simp
  | closing n =>
      cases opened with
      | nil => cases h
      | cons expected outer =>
          rw [Token.step] at h
          split at h
          · next hsame =>
            cases h
            rw [mismatch?, if_pos hsame]
          · cases h

/-- At a closing tag that is no step, the walk is at its end. -/
theorem mismatch?_closing {opened : List Text} {n : Name} (hname : n.Writable)
    {r : Text} (hstep : Token.step opened (.closing n) = none)
    (ts : List Located) (fault : Fault) (rest : Text) :
    mismatch? opened (⟨.closing n, closingTag n.raw ++ r⟩ :: ts)
      = some (fault, rest)
      ↔ WalksToMismatch opened (closingTag n.raw ++ r) fault rest := by
  have hread := Token.read?_closingTag hname r
  have hstays : ∀ {opened' : List Text} {r' : Text},
      Walk opened (closingTag n.raw ++ r) opened' r' →
        opened = opened' ∧ closingTag n.raw ++ r = r' := by
    intro opened' r' hwalk
    rcases (Walk.of_some hread).1 hwalk with hdone | ⟨next, hnext, -⟩
    · exact hdone
    · rw [hstep] at hnext
      cases hnext
  cases opened with
  | nil =>
      rw [mismatch?]
      refine ⟨fun h => (by cases h), ?_⟩
      rintro ⟨hbefore, -, -⟩
      cases (hstays hbefore).1
  | cons expected outer =>
      have hwrong : expected ≠ n.raw := by
        intro hsame
        simp [Token.step, hsame] at hstep
      rw [mismatch?, if_neg hwrong]
      constructor
      · intro h
        cases h
        exact ⟨.done, hname, hwrong⟩
      · rintro ⟨hbefore, hname', -⟩
        obtain ⟨hopened, htext⟩ := hstays hbefore
        rw [htext, Token.read?_closingTag hname'] at hread
        cases hopened
        cases hread
        rfl

/-- The tokens of the grammar have a wrong closing tag exactly where a walk
comes to it. -/
theorem mismatch?_eq_some_iff (s : Text) :
    ∀ (opened : List Text) (fault : Fault) (rest : Text),
    mismatch? opened (Token.readAll .grammar s).1 = some (fault, rest)
      ↔ WalksToMismatch opened s fault rest := by
  fun_induction Token.readAll .grammar s with
  | case1 s hnone =>
      intro opened fault rest
      refine ⟨fun h => (by cases h), ?_⟩
      rintro ⟨hbefore, hname, -⟩
      obtain ⟨-, rfl⟩ := hbefore.of_none hnone
      rw [Token.read?_closingTag hname] at hnone
      cases hnone
  | case2 s t r hread more ih =>
      intro opened fault rest
      cases hstep : t.step opened with
      | some next =>
          rw [mismatch?_of_step hstep, ih next fault rest]
          constructor
          · rintro ⟨hbefore, hname, hwrong⟩
            exact ⟨(Walk.of_some hread).2 (Or.inr ⟨next, hstep, hbefore⟩),
              hname, hwrong⟩
          · rintro ⟨hbefore, hname, hwrong⟩
            rcases (Walk.of_some hread).1 hbefore with ⟨rfl, rfl⟩
              | ⟨next', hstep', hmore⟩
            · -- the wrong closing tag itself is no step
              rw [Token.read?_closingTag hname] at hread
              cases hread
              simp [Token.step, hwrong] at hstep
            · rw [hstep] at hstep'
              cases hstep'
              exact ⟨hmore, hname, hwrong⟩
      | none =>
          obtain ⟨p, rfl, hspells, -⟩ :=
            (Token.read?_eq_some_iff Spacing.grammar_lawful).1 hread
          cases hspells with
          | text => cases hstep
          | comment => cases hstep
          | opening => cases hstep
          | selfClosing => cases hstep
          | closing hname => exact mismatch?_closing hname hstep _ fault rest

/-- Away from a `<`, every reader reads the same text. -/
theorem Token.read?_text (sp : Spacing) {c : Char} (hc : c ≠ '<') (s : Text) :
    Token.read? sp (c :: s)
      = some (.text (c :: s.takeWhile (· != '<')), s.dropWhile (· != '<')) := by
  rw [Token.read?]
  · exact fun _ h => absurd h hc
  · exact fun _ h => absurd h hc
  · exact fun h => absurd h hc

theorem Token.read?_search_eq {s : Text}
    (h : ∀ u, s = '<' :: u → SpacedAlike u) :
    Token.read? .search s = Token.read? .grammar s := by
  cases s with
  | nil => rfl
  | cons c u =>
      by_cases hc : c = '<'
      · subst hc
        exact (h u rfl).read?_eq
      · rw [Token.read?_text _ hc, Token.read?_text _ hc]

theorem Token.readAll_of_none {s : Text} (h : Token.read? sp s = none) :
    Token.readAll sp s = ([], s) := by
  rw [Token.readAll]
  split
  · rfl
  · next hsome => rw [h] at hsome; cases hsome

/-- A token that is no step decides alone what is found. -/
theorem mismatch?_of_no_step {opened : List Text} {t : Token}
    (h : t.step opened = none) (start : Text) (ts ts' : List Located) :
    mismatch? opened (⟨t, start⟩ :: ts)
      = mismatch? opened (⟨t, start⟩ :: ts') := by
  cases t with
  | text t => cases h
  | comment b => cases h
  | opening n as => cases h
  | selfClosing n as => cases h
  | closing n =>
      cases opened with
      | nil => rw [mismatch?, mismatch?]
      | cons expected outer =>
          have hwrong : expected ≠ n.raw := by
            intro hsame
            simp [Token.step, hsame] at h
          rw [mismatch?, mismatch?, if_neg hwrong, if_neg hwrong]

/-- Where the readers agree at every `<` that a walk comes to, they find the
same wrong closing tag. -/
theorem mismatch?_search_eq (s : Text) : ∀ opened : List Text,
    (∀ opened' u, Walk opened s opened' ('<' :: u) → SpacedAlike u) →
    mismatch? opened (Token.readAll .search s).1
      = mismatch? opened (Token.readAll .grammar s).1 := by
  fun_induction Token.readAll .grammar s with
  | case1 s hnone =>
      intro opened halike
      have hread :=
        Token.read?_search_eq fun u hu => halike opened u (hu ▸ .done)
      rw [Token.readAll_of_none (hread.trans hnone)]
  | case2 s t r hsome more ih =>
      intro opened halike
      have hread :=
        Token.read?_search_eq fun u hu => halike opened u (hu ▸ .done)
      rw [Token.readAll_of_read? (hread.trans hsome)]
      cases hstep : t.step opened with
      | none => exact mismatch?_of_no_step hstep s _ _
      | some next =>
          rw [mismatch?_of_step hstep, mismatch?_of_step hstep]
          refine ih next fun opened' u hwalk => halike opened' u ?_
          exact (Walk.of_some hsome).2 (Or.inr ⟨next, hstep, hwalk⟩)

-- ======================================================= the report

theorem parse_of_stuck {s far : Text}
    (h : stuck? (Token.readAll .grammar s).2 0 (Token.readAll .grammar s).1
      = some far) :
    parse s = .error (rejection s far) := by
  simp only [parse, h]

/-- Where the readers agree at every `<` that a walk comes to, a wrong
closing tag is reported for a rejected template exactly if a walk comes to
one. -/
theorem rejection_eq_mismatch_iff {s : Text} (far : Text)
    (halike : ∀ opened u, Walk [] s opened ('<' :: u) → SpacedAlike u)
    (e : TemplateError) :
    (rejection s far = e ∧ ∃ expected found,
      e.fault = .mismatched expected found)
      ↔ ∃ fault rest, WalksToMismatch [] s fault rest
        ∧ e = .atRest s rest fault := by
  rw [rejection, mismatch?_search_eq s [] halike]
  simp only [← mismatch?_eq_some_iff]
  cases hfound : mismatch? [] (Token.readAll .grammar s).1 with
  | none =>
      refine ⟨?_, by simp⟩
      rintro ⟨rfl, expected, found, hfault⟩
      cases hfault
  | some x =>
      obtain ⟨fault, rest⟩ := x
      constructor
      · rintro ⟨rfl, -⟩
        exact ⟨fault, rest, rfl, rfl⟩
      · rintro ⟨fault', rest', heq, rfl⟩
        cases heq
        refine ⟨rfl, ?_⟩
        cases (mismatch?_eq_some_iff s [] fault rest).1 hfound with
        | intro => exact ⟨_, _, rfl⟩

/-- At a `<` of a template, the search reads what the grammar spells exactly
if both allow the gaps there, and gives up where it reads nothing. Where
they allow the same at every `<` that a walk comes to, and the grammar
rejects the template, a wrong closing tag is reported exactly if a walk
comes to one. -/
theorem tagReaders_agree_iff (s : Text) :
    (∀ u, '<' :: u <:+ s →
        ((∀ t r, Token.read? .search ('<' :: u) = some (t, r)
              ↔ ∃ p, '<' :: u = p ++ r ∧ Token.Spells .grammar p t)
            ↔ SpacedAlike u)
          ∧ (Token.read? .search ('<' :: u) = none →
            ∀ opened, mismatch? opened (Token.readAll .search ('<' :: u)).1
              = none))
      ∧ ∀ far, stuck? (Token.readAll .grammar s).2 0
        (Token.readAll .grammar s).1 = some far →
        (∀ opened u, Walk [] s opened ('<' :: u) → SpacedAlike u) →
        ∀ e, (parse s = .error e ∧ ∃ expected found,
          e.fault = .mismatched expected found)
          ↔ ∃ fault rest, WalksToMismatch [] s fault rest
            ∧ e = .atRest s rest fault := by
  refine ⟨?_, ?_⟩
  · intro u _
    refine ⟨?_, ?_⟩
    · simp only [← Token.read?_lt_iff_spells]
      exact Token.read?_search_iff_grammar u
    · intro hnone opened
      rw [Token.readAll_of_none hnone, mismatch?]
  · intro far hstuck halike e
    rw [parse_of_stuck hstuck, Except.error.injEq]
    exact rejection_eq_mismatch_iff far halike e

/-- Both readers read the tag of an item with spaces in it, and the wrong
closing tag behind it is reported. -/
theorem tagReaders_agree_item :
    (∃ p, "<p b=\"1\" c=\"2\">x</div>".toList = p ++ "x</div>".toList
        ∧ Token.Spells .grammar p (.opening (.literal "p".toList)
          [⟨"b".toList, "1".toList⟩, ⟨"c".toList, "2".toList⟩]))
      ∧ parse "<div><p b=\"1\" c=\"2\">x</div>".toList
        = .error (.atRest "<div><p b=\"1\" c=\"2\">x</div>".toList
          "</div>".toList
          (.mismatched "p".toList "div".toList)) := by
  have halike : ∀ r ∈ "<div><p b=\"1\" c=\"2\">x</div>".toList.tails,
      r.head? = some '<' → SpacedAlike r.tail := by decide +kernel
  obtain ⟨hreaders, hreport⟩ :=
    tagReaders_agree_iff "<div><p b=\"1\" c=\"2\">x</div>".toList
  refine ⟨?_, ?_⟩
  · have hspaced :=
      (hreaders "p b=\"1\" c=\"2\">x</div>".toList ⟨"<div>".toList, rfl⟩).1.2
        (by decide +kernel)
    exact (hspaced _ _).1 (by decide +kernel)
  · refine ((hreport [] (by decide +kernel) ?_ _).2 ⟨_, _, ?_, rfl⟩).1
    · intro opened u hwalk
      exact halike _ ((List.mem_tails ..).2 hwalk.suffix) rfl
    · exact (mismatch?_eq_some_iff _ _ _ _).1 (by decide +kernel)

/-- The readers disagree on attributes side by side, which hide a wrong
closing tag from the report, and on white space outside of the four
characters, behind which one is reported though the grammar does not get
there. -/
theorem tagReaders_disagree :
    (Token.read? .search "<p b=\"1\"c=\"2\">x</div>".toList = none
        ∧ ∃ p, "<p b=\"1\"c=\"2\">x</div>".toList = p ++ "x</div>".toList
          ∧ Token.Spells .grammar p (.opening (.literal "p".toList)
            [⟨"b".toList, "1".toList⟩, ⟨"c".toList, "2".toList⟩]))
      ∧ (WalksToMismatch [] "<div><p b=\"1\"c=\"2\">x</div>".toList
          (.mismatched "p".toList "div".toList) "</div>".toList
        ∧ parse "<div><p b=\"1\"c=\"2\">x</div>".toList
          = .error (.atRest "<div><p b=\"1\"c=\"2\">x</div>".toList []
            (.unexpected none)))
      ∧ (Token.read? .search "<p\u00a0>x</div>".toList
          = some (.opening (.literal "p".toList) [], "x</div>".toList)
        ∧ ¬ ∃ p, "<p\u00a0>x</div>".toList = p ++ "x</div>".toList
          ∧ Token.Spells .grammar p (.opening (.literal "p".toList) []))
      ∧ (∀ fault rest, ¬ WalksToMismatch [] "<div><p\u00a0>x</div>".toList
        fault rest)
      ∧ parse "<div><p\u00a0>x</div>".toList
        = .error (.atRest "<div><p\u00a0>x</div>".toList "</div>".toList
          (.mismatched "p".toList "div".toList)) := by
  have hsideBySide : rejection "<div><p b=\"1\"c=\"2\">x</div>".toList []
      = .atRest "<div><p b=\"1\"c=\"2\">x</div>".toList []
        (.unexpected none) := by
    decide +kernel
  have hwide : rejection "<div><p\u00a0>x</div>".toList "\u00a0>x</div>".toList
      = .atRest "<div><p\u00a0>x</div>".toList "</div>".toList
        (.mismatched "p".toList "div".toList) := by
    decide +kernel
  refine ⟨⟨by decide +kernel, ?_⟩, ⟨?_, ?_⟩, ⟨by decide +kernel, ?_⟩, ?_, ?_⟩
  · exact Token.read?_lt_iff_spells.1 (by decide +kernel)
  · exact (mismatch?_eq_some_iff _ _ _ _).1 (by decide +kernel)
  · rw [← hsideBySide]
    exact parse_of_stuck (by decide +kernel)
  · intro hspells
    have hnone : Token.read? .grammar "<p\u00a0>x</div>".toList = none := by
      decide +kernel
    cases hnone.symm.trans (Token.read?_lt_iff_spells.2 hspells)
  · intro fault rest hwalk
    have hnone : mismatch? []
        (Token.readAll .grammar "<div><p\u00a0>x</div>".toList).1 = none := by
      decide +kernel
    cases hnone.symm.trans ((mismatch?_eq_some_iff _ _ _ _).2 hwalk)
  · rw [← hwide]
    exact parse_of_stuck (by decide +kernel)

end Stencil
