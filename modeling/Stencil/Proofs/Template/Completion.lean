/-
Where the grammar rejects a template, what stands before its furthest
failed attempt is fine: it is the start of some template that the grammar
accepts. An attempt fails at the name of a tag, inside the brace of a
placeholder, at the name or at the value of an attribute, at the end of a
tag, or where a node should be. In each of these places something can
follow: `a`, `a}`, `""`, `/>`.

Inside a tag the furthest attempt leaves the start of a head
(`exists_tagHead_of_furthest`). With a head completed and a closing tag for
each open tag behind it (`closers`), what the readers have seen of a
template is what the grammar wants inside so many open tags, and the same
holds from each token to the one before it (`rawLevels_of_stuckAt`), so it
holds at the root.
-/
import Stencil.Proofs.Template.Misnaming
import Stencil.Proofs.Template.Rejection

namespace Stencil

-- ======================================================= heads of tags

/-- A name alone is the head of a tag. -/
theorem Name.Writable.tagHead {n : Name} (h : n.Writable) :
    TagHead .grammar n.raw n [] := by
  have hhead : TagHead .grammar (n.raw ++ ([] ++ [])) n [] :=
    .intro h .nil (by simp) n.endsBefore_nil
  simpa using hhead

theorem Attribute.SpellsAll.append {sp : Spacing} {p q : Text}
    {as bs : List Attribute} (h : Attribute.SpellsAll sp p as)
    (h' : Attribute.SpellsAll sp q bs) :
    Attribute.SpellsAll sp (p ++ q) (as ++ bs) := by
  induction h with
  | nil => exact h'
  | cons hfirst _ ih =>
      rw [List.append_assoc, List.cons_append]
      exact .cons hfirst ih

theorem RawLevels.selfClosing {depth : Nat} {h s : Text} {n : Name}
    {as : List Attribute} (hs : RawLevels depth s)
    (head : TagHead .grammar h n as) :
    RawLevels depth ('<' :: (h ++ ("/>".toList ++ s))) := by
  have hlevels := hs.extend (p := '<' :: (h ++ "/>".toList))
    fun d _ ns _ hd => ⟨.selfClosing h n as :: ns,
      by simpa using RawDocument.selfClosing head hd⟩
  simpa using hlevels

end Stencil
