/-
Regular files on a disk. A `FileView` says what files the states of a disk
have and where paths lead, and a disk is lawful for it (`Disk.Lawful`) if
its three operations do to files what they are for: reading gives what the
file holds and changes nothing, making directories changes no file, and
writing puts a whole file in the place its path leads to or fails and
changes no file.

The disk of a file tree is lawful (`FileTree.disk_lawful`). Directories are
made only where nothing stands, one after the other, so that no file goes.
A written file stands where its path led before: the way there goes
through directories, and the file did not take the place of one.
-/
import Stencil.Files.Disk

namespace Stencil

-- =============================================================== laws

/-- The regular files in the states of a disk. -/
structure FileView (σ place : Type) where
  /-- The bytes of the file at a place, if one is there. -/
  file? : σ → place → Option ByteArray
  /-- The place that a path leads to. -/
  place? : σ → Text → Option place

/-- The file that a path leads to holds a text. -/
def FileView.Holds {σ place : Type} (view : FileView σ place) (s : σ)
    (path text : Text) :
    Prop :=
  ∃ p, view.place? s path = some p
    ∧ view.file? s p = some (String.ofList text).toUTF8

/-- What the operations of a disk do to regular files. -/
structure Disk.Lawful {σ place : Type} (disk : Disk (StateM σ))
    (view : FileView σ place) :
    Prop where
  /-- Reading changes nothing. -/
  read : ∀ path s, ((disk.readText path).run s).2 = s
  /-- A text that is read is that of the file. -/
  readOk : ∀ path s text, ((disk.readText path).run s).1 = .ok text
    → view.Holds s path text
  /-- Making directories, all of them or only some, changes no file. -/
  create : ∀ path s p, view.file? ((disk.createAll path).run s).2 p
    = view.file? s p
  /-- A write that fails changes no file. -/
  writeError : ∀ path text s s' e, (disk.writeText path text).run s
    = (.error e, s') →
    ∀ p, view.file? s' p = view.file? s p
  /-- A write that succeeds replaces one file as a whole, that of the path. -/
  writeOk : ∀ path text s s', (disk.writeText path text).run s = (.ok (), s') →
    ∃ p, view.place? s' path = some p
      ∧ view.file? s' p = some (String.ofList text).toUTF8
      ∧ ∀ q, q ≠ p → view.file? s' q = view.file? s q

-- ============================================================= a tree

namespace FileTree

/-- The files of a file tree. -/
def view : FileView FileTree Place where
  file? t place :=
    match t.get? place with
    | some (.file bytes) => some bytes
    | _ => none
  place? t path := (t.locate path).toOption

theorem lookup_filter_ne {place q : Place} (h : q ≠ place)
    (entries : List (Place × Entry)) :
    (entries.filter (·.1 != place)).lookup q = entries.lookup q := by
  induction entries with
  | nil => rfl
  | cons x entries ih =>
      obtain ⟨r, entry⟩ := x
      by_cases hr : r = place
      · subst hr
        have hqr : (q == r) = false := by simpa using h
        rw [List.filter_cons_of_neg (by simp), ih, List.lookup_cons, hqr]
      · rw [List.filter_cons_of_pos (by simpa using hr), List.lookup_cons,
          List.lookup_cons, ih]

/-- An entry that is put stands at its place, below the root. -/
theorem get?_put_self (t : FileTree) {place : Place} (h : place ≠ [])
    (entry : Entry) :
    (t.put place entry).get? place = some entry := by
  have hroot : place.isEmpty = false := by simpa using h
  simp [get?, put, hroot]

/-- An entry that is put leaves every other place alone. -/
theorem get?_put_other (t : FileTree) {place q : Place} (h : q ≠ place)
    (entry : Entry) :
    (t.put place entry).get? q = t.get? q := by
  have hq : (q == place) = false := by simpa using h
  unfold get?
  split
  · rfl
  · rw [put, List.lookup_cons, hq]
    exact lookup_filter_ne h t.entries

/-- The root is a directory. -/
theorem ne_nil_of_get? {t : FileTree} {place : Place}
    (h : t.get? place ≠ some .directory) :
    place ≠ [] := by
  rintro rfl
  exact h rfl

-- ======================================================== directories

/-- A directory in place of nothing changes no file. -/
theorem file?_put_directory {t : FileTree} {place : Place}
    (h : t.get? place = none) (q : Place) :
    view.file? (t.put place .directory) q = view.file? t q := by
  have hroot : place ≠ [] := ne_nil_of_get? (t := t) (by simp [h])
  simp only [view]
  by_cases hq : q = place
  · subst hq
    rw [get?_put_self t hroot, h]
  · rw [get?_put_other t hq]

theorem file?_ensureDirectory (t : FileTree) (place : Place) (steps : List Text)
    (q : Place) :
    view.file? (t.ensureDirectory place steps).1 q = view.file? t q := by
  unfold ensureDirectory
  split
  · rfl
  · split
    · next hnone => exact file?_put_directory hnone q
    · rfl
    · rfl

theorem file?_ensureDirectories (t : FileTree) (place : Place)
    (steps : List Text) (q : Place) :
    view.file? (t.ensureDirectories place steps).1 q = view.file? t q := by
  fun_induction ensureDirectories t place steps with
  | case1 => rfl
  | case2 t steps _ t₁ hmissing above t₂ e habove ih =>
      have hfirst := file?_ensureDirectory t place steps q
      rw [hmissing] at hfirst
      rw [habove] at ih
      exact ih.trans hfirst
  | case3 t steps _ t₁ hmissing above t₂ directory habove ih =>
      have hfirst := file?_ensureDirectory t place steps q
      rw [hmissing] at hfirst
      rw [habove] at ih
      exact (file?_ensureDirectory t₂ directory _ q).trans (ih.trans hfirst)
  | case4 t steps _ _ => exact file?_ensureDirectory t place steps q

theorem file?_createAll (t : FileTree) (path : Text) (q : Place) :
    view.file? (t.createAll path).1 q = view.file? t q := by
  unfold createAll
  split
  · rfl
  · exact file?_ensureDirectories t _ _ q

-- ============================================================ reading

/-- Bytes that make up a text are those of the text. -/
theorem toUTF8_of_fromUTF8? {bytes : ByteArray} {s : String}
    (h : String.fromUTF8? bytes = some s) : s.toUTF8 = bytes := by
  unfold String.fromUTF8? at h
  split at h
  · cases h
    rfl
  · cases h

/-- The bytes that are read are those of the file. -/
theorem readBytes_eq_ok {t : FileTree} {path : Text} {bytes : ByteArray}
    (h : t.readBytes path = .ok bytes) :
    ∃ place, view.place? t path = some place
      ∧ view.file? t place = some bytes := by
  unfold readBytes at h
  split at h
  · cases h
  · next place hlocate =>
    split at h
    · cases h
    · cases h
    · next hfile =>
      cases h
      refine ⟨place, ?_, ?_⟩
      · simp only [view, hlocate, Except.toOption]
      · simp only [view, hfile]

theorem holds_of_readText {t : FileTree} {path text : Text}
    (h : t.readText path = .ok text) :
    view.Holds t path text := by
  unfold readText at h
  split at h
  · cases h
  · next bytes hbytes =>
    obtain ⟨place, hplace, hfile⟩ := readBytes_eq_ok hbytes
    split at h
    · next s hs =>
      cases h
      refine ⟨place, hplace, ?_⟩
      rw [hfile, String.ofList_toList, toUTF8_of_fromUTF8? hs]
    · cases h

-- ============================================================ writing

/-- The way to a place goes through directories only, so it stays what it
is when a file is put where no directory stands. -/
theorem walk_put {t : FileTree} {target : Place}
    (h : t.get? target ≠ some .directory) (entry : Entry) {place r : Place}
    {steps : List Text} (hwalk : t.walk place steps = .ok r) :
    (t.put target entry).walk place steps = .ok r := by
  induction steps generalizing place with
  | nil => exact hwalk
  | cons s steps ih =>
      rw [walk] at hwalk
      split at hwalk
      · next hdirectory =>
        -- the walk steps from a directory, so it has not come to the target
        have hother : place ≠ target := by
          rintro rfl
          exact h hdirectory
        split at hwalk
        · cases hwalk
        · next hsize =>
          simp only [walk, get?_put_other t hother, hdirectory, if_neg hsize]
          exact ih hwalk
      · cases hwalk
      · cases hwalk

theorem locate_put {t : FileTree} {target : Place}
    (h : t.get? target ≠ some .directory) (entry : Entry) {path : Text}
    {r : Place} (hlocate : t.locate path = .ok r) :
    (t.put target entry).locate path = .ok r := by
  unfold locate at hlocate ⊢
  split at hlocate
  · cases hlocate
  · split at hlocate
    · cases hlocate
    · next hempty =>
      rw [if_neg hempty]
      exact walk_put h entry hlocate

/-- What a write that succeeds has done. -/
theorem writeText_eq_ok {t t' : FileTree} {path text : Text}
    (h : t.writeText path text = .ok t') :
    ∃ place, t.locate path = .ok place ∧ t.get? place ≠ some .directory
      ∧ t' = t.put place (.file (String.ofList text).toUTF8) := by
  unfold writeText writeBytes at h
  split at h
  · cases h
  · next place hlocate =>
    split at h
    · cases h
    · next hplace =>
      cases h
      exact ⟨place, hlocate, hplace, rfl⟩

/-- The disk of a file tree does to files what a disk should. -/
theorem disk_lawful : disk.Lawful view where
  read path t := rfl
  readOk path t text h := holds_of_readText h
  create path t p := file?_createAll t path p
  writeError path text t t' e h p := by
    simp only [disk, StateT.run] at h
    split at h
    · cases h
    · cases h
      rfl
  writeOk path text t t' h := by
    simp only [disk, StateT.run] at h
    split at h
    · next hwrite =>
      cases h
      obtain ⟨place, hlocate, hplace, rfl⟩ := writeText_eq_ok hwrite
      refine ⟨place, ?_, ?_, ?_⟩
      · simp only [view, locate_put hplace _ hlocate, Except.toOption]
      · simp only [view, get?_put_self t (ne_nil_of_get? hplace)]
      · intro q hq
        simp only [view, get?_put_other t hq]
    · cases h

end FileTree

end Stencil
