/-
Jil.SourceTree — the files that a path can name.

A tree is a directory with the files below it. A path is followed segment by
segment: every segment has to start from a directory, an empty one and a dot
stay there, two dots lead to the directory above, and a name leads to what has
it. So a path never leaves the tree (`has_of_follow`). A path that begins at the
root is looked up among the standard devices, any other below the working
directory.
-/
import Jil.Text.Split

namespace Jil

/-- A directory with the files below it. -/
structure SourceTree where
  /-- The files, each with the names that lead to it. -/
  files : List (List String × String) := []
  /-- Whether the directory is the root, which is its own directory above. -/
  rooted : Bool := false
  deriving DecidableEq, Repr

namespace SourceTree

/-! ## Paths -/

/-- The segments of a path. -/
def segments (path : String) : List String := (Text.pieces '/' path.toList).map String.ofList

/-- The names in a path that only goes down. -/
def names (path : String) : List String := (segments path).filter fun s => s ≠ "" ∧ s ≠ "."

/-- The tree below a directory with the given files, each with its path. -/
def ofFiles (l : List (String × String)) : SourceTree :=
  { files := l.map fun (path, text) => (names path, text) }

/-! ## Places -/

/-- Whether some names lead to a directory. -/
def isDirectory (t : SourceTree) (place : List String) : Bool :=
  place = [] || t.files.any fun f => place.isPrefixOf f.1 && place ≠ f.1

/-- Whether some names lead to a directory or a file. -/
def has (t : SourceTree) (place : List String) : Bool :=
  place = [] || t.files.any fun f => place.isPrefixOf f.1

/-- Follows one segment. -/
def step (t : SourceTree) (place : List String) (segment : String) : Option (List String) :=
  if t.isDirectory place then
    if segment = "" ∨ segment = "." then some place
    else if segment = ".." then
      if place = [] ∧ !t.rooted then none else some place.dropLast
    else if t.has (place ++ [segment]) then some (place ++ [segment])
    else none
  else none

/-- Follows a path. -/
def follow (t : SourceTree) (path : String) : Option (List String) :=
  (segments path).foldlM t.step []

/-- The text of the file that a path leads to. -/
def read? (t : SourceTree) (path : String) : Option String :=
  (t.follow path).bind fun place => t.files.lookup place

/-! ## Laws -/

theorem has_of_isDirectory {t : SourceTree} {place : List String}
    (h : t.isDirectory place = true) : t.has place = true := by
  simp only [isDirectory, has, Bool.or_eq_true, decide_eq_true_eq, List.any_eq_true,
    Bool.and_eq_true] at h ⊢
  exact h.imp_right fun ⟨f, hf, hp, _⟩ => ⟨f, hf, hp⟩

theorem has_dropLast {t : SourceTree} {place : List String}
    (h : t.has place = true) : t.has place.dropLast = true := by
  simp only [has, Bool.or_eq_true, decide_eq_true_eq, List.any_eq_true,
    List.isPrefixOf_iff_prefix] at h ⊢
  rcases h with rfl | ⟨f, hf, hp⟩
  · exact .inl rfl
  · exact .inr ⟨f, hf, place.dropLast_prefix.trans hp⟩

/-- A segment leads to something that the tree has. -/
theorem has_of_step {t : SourceTree} {place after : List String} {segment : String}
    (h : t.step place segment = some after) : t.has after = true := by
  unfold step at h
  split at h
  · next hd =>
    have hp := has_of_isDirectory hd
    split at h
    · cases h; exact hp
    · split at h
      · split at h
        · cases h
        · cases h; exact has_dropLast hp
      · split at h
        · next he => cases h; exact he
        · cases h
  · cases h

/-- A path leads to something that the tree has. -/
theorem has_of_follow {t : SourceTree} {path : String} {place : List String}
    (h : t.follow path = some place) : t.has place = true := by
  have hfold : ∀ (l : List String) (start : List String), t.has start = true →
      l.foldlM t.step start = some place → t.has place = true := by
    intro l
    induction l with
    | nil =>
      intro start hstart hl
      cases hl
      exact hstart
    | cons segment l ih =>
      intro start hstart hl
      rw [List.foldlM_cons] at hl
      obtain ⟨mid, hmid, hrest⟩ := Option.bind_eq_some_iff.1 hl
      exact ih mid (has_of_step hmid) hrest
  exact hfold (segments path) [] rfl h

/-! ## A run's view -/

/-- The devices that every run finds below the root: an empty one, and standard input. -/
def devices (stdin : String) : SourceTree :=
  { files := [(["dev", "null"], ""), (["dev", "stdin"], stdin), (["dev", "fd", "0"], stdin)]
    rooted := true }

/-- The text that a run in the directory `t` reads for a path. -/
def readIn? (t : SourceTree) (stdin path : String) : Option String :=
  if path.toList.head? = some '/' then (devices stdin).read? path else t.read? path

end SourceTree

end Jil
