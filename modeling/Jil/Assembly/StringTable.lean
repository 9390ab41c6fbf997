/-
Jil.Assembly.StringTable — the string constants of an assembly unit.

Each text occurs once, and its label is numbered by its place in the table, so
a label stays valid while other texts are added.
-/
namespace Jil.Assembly

/-- String constants in the order in which they were first asked for. -/
structure StringTable where
  texts : List String := []
  deriving Repr, DecidableEq, Inhabited

namespace StringTable

/-- Label of the constant at a place. -/
def labelAt (index : Nat) : String := ".LC" ++ toString index

/-- The place of a text, at the end if it is new, and the table that contains it. -/
def place (t : StringTable) (text : String) : Nat × StringTable :=
  match t.texts.findIdx? (· = text) with
  | some index => (index, t)
  | none => (t.texts.length, ⟨t.texts ++ [text]⟩)

/-- The table afterwards holds the text at its place. -/
theorem getElem?_place (t : StringTable) (text : String) :
    (t.place text).2.texts[(t.place text).1]? = some text := by
  unfold place
  split
  · next index h =>
    obtain ⟨hi, hp, -⟩ := List.findIdx?_eq_some_iff_getElem.1 h
    simpa [List.getElem?_eq_getElem hi] using hp
  · simp

/-- What the table held before stays at its place. -/
theorem getElem?_place_of_lt (t : StringTable) (text : String) {index : Nat}
    (h : index < t.texts.length) : (t.place text).2.texts[index]? = t.texts[index]? := by
  unfold place
  split
  · rfl
  · exact List.getElem?_append_left h

/-- The label of a text, and the table that contains it. -/
def intern (t : StringTable) (text : String) : String × StringTable :=
  let (index, after) := t.place text
  (labelAt index, after)

/-- Number of constants. -/
def size (t : StringTable) : Nat := t.texts.length

def isEmpty (t : StringTable) : Bool := t.texts.isEmpty

/-- Labels and texts in order. -/
def entries (t : StringTable) : List (String × String) :=
  t.texts.mapIdx fun index text => (labelAt index, text)

end StringTable

end Jil.Assembly
