/-
Jil.Text.Split — taking a text apart at separators.

`cut` and `cutLast` split at the first and the last occurrence of a separator,
`pieces` at every occurrence of a character, and `lines` at line ends.
-/
namespace Jil.Text

/-! ## Fixed beginnings and ends -/

/-- What follows `start`, when the text begins with it. -/
def stripStart? : List Char → List Char → Option (List Char)
  | [], s => some s
  | _ :: _, [] => none
  | a :: start, c :: s => if a = c then stripStart? start s else none

/-- What precedes `stop`, when the text ends with it. -/
def stripEnd? (stop s : List Char) : Option (List Char) :=
  (stripStart? stop.reverse s.reverse).map List.reverse

theorem stripStart?_append (start s : List Char) :
    stripStart? start (start ++ s) = some s := by
  induction start with
  | nil => cases s <;> rfl
  | cons a start ih => simp [stripStart?, ih]

theorem eq_append_of_stripStart? {start s rest : List Char}
    (h : stripStart? start s = some rest) : s = start ++ rest := by
  fun_induction stripStart? start s with
  | case1 s => simpa using h
  | case2 => simp at h
  | case3 a start s ih => simp [ih h]
  | case4 => simp at h

theorem stripEnd?_append (s stop : List Char) : stripEnd? stop (s ++ stop) = some s := by
  simp [stripEnd?, stripStart?_append]

/-! ## One separator -/

/-- The text before and after the first occurrence of `sep`. -/
def cut (sep : List Char) : List Char → Option (List Char × List Char)
  | [] => (stripStart? sep []).map ([], ·)
  | c :: s =>
    match stripStart? sep (c :: s) with
    | some rest => some ([], rest)
    | none => (cut sep s).map fun (before, after) => (c :: before, after)

/-- The text before and after the last occurrence of `sep`. -/
def cutLast (sep : List Char) : List Char → Option (List Char × List Char)
  | [] => (stripStart? sep []).map ([], ·)
  | c :: s =>
    match cutLast sep s with
    | some (before, after) => some (c :: before, after)
    | none => (stripStart? sep (c :: s)).map ([], ·)

/-- A cut loses nothing but the separator. -/
theorem eq_append_of_cut {sep s before after : List Char}
    (h : cut sep s = some (before, after)) : s = before ++ sep ++ after := by
  induction s generalizing before with
  | nil =>
    simp only [cut, Option.map_eq_some_iff, Prod.mk.injEq] at h
    obtain ⟨rest, hr, rfl, rfl⟩ := h
    simpa using eq_append_of_stripStart? hr
  | cons c s ih =>
    simp only [cut] at h
    split at h
    · next rest hr =>
      cases h
      simpa using eq_append_of_stripStart? hr
    · simp only [Option.map_eq_some_iff, Prod.mk.injEq] at h
      obtain ⟨⟨b, a⟩, hb, rfl, rfl⟩ := h
      simp [ih hb]

/-- A cut at the last separator loses nothing but the separator. -/
theorem eq_append_of_cutLast {sep s before after : List Char}
    (h : cutLast sep s = some (before, after)) : s = before ++ sep ++ after := by
  induction s generalizing before with
  | nil =>
    simp only [cutLast, Option.map_eq_some_iff, Prod.mk.injEq] at h
    obtain ⟨rest, hr, rfl, rfl⟩ := h
    simpa using eq_append_of_stripStart? hr
  | cons c s ih =>
    simp only [cutLast] at h
    split at h
    · next b a hb =>
      cases h
      simp [ih hb]
    · simp only [Option.map_eq_some_iff, Prod.mk.injEq] at h
      obtain ⟨rest, hr, rfl, rfl⟩ := h
      simpa using eq_append_of_stripStart? hr

/-- Cuts at the first space; a text without one is all head. -/
def cutSpace (s : List Char) : List Char × List Char :=
  (cut [' '] s).getD (s, [])

/-! ## Every separator -/

/-- The pieces between the occurrences of `sep`; a text without one is a single piece. -/
def pieces (sep : Char) : List Char → List (List Char)
  | [] => [[]]
  | c :: s =>
    if c = sep then [] :: pieces sep s
    else
      match pieces sep s with
      | [] => [[c]]
      | p :: ps => (c :: p) :: ps

/-- The lines of a text. A line ends at a line feed, taken together with a carriage return
right before it; text after the last line feed is a line unless it is empty. -/
def lines (s : List Char) : List (List Char) :=
  let parts := pieces '\n' s
  let ended := parts.dropLast.map fun l => (stripEnd? ['\r'] l).getD l
  match parts.getLast? with
  | none => ended
  | some [] => ended
  | some l => ended ++ [l]

end Jil.Text
