/-
Jil.Text.Quoted — string constants between double quotes.

`encode` writes a backslash before a quote or a backslash and spells line feeds
and tabs as `\n` and `\t`; every other character stands for itself. `decode`
reads such a text back (`decode_encode`) and names the escape it refuses.
-/
import Jil.Text.Split

namespace Jil.Text.Quoted

/-- The spelling of one character inside the quotes. -/
def escape : Char → List Char
  | '"' => ['\\', '"']
  | '\\' => ['\\', '\\']
  | '\n' => ['\\', 'n']
  | '\t' => ['\\', 't']
  | c => [c]

/-- The quoted form of a text. -/
def encode (s : List Char) : List Char := '"' :: (s.flatMap escape ++ ['"'])

/-- Why a quoted text is refused. -/
inductive Fault where
  /-- There are no quotes around the text. -/
  | unquoted
  /-- A backslash stands before a character that has no escape, or at the end. -/
  | badEscape (c : Option Char)
  deriving DecidableEq, Repr

/-- Undoes the escapes of the text between the quotes. -/
def unescape : List Char → Except Fault (List Char)
  | [] => .ok []
  | '\\' :: 'n' :: r => (unescape r).map ('\n' :: ·)
  | '\\' :: 't' :: r => (unescape r).map ('\t' :: ·)
  | '\\' :: '"' :: r => (unescape r).map ('"' :: ·)
  | '\\' :: '\\' :: r => (unescape r).map ('\\' :: ·)
  | ['\\'] => .error (.badEscape none)
  | '\\' :: c :: _ => .error (.badEscape (some c))
  | c :: r => (unescape r).map (c :: ·)

/-- The text that a quoted form stands for. -/
def decode (s : List Char) : Except Fault (List Char) :=
  match (stripStart? ['"'] s).bind (stripEnd? ['"']) with
  | some inner => unescape inner
  | none => .error .unquoted

theorem unescape_escape (c : Char) (r : List Char) :
    unescape (escape c ++ r) = (unescape r).map (c :: ·) := by
  unfold escape
  split
  · rfl
  · rfl
  · rfl
  · rfl
  · next hq hb hn ht =>
    rw [List.singleton_append]
    conv => lhs; unfold unescape
    split <;> simp_all

theorem unescape_flatMap (s : List Char) : unescape (s.flatMap escape) = .ok s := by
  induction s with
  | nil => rfl
  | cons c r ih => rw [List.flatMap_cons, unescape_escape, ih]; rfl

theorem decode_encode (s : List Char) : decode (encode s) = .ok s := by
  have h :
      (stripStart? ['"'] (encode s)).bind (stripEnd? ['"']) = some (s.flatMap escape) := by
    simp [encode, stripStart?, stripEnd?_append]
  simp [decode, h, unescape_flatMap]

end Jil.Text.Quoted
