/-
Jil.Assembly.Quoted — byte strings between double quotes.

The quoted form consists of printable ASCII. A quote, a backslash, a line feed
and a tab have escapes of one character; every other byte outside the printable
range is a backslash with three octal digits.
-/
import Jil.Text.Integer

namespace Jil.Assembly.Quoted

/-- Spelling of one byte. -/
def escape (b : UInt8) : List Char :=
  if b = 34 then ['\\', '"']
  else if b = 92 then ['\\', '\\']
  else if b = 10 then ['\\', 'n']
  else if b = 9 then ['\\', 't']
  else if 32 ≤ b && b ≤ 126 then [Char.ofNat b.toNat]
  else '\\' :: Text.fixedDigits 8 3 b.toNat

/-- The quoted form of a byte string. -/
def encode (bytes : List UInt8) : List Char := '"' :: (bytes.flatMap escape ++ ['"'])

/-- The quoted form of a text. -/
def ofText (s : String) : String := String.ofList (encode s.toUTF8.toList)

end Jil.Assembly.Quoted
