/-
Jil.Literal — the values of literals.

`bits? t s` is the bit pattern that the text `s` stands for at type `t`, as a
signed number of at most 64 bits, or nothing when `s` is no literal of `t`.
Integers are decimal or hexadecimal and have to lie in the range of their type;
a `char` may also be a character between single quotes. A trailing `L` is
allowed at `long`, `F` at `float` and `D` at `double`, in either case.
-/
import Jil.Numeric.DecimalFloat
import Jil.Text.Blank
import Jil.Text.Split
import Jil.Ty

namespace Jil.Literal

open Jil.Text Jil.Numeric

/-! ## Integers -/

/-- Whether a value lies in the range of a signed type of `bits` bits. -/
def fitsSigned (bits : Nat) (v : Int) : Bool :=
  -(2 ^ (bits - 1) : Int) ≤ v && v < 2 ^ (bits - 1)

/-- Bits of the numbers that are read before their range is looked at. -/
def readBits : Nat := 128

/-- The value of the digits of a literal, hexadecimal after `0x` or `0X`. -/
def magnitude? (s : List Char) : Option Int :=
  match (stripStart? ['0', 'x'] s).or (stripStart? ['0', 'X'] s) with
  | some hex => readSigned? 16 readBits hex
  | none => readSigned? 10 readBits s

/-- The value of an integer literal of at most 64 bits. The number after the minus sign, and
after `0x`, may have a sign of its own. -/
def integer? (s : List Char) : Option Int :=
  let value := match stripStart? ['-'] s with
    | some digits => (magnitude? digits).map fun v => -v
    | none => magnitude? s
  value.filter (fitsSigned 64)

/-! ## Characters -/

/-- The text between single quotes. -/
def unquote? (s : List Char) : Option (List Char) :=
  (stripStart? ['\''] s).bind (stripEnd? ['\''])

/-- The largest value of a `char`. -/
def charMax : Nat := 0xFFFF

/-- The value of a `char` literal. -/
def char? (s : List Char) : Option Int :=
  match unquote? s with
  | some [c] => if c.toNat ≤ charMax then some c.toNat else none
  | some _ => none
  | none => (integer? s).filter fun v => 0 ≤ v && v ≤ charMax

/-! ## Floating point -/

/-- The signed number with the same 64 bits. -/
def asSigned64 (pattern : Nat) : Int := (BitVec.ofNat 64 pattern).toInt

/-- The text without trailing characters that are among `letters`. -/
def dropSuffix (letters : List Char) (s : List Char) : List Char :=
  dropEndWhile (· ∈ letters) s

/-! ## All types -/

/-- Bit pattern of a literal of type `t`. -/
def bits? (t : Ty) (s : List Char) : Option Int :=
  match t with
  | .boolean =>
    if s = "true".toList then some 1 else if s = "false".toList then some 0 else none
  | .byte => (integer? s).filter (fitsSigned 8)
  | .short => (integer? s).filter (fitsSigned 16)
  | .int => (integer? s).filter (fitsSigned 32)
  | .long => integer? (dropSuffix ['L', 'l'] s)
  | .char => char? s
  | .float => (readFloat? .single (dropSuffix ['F', 'f'] s)).map fun p => (p : Int)
  | .double => (readFloat? .double (dropSuffix ['D', 'd'] s)).map asSigned64
  | .null => if s = "null".toList then some 0 else none
  | .void | .classRef _ | .array _ => none

end Jil.Literal
