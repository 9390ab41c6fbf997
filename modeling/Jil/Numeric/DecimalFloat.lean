/-
Jil.Numeric.DecimalFloat — reading decimal text into a binary format.

The grammar is a sign, then digits with at most one point among or around them
and an optional exponent, or one of the words `inf`, `infinity` and `nan` in
any case. `Decimal` holds what a number says exactly; `Decimal.pattern` rounds
it once.
-/
import Jil.Text.Integer
import Jil.Numeric.BinaryFloat

namespace Jil.Numeric

open Jil.Text

/-- The magnitude `digits · 10 ^ exponent`, `count` being the number of digits in `digits`. -/
structure Decimal where
  digits : Nat
  count : Nat
  exponent : Int
  deriving DecidableEq, Repr

/-- What an unsigned floating-point text says. -/
inductive Magnitude where
  | finite (value : Decimal)
  | infinite
  | undefinedValue
  deriving DecidableEq, Repr

/-! ## Rounding -/

/-- Decimal exponent beyond which every value of every format here is infinite or zero. -/
def decimalReach : Int := 400

/-- Bit pattern of the nearest value of the format. A magnitude of at least
`10 ^ decimalReach` is infinite and one below `10 ^ -decimalReach` is zero, which is decided
before any power is taken, so that the powers are bounded by the length of the text. -/
def Decimal.pattern (f : BinaryFormat) (d : Decimal) : Nat :=
  if d.digits = 0 then 0
  else if decimalReach < d.exponent then f.infinity
  else if d.exponent + d.count < -decimalReach then 0
  else if 0 ≤ d.exponent then f.ofFraction (d.digits * 10 ^ d.exponent.toNat) 1
  else f.ofFraction d.digits (10 ^ (-d.exponent).toNat)

/-- Bit pattern of a magnitude. -/
def Magnitude.pattern (f : BinaryFormat) : Magnitude → Nat
  | .finite d => d.pattern f
  | .infinite => f.infinity
  | .undefinedValue => f.notANumber

/-! ## Grammar -/

/-- The decimal digits at the front of a text, and the rest. -/
def digitRun (s : List Char) : List Char × List Char :=
  s.span fun c => '0' ≤ c && c ≤ '9'

/-- The exponent part of a number, which has to end the text: nothing, or a letter
E, a sign and digits. -/
def readExponent? : List Char → Option Int
  | [] => some 0
  | e :: r =>
    if e = 'e' ∨ e = 'E' then
      match r with
      | '-' :: digits => (readNat? 10 digits).map fun n => -(n : Int)
      | '+' :: digits => (readNat? 10 digits).map Int.ofNat
      | digits => (readNat? 10 digits).map Int.ofNat
    else none

/-- Reads an unsigned number; one digit at least stands before or after the point. -/
def readDecimal? (s : List Char) : Option Decimal := do
  let (whole, r) := digitRun s
  let (part, r) := match r with
    | '.' :: r => digitRun r
    | _ => ([], r)
  let digits ← readNat? 10 (whole ++ part)
  let exponent ← readExponent? r
  some ⟨digits, (whole ++ part).length, exponent - part.length⟩

/-- A letter of the Latin alphabet in lower case, any other character as it is. -/
def foldCase (c : Char) : Char :=
  if 'A' ≤ c ∧ c ≤ 'Z' then Char.ofNat (c.toNat + 32) else c

/-- Reads an unsigned floating-point text. -/
def readMagnitude? (s : List Char) : Option Magnitude :=
  let folded := s.map foldCase
  if folded = "inf".toList ∨ folded = "infinity".toList then some .infinite
  else if folded = "nan".toList then some .undefinedValue
  else (readDecimal? s).map .finite

/-- Bit pattern of the value of the format nearest to a floating-point text. -/
def readFloat? (f : BinaryFormat) (s : List Char) : Option Nat :=
  match s with
  | '-' :: r => (readMagnitude? r).map fun m => f.negate (m.pattern f)
  | '+' :: r => (readMagnitude? r).map fun m => m.pattern f
  | _ => (readMagnitude? s).map fun m => m.pattern f

end Jil.Numeric
