/-
Jil.Numeric.BinaryFloat — binary interchange formats, as bit patterns.

A format is given by its precision and the width of its exponent field. A
non-negative fraction is rounded to the nearest value of the format, a tie to
the even neighbour, in exact arithmetic on natural numbers. The bit pattern of
a positive finite value `q · 2 ^ e` is `(e - least) · 2 ^ (precision - 1) + q`
for normal and subnormal values alike, because the hidden bit of `q` adds one
to the exponent field.
-/

-- powers are the core library's own, also beside a library that has them in every monoid
attribute [instance (high), default_instance high] instPowNat

namespace Jil.Numeric

/-- A binary format: bits of the significand, hidden bit included, and of the exponent
field. -/
structure BinaryFormat where
  precision : Nat
  exponentBits : Nat
  deriving DecidableEq, Repr

namespace BinaryFormat

/-- The 32-bit format. -/
def single : BinaryFormat := ⟨24, 8⟩

/-- The 64-bit format. -/
def double : BinaryFormat := ⟨53, 11⟩

/-- Bits of a whole value. -/
def width (f : BinaryFormat) : Nat := f.precision + f.exponentBits

/-- Minus the exponent of the last place of the smallest values: `2 ^ -leastPlace` is the least
positive value. -/
def leastPlace (f : BinaryFormat) : Nat := 2 ^ (f.exponentBits - 1) + f.precision - 3

/-- Pattern of positive infinity. -/
def infinity (f : BinaryFormat) : Nat := (2 ^ f.exponentBits - 1) * 2 ^ (f.precision - 1)

/-- Pattern of the quiet value that is not a number. -/
def notANumber (f : BinaryFormat) : Nat := f.infinity + 2 ^ (f.precision - 2)

/-- The pattern of the opposite sign of a positive pattern. -/
def negate (f : BinaryFormat) (pattern : Nat) : Nat := 2 ^ (f.width - 1) + pattern

end BinaryFormat

/-- The natural number nearest to `num / den`, a tie going to the even one. -/
def roundHalfEven (num den : Nat) : Nat :=
  let q := num / den
  let twice := 2 * (num % den)
  if twice < den then q
  else if den < twice then q + 1
  else if q % 2 = 0 then q else q + 1

namespace BinaryFormat

/-- `num / den` divided by `2 ^ e`, as a fraction. -/
def scale (num den : Nat) (e : Int) : Nat × Nat :=
  if 0 ≤ e then (num, den * 2 ^ e.toNat) else (num * 2 ^ (-e).toNat, den)

/-- Exponent of the last place of `num / den` at full precision, or of the least place where
the value is too small for that. -/
def lastPlace (f : BinaryFormat) (num den : Nat) : Int :=
  let guess : Int := (num.log2 : Int) - den.log2 - f.precision
  let (n, d) := scale num den guess
  let exact := if d * 2 ^ f.precision ≤ n then guess + 1 else guess
  max exact (-(f.leastPlace : Int))

/-- Pattern of the value nearest to `num / den`; values past the largest one are infinite. -/
def ofFraction (f : BinaryFormat) (num den : Nat) : Nat :=
  if num = 0 then 0
  else
    let e := f.lastPlace num den
    let (n, d) := scale num den e
    let place := (e + f.leastPlace).toNat
    min f.infinity (place * 2 ^ (f.precision - 1) + roundHalfEven n d)

end BinaryFormat

end Jil.Numeric
