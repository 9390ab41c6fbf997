/-
Jil.Text.Integer — integers in positional notation.

`readNat?` reads a non-empty run of digits; `readUnsigned?` and `readSigned?`
add the sign that each kind of number admits and a range, outside of which the
text is refused.
-/
namespace Jil.Text

/-! ## Digits -/

/-- Value of a digit in `radix`, which is at most 16; letters count in either case. -/
def digit? (radix : Nat) (c : Char) : Option Nat :=
  let n := c.toNat
  let value :=
    if 48 ≤ n ∧ n ≤ 57 then some (n - 48)
    else if 97 ≤ n ∧ n ≤ 102 then some (n - 87)
    else if 65 ≤ n ∧ n ≤ 70 then some (n - 55)
    else none
  value.filter (· < radix)

/-- Value of a run of digits that continues a number whose digits so far are worth `acc`. -/
def foldDigits? (radix acc : Nat) : List Char → Option Nat
  | [] => some acc
  | c :: s => (digit? radix c).bind fun d => foldDigits? radix (acc * radix + d) s

/-- Value of a text that holds digits only, at least one. -/
def readNat? (radix : Nat) : List Char → Option Nat
  | [] => none
  | s => foldDigits? radix 0 s

/-! ## Ranges -/

/-- Reads a number from 0 to `high`; one plus sign may stand in front. -/
def readUnsigned? (high : Nat) (s : List Char) : Option Nat :=
  let digits := match s with
    | '+' :: r => r
    | _ => s
  (readNat? 10 digits).filter (· ≤ high)

/-- Reads a number of `bits` bits in two's complement; one sign may stand in front. -/
def readSigned? (radix bits : Nat) (s : List Char) : Option Int :=
  let value : Option Int := match s with
    | '+' :: r => (readNat? radix r).map Int.ofNat
    | '-' :: r => (readNat? radix r).map fun n => -(n : Int)
    | _ => (readNat? radix s).map Int.ofNat
  value.filter fun v => -(2 ^ (bits - 1) : Int) ≤ v ∧ v < 2 ^ (bits - 1)

/-! ## Fixed places -/

/-- The numeral of a digit below 16, letters in lower case. -/
def digitChar (d : Nat) : Char :=
  if d < 10 then Char.ofNat (48 + d) else Char.ofNat (87 + d)

/-- The last `places` digits of `n` in `radix`, leading zeros kept. -/
def fixedDigits (radix : Nat) : Nat → Nat → List Char
  | 0, _ => []
  | places + 1, n => fixedDigits radix places (n / radix) ++ [digitChar (n % radix)]

end Jil.Text
