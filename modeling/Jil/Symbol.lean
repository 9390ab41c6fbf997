/-
Jil.Symbol — names of functions and data in object files.

Symbols consist of ASCII letters, digits and underlines. Every other character
of a class, a method or a descriptor is spelled with an underline and digits,
so that the runtime finds a native method by its name.
-/
import Jil.Machine.Convention
import Jil.Text.Integer
import Jil.Ty

namespace Jil.Symbol

/-! ## Spelling of names -/

/-- The 16-bit units of a character: one, or two surrogates above the basic plane. -/
def units (c : Char) : List Nat :=
  let n := c.toNat
  if n < 0x10000 then [n]
  else [0xd800 + (n - 0x10000) / 0x400, 0xdc00 + (n - 0x10000) % 0x400]

/-- Spelling of one character. Where there is no shorter one, each 16-bit unit is an underline,
a zero and four digits in base sixteen. -/
def escape (c : Char) : List Char :=
  if c = '/' || c = '.' then ['_']
  else if c = '_' then ['_', '1']
  else if c = ';' then ['_', '2']
  else if c = '[' then ['_', '3']
  else if c.isAlphanum then [c]
  else (units c).flatMap fun unit => '_' :: '0' :: Text.fixedDigits 16 4 unit

/-- Spelling of a name. -/
def mangle (name : String) : String := String.ofList (name.toList.flatMap escape)

/-! ## Symbols -/

/-- Symbol of a native method. A method whose name is overloaded carries its parameter
types. -/
def ofMethod (owner method : String) (overload : Option (List Ty)) : String :=
  let name := "Java_" ++ mangle owner ++ "_" ++ mangle method
  match overload with
  | some params => name ++ "__" ++ String.join (params.map fun t => mangle t.descriptor)
  | none => name

/-- Symbol of the static members of a class. -/
def ofStatics (abi : Machine.Abi) (owner : String) : String :=
  abi.symbol (mangle owner ++ "_static")

end Jil.Symbol
