/-
Jil.Ty — the types of the language.

Eight primitive types that hold values, `void`, the type of the null
reference, class references and arrays. A type knows its storage size and
alignment, to which group it belongs, and its descriptor: one letter for a
primitive, `Lname;` for a class, `[` before the element of an array.
`ofDescriptor?` reads a descriptor; `void` and the null type are no element.
-/
import Jil.Text.Split

namespace Jil

open Jil.Text

/-- A type of the language. -/
inductive Ty where
  | byte
  | boolean
  | char
  | short
  | int
  | long
  | float
  | double
  | void
  /-- The type of the null reference, which every reference type accepts. -/
  | null
  /-- A class or interface, its name with slashes between the parts. -/
  | classRef (name : String)
  | array (element : Ty)
  deriving DecidableEq, Repr, Inhabited

/-- The class that every reference can be assigned to. -/
def objectClass : String := "java/lang/Object"

/-- The class of string constants. -/
def stringClass : String := "java/lang/String"

namespace Ty

/-- References to the root class. -/
def object : Ty := .classRef objectClass

/-- References to strings. -/
def string : Ty := .classRef stringClass

/-! ## Storage -/

/-- Storage size in bytes. -/
def size : Ty → Nat
  | .byte | .boolean => 1
  | .char | .short => 2
  | .int | .float => 4
  | .long | .double | .null | .classRef _ | .array _ => 8
  | .void => 0

/-- Alignment in bytes: the size, but never zero. -/
def align (t : Ty) : Nat := max t.size 1

theorem align_pos (t : Ty) : 0 < t.align := by unfold align; omega

/-! ## Groups -/

/-- The null type, classes and arrays. -/
def isReference : Ty → Bool
  | .null | .classRef _ | .array _ => true
  | _ => false

/-- Every type that is no reference, `void` included. -/
def isPrimitive (t : Ty) : Bool := !t.isReference

def isVoid : Ty → Bool
  | .void => true
  | _ => false

/-- The integer types, `char` included and `boolean` not. -/
def isIntegral : Ty → Bool
  | .byte | .char | .short | .int | .long => true
  | _ => false

def isFloating : Ty → Bool
  | .float | .double => true
  | _ => false

/-- The types of numbers. -/
def isNumeric (t : Ty) : Bool := t.isIntegral || t.isFloating

/-- Class of a class reference. -/
def className? : Ty → Option String
  | .classRef name => some name
  | _ => none

/-! ## Descriptors -/

/-- The descriptor of a type. -/
def descriptor : Ty → String
  | .byte => "B"
  | .boolean => "Z"
  | .char => "C"
  | .short => "S"
  | .int => "I"
  | .long => "J"
  | .float => "F"
  | .double => "D"
  | .void => "V"
  | .null => "null"
  | .classRef name => "L" ++ name ++ ";"
  | .array element => "[" ++ element.descriptor

instance : ToString Ty := ⟨descriptor⟩

/-- Reads the descriptor at the front of a text. -/
def readDescriptor? : List Char → Option (Ty × List Char)
  | [] => none
  | 'B' :: r => some (.byte, r)
  | 'Z' :: r => some (.boolean, r)
  | 'C' :: r => some (.char, r)
  | 'S' :: r => some (.short, r)
  | 'I' :: r => some (.int, r)
  | 'J' :: r => some (.long, r)
  | 'F' :: r => some (.float, r)
  | 'D' :: r => some (.double, r)
  | 'V' :: r => some (.void, r)
  | 'L' :: r =>
    match cut [';'] r with
    | none | some ([], _) => none
    | some (name, rest) => some (.classRef (String.ofList name), rest)
  | '[' :: r =>
    match readDescriptor? r with
    | none | some (.void, _) => none
    | some (element, rest) => some (.array element, rest)
  | _ :: _ => none

/-- The type that a whole text describes. -/
def ofDescriptor? (s : List Char) : Option Ty :=
  if s = "null".toList then some .null
  else
    match readDescriptor? s with
    | some (t, []) => some t
    | _ => none

end Ty

/-- Descriptor of a method: the parameters in parentheses, then the return type. -/
def methodDescriptor (params : List Ty) (returns : Ty) : String :=
  "(" ++ String.join (params.map Ty.descriptor) ++ ")" ++ returns.descriptor

end Jil
