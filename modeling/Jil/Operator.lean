/-
Jil.Operator — comparisons, binary and unary operators.

Each operator has one spelling in the text of a program, and `ofSymbol?` and
`ofName?` find an operator by it.
-/
namespace Jil

/-! ## Comparisons -/

/-- A comparison of two values. -/
inductive Comparison where
  | greaterEqual | greater | lessEqual | less | equal | notEqual
  deriving DecidableEq, Repr

namespace Comparison

def all : List Comparison := [.greaterEqual, .greater, .lessEqual, .less, .equal, .notEqual]

theorem mem_all (c : Comparison) : c ∈ all := by cases c <;> decide

def symbol : Comparison → String
  | .greaterEqual => ">="
  | .greater => ">"
  | .lessEqual => "<="
  | .less => "<"
  | .equal => "=="
  | .notEqual => "!="

def ofSymbol? (s : String) : Option Comparison := all.find? (·.symbol = s)

/-- The comparisons that references and booleans have too. -/
def isEquality : Comparison → Bool
  | .equal | .notEqual => true
  | _ => false

end Comparison

/-! ## Binary operators -/

/-- A binary operator. -/
inductive BinaryOp where
  | add | sub | mul | div | rem
  | and | or | xor
  /-- Shift to the left. -/
  | shl
  /-- Shift to the right that copies the sign. -/
  | shr
  /-- Shift to the right that fills with zeros. -/
  | ushr
  deriving DecidableEq, Repr

namespace BinaryOp

def all : List BinaryOp :=
  [.add, .sub, .mul, .div, .rem, .and, .or, .xor, .shl, .shr, .ushr]

theorem mem_all (op : BinaryOp) : op ∈ all := by cases op <;> decide

def symbol : BinaryOp → String
  | .add => "+"
  | .sub => "-"
  | .mul => "*"
  | .div => "/"
  | .rem => "%"
  | .and => "&"
  | .or => "|"
  | .xor => "^"
  | .shl => "<<"
  | .shr => ">>"
  | .ushr => ">>>"

def ofSymbol? (s : String) : Option BinaryOp := all.find? (·.symbol = s)

def isShift : BinaryOp → Bool
  | .shl | .shr | .ushr => true
  | _ => false

def isBitwise : BinaryOp → Bool
  | .and | .or | .xor => true
  | _ => false

end BinaryOp

/-! ## Unary operators -/

/-- A unary operator. -/
inductive UnaryOp where
  /-- The opposite number. -/
  | negate
  /-- The other truth value. -/
  | not
  /-- All bits inverted. -/
  | complement
  deriving DecidableEq, Repr

namespace UnaryOp

def all : List UnaryOp := [.negate, .not, .complement]

theorem mem_all (op : UnaryOp) : op ∈ all := by cases op <;> decide

def name : UnaryOp → String
  | .negate => "neg"
  | .not => "not"
  | .complement => "compl"

def ofName? (s : String) : Option UnaryOp := all.find? (·.name = s)

end UnaryOp

end Jil
