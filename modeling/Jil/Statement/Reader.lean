/-
Jil.Statement.Reader — reading statements.

`Statement.read` reads a statement without its semicolon. The word in front
decides the form; the operands are then taken apart from the outside in: first
the last arrow, then what stands before it. A form tells of the first operand,
in the order in which it looks at them, that is not as it should be.
-/
import Jil.Diagnostic
import Jil.Text.Blank
import Jil.Text.Integer

namespace Jil

open Jil.Text

namespace Reader

/-! ## Numbers and names -/

/-- The largest number of a register or label that can be written. -/
def numberMax : Nat := 2 ^ 32 - 1

/-- The value, or the complaint when there is none. -/
def orElse {α : Type} (x : Option α) (complaint : Malformation) : Except Malformation α :=
  match x with
  | some a => .ok a
  | none => .error complaint

/-- Reads a type. -/
def type (s : List Char) : Except Malformation Ty :=
  orElse (Ty.ofDescriptor? (trim s)) (.unknownType (String.ofList (trim s)))

/-- Reads a register. -/
def register (s : List Char) : Except Malformation Register :=
  orElse (((stripStart? ['%', 'r'] (trim s)).bind (readUnsigned? numberMax)).map Register.mk)
    (.expectedRegister (String.ofList (trim s)))

/-- Reads a label. -/
def label (s : List Char) : Except Malformation Label :=
  orElse (((stripStart? ['L'] (trim s)).bind (readUnsigned? numberMax)).map Label.mk)
    (.expectedLabel (String.ofList (trim s)))

/-- Reads a class and a member, apart at the last point. -/
def member (s : List Char) : Except Malformation (String × String) :=
  match cutLast ['.'] s with
  | some (owner@(_ :: _), name@(_ :: _)) => .ok (String.ofList owner, String.ofList name)
  | _ => .error (.expectedMember (String.ofList s))

/-- Reads a register and a member, apart at the first point. -/
def objectMember (s : List Char) : Except Malformation (Register × String) := do
  let (object, name) ← orElse (cut ['.'] s) (.expectedObjectMember (String.ofList s))
  let r ← register object
  pure (r, String.ofList (trim name))

/-! ## Operand lists -/

/-- The items of a list with commas, without blanks around them; empty ones do not count. -/
def items (s : List Char) : List (List Char) :=
  ((pieces ',' s).map trim).filter (!·.isEmpty)

/-- What stands on the left and on the right of the last arrow. -/
def arrow (s : List Char) : Except Malformation (List Char × List Char) := do
  let (left, right) ← orElse (cutLast " -> ".toList s) .expectedArrow
  pure (trim left, trim right)

/-- Exactly two words. -/
def twoWords (s : List Char) : Except Malformation (List Char × List Char) :=
  match words s with
  | [a, b] => .ok (a, b)
  | _ => .error (.operandCount 2 (String.ofList s))

/-- Exactly three words. -/
def threeWords (s : List Char) :
    Except Malformation (List Char × List Char × List Char) :=
  match words s with
  | [a, b, c] => .ok (a, b, c)
  | _ => .error (.operandCount 3 (String.ofList s))

/-- The target, arguments and result of a call. -/
def call (s : List Char) :
    Except Malformation (List Char × List Register × Option Register) := do
  let (target, result) ← match cutLast " -> ".toList s with
    | some (left, right) => do
      let r ← register right
      pure (trim left, some r)
    | none => pure (trim s, none)
  let (target, args) ← orElse (cut ['('] target) .expectedCallOpen
  let args ← orElse (stripEnd? [')'] args) .expectedCallClose
  let args ← (items args).mapM register
  pure (trim target, args, result)

/-- The text of a quoted string. -/
def quoted (s : List Char) : Except Malformation String :=
  match Quoted.decode s with
  | .ok value => .ok (String.ofList value)
  | .error .unquoted => .error .expectedQuotes
  | .error (.badEscape c) => .error (.badEscape (c.getD ' '))

/-- A truth value. -/
def truth (s : List Char) : Except Malformation Bool :=
  if s = "true".toList then .ok true
  else if s = "false".toList then .ok false
  else .error .expectedTruth

/-! ## Forms -/

/-- An operand and the register of the result, on the two sides of an arrow. -/
def toRegister {α : Type} (operand : List Char → Except Malformation α) (s : List Char) :
    Except Malformation (α × Register) := do
  let (left, right) ← arrow s
  let a ← operand left
  let r ← register right
  pure (a, r)

/-- The register of a source and the place where it goes, which is looked at first. -/
def fromRegister {α : Type} (place : List Char → Except Malformation α) (s : List Char) :
    Except Malformation (Register × α) := do
  let (left, right) ← arrow s
  let a ← place right
  let r ← register left
  pure (r, a)

/-- Two operands with an operator between them, and the result. The operator is looked at
last. -/
def operatorForm {ω : Type} (operator : String → Except Malformation ω)
    (build : ω → Register → Register → Register → Statement) (s : List Char) :
    Except Malformation Statement := do
  let (operands, result) ← arrow s
  let (left, symbol, right) ← threeWords operands
  let left ← register left
  let right ← register right
  let result ← register result
  let op ← operator (String.ofList symbol)
  pure (build op left right result)

def chooseForm (s : List Char) : Except Malformation Statement := do
  let (operands, result) ← arrow s
  let (first, second) ← orElse (cut [','] operands) .expectedChooseOperands
  let first ← register first
  let second ← register second
  let result ← register result
  pure (.choose first second result)

def literalForm (s : List Char) : Except Malformation Statement := do
  let (left, result) ← arrow s
  let (t, value) ← orElse (cut [' '] left) .expectedLiteral
  let t ← type t
  let result ← register result
  pure (.literal t (String.ofList (trim value)) result)

def unaryForm (s : List Char) : Except Malformation Statement := do
  let (operands, result) ← arrow s
  let (name, src) ← twoWords operands
  let op ← orElse (UnaryOp.ofName? (String.ofList name)) (.unknownUnary (String.ofList name))
  let src ← register src
  let result ← register result
  pure (.unary op src result)

def convertForm (s : List Char) : Except Malformation Statement := do
  let (operands, result) ← arrow s
  let (src, word, target) ← threeWords operands
  if word ≠ "to".toList then throw .expectedConvert
  let src ← register src
  let target ← type target
  let result ← register result
  pure (.convert src target result)

def branchForm (s : List Char) : Except Malformation Statement := do
  let (expected, condition, target) ← threeWords s
  let expected ← truth expected
  let condition ← register condition
  let target ← label target
  pure (.branch condition expected target)

/-- A call on a class; a receiver may stand in front. -/
def callActualForm (s : List Char) : Except Malformation Statement := do
  let (object, rest) ← match s with
    | '%' :: _ => do
      let (object, rest) ← orElse (cut [' '] s) .expectedCallTarget
      let r ← register object
      pure (some r, rest)
    | _ => pure (none, s)
  let (target, args, result) ← call rest
  let (owner, method) ← member target
  pure (.callActual object owner method args result)

def callVirtualForm (s : List Char) : Except Malformation Statement := do
  let (target, args, result) ← call s
  let (object, method) ← objectMember target
  pure (.callVirtual object method args result)

def startScopeForm (s : List Char) : Except Malformation Statement := do
  let (name, t) ← orElse (cut [' '] s) .expectedStartScope
  let t ← type t
  pure (.startScope (String.ofList name) t)

/-- A name as it stands. -/
def anyName (s : List Char) : Except Malformation String := .ok (String.ofList s)

/-- Comparison with a given symbol. -/
def comparison (symbol : String) : Except Malformation Comparison :=
  orElse (Comparison.ofSymbol? symbol) (.unknownComparison symbol)

/-- Binary operator with a given symbol. -/
def binaryOp (symbol : String) : Except Malformation BinaryOp :=
  orElse (BinaryOp.ofSymbol? symbol) (.unknownOperator symbol)

end Reader

open Reader in
/-- Reads a statement from the word in front and the operands, which have no blanks at the
ends. -/
def Statement.readForm (opcode : String) (s : List Char) : Except Malformation Statement :=
  match opcode with
  | "copy" => (toRegister register s).map fun (src, dest) => .copy src dest
  | "choose" => chooseForm s
  | "literal" => literalForm s
  | "string" => (toRegister quoted s).map fun (value, result) => .string value result
  | "getLocal" => (toRegister anyName s).map fun (name, result) => .getLocal name result
  | "getParam" => (toRegister anyName s).map fun (name, result) => .getParam name result
  | "putLocal" => (fromRegister anyName s).map fun (src, name) => .putLocal name src
  | "getStatic" =>
    (toRegister member s).map fun ((owner, field), result) => .getStatic owner field result
  | "getStaticAddress" =>
    (toRegister member s).map fun ((owner, field), result) =>
      .getStaticAddress owner field result
  | "putStatic" =>
    (fromRegister member s).map fun (src, (owner, field)) => .putStatic owner field src
  | "getField" =>
    (toRegister objectMember s).map fun ((object, field), result) =>
      .getField object field result
  | "getFieldAddress" =>
    (toRegister objectMember s).map fun ((object, field), result) =>
      .getFieldAddress object field result
  | "putField" =>
    (fromRegister objectMember s).map fun (src, (object, field)) => .putField object field src
  | "setCondition" => operatorForm comparison .compare s
  | "binary" => operatorForm binaryOp .binary s
  | "unary" => unaryForm s
  | "convert" => convertForm s
  | "branch" => branchForm s
  | "jump" => (Reader.label s).map .jump
  | "label" => (Reader.label s).map .label
  | "callActual" => callActualForm s
  | "callVirtual" => callVirtualForm s
  | "return" => if s.isEmpty then .ok .returnVoid else (register s).map .returnValue
  | "startScope" => startScopeForm s
  | "endScope" => .ok (.endScope (String.ofList s))
  | _ => .error (.unknownStatement opcode)

/-- Reads a statement without its semicolon. -/
def Statement.read (s : List Char) : Except Malformation Statement :=
  let (opcode, rest) := cutSpace s
  readForm (String.ofList opcode) (trim rest)

end Jil
