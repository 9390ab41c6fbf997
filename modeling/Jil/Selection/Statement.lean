/-
Jil.Selection.Statement — the code of each statement.

`statementCode` gives the instructions of one statement. Values stay in their
pseudo-registers throughout: locals and parameters have pseudo-registers of
their own, and reading or writing them is a move. Returning moves the value
into its register and jumps to the end of the function.
-/
import Jil.Selection.Call
import Jil.Selection.Value

namespace Jil.Selection

open Jil.Machine (Condition)
open Jil.Pseudo (Instr Reg)

/-- Accepts operands that are not floating-point numbers. -/
def requireIntegral (type : Ty) (what : Construct) (origin : Origin) : Select Unit := do
  if type.isFloating then throw (.unsupported what origin)

/-- Jumps to `target` when the condition equals `expected`, with the copies along the edge if
there are any. -/
def branchCode (condition : Reg) (expected : Bool) (target skip : String)
    (copies : List Instr) : List Instr :=
  let (taken, skipped) : Condition × Condition :=
    if expected then (.notEqual, .equal) else (.equal, .notEqual)
  let test : Instr := .alu .cmp .byte (.imm 0) (.pseudo condition)
  if copies.isEmpty then [test, .jcc taken target]
  else [test, .jcc skipped skip] ++ copies ++ [.jmp target, .label skip]

/-- The code of the statement at `index`. -/
def statementCode (index : Nat) (s : Statement) (origin : Origin) : Select (List Instr) := do
  match s with
  | .copy src dest =>
    let src ← pseudoOf src origin
    let dest ← pseudoOf dest origin
    pure [move src.size src dest]
  | .choose _ _ _ => pure []
  | .literal type value result =>
    match Literal.bits? type value.toList with
    | none => throw (.mismatch (.literal value type) origin)
    | some bits =>
      let result ← pseudoOf result origin
      pure [.mov result.size (.imm bits) (.pseudo result)]
  | .string value result =>
    let result ← pseudoOf result origin
    let text ← constant value
    service .newStringUtf [text] (some result) origin
  | .getLocal name result =>
    let src ← localOf name origin
    let result ← pseudoOf result origin
    pure [move result.size src result]
  | .putLocal name src =>
    let dest ← localOf name origin
    let src ← pseudoOf src origin
    pure [move dest.size src dest]
  | .getParam name result =>
    let src ← paramOf name origin
    let result ← pseudoOf result origin
    pure [move result.size src result]
  | .getStatic owner field result => getStatic owner field result false origin
  | .getStaticAddress owner field result => getStatic owner field result true origin
  | .putStatic owner field src => putStatic owner field src origin
  | .getField object field result => getField object field result false origin
  | .getFieldAddress object field result => getField object field result true origin
  | .putField object field src => putField object field src origin
  | .compare op left right result =>
    let type ← typeOf left origin
    requireIntegral type (.floatingComparison op) origin
    let left ← pseudoOf left origin
    let right ← pseudoOf right origin
    let result ← pseudoOf result origin
    pure (compareCode op type left right result)
  | .binary op left right result =>
    let type ← typeOf left origin
    requireIntegral type (.floatingArithmetic op) origin
    let left ← pseudoOf left origin
    let right ← pseudoOf right origin
    let result ← pseudoOf result origin
    binaryCode op type left right result
  | .unary op src result =>
    let type ← typeOf src origin
    requireIntegral type (.floatingUnary op) origin
    let src ← pseudoOf src origin
    let result ← pseudoOf result origin
    pure (unaryCode op src result)
  | .convert src target result =>
    let source ← typeOf src origin
    if (source.isFloating || target.isFloating) && source ≠ target then
      throw (.unsupported (.conversion source target) origin)
    let src ← pseudoOf src origin
    let result ← pseudoOf result origin
    pure (convertCode source src result)
  | .branch condition expected target =>
    let scope ← read
    let condition ← pseudoOf condition origin
    let copies ← edgeCode index origin
    pure (branchCode condition expected (scope.label target) (scope.edgeLabel index) copies)
  | .jump target =>
    let copies ← edgeCode index origin
    pure (copies ++ [.jmp ((← read).label target)])
  | .label name =>
    let copies ← edgeCode index origin
    pure (copies ++ [.label ((← read).label name)])
  | .callActual object owner method args result =>
    callActual object owner method args result origin
  | .callVirtual object method args result => callVirtual object method args result origin
  | .returnValue src =>
    let scope ← read
    let src ← pseudoOf src origin
    pure [.mov src.size (.pseudo src) (.fixed scope.abi.returnRegister),
      .jmp (exitLabel scope.position)]
  | .returnVoid => pure [.jmp (exitLabel (← read).position)]
  | .startScope name type =>
    let p ← draw (sizeOf type)
    modify fun s => { s with locals := s.locals.insert name p }
    pure []
  | .endScope name =>
    modify fun s => { s with locals := s.locals.erase name }
    pure []

/-- The code of statements of which the first has the given index. -/
def bodyCode (index : Nat) : List Located → Select (List Instr)
  | [] => pure []
  | s :: rest => do
    let code ← statementCode index s.statement s.origin
    let following ← bodyCode (index + 1) rest
    pure (code ++ following)

end Jil.Selection
