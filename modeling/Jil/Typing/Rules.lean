/-
Jil.Typing.Rules — the type rules of statements.

`effect` is the judgement on one statement: what the statement does to the
context, or the first thing that is wrong with it. Operands are looked at in
the order in which they are written here, then the statement as a whole.
-/
import Jil.Typing.Context

namespace Jil.Typing

/-! ## Rules on types -/

/-- Types of the values that a comparison accepts: equal primitive types or two references for
equality, and equal numeric types for the order. -/
def comparable (op : Comparison) (a b : Ty) : Bool :=
  if op.isEquality then (a.isReference && b.isReference) || (a.isPrimitive && a = b)
  else a.isNumeric && a = b

/-- Types of the operands of a binary operator: an integer and an `int` count for shifts, equal
integers or booleans for bitwise operators, and otherwise equal numbers. -/
def binaryOperands (op : BinaryOp) (a b : Ty) : Bool :=
  if op.isShift then a.isIntegral && b = .int
  else if op.isBitwise then a = b && (a.isIntegral || a = .boolean)
  else a = b && a.isNumeric

/-- Type of the operand of a unary operator. -/
def unaryOperand : UnaryOp → Ty → Bool
  | .negate, t => t.isNumeric
  | .not, t => t = .boolean
  | .complement, t => t.isIntegral

/-! ## Scope -/

/-- What a function is checked against. -/
structure Scope where
  unit : ClassUnit
  function : Function

namespace Scope

/-- Accepts labels that the function places. -/
def requireLabel (scope : Scope) (l : Label) (origin : Origin) : Except Failure Unit :=
  if l ∈ scope.function.labels then .ok ()
  else .error (.undefined (.label l scope.function.name) origin)

/-- Accepts values that may be stored where `declared` is declared. -/
def requireAssignable (scope : Scope) (declared value : Ty) (store : Store) (origin : Origin) :
    Except Failure Unit :=
  if scope.unit.hierarchy.canAssign declared value then .ok ()
  else .error (.mismatch (.assignment value store declared) origin)

/-- Type of a value that is one of two. -/
def merged (scope : Scope) (first second : Register) (a b : Ty) (origin : Origin) :
    Except Failure Ty :=
  if a.isPrimitive || b.isPrimitive then
    if a = b then .ok a else .error (.mismatch (.chooseOperands first second a b) origin)
  else
    match scope.unit.hierarchy.commonSupertype? a b with
    | some t => .ok t
    | none => .error (.mismatch (.noCommonSupertype a b) origin)

end Scope

/-! ## Statements -/

/-- Effect of a call: the result, when one is wanted, has the return type, which must not be
`void`. -/
def callEffect (method : String) (returns : Ty) (result : Option Register) (origin : Origin) :
    Except Failure Effect :=
  match result with
  | none => .ok .none
  | some r =>
    if returns.isVoid then .error (.mismatch (.voidResult method) origin)
    else .ok (.define r returns)

/-- Accepts receivers that are references. -/
def requireReceiver (ctx : Context) (object : Option Register) (owner method : String)
    (origin : Origin) : Except Failure Unit := do
  match object with
  | none => pure ()
  | some r =>
    let t ← ctx.register r origin
    if t.isReference then pure () else throw (.mismatch (.receiver r owner method t) origin)

/-- The judgement on a statement. -/
def effect (scope : Scope) (ctx : Context) (s : Statement) (origin : Origin) :
    Except Failure Effect := do
  match s with
  | .copy src dest =>
    let t ← ctx.register src origin
    pure (.define dest t)
  | .choose first second result =>
    let a ← ctx.register first origin
    let b ← ctx.register second origin
    let t ← scope.merged first second a b origin
    pure (.define result t)
  | .literal type value result =>
    match Literal.bits? type value.toList with
    | some _ => pure (.define result type)
    | none => throw (.mismatch (.literal value type) origin)
  | .string _ result => pure (.define result .string)
  | .getLocal name result =>
    let t ← ctx.localType name origin
    pure (.define result t)
  | .putLocal name src =>
    let value ← ctx.register src origin
    let declared ← ctx.localType name origin
    scope.requireAssignable declared value (.localVariable name) origin
    pure .none
  | .getParam name result =>
    let t ← ctx.param name origin
    pure (.define result t)
  | .getStatic owner field result =>
    let t ← scope.unit.staticFieldType owner field origin
    pure (.define result t)
  | .getStaticAddress owner field result =>
    let _ ← scope.unit.staticFieldType owner field origin
    pure (.define result .long)
  | .putStatic owner field src =>
    let value ← ctx.register src origin
    let declared ← scope.unit.staticFieldType owner field origin
    scope.requireAssignable declared value (.field owner field) origin
    pure .none
  | .getField object field result =>
    let owner ← ctx.objectClass object origin
    let t ← scope.unit.objectFieldType owner field origin
    pure (.define result t)
  | .getFieldAddress object field result =>
    let owner ← ctx.objectClass object origin
    let _ ← scope.unit.objectFieldType owner field origin
    pure (.define result .long)
  | .putField object field src =>
    let owner ← ctx.objectClass object origin
    let value ← ctx.register src origin
    let declared ← scope.unit.objectFieldType owner field origin
    scope.requireAssignable declared value (.field owner field) origin
    pure .none
  | .compare op left right result =>
    let a ← ctx.register left origin
    let b ← ctx.register right origin
    if comparable op a b then pure (.define result .boolean)
    else throw (.mismatch (.comparison a op b) origin)
  | .binary op left right result =>
    let a ← ctx.register left origin
    let b ← ctx.register right origin
    if binaryOperands op a b then pure (.define result a)
    else throw (.mismatch (.binaryOperands a op b) origin)
  | .unary op src result =>
    let t ← ctx.register src origin
    if unaryOperand op t then pure (.define result t)
    else throw (.mismatch (.unaryOperand t op) origin)
  | .convert src target result =>
    let t ← ctx.register src origin
    if t.isNumeric && target.isNumeric then pure (.define result target)
    else throw (.mismatch (.conversion t target) origin)
  | .branch condition _ target =>
    let t ← ctx.register condition origin
    if t = .boolean then
      scope.requireLabel target origin
      pure .none
    else throw (.mismatch (.branchCondition condition t) origin)
  | .jump target =>
    scope.requireLabel target origin
    pure .none
  | .label _ => pure .none
  | .callActual object owner method args result =>
    requireReceiver ctx object owner method origin
    let types ← args.mapM (ctx.register · origin)
    let returns ← scope.unit.returnType owner method types origin
    callEffect method returns result origin
  | .callVirtual object method args result =>
    let owner ← ctx.objectClass object origin
    let types ← args.mapM (ctx.register · origin)
    let returns ← scope.unit.returnType owner method types origin
    callEffect method returns result origin
  | .returnValue src =>
    let value ← ctx.register src origin
    let declared := scope.function.returns
    if declared.isVoid then throw (.mismatch (.valueFromVoid scope.function.name) origin)
    scope.requireAssignable declared value .returnValue origin
    pure .none
  | .returnVoid =>
    if scope.function.returns.isVoid then pure .none
    else throw (.mismatch (.missingValue scope.function.name scope.function.returns) origin)
  | .startScope name type => pure (.openScope name type)
  | .endScope name => pure (.closeScope name)

end Jil.Typing
