/-
Jil.Selection.Call — code of calls between methods.

A method of the class itself is called through its symbol, with the receiver or
the class as first operand. A method of another class, and every method that an
object chooses at run time, is called through services: its identifier is
looked up by name and descriptor.
-/
import Jil.Selection.Member

namespace Jil.Selection

open Jil.Pseudo (Instr Reg)

/-- Accepts methods that a call can pass its operands to. -/
def requireCallable (method : String) (info : MethodInfo) (origin : Origin) : Select Unit := do
  if info.varargs then throw (.unsupported (.varargsCall method) origin)
  if info.returns.isFloating then
    throw (.unsupported (.floatingCall method info.returns) origin)

/-- The operands of a call. -/
def operands (args : List Register) (origin : Origin) : Select (List Native.Argument) :=
  args.mapM fun a => do
    let p ← pseudoOf a origin
    let t ← typeOf a origin
    pure (.value p t)

/-- The pseudo-register of a result, when one is wanted. -/
def resultOf (result : Option Register) (origin : Origin) : Select (Option Reg) := do
  match result with
  | some r => some <$> pseudoOf r origin
  | none => pure none

/-- The object that a method is called on: the caller's own when none is written, and none for
static methods. -/
def receiverOf (object : Option Register) (kind : MemberKind) (owner method : String)
    (origin : Origin) : Select (Option Reg) := do
  match kind, object with
  | .static, _ => pure none
  | .perObject, some r => some <$> pseudoOf r origin
  | .perObject, none =>
    match (← read).params.get? "this" with
    | some p => pure (some p)
    | none => throw (.undefined (.receiver owner method) origin)

/-- Symbol of the first function of the class with a given name and parameter types. -/
def symbolOf (owner method : String) (types : List Ty) (origin : Origin) : Select String := do
  let scope ← read
  match scope.unit.functions.find? fun f => f.name = method && f.paramTypes = types with
  | some f => pure (scope.unit.functionSymbol scope.abi f)
  | none => throw (.undefined (.methodNamed owner method) origin)

/-- Calls a method of the class itself. -/
def callOwn (target : ResolvedMethod) (receiver : Option Reg) (owner method : String)
    (args : List Register) (types : List Ty) (result : Option Reg) (origin : Origin) :
    Select (List Instr) := do
  let (first, before) ← match receiver with
    | some p => pure (p, [])
    | none => findClass target.owner origin
  let args ← operands args origin
  let symbol ← symbolOf owner method types origin
  let scope ← read
  let code ← whole (Native.directCall scope.abi (environment scope.function) symbol
    (.value first .object :: args) result origin)
  pure (before ++ code)

/-- Calls a method of another class. -/
def callOther (target : ResolvedMethod) (receiver : Option Reg) (method : String)
    (args : List Register) (types : List Ty) (result : Option Reg) (origin : Origin) :
    Select (List Instr) := do
  let returns := target.info.returns
  let (handle, before) ← findClass target.owner origin
  let (lookup, call, first) := match receiver with
    | some p => (Native.Service.getMethodId, Native.Service.callMethod (.ofTy returns), p)
    | none => (.getStaticMethodId, .callStaticMethod (.ofTy returns), handle)
  let (id, between) ← findMember lookup handle method (methodDescriptor types returns) origin
  let args ← operands args origin
  let code ← service call (.value first .object :: .value id .long :: args) result origin
  pure (before ++ between ++ code)

/-- Calls the method that a class names. -/
def callActual (object : Option Register) (owner method : String) (args : List Register)
    (result : Option Register) (origin : Origin) : Select (List Instr) := do
  let types ← args.mapM (typeOf · origin)
  let target ← (← read).unit.resolveMethod owner method types origin
  requireCallable method target.info origin
  let result ← resultOf result origin
  let receiver ← receiverOf object target.info.kind owner method origin
  if target.isLocal then callOwn target receiver owner method args types result origin
  else callOther target receiver method args types result origin

/-- Calls the method that the class of an object provides at run time. -/
def callVirtual (object : Register) (method : String) (args : List Register)
    (result : Option Register) (origin : Origin) : Select (List Instr) := do
  let owner ← classOf object origin
  let types ← args.mapM (typeOf · origin)
  let target ← (← read).unit.resolveMethod owner method types origin
  requireCallable method target.info origin
  let receiver ← pseudoOf object origin
  let result ← resultOf result origin
  let returns := target.info.returns
  let (handle, before) ← findClassOf receiver origin
  let (id, between) ←
    findMember .getMethodId handle method (methodDescriptor types returns) origin
  let args ← operands args origin
  let code ← service (.callMethod (.ofTy returns))
    (.value receiver .object :: .value id .long :: args) result origin
  pure (before ++ between ++ code)

end Jil.Selection
