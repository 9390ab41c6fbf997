/-
Jil.Typing.Context — what is known while a function is checked.

A context holds the types of the registers defined so far, of the local
variables in scope and of the parameters. Checking a statement does not touch
it: the outcome of a check is an `Effect`, and `Context.apply` carries it out.
A register that already has a type is given the new one, and the fault names
the type it had.
-/
import Jil.ClassUnit

namespace Jil.Typing

/-- The types that are known at one point of a function. -/
structure Context where
  registers : Table Register Ty := .empty
  locals : Table String Ty := .empty
  params : Table String Ty := .empty
  deriving Repr, Inhabited

/-- What a statement does to the context. -/
inductive Effect where
  | none
  | define (r : Register) (type : Ty)
  | openScope (name : String) (type : Ty)
  | closeScope (name : String)
  deriving DecidableEq, Repr

namespace Context

/-- The context at the start of a function: the parameters, of which the last of a name counts,
and the receiver as `this`. -/
def ofFunction (f : Function) (owner : String) : Context :=
  let named := Table.ofList (f.params.map fun p => (p.name, p.type))
  { params := if f.isPerObject then named.insert "this" (.classRef owner) else named }

/-- Type of a register. -/
def register (ctx : Context) (r : Register) (origin : Origin) : Except Failure Ty :=
  match ctx.registers.get? r with
  | some t => .ok t
  | none => .error (.undefined (.register r) origin)

/-- Type of a local variable. -/
def localType (ctx : Context) (name : String) (origin : Origin) : Except Failure Ty :=
  match ctx.locals.get? name with
  | some t => .ok t
  | none => .error (.undefined (.localVariable name) origin)

/-- Type of a parameter. -/
def param (ctx : Context) (name : String) (origin : Origin) : Except Failure Ty :=
  match ctx.params.get? name with
  | some t => .ok t
  | none => .error (.undefined (.parameter name) origin)

/-- Class of the object in a register. -/
def objectClass (ctx : Context) (object : Register) (origin : Origin) :
    Except Failure String := do
  match ← ctx.register object origin with
  | .classRef name => pure name
  | t => throw (.mismatch (.notAClass object t) origin)

/-- Carries out an effect. -/
def apply (ctx : Context) : Effect → Context × Option Fault
  | .none => (ctx, .none)
  | .define r t =>
    ({ ctx with registers := ctx.registers.insert r t },
      (ctx.registers.get? r).map (.definedTwice r))
  | .openScope name t => ({ ctx with locals := ctx.locals.insert name t }, .none)
  | .closeScope name => ({ ctx with locals := ctx.locals.erase name }, .none)

end Context

end Jil.Typing
