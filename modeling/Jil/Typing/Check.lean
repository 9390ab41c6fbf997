/-
Jil.Typing.Check — checking functions and units.

`step` checks one statement and carries out its effect, `checkBody` does so for
statements in order, and `ClassUnit.check` checks a whole unit: the values that
members start with, then every function against the signatures of all. The
types of registers are recorded in the functions only when all of them pass.
-/
import Jil.Typing.Rules

namespace Jil.Typing

/-- Checks a statement. The context afterwards is the one before when the statement is in
error; after a fault it holds what the statement defined. -/
def step (scope : Scope) (ctx : Context) (s : Located) : Context × Option Failure :=
  match effect scope ctx s.statement s.origin with
  | .ok e =>
    let (after, fault) := ctx.apply e
    (after, fault.map .fault)
  | .error e => (ctx, some e)

/-- Checks statements in order, up to the first that fails. -/
def checkBody (scope : Scope) (ctx : Context) : List Located → Except Failure Context
  | [] => .ok ctx
  | s :: rest =>
    match step scope ctx s with
    | (after, none) => checkBody scope after rest
    | (_, some e) => .error e

/-- The types of the registers of a function. -/
def functionTypes (u : ClassUnit) (f : Function) : Except Failure (Table Register Ty) := do
  let ctx ← checkBody ⟨u, f⟩ (.ofFunction f u.name) f.body
  pure ctx.registers

/-- Records the types of registers, function by function. -/
def recordTypes (functions : List Function) (types : List (Table Register Ty)) :
    List Function :=
  functions.zipWith (fun f t => { f with registerTypes := some t }) types

end Jil.Typing

namespace Jil.ClassUnit

open Jil.Typing

/-- Accepts the unit when every member can start with the value given for it. -/
def checkDefaults (u : ClassUnit) : Except CompileError Unit := do
  u.statics.checkDefaults
  u.fields.checkDefaults

/-- Checks the unit and gives back the unit after it: with the signature index built, unless a
member's value was in error, and with the types of registers, if all went well. -/
def check (u : ClassUnit) : ClassUnit × Except Failure Unit :=
  match u.checkDefaults with
  | .error e => (u, .error (.reported e))
  | .ok () =>
    let indexed := u.rebuildIndex
    match indexed.functions.mapM (functionTypes indexed) with
    | .error e => (indexed, .error e)
    | .ok types =>
      ({ indexed with functions := recordTypes indexed.functions types }.rebuildIndex, .ok ())

end Jil.ClassUnit
