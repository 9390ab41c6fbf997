/-
Jil.Selection.Function — from checked functions to functions over pseudo-registers.

A function begins by moving the environment, the receiver and the parameters
out of their argument registers, and ends at its exit label. The string
constants that it asks for stay in the table even when it fails.

The numbers that an entry draws for what it receives are taken not to exceed 32
bits, like those that statements draw (`Jil.Selection.Context`).
-/
import Jil.Pseudo.Function
import Jil.Selection.Statement

namespace Jil.Selection

open Jil.Assembly (StringTable)
open Jil.Machine (Abi)
open Jil.Pseudo (Instr Reg)

/-! ## The entry -/

/-- The beginning of a function. -/
structure Entry where
  code : List Instr := []
  params : Table String Reg := .empty
  /-- Number of the pseudo-register drawn last. -/
  drawn : Nat

namespace Entry

/-- Register of the argument at `position`, counted from 1, which passes `name`. -/
def argument (abi : Abi) (position : Nat) (name : String) (origin : Origin) :
    Except Failure Machine.Reg :=
  match abi.argument? position with
  | some r => .ok r
  | none =>
    .error (.unsupported (.parameterOverflow name abi.argumentCount abi.family) origin)

/-- Moves a parameter out of the register of the argument at `position`. -/
def receive (e : Entry) (abi : Abi) (position : Nat) (p : Param) (origin : Origin) :
    Except Failure Entry := do
  if p.type.isFloating then throw (.unsupported (.floatingParameter p.name) origin)
  let r ← argument abi position p.name origin
  let dest : Reg := ⟨e.drawn + 1, sizeOf p.type⟩
  pure
    { code := e.code ++ [.mov dest.size (.fixed r) (.pseudo dest)]
      params := e.params.insert p.name dest
      drawn := e.drawn + 1 }

/-- Moves parameters out of the registers of the arguments from `position` on. -/
def receiveAll (e : Entry) (abi : Abi) (position : Nat) (origin : Origin) :
    List Param → Except Failure Entry
  | [] => .ok e
  | p :: rest => do
    let after ← e.receive abi position p origin
    receiveAll after abi (position + 1) origin rest

/-- The beginning of a function: the environment, the receiver if there is one, and the
parameters, which the third argument register starts with. -/
def ofFunction (abi : Abi) (f : Function) (origin : Origin) : Except Failure Entry := do
  let env := environment f
  let r ← argument abi 1 "env" origin
  let start : Entry := { code := [.mov .quad (.fixed r) (.pseudo env)], drawn := env.id }
  let received ←
    if f.isPerObject then start.receive abi 2 ⟨.object, "this"⟩ origin else pure start
  received.receiveAll abi 3 origin f.params

end Entry

/-! ## Functions -/

/-- Where errors in the signature of a function are reported: at its first statement. -/
def signatureOrigin (f : Function) : Origin := (f.body.head?.map Located.origin).getD f.origin

/-- Accepts functions that can be called with all values in general registers. -/
def requireSignature (f : Function) (origin : Origin) : Except Failure Unit := do
  if f.varargs then throw (.unsupported (.varargsFunction f.name) origin)
  if f.returns.isFloating then throw (.unsupported (.floatingReturn f.name) origin)

/-- What selection knows about the function at `position`, and how it begins. -/
def scopeOf (u : ClassUnit) (abi : Abi) (position : Nat) (f : Function) :
    Except Failure (Scope × Entry) := do
  match f.registerTypes with
  | none => throw (.fault (.uncheckedFunction u.name f.name))
  | some types =>
    let origin := signatureOrigin f
    requireSignature f origin
    let copies ← mergeCopies f
    let entry ← Entry.ofFunction abi f origin
    pure (⟨u, f, position, abi, types, copies, entry.params⟩, entry)

/-- The function at `position` over pseudo-registers, and the string constants after it. -/
def ofFunction (u : ClassUnit) (abi : Abi) (position : Nat) (f : Function)
    (strings : StringTable) : Except Failure Pseudo.Function × StringTable :=
  match scopeOf u abi position f with
  | .error e => (.error e, strings)
  | .ok (scope, entry) =>
    match ((bodyCode 0 f.body).run scope).run.run
        { strings := strings, drawn := entry.drawn } with
    | (.error e, state) => (.error e, state.strings)
    | (.ok body, state) =>
      (.ok
        { symbol := u.functionSymbol abi f
          code := entry.code ++ body ++ [.label (exitLabel position)]
          exitLabel := exitLabel position
          serviceCalls := state.serviceCalls },
        state.strings)

end Jil.Selection
