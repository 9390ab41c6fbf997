/-
Jil.Selection.Context — what is known while instructions are selected.

`Scope` is fixed for a function: every register has a pseudo-register of its
number, and the environment and the parameters have been moved out of their
argument registers. `State` is what statements change; the string constants in
it outlive a failure. Selecting is a `Select` activity whose result is the code
of a statement.

Pseudo-registers are drawn without end. Their numbers are taken not to exceed 32
bits: where the counter of a machine would overflow, there is no code to speak
of, and nothing is said about that.
-/
import Jil.Assembly.StringTable
import Jil.ClassUnit
import Jil.Native.Call
import Jil.Selection.Merge
import Jil.Symbol

namespace Jil

/-- The exported symbol of a function: the long form when its class overloads the name. -/
def ClassUnit.functionSymbol (u : ClassUnit) (abi : Machine.Abi) (f : Function) : String :=
  let overloaded := 1 < u.functions.countP (·.name = f.name)
  abi.symbol (Symbol.ofMethod u.name f.name (if overloaded then some f.paramTypes else none))

end Jil

namespace Jil.Selection

open Jil.Machine (Abi Size)
open Jil.Pseudo (Instr Reg)

/-! ## Scope and state -/

/-- What selection knows about a function. -/
structure Scope where
  unit : ClassUnit
  function : Function
  /-- Place of the function in its class. -/
  position : Nat
  abi : Abi
  /-- Types of the registers. -/
  types : Table Register Ty
  copies : List MergeCopy
  /-- The pseudo-registers of the parameters, the receiver as `this`. -/
  params : Table String Reg

/-- What statements change. -/
structure State where
  strings : Assembly.StringTable
  /-- Number of the pseudo-register drawn last. -/
  drawn : Nat
  /-- The pseudo-registers of the local variables in scope. -/
  locals : Table String Reg := .empty
  /-- Number of calls of services. -/
  serviceCalls : Nat := 0

/-- Selecting instructions. -/
abbrev Select := ReaderT Scope (ExceptT Failure (StateM State))

/-! ## Sizes and labels -/

/-- Size of the values of a type. A `void` value, which nothing defines, counts as a whole
register. -/
def sizeOf (t : Ty) : Size := (Size.ofTy? t).getD .quad

/-- The pseudo-register of the environment. -/
def environment (f : Function) : Reg := ⟨f.registerCount, .quad⟩

/-- What the labels of a function begin with. -/
def labelStart (position : Nat) : String := ".LF" ++ toString position

/-- The label where a function ends. -/
def exitLabel (position : Nat) : String := labelStart position ++ "_exit"

namespace Scope

def label (scope : Scope) (l : Label) : String :=
  labelStart scope.position ++ "_" ++ toString l.index

/-- The label behind the copies along the edge of a branch. -/
def edgeLabel (scope : Scope) (edge : Nat) : String :=
  labelStart scope.position ++ "_e" ++ toString edge

/-- The copies along an edge. -/
def copiesAt (scope : Scope) (edge : Nat) : List MergeCopy :=
  scope.copies.filter (·.edge = edge)

end Scope

/-! ## Looking up and drawing -/

/-- Type of a register. -/
def typeOf (r : Register) (origin : Origin) : Select Ty := do
  match (← read).types.get? r with
  | some t => pure t
  | none => throw (.undefined (.register r) origin)

/-- The pseudo-register of a register. -/
def pseudoOf (r : Register) (origin : Origin) : Select Reg := do
  let t ← typeOf r origin
  pure ⟨r.index, sizeOf t⟩

/-- The class of the object in a register. -/
def classOf (object : Register) (origin : Origin) : Select String := do
  match ← typeOf object origin with
  | .classRef name => pure name
  | t => throw (.mismatch (.notAClass object t) origin)

/-- The pseudo-register of a local variable. -/
def localOf (name : String) (origin : Origin) : Select Reg := do
  match (← get).locals.get? name with
  | some p => pure p
  | none => throw (.undefined (.localVariable name) origin)

/-- The pseudo-register of a parameter. -/
def paramOf (name : String) (origin : Origin) : Select Reg := do
  match (← read).params.get? name with
  | some p => pure p
  | none => throw (.undefined (.parameter name) origin)

/-- Draws a pseudo-register. -/
def draw (size : Size) : Select Reg :=
  modifyGet fun s => (⟨s.drawn + 1, size⟩, { s with drawn := s.drawn + 1 })

/-- The address of a string constant. -/
def constant (text : String) : Select Native.Argument :=
  modifyGet fun s =>
    let (label, strings) := s.strings.intern text
    (.address label, { s with strings := strings })

/-! ## Code -/

/-- Moves a value between pseudo-registers. -/
def move (size : Size) (src dest : Reg) : Instr := .mov size (.pseudo src) (.pseudo dest)

/-- The code of a call, when it is complete. -/
def whole (s : Native.Sequence) : Select (List Instr) := do
  s.outcome
  pure s.code

/-- Calls a service. -/
def service (svc : Native.Service) (args : List Native.Argument) (result : Option Reg)
    (origin : Origin) : Select (List Instr) := do
  let scope ← read
  let code ← whole
    (Native.serviceCall scope.abi (environment scope.function) svc args result origin)
  modify fun s => { s with serviceCalls := s.serviceCalls + 1 }
  pure code

/-- Moves values at once: every source is read before any destination is written. -/
def moveAll : List (Reg × Reg) → Select (List Instr)
  | [(src, dest)] => pure [move dest.size src dest]
  | moves => do
    let staged ← moves.mapM fun (src, dest) => do
      let held ← draw dest.size
      pure (src, held, dest)
    pure ((staged.map fun (src, held, dest) => move dest.size src held)
      ++ staged.map fun (_, held, dest) => move dest.size held dest)

/-- The copies along the edge that a statement leaves. -/
def edgeCode (edge : Nat) (origin : Origin) : Select (List Instr) := do
  let moves ← ((← read).copiesAt edge).mapM fun c => do
    let src ← pseudoOf c.src origin
    let dest ← pseudoOf c.dest origin
    pure (src, dest)
  moveAll moves

end Jil.Selection
