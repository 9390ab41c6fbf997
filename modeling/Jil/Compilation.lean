/-
Jil.Compilation — compiling a class.

A class is checked, and then its functions are compiled one after the other
with a common table of string constants. A session counts what was generated;
after a failure it still knows the function that failed. `compileText` and
`checkText` start from the source of a class.
-/
import Jil.Assembly.Listing
import Jil.ClassUnit.Reader
import Jil.Selection.Function
import Jil.Session
import Jil.Typing.Check

namespace Jil

open Jil.Assembly (Listing StringTable)

/-- Counts a function with a number of calls of services. -/
def Session.record (s : Session) (f : Assembly.Function) (serviceCalls : Nat) : Session :=
  (((s.addSpills f.allocation.spillCount).addSaved f.allocation.saved.length).addServiceCalls
    serviceCalls).finish f.symbol f.instructionCount

namespace ClassUnit

/-- Compiles the functions of a class of which the first has the given position. -/
def compileFunctions (u : ClassUnit) (position : Nat) (session : Session)
    (strings : StringTable) :
    List Function → Session × Except Failure (List Assembly.Function × StringTable)
  | [] => (session, .ok ([], strings))
  | f :: rest =>
    let entered := session.enter f.name
    let (selected, interned) := Selection.ofFunction u session.abi position f strings
    let compiled := do
      let p ← selected
      let g ← Assembly.Function.ofPseudo session.abi p
      pure (g, p.serviceCalls)
    match compiled with
    | .error e => (entered, .error e)
    | .ok (g, serviceCalls) =>
      let (after, outcome) :=
        u.compileFunctions (position + 1) (entered.record g serviceCalls) interned rest
      (after, outcome.map fun (functions, strings) => (g :: functions, strings))

/-- The compiled class, given its functions and string constants. -/
def listing (u : ClassUnit) (abi : Machine.Abi) (functions : List Assembly.Function)
    (strings : StringTable) : Except CompileError Listing := do
  let statics ← u.statics.data
  pure
    { owner := u.name
      functions := functions
      staticSymbol := Symbol.ofStatics abi u.name
      statics := statics
      strings := strings.entries }

/-- Checks and compiles a class, and gives back the class and the session after it. -/
def compile (u : ClassUnit) (session : Session) :
    ClassUnit × Session × Except Failure Listing :=
  match u.check with
  | (checked, .error e) => (checked, session, .error e)
  | (checked, .ok ()) =>
    let (after, outcome) := checked.compileFunctions 0 session {} checked.functions
    (checked, after, do
      let (functions, strings) ← outcome
      checked.listing session.abi functions strings)

end ClassUnit

/-! ## From source text -/

/-- What a run over one source gives. -/
structure Compiled where
  unit : ClassUnit
  listing : Listing
  statistics : Statistics

/-- Reads and compiles a class. -/
def compileText (abi : Machine.Abi) (text source : String) : Except Failure Compiled := do
  let u ← ClassUnit.read text source
  let (checked, session, outcome) := u.compile { abi := abi }
  let listing ← outcome
  pure ⟨checked, listing, session.statistics⟩

/-- Reads and checks a class. -/
def checkText (text source : String) : Except Failure ClassUnit := do
  let u ← ClassUnit.read text source
  let (checked, outcome) := u.check
  outcome
  pure checked

end Jil
