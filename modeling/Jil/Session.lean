/-
Jil.Session — one run of the compiler.

A session fixes the calling convention, knows the function that is being
compiled, and counts what has been generated.
-/
import Jil.Machine.Convention

namespace Jil

/-! ## Statistics -/

/-- What has been generated. -/
structure Statistics where
  functions : Nat := 0
  /-- Machine instructions, those of the frames included. -/
  instructions : Nat := 0
  /-- Symbol of the first of the largest functions. -/
  largestName : String := ""
  largestSize : Nat := 0
  /-- Slots in frames. -/
  spills : Nat := 0
  /-- Registers saved by frames. -/
  saved : Nat := 0
  /-- Calls of services. -/
  serviceCalls : Nat := 0
  deriving DecidableEq, Repr, Inhabited

namespace Statistics

/-- Counts a function. -/
def addFunction (s : Statistics) (name : String) (instructions : Nat) : Statistics :=
  let counted :=
    { s with functions := s.functions + 1, instructions := s.instructions + instructions }
  if s.largestSize < instructions then
    { counted with largestName := name, largestSize := instructions }
  else counted

/-- The lines of the report. -/
def lines (s : Statistics) : List String :=
  ["Compilation Session Statistics:",
    "  Functions compiled: " ++ toString s.functions,
    "  Instructions emitted: " ++ toString s.instructions,
    "  Spills generated: " ++ toString s.spills,
    "  Preserved registers saved: " ++ toString s.saved,
    "  Native calls: " ++ toString s.serviceCalls]
  ++ (if s.largestName.isEmpty then [] else
        ["  Largest function: " ++ s.largestName ++ " (" ++ toString s.largestSize
          ++ " instructions)"])

/-- The report. -/
def text (s : Statistics) : String := String.join (s.lines.map (· ++ "\n"))

end Statistics

/-! ## Sessions -/

/-- A run of the compiler. -/
structure Session where
  abi : Machine.Abi
  statistics : Statistics := {}
  /-- Name of the function that is being compiled. -/
  current : Option String := none
  deriving Repr

namespace Session

/-- Begins a function. -/
def enter (s : Session) (name : String) : Session := { s with current := some name }

def addSpills (s : Session) (count : Nat) : Session :=
  { s with statistics := { s.statistics with spills := s.statistics.spills + count } }

def addSaved (s : Session) (count : Nat) : Session :=
  { s with statistics := { s.statistics with saved := s.statistics.saved + count } }

def addServiceCalls (s : Session) (count : Nat) : Session :=
  { s with
    statistics := { s.statistics with serviceCalls := s.statistics.serviceCalls + count } }

/-- Ends a function. -/
def finish (s : Session) (symbol : String) (instructions : Nat) : Session :=
  { s with statistics := s.statistics.addFunction symbol instructions, current := none }

end Session

end Jil
