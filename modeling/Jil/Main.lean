/-
Jil.Main — the program.

Reads the command line and the source, and prints what a run gives.
-/
import Jil.CommandLine

namespace Jil.CommandLine

/-- Prints an output and gives back its status. -/
def Output.print (o : Output) : IO UInt32 := do
  IO.print o.stdout
  IO.eprint o.stderr
  pure o.status.toUInt32

/-- The text of a file, or of standard input when no file is named. -/
def readSource (file : Option String) : IO (Except String String) := do
  let text : IO String :=
    match file with
    | some path => IO.FS.readFile path
    | none => do (← IO.getStdin).readToEnd
  match ← text.toBaseIO with
  | .ok s => pure (.ok s)
  | .error e => pure (.error (toString e))

end Jil.CommandLine

def main (args : List String) : IO UInt32 := do
  (← Jil.CommandLine.respond Jil.CommandLine.readSource args).print
