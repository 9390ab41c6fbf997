/-
Jil.Assembly.Function — compiled functions.

The frame is set up in front of the body and taken down at the exit label. From
the return address downwards the stack holds the caller's frame pointer, the
slots, the saved registers and the space reserved for callees. With an odd
number of saved registers and frame pointer together the stack pointer is a
multiple of sixteen at every call.
-/
import Jil.Allocation
import Jil.Pseudo.Function

namespace Jil.Assembly

open Jil.Machine (Abi AluOp Instr)

/-- A compiled function. -/
structure Function where
  symbol : String
  body : List Instr
  allocation : Allocation
  isElf : Bool
  deriving Repr

namespace Function

/-! ## The frame -/

/-- Moves the stack pointer by a number of bytes. -/
def adjustStack (op : AluOp) (bytes : Nat) : List Instr :=
  if bytes = 0 then [] else [.alu op .quad (.imm bytes) (.reg .rsp)]

/-- Sets the frame up. -/
def prologue (abi : Abi) (a : Allocation) : List Instr :=
  [.push .rbp, .mov .quad (.reg .rsp) (.reg .rbp)]
    ++ adjustStack .sub a.frameSize
    ++ a.saved.map .push
    ++ adjustStack .sub abi.shadowSpace

/-- Takes the frame down and returns. -/
def epilogue (abi : Abi) (a : Allocation) : List Instr :=
  adjustStack .add abi.shadowSpace ++ a.saved.reverse.map .pop ++ [.leave, .ret]

/-- The machine instructions of one instruction, with the end of the function behind its exit
label. -/
def place (abi : Abi) (a : Allocation) (exitLabel : String) (i : Pseudo.Instr) :
    Except Fault (List Instr) := do
  let code ← i.expand a.assignment
  pure (if i = .label exitLabel then code ++ epilogue abi a else code)

/-- The function with its values at given locations. -/
def ofAllocation (abi : Abi) (symbol : String) (code : List Pseudo.Instr) (exitLabel : String)
    (a : Allocation) : Except Fault Function := do
  let parts ← code.mapM (place abi a exitLabel)
  pure
    { symbol := symbol
      body := prologue abi a ++ parts.flatten
      allocation := a
      isElf := abi.isElf }

/-- The function with locations chosen for its values. -/
def ofPseudo (abi : Abi) (f : Pseudo.Function) : Except Failure Function := do
  match Allocation.ofCode abi f.code with
  | .ok a => ofAllocation abi f.symbol f.code f.exitLabel a
  | .error reason => throw (.reported (.registerAllocation reason))

/-- Number of instructions, labels not counted. -/
def instructionCount (f : Function) : Nat := f.body.countP (!·.isLabel)

/-! ## Text -/

/-- The lines of the function. -/
def lines (f : Function) : List String :=
  ["\t.globl " ++ f.symbol]
    ++ (if f.isElf then ["\t.type " ++ f.symbol ++ ", @function"] else [])
    ++ [f.symbol ++ ":"]
    ++ f.body.map Instr.text
    ++ (if f.isElf then ["\t.size " ++ f.symbol ++ ", .-" ++ f.symbol] else [])

/-- The function as assembly text. -/
def text (f : Function) : String := String.join (f.lines.map (· ++ "\n"))

end Function

end Jil.Assembly
