/-
Jil.Pseudo.Instruction — instructions over pseudo-registers and their text.

The instructions are those of the machine, except that an operand may also be
a pseudo-register, or memory at an offset from one. Stack instructions do not
occur: they belong to the frame, which is laid out after allocation.
-/
import Jil.Machine.Convention
import Jil.Machine.Instruction
import Jil.Pseudo.Register

namespace Jil.Pseudo

open Jil.Machine (AluOp Condition ShiftOp Size)

/-! ## Operands -/

/-- An operand. -/
inductive Operand where
  | pseudo (p : Reg)
  /-- A hardware register. -/
  | fixed (r : Machine.Reg)
  | imm (value : Int)
  /-- Memory at an offset from the address in a pseudo-register. -/
  | indirect (base : Reg) (disp : Int)
  /-- Memory at an offset from the address in a hardware register. -/
  | fixedIndirect (base : Machine.Reg) (disp : Int)
  /-- Memory at an offset from a symbol. -/
  | rip (symbol : String) (disp : Int)
  deriving DecidableEq, Repr

/-- The operand in an instruction of size `s`. -/
def Operand.text (s : Size) : Operand → String
  | .pseudo p => p.text
  | .fixed r => r.sized s
  | .imm v => "$" ++ toString v
  | .indirect base disp => Machine.Operand.memoryText base.text disp
  | .fixedIndirect base disp => Machine.Operand.memoryText base.text disp
  | .rip symbol disp => Machine.Operand.symbolText symbol disp

/-! ## Instructions -/

/-- An instruction over pseudo-registers. -/
inductive Instr where
  | alu (op : AluOp) (size : Size) (src dest : Operand)
  /-- Sign or zero extension from a size to a wider one. -/
  | extend (signed : Bool) (narrow wide : Size) (src dest : Operand)
  | lea (src dest : Operand)
  | neg (size : Size) (dest : Operand)
  | not (size : Size) (dest : Operand)
  | shift (op : ShiftOp) (size : Size) (dest : Operand)
  /-- Signed division of the double-width accumulator. -/
  | idiv (size : Size) (divisor : Operand)
  /-- Sign extension of the accumulator to double width. -/
  | signExtendAccumulator (size : Size)
  | setcc (cond : Condition) (dest : Operand)
  | jcc (cond : Condition) (target : String)
  | jmp (target : String)
  | label (name : String)
  | call (symbol : String)
  /-- Call of the function whose address lies at an offset from a hardware register. -/
  | callIndirect (base : Machine.Reg) (disp : Int)
  deriving DecidableEq, Repr

namespace Instr

def mov (size : Size) (src dest : Operand) : Instr := .alu .mov size src dest

def isCall : Instr → Bool
  | .call _ | .callIndirect _ _ => true
  | _ => false

/-- The label that an instruction may jump to. -/
def jumpTarget? : Instr → Option String
  | .jcc _ target | .jmp target => some target
  | _ => none

/-- The label that an instruction places. -/
def placedLabel? : Instr → Option String
  | .label name => some name
  | _ => none

/-- One line of text, without its end. -/
def text : Instr → String
  | .alu op size src dest =>
    "\t" ++ op.mnemonic ++ size.suffix ++ " " ++ src.text size ++ ", " ++ dest.text size
  | .extend signed narrow wide src dest =>
    "\t" ++ Machine.Instr.extendMnemonic signed ++ narrow.suffix ++ wide.suffix ++ " "
      ++ src.text narrow ++ ", " ++ dest.text wide
  | .lea src dest => "\tleaq " ++ src.text .quad ++ ", " ++ dest.text .quad
  | .neg size dest => "\tneg" ++ size.suffix ++ " " ++ dest.text size
  | .not size dest => "\tnot" ++ size.suffix ++ " " ++ dest.text size
  | .shift op size dest => "\t" ++ op.mnemonic ++ size.suffix ++ " %cl, " ++ dest.text size
  | .idiv size divisor => "\tidiv" ++ size.suffix ++ " " ++ divisor.text size
  | .signExtendAccumulator size => "\t" ++ Machine.Instr.signExtendMnemonic size
  | .setcc cond dest => "\tset" ++ cond.code ++ " " ++ dest.text .byte
  | .jcc cond target => "\tj" ++ cond.code ++ " " ++ target
  | .jmp target => "\tjmp " ++ target
  | .label name => name ++ ":"
  | .call symbol => "\tcall " ++ symbol
  | .callIndirect base disp => "\tcall *" ++ toString disp ++ "(" ++ base.text ++ ")"

end Instr

end Jil.Pseudo
