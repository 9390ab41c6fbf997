/-
Jil.Machine.Instruction — machine instructions and their text.

The instructions that compiled functions consist of, over hardware registers
and memory, and their AT&T form: the source before the destination, the
mnemonic with the suffix of the operation's size.
-/
import Jil.Machine.Register

namespace Jil.Machine

/-! ## Operations -/

/-- Two-operand operations of the arithmetic unit. -/
inductive AluOp where
  | mov | add | sub | and | or | xor | cmp | imul
  deriving DecidableEq, Repr

namespace AluOp

def mnemonic : AluOp → String
  | .mov => "mov"
  | .add => "add"
  | .sub => "sub"
  | .and => "and"
  | .or => "or"
  | .xor => "xor"
  | .cmp => "cmp"
  | .imul => "imul"

/-- Whether the destination is an input. -/
def readsDestination : AluOp → Bool
  | .mov => false
  | _ => true

/-- Whether the destination is an output. -/
def writesDestination : AluOp → Bool
  | .cmp => false
  | _ => true

/-- Whether the destination has to be a register. -/
def needsRegister : AluOp → Bool
  | .imul => true
  | _ => false

end AluOp

/-- Shifts by the count in the lowest byte of `rcx`. -/
inductive ShiftOp where
  | sal | sar | shr
  deriving DecidableEq, Repr

def ShiftOp.mnemonic : ShiftOp → String
  | .sal => "sal"
  | .sar => "sar"
  | .shr => "shr"

/-- Conditions on the flags; the last four compare unsigned. -/
inductive Condition where
  | equal | notEqual
  | less | lessEqual | greater | greaterEqual
  | below | belowEqual | above | aboveEqual
  deriving DecidableEq, Repr

/-- Code of a condition in mnemonics. -/
def Condition.code : Condition → String
  | .equal => "e"
  | .notEqual => "ne"
  | .less => "l"
  | .lessEqual => "le"
  | .greater => "g"
  | .greaterEqual => "ge"
  | .below => "b"
  | .belowEqual => "be"
  | .above => "a"
  | .aboveEqual => "ae"

/-! ## Operands -/

/-- Whether a value fits into a signed 32-bit immediate. -/
def fitsLong (v : Int) : Bool := -(2 ^ 31 : Int) ≤ v && v < 2 ^ 31

/-- An operand. -/
inductive Operand where
  | reg (r : Reg)
  | imm (value : Int)
  /-- Memory at an offset from a register. -/
  | mem (base : Reg) (disp : Int)
  /-- Memory at an offset from a symbol. -/
  | rip (symbol : String) (disp : Int)
  deriving DecidableEq, Repr

namespace Operand

def isMemory : Operand → Bool
  | .mem _ _ | .rip _ _ => true
  | _ => false

def isRegister : Operand → Bool
  | .reg _ => true
  | _ => false

/-- An immediate that needs more than 32 bits. -/
def isWideImmediate : Operand → Bool
  | .imm v => !fitsLong v
  | _ => false

/-- Memory operands, the displacement left out when it is zero. -/
def memoryText (base : String) (disp : Int) : String :=
  if disp = 0 then "(" ++ base ++ ")" else toString disp ++ "(" ++ base ++ ")"

/-- Memory relative to a symbol, a positive displacement with its sign. -/
def symbolText (symbol : String) (disp : Int) : String :=
  let offset :=
    if disp = 0 then "" else if disp < 0 then toString disp else "+" ++ toString disp
  symbol ++ offset ++ "(%rip)"

/-- The operand in an instruction of size `s`. -/
def text (s : Size) : Operand → String
  | .reg r => r.sized s
  | .imm v => "$" ++ toString v
  | .mem base disp => memoryText base.text disp
  | .rip symbol disp => symbolText symbol disp

end Operand

/-! ## Instructions -/

/-- A machine instruction. -/
inductive Instr where
  | alu (op : AluOp) (size : Size) (src dest : Operand)
  /-- Sign or zero extension from a size to a wider one. -/
  | extend (signed : Bool) (narrow wide : Size) (src : Operand) (dest : Reg)
  | lea (src : Operand) (dest : Reg)
  | neg (size : Size) (dest : Operand)
  | not (size : Size) (dest : Operand)
  | shift (op : ShiftOp) (size : Size) (dest : Operand)
  /-- Signed division of the double-width accumulator. -/
  | idiv (size : Size) (divisor : Operand)
  /-- Sign extension of the accumulator to double width. -/
  | signExtendAccumulator (size : Size)
  | setcc (cond : Condition) (dest : Operand)
  | jcc (cond : Condition) (target : String)
  | jmp (target : String)
  | label (name : String)
  | call (symbol : String)
  /-- Call of the function whose address lies at an offset from a register. -/
  | callIndirect (base : Reg) (disp : Int)
  | push (r : Reg)
  | pop (r : Reg)
  | leave
  | ret
  deriving DecidableEq, Repr

namespace Instr

def mov (size : Size) (src dest : Operand) : Instr := .alu .mov size src dest

def isCall : Instr → Bool
  | .call _ | .callIndirect _ _ => true
  | _ => false

def isLabel : Instr → Bool
  | .label _ => true
  | _ => false

/-- The operands whose memory an instruction accesses; `lea` only computes an address. -/
def accessed : Instr → List Operand
  | .alu _ _ src dest => [src, dest]
  | .extend _ _ _ src _ => [src]
  | .neg _ dest | .not _ dest | .shift _ _ dest | .setcc _ dest => [dest]
  | .idiv _ divisor => [divisor]
  | _ => []

/-- Number of memory operands that an instruction accesses. -/
def memoryOperands (i : Instr) : Nat := i.accessed.countP Operand.isMemory

/-- Mnemonic of the sign extension of the accumulator. -/
def signExtendMnemonic (s : Size) : String :=
  match s.integer with
  | .quad => "cqto"
  | .word => "cwtd"
  | _ => "cltd"

/-- Beginning of the mnemonic of an extension. -/
def extendMnemonic (signed : Bool) : String := if signed then "movs" else "movz"

/-- One line of assembly text, without its end. Moving a long zero-extends it to a quad, and a
wide immediate is moved by an instruction of its own. -/
def text : Instr → String
  | .alu op size src dest =>
    let mnemonic := if op = .mov && src.isWideImmediate then "movabs" else op.mnemonic
    "\t" ++ mnemonic ++ size.suffix ++ " " ++ src.text size ++ ", " ++ dest.text size
  | .extend signed narrow wide src dest =>
    if !signed && narrow.integer = .long && wide.integer = .quad then
      "\tmovl " ++ src.text .long ++ ", " ++ dest.sized .long
    else
      "\t" ++ extendMnemonic signed ++ narrow.suffix ++ wide.suffix ++ " "
        ++ src.text narrow ++ ", " ++ dest.sized wide
  | .lea src dest => "\tleaq " ++ src.text .quad ++ ", " ++ dest.text
  | .neg size dest => "\tneg" ++ size.suffix ++ " " ++ dest.text size
  | .not size dest => "\tnot" ++ size.suffix ++ " " ++ dest.text size
  | .shift op size dest => "\t" ++ op.mnemonic ++ size.suffix ++ " %cl, " ++ dest.text size
  | .idiv size divisor => "\tidiv" ++ size.suffix ++ " " ++ divisor.text size
  | .signExtendAccumulator size => "\t" ++ signExtendMnemonic size
  | .setcc cond dest => "\tset" ++ cond.code ++ " " ++ dest.text .byte
  | .jcc cond target => "\tj" ++ cond.code ++ " " ++ target
  | .jmp target => "\tjmp " ++ target
  | .label name => name ++ ":"
  | .call symbol => "\tcall " ++ symbol
  | .callIndirect base disp => "\tcall *" ++ toString disp ++ "(" ++ base.text ++ ")"
  | .push r => "\tpushq " ++ r.text
  | .pop r => "\tpopq " ++ r.text
  | .leave => "\tleave"
  | .ret => "\tret"

end Instr

end Jil.Machine
