/-
Jil.Pseudo.Expansion — from pseudo-registers to machine code.

Once every pseudo-register has a location, `Instr.expand` gives the machine
instructions that do the work of one instruction. An instruction accesses
memory at most once, so a value that goes from memory to memory passes through
the value scratch register, and so do wide immediates that an instruction
cannot hold; an address that is kept in the frame is first loaded into the
address scratch register.
-/
import Jil.Diagnostic
import Jil.Pseudo.Instruction

namespace Jil.Pseudo

open Jil.Machine (AluOp Size addressScratch valueScratch)

/-- The location of each pseudo-register, by number. -/
abbrev Assignment := Nat → Option Location

/-- Location of a pseudo-register. -/
def Assignment.location (a : Assignment) (p : Reg) : Except Fault Location :=
  match a p.id with
  | some location => .ok location
  | none => .error (.noLocation p)

/-- A location as an operand of the machine. -/
def Location.operand : Location → Machine.Operand
  | .reg r => .reg r
  | .slot offset => .mem .rbp offset

namespace Operand

/-- The machine's operand, and the instructions that have to come before its use. -/
def resolve (a : Assignment) : Operand → Except Fault (List Machine.Instr × Machine.Operand)
  | .pseudo p => do
    let location ← a.location p
    pure ([], location.operand)
  | .fixed r => pure ([], .reg r)
  | .imm v => pure ([], .imm v)
  | .indirect base disp => do
    match ← a.location base with
    | .reg r => pure ([], .mem r disp)
    | .slot offset =>
      pure ([.mov .quad (.mem .rbp offset) (.reg addressScratch)], .mem addressScratch disp)
  | .fixedIndirect base disp => pure ([], .mem base disp)
  | .rip symbol disp => pure ([], .rip symbol disp)

end Operand

/-- The value scratch register as an operand. -/
def scratch : Machine.Operand := .reg valueScratch

/-- A two-operand operation between operands of the machine. -/
def expandAlu (op : AluOp) (size : Size) (src dest : Machine.Operand) : List Machine.Instr :=
  if op.needsRegister && dest.isMemory then
    [.mov size dest scratch, .alu op size src scratch, .mov size scratch dest]
  else if src.isMemory && dest.isMemory
      || src.isWideImmediate && (dest.isMemory || op ≠ .mov) then
    [.mov size src scratch, .alu op size scratch dest]
  else
    [.alu op size src dest]

/-- An operation whose destination has to be a register: the value scratch register stands in
for a destination of another kind, and its value is moved there afterwards. -/
def expandInto (size : Size) (operation : Machine.Reg → Machine.Instr) :
    Machine.Operand → List Machine.Instr
  | .reg r => [operation r]
  | dest => [operation valueScratch, .mov size scratch dest]

/-- An instruction with a single operand. -/
def expandUnary (a : Assignment) (operand : Operand)
    (operation : Machine.Operand → Machine.Instr) :
    Except Fault (List Machine.Instr) := do
  let (before, operand) ← operand.resolve a
  pure (before ++ [operation operand])

/-- The machine instructions that do the work of an instruction. -/
def Instr.expand (a : Assignment) : Instr → Except Fault (List Machine.Instr)
  | .alu op size src dest => do
    let (before, src) ← src.resolve a
    let (between, dest) ← dest.resolve a
    pure (before ++ between ++ expandAlu op size src dest)
  | .extend signed narrow wide src dest => do
    let (before, src) ← src.resolve a
    let (between, dest) ← dest.resolve a
    pure (before ++ between ++ expandInto wide (.extend signed narrow wide src) dest)
  | .lea src dest => do
    let (before, src) ← src.resolve a
    let (between, dest) ← dest.resolve a
    pure (before ++ between ++ expandInto .quad (.lea src) dest)
  | .neg size dest => expandUnary a dest (.neg size)
  | .not size dest => expandUnary a dest (.not size)
  | .shift op size dest => expandUnary a dest (.shift op size)
  | .idiv size divisor => expandUnary a divisor (.idiv size)
  | .setcc cond dest => expandUnary a dest (.setcc cond)
  | .signExtendAccumulator size => pure [.signExtendAccumulator size]
  | .jcc cond target => pure [.jcc cond target]
  | .jmp target => pure [.jmp target]
  | .label name => pure [.label name]
  | .call symbol => pure [.call symbol]
  | .callIndirect base disp => pure [.callIndirect base disp]

/-- The machine instructions that do the work of a stream. -/
def expandAll (a : Assignment) (code : List Instr) : Except Fault (List Machine.Instr) := do
  let parts ← code.mapM (·.expand a)
  pure parts.flatten

end Jil.Pseudo
