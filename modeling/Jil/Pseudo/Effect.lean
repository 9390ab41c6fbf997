/-
Jil.Pseudo.Effect — what instructions do to registers.

`Instr.effects` lists the pseudo-registers that an instruction reads and
writes, and the hardware registers that it names or needs, in the order in
which it does so. Storing through an address only reads the register that
holds the address.
-/
import Jil.Pseudo.Instruction

namespace Jil.Pseudo

/-- What an instruction does to one register. -/
inductive Effect where
  | uses (p : Reg)
  | defines (p : Reg)
  /-- A hardware register that the instruction names, or needs without naming it. -/
  | touches (r : Machine.Reg)
  deriving DecidableEq, Repr

namespace Effect

/-- The pseudo-register that is read or written. -/
def pseudo? : Effect → Option Reg
  | .uses p | .defines p => some p
  | .touches _ => none

def used? : Effect → Option Reg
  | .uses p => some p
  | _ => none

def defined? : Effect → Option Reg
  | .defines p => some p
  | _ => none

def touched? : Effect → Option Machine.Reg
  | .touches r => some r
  | _ => none

end Effect

namespace Operand

/-- Effects of reading an operand. -/
def readEffects : Operand → List Effect
  | .pseudo p | .indirect p _ => [.uses p]
  | .fixed r | .fixedIndirect r _ => [.touches r]
  | .imm _ | .rip _ _ => []

/-- Effects of writing an operand. -/
def writeEffects : Operand → List Effect
  | .pseudo p => [.defines p]
  | .indirect p _ => [.uses p]
  | .fixed r | .fixedIndirect r _ => [.touches r]
  | .imm _ | .rip _ _ => []

end Operand

namespace Instr

/-- The operands of an instruction. -/
def operands : Instr → List Operand
  | .alu _ _ src dest | .extend _ _ _ src dest | .lea src dest => [src, dest]
  | .neg _ dest | .not _ dest | .shift _ _ dest | .setcc _ dest => [dest]
  | .idiv _ divisor => [divisor]
  | _ => []

/-- Effects of an instruction. -/
def effects : Instr → List Effect
  | .alu op _ src dest =>
    src.readEffects
      ++ (if op.readsDestination then dest.readEffects else [])
      ++ (if op.writesDestination then dest.writeEffects else [])
  | .extend _ _ _ src dest | .lea src dest => src.readEffects ++ dest.writeEffects
  | .neg _ dest | .not _ dest => dest.readEffects ++ dest.writeEffects
  | .shift _ _ dest => [.touches .rcx] ++ dest.readEffects ++ dest.writeEffects
  | .idiv _ divisor => [.touches .rax, .touches .rdx] ++ divisor.readEffects
  | .signExtendAccumulator _ => [.touches .rax, .touches .rdx]
  | .setcc _ dest => dest.writeEffects
  | .callIndirect base _ => [.touches base]
  | .jcc _ _ | .jmp _ | .label _ | .call _ => []

/-- The pseudo-registers that an instruction reads. -/
def used (i : Instr) : List Reg := i.effects.filterMap Effect.used?

/-- The pseudo-registers that an instruction writes. -/
def defined (i : Instr) : List Reg := i.effects.filterMap Effect.defined?

/-- The hardware registers that an instruction names or needs. -/
def touched (i : Instr) : List Machine.Reg := i.effects.filterMap Effect.touched?

end Instr

end Jil.Pseudo
