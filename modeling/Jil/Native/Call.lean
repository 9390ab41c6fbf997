/-
Jil.Native.Call — code of calls.

A call passes the environment in the first argument register and the operands
in the ones after it, each widened to a whole register: booleans and chars with
zeros, other narrow values with their sign. A service is called through the
table that the environment points to, a function of the same unit through its
symbol.
-/
import Jil.Diagnostic
import Jil.Native.Service
import Jil.Pseudo.Instruction

namespace Jil.Native

open Jil.Machine (Abi addressScratch)
open Jil.Pseudo (Instr Reg)

/-- An operand of a call. -/
inductive Argument where
  | value (p : Reg) (type : Ty)
  /-- The address of a symbol. -/
  | address (symbol : String)
  deriving DecidableEq, Repr

/-- Code, and whether it is complete. -/
structure Sequence where
  code : List Instr
  outcome : Except Failure Unit

namespace Sequence

/-- Complete code. -/
def complete (code : List Instr) : Sequence := ⟨code, .ok ()⟩

/-- Code that ends where something failed. -/
def failed (e : Failure) : Sequence := ⟨[], .error e⟩

/-- `rest` after `s`, unless `s` is not complete. -/
def andThen (s rest : Sequence) : Sequence :=
  match s.outcome with
  | .ok () => ⟨s.code ++ rest.code, rest.outcome⟩
  | .error _ => s

end Sequence

/-- Whether narrow values of a type are widened with their sign. -/
def isSigned : Ty → Bool
  | .boolean | .char => false
  | _ => true

/-- Register of the argument at `position`, counted from 1. -/
def argumentRegister (abi : Abi) (position : Nat) : Except Failure Machine.Reg :=
  match abi.argument? position with
  | some r => .ok r
  | none => .error (.fault (.argumentOutOfRange position))

/-- Moves one operand into a register. -/
def marshal (origin : Origin) (dest : Machine.Reg) : Argument → Except Failure Instr
  | .address symbol => .ok (.lea (.rip symbol 0) (.fixed dest))
  | .value p type =>
    if type.isFloating then .error (.unsupported (.floatingOperand type) origin)
    else if p.size = .quad then .ok (.mov .quad (.pseudo p) (.fixed dest))
    else .ok (.extend (isSigned type) p.size .quad (.pseudo p) (.fixed dest))

/-- Moves operands into the argument registers from `position` on. -/
def loadOperands (abi : Abi) (origin : Origin) (position : Nat) : List Argument → Sequence
  | [] => .complete []
  | a :: rest =>
    match argumentRegister abi position >>= (marshal origin · a) with
    | .ok i => (Sequence.complete [i]).andThen (loadOperands abi origin (position + 1) rest)
    | .error e => .failed e

/-- Moves the environment and the operands into the argument registers. -/
def loadArguments (abi : Abi) (env : Reg) (callee : String) (args : List Argument)
    (origin : Origin) : Sequence :=
  if abi.argumentCount < args.length + 1 then
    .failed (.unsupported
      (.operandOverflow callee args.length abi.argumentCount abi.family) origin)
  else
    match argumentRegister abi 1 with
    | .ok r =>
      (Sequence.complete [.mov .quad (.pseudo env) (.fixed r)]).andThen
        (loadOperands abi origin 2 args)
    | .error e => .failed e

/-- Moves the result out of its register, when it is wanted. -/
def takeResult (abi : Abi) : Option Reg → List Instr
  | some p => [.mov p.size (.fixed abi.returnRegister) (.pseudo p)]
  | none => []

/-- Calls a service whose arguments are in place. -/
def invoke (abi : Abi) (env : Reg) (service : Service) : List Instr :=
  [.mov .quad (.indirect env 0) (.fixed addressScratch)]
    ++ (if service.isVariadic && abi.countsVectorArguments then
          [.mov .long (.imm 0) (.fixed .rax)] else [])
    ++ [.callIndirect addressScratch service.offset]

/-- Call of a service. A result is taken only from services that return one. -/
def serviceCall (abi : Abi) (env : Reg) (service : Service) (args : List Argument)
    (result : Option Reg) (origin : Origin) : Sequence :=
  (loadArguments abi env service.name args origin).andThen
    (.complete (invoke abi env service
      ++ takeResult abi (if service.returnsValue then result else none)))

/-- Call of a function of the same unit. -/
def directCall (abi : Abi) (env : Reg) (symbol : String) (args : List Argument)
    (result : Option Reg) (origin : Origin) : Sequence :=
  (loadArguments abi env symbol args origin).andThen
    (.complete ([.call symbol] ++ takeResult abi result))

end Jil.Native
