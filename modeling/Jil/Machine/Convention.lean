/-
Jil.Machine.Convention — calling conventions.

An `Abi` says which registers pass arguments and which survive a call, how
many bytes a caller reserves for the callee, and the few details of the object
format that show in assembly text. `Abi.systemV`, `Abi.microsoft` and
`Abi.macos` are the supported conventions.
-/
import Jil.Machine.Register

namespace Jil.Machine

/-- The two families of conventions. -/
inductive AbiFamily where
  | systemV
  | microsoft
  deriving DecidableEq, Repr

/-- Name of a family in messages. -/
def AbiFamily.name : AbiFamily → String
  | .systemV => "system-v"
  | .microsoft => "microsoft"

/-- A calling convention. -/
structure Abi where
  family : AbiFamily
  /-- Registers of the integer arguments, first argument first. -/
  arguments : List Reg
  /-- Registers that a callee leaves as they were, the frame pointer included. -/
  preserved : List Reg
  /-- Bytes that the caller reserves right above the return address. -/
  shadowSpace : Nat
  /-- What is written in front of every symbol. -/
  symbolStart : String
  /-- Whether the object format has symbol types and sizes. -/
  isElf : Bool
  deriving DecidableEq, Repr

namespace Abi

/-- The System V convention with ELF objects. -/
def systemV : Abi where
  family := .systemV
  arguments := [.rdi, .rsi, .rdx, .rcx, .r8, .r9]
  preserved := [.rbx, .rbp, .r12, .r13, .r14, .r15]
  shadowSpace := 0
  symbolStart := ""
  isElf := true

/-- The Microsoft convention. -/
def microsoft : Abi where
  family := .microsoft
  arguments := [.rcx, .rdx, .r8, .r9]
  preserved := [.rbx, .rbp, .rdi, .rsi, .r12, .r13, .r14, .r15]
  shadowSpace := 32
  symbolStart := ""
  isElf := false

/-- The System V convention with the symbols and objects of macOS. -/
def macos : Abi := { systemV with symbolStart := "_", isElf := false }

/-- The convention of the platform that the compiler runs on. -/
def host : Abi := systemV

/-- The supported conventions. -/
def all : List Abi := [systemV, microsoft, macos]

/-- Number of arguments that are passed in registers. -/
def argumentCount (abi : Abi) : Nat := abi.arguments.length

/-- Register of the argument at `position`, counted from 1. -/
def argument? (abi : Abi) (position : Nat) : Option Reg :=
  if position = 0 then none else abi.arguments[position - 1]?

/-- Position of the argument that a register passes, counted from 1. -/
def argumentPosition? (abi : Abi) (r : Reg) : Option Nat :=
  (abi.arguments.findIdx? (· = r)).map (· + 1)

/-- Whether a variadic callee expects the number of vector registers used, in the lowest
byte of the accumulator. -/
def countsVectorArguments (abi : Abi) : Bool := abi.family = .systemV

/-- Register of the result of a call. -/
def returnRegister (_ : Abi) : Reg := .rax

/-- Preserved registers that may hold pseudo-registers: all but the frame pointer. -/
def allocatablePreserved (abi : Abi) : List Reg := abi.preserved.filter (· ≠ .rbp)

def isPreserved (abi : Abi) (r : Reg) : Bool := r ∈ abi.preserved

/-- Registers that neither survive a call nor pass arguments, the scratch registers
excepted. -/
def temporaries (_ : Abi) : List Reg := [.r10]

/-- A symbol as it is spelled in assembly text. -/
def symbol (abi : Abi) (name : String) : String := abi.symbolStart ++ name

end Abi

/-- Register through which a value passes when neither operand of an
instruction can hold it. -/
def valueScratch : Reg := .rax

/-- Register that holds an address while memory is reached through it. -/
def addressScratch : Reg := .r11

end Jil.Machine
