/-
Jil.Machine.Register — registers, operand sizes and register sets.

The sixteen general-purpose registers in encoding order, the size classes of
operands (four integer widths, and the two floating-point sizes whose values
are carried in general registers as raw bits), the name of a register at a
size, and finite sets of registers listed in encoding order.
-/
import Jil.Ty

namespace Jil.Machine

/-! ## Sizes -/

/-- Size class of an operand. -/
inductive Size where
  | byte
  | word
  | long
  | quad
  | single
  | double
  deriving DecidableEq, Repr, Inhabited

namespace Size

/-- Width in bytes. -/
def bytes : Size → Nat
  | .byte => 1
  | .word => 2
  | .long | .single => 4
  | .quad | .double => 8

theorem bytes_pos (s : Size) : 0 < s.bytes := by cases s <;> decide

/-- The integer size of the same width. -/
def integer : Size → Size
  | .single => .long
  | .double => .quad
  | s => s

def isFloating : Size → Bool
  | .single | .double => true
  | _ => false

/-- Suffix of a mnemonic that works at this size. -/
def suffix (s : Size) : String :=
  match s.integer with
  | .byte => "b"
  | .word => "w"
  | .long => "l"
  | _ => "q"

/-- Letter in front of the number of a pseudo-register of this size. -/
def letter : Size → String
  | .byte => "b"
  | .word => "w"
  | .long => "l"
  | .quad => "q"
  | .single => "s"
  | .double => "d"

/-- Rank in the order byte, word, long, quad, single, double. -/
def rank : Size → Nat
  | .byte => 0
  | .word => 1
  | .long => 2
  | .quad => 3
  | .single => 4
  | .double => 5

/-- Size of the values of a type; `void` has none. -/
def ofTy? : Ty → Option Size
  | .void => none
  | .byte | .boolean => some .byte
  | .char | .short => some .word
  | .int => some .long
  | .long | .null | .classRef _ | .array _ => some .quad
  | .float => some .single
  | .double => some .double

end Size

/-! ## Registers -/

/-- A general-purpose register. -/
inductive Reg where
  | rax | rcx | rdx | rbx | rsp | rbp | rsi | rdi
  | r8 | r9 | r10 | r11 | r12 | r13 | r14 | r15
  deriving DecidableEq, Repr, Inhabited

namespace Reg

/-- Every register, in encoding order. -/
def all : List Reg :=
  [.rax, .rcx, .rdx, .rbx, .rsp, .rbp, .rsi, .rdi,
   .r8, .r9, .r10, .r11, .r12, .r13, .r14, .r15]

theorem mem_all (r : Reg) : r ∈ all := by cases r <;> decide

/-- Number of the register in instruction encodings. -/
def encoding : Reg → Nat
  | .rax => 0 | .rcx => 1 | .rdx => 2 | .rbx => 3
  | .rsp => 4 | .rbp => 5 | .rsi => 6 | .rdi => 7
  | .r8 => 8 | .r9 => 9 | .r10 => 10 | .r11 => 11
  | .r12 => 12 | .r13 => 13 | .r14 => 14 | .r15 => 15

theorem getElem?_encoding (r : Reg) : all[r.encoding]? = some r := by cases r <;> rfl

/-- Names at byte, word, long and quad width. -/
def names : Reg → String × String × String × String
  | .rax => ("al", "ax", "eax", "rax")
  | .rcx => ("cl", "cx", "ecx", "rcx")
  | .rdx => ("dl", "dx", "edx", "rdx")
  | .rbx => ("bl", "bx", "ebx", "rbx")
  | .rsp => ("spl", "sp", "esp", "rsp")
  | .rbp => ("bpl", "bp", "ebp", "rbp")
  | .rsi => ("sil", "si", "esi", "rsi")
  | .rdi => ("dil", "di", "edi", "rdi")
  | .r8 => ("r8b", "r8w", "r8d", "r8")
  | .r9 => ("r9b", "r9w", "r9d", "r9")
  | .r10 => ("r10b", "r10w", "r10d", "r10")
  | .r11 => ("r11b", "r11w", "r11d", "r11")
  | .r12 => ("r12b", "r12w", "r12d", "r12")
  | .r13 => ("r13b", "r13w", "r13d", "r13")
  | .r14 => ("r14b", "r14w", "r14d", "r14")
  | .r15 => ("r15b", "r15w", "r15d", "r15")

/-- Name of the part of the register that an operand of size `s` uses. -/
def name (r : Reg) (s : Size) : String :=
  match s.integer with
  | .byte => r.names.1
  | .word => r.names.2.1
  | .long => r.names.2.2.1
  | _ => r.names.2.2.2

/-- The register as an operand of size `s`. -/
def sized (r : Reg) (s : Size) : String := "%" ++ r.name s

/-- The whole register as an operand. -/
def text (r : Reg) : String := r.sized .quad

/-- The register with a given name at quad width. -/
def ofName? (s : String) : Option Reg := all.find? (·.name .quad = s)

end Reg

/-! ## Register sets -/

/-- A set of registers. -/
structure RegSet where
  members : List Reg := []
  deriving Repr, Inhabited

namespace RegSet

/-- The set without members. -/
def empty : RegSet := ⟨[]⟩

def contains (s : RegSet) (r : Reg) : Bool := r ∈ s.members

def insert (s : RegSet) (r : Reg) : RegSet :=
  if r ∈ s.members then s else ⟨r :: s.members⟩

def erase (s : RegSet) (r : Reg) : RegSet := ⟨s.members.filter (· ≠ r)⟩

/-- The members in encoding order. -/
def toList (s : RegSet) : List Reg := Reg.all.filter s.contains

def size (s : RegSet) : Nat := s.toList.length

def isEmpty (s : RegSet) : Bool := s.toList.isEmpty

theorem contains_insert (s : RegSet) (r x : Reg) :
    (s.insert r).contains x = (x = r || s.contains x) := by
  by_cases h : r ∈ s.members
  · by_cases hx : x = r
    · subst hx; simp [insert, contains, h]
    · simp [insert, contains, h, hx]
  · simp [insert, contains, h]

theorem contains_erase (s : RegSet) (r x : Reg) :
    (s.erase r).contains x = (x ≠ r && s.contains x) := by
  simp [erase, contains, Bool.and_comm]

theorem mem_toList (s : RegSet) (x : Reg) : x ∈ s.toList ↔ s.contains x = true := by
  simp [toList, Reg.mem_all]

end RegSet

end Jil.Machine
