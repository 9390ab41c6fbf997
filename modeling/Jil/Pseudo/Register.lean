/-
Jil.Pseudo.Register — pseudo-registers and where they are kept.

Code is first generated over an unlimited supply of pseudo-registers, each with
a number and a size; the allocator then gives every number a location.
-/
import Jil.Machine.Register

namespace Jil.Pseudo

open Jil.Machine (Size)

/-- A pseudo-register. -/
structure Reg where
  id : Nat
  size : Size
  deriving DecidableEq, Repr, Inhabited

/-- The pseudo-register as an operand. -/
def Reg.text (p : Reg) : String := "%" ++ p.size.letter ++ toString p.id

/-- Whether `p` comes before `q`: by number, then by size. -/
def Reg.before (p q : Reg) : Bool :=
  p.id < q.id || (p.id = q.id && p.size.rank < q.size.rank)

/-- Where the value of a pseudo-register is kept. -/
inductive Location where
  | reg (r : Machine.Reg)
  /-- A place in the frame, at an offset from the frame pointer. -/
  | slot (offset : Int)
  deriving DecidableEq, Repr

end Jil.Pseudo
