/-
Jil.Structure.Data — the initial contents of a structure, as assembly data.

The data of a structure are the empty dispatch slot, then each member's first
value, with zero bytes where alignment leaves a gap.
-/
import Jil.Structure

namespace Jil

/-- A piece of initialised data. -/
inductive DataItem where
  /-- A value of 1, 2, 4 or 8 bytes. -/
  | value (bytes : Nat) (bits : Int)
  | zeros (count : Nat)
  deriving DecidableEq, Repr

/-- The directive for a piece of data. Values of less than eight bytes are
written without their sign. -/
def DataItem.text : DataItem → String
  | .value 1 bits => "\t.byte " ++ toString (bits % 2 ^ 8)
  | .value 2 bits => "\t.short " ++ toString (bits % 2 ^ 16)
  | .value 4 bits => "\t.long " ++ toString (bits % 2 ^ 32)
  | .value _ bits => "\t.quad " ++ toString bits
  | .zeros count => "\t.zero " ++ toString count

namespace Structure

/-- Data of placed members, behind the first `offset` bytes. -/
def dataFrom (offset : Nat) : List (Member × Nat) → Except CompileError (List DataItem)
  | [] => .ok []
  | (m, place) :: rest => do
    let bits ← m.defaultBits
    let items ← dataFrom (place + m.type.size) rest
    let gap := if offset < place then [DataItem.zeros (place - offset)] else []
    pure (gap ++ .value m.type.size bits :: items)

/-- The data of a structure. -/
def data (s : Structure) : Except CompileError (List DataItem) := do
  let items ← dataFrom dispatchSlotSize s.layout
  pure (.value dispatchSlotSize 0 :: items)

end Structure

end Jil
