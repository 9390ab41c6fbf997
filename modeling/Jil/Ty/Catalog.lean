/-
Jil.Ty.Catalog — descriptors that have been read.

Interning a descriptor reads it and, when it describes a type, remembers it;
the catalog knows how many different descriptors it has seen.
-/
import Jil.Table
import Jil.Ty

namespace Jil

/-- The descriptors read so far, each with its type. -/
structure TypeCatalog where
  known : Table String Ty := .empty
  deriving Inhabited

namespace TypeCatalog

/-- Number of different descriptors seen. -/
def size (c : TypeCatalog) : Nat := c.known.size

def isEmpty (c : TypeCatalog) : Bool := c.size = 0

/-- The type of a descriptor, and the catalog that has seen it. -/
def intern (c : TypeCatalog) (descriptor : String) : Option Ty × TypeCatalog :=
  match c.known.get? descriptor with
  | some t => (some t, c)
  | none =>
    match Ty.ofDescriptor? descriptor.toList with
    | some t => (some t, ⟨c.known.insert descriptor t⟩)
    | none => (none, c)

end TypeCatalog

end Jil
