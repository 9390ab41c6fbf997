/-
Jil.Structure — the members of a class and where they lie.

A structure lists the static members of a class or those of each object. Its
first eight bytes are the dispatch slot; every member then lies at the next
multiple of its alignment. No offset is kept: `layout` computes them all, and
`fieldOffset` and `totalSize` are read off it.
-/
import Jil.Diagnostic
import Jil.Literal

namespace Jil

/-- Bytes in front of the first member. -/
def dispatchSlotSize : Nat := 8

/-- The least multiple of `align` that is not below `offset`. -/
def alignUp (offset align : Nat) : Nat := (offset + align - 1) / align * align

/-! ## Members -/

/-- A member of a class. -/
structure Member where
  type : Ty
  name : String
  /-- Text of the value that the member starts with. -/
  default : Option String
  origin : Origin
  deriving DecidableEq, Repr

/-- Bit pattern that a member starts with: zero unless a value is given. A reference can only
start as null. -/
def Member.defaultBits (m : Member) : Except CompileError Int :=
  match m.default with
  | none => .ok 0
  | some value =>
    match Literal.bits? (if m.type.isPrimitive then m.type else .null) value.toList with
    | some bits => .ok bits
    | none => .error (.typeMismatch (.memberDefault value m.name m.type) (some m.origin))

/-! ## Structures -/

/-- The static members of a class, or the members of its objects. -/
structure Structure where
  owner : String
  kind : MemberKind
  members : List Member := []
  /-- The line that the next members belong to. -/
  origin : Origin := .generated
  deriving DecidableEq, Repr

namespace Structure

/-- Name of the structure in messages. -/
def name (s : Structure) : String := s.owner ++ "-" ++ s.kind.keyword

/-- Adds a member behind the others. -/
def add (s : Structure) (type : Ty) (name : String) (default : Option String) : Structure :=
  { s with members := s.members ++ [⟨type, name, default, s.origin⟩] }

def contains (s : Structure) (name : String) : Bool := s.members.any (·.name = name)

/-- Accepts the structure when every member can start with the value given for it, and
otherwise tells of the first that cannot. -/
def checkDefaults (s : Structure) : Except CompileError Unit :=
  s.members.forM fun m => do let _ ← m.defaultBits

/-! ## Layout -/

/-- Offsets of members that lie behind the first `offset` bytes. -/
def layoutFrom (offset : Nat) : List Member → List (Member × Nat)
  | [] => []
  | m :: rest =>
    let place := alignUp offset m.type.align
    (m, place) :: layoutFrom (place + m.type.size) rest

/-- The members with their offsets, in the order of declaration. -/
def layout (s : Structure) : List (Member × Nat) := layoutFrom dispatchSlotSize s.members

/-- Size in bytes, the dispatch slot included. -/
def totalSize (s : Structure) : Nat :=
  match s.layout.getLast? with
  | some (m, offset) => offset + m.type.size
  | none => dispatchSlotSize

/-- Offset of the first member of a given name. -/
def fieldOffset (s : Structure) (name : String) (origin : Origin) : Except CompileError Nat :=
  match s.layout.find? (·.1.name = name) with
  | some (_, offset) => .ok offset
  | none => .error (.layout s.name name (some origin))

/-- Type of the first member of a given name. -/
def fieldType (s : Structure) (name : String) (origin : Origin) : Except CompileError Ty :=
  match s.members.find? (·.name = name) with
  | some m => .ok m.type
  | none => .error (.layout s.name name (some origin))

/-! ## Text -/

/-- One member as it is written in a source. -/
def memberText (m : Member) : String :=
  let value := match m.default with
    | some text => " = " ++ text
    | none => ""
  m.type.descriptor ++ " " ++ m.name ++ value ++ ";"

/-- The structure as it is written in a source. -/
def text (s : Structure) : String :=
  "structure " ++ s.kind.keyword ++ "\n"
    ++ String.join (s.members.map fun m => "\t" ++ memberText m ++ "\n")
    ++ "end structure\n"

end Structure

end Jil
