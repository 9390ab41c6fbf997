/-
Jil.Signature — how methods are told apart.

A method of a class is identified by its name and its exact parameter types;
`MethodInfo` is what a call has to know about the method it reaches.
-/
import Jil.Table
import Jil.Ty

namespace Jil

/-- Whether a member belongs to the class or to each of its objects. -/
inductive MemberKind where
  | static
  | perObject
  deriving DecidableEq, Repr

namespace MemberKind

def keyword : MemberKind → String
  | .static => "static"
  | .perObject => "instance"

def ofKeyword? (s : String) : Option MemberKind :=
  if s = "static" then some .static else if s = "instance" then some .perObject else none

end MemberKind

/-- Name and parameter types of a method. -/
structure MethodKey where
  name : String
  params : List Ty
  deriving DecidableEq, Repr

def MethodKey.text (k : MethodKey) : String :=
  k.name ++ "(" ++ String.intercalate ", " (k.params.map Ty.descriptor) ++ ")"

/-- What a call has to know about its target. -/
structure MethodInfo where
  returns : Ty
  kind : MemberKind
  varargs : Bool
  deriving DecidableEq, Repr

/-- The method that a call reaches. -/
structure ResolvedMethod where
  /-- The class that declares the method. -/
  owner : String
  key : MethodKey
  info : MethodInfo
  /-- Whether the method belongs to the class being compiled. -/
  isLocal : Bool
  deriving DecidableEq, Repr

/-- The methods of one class by key. -/
structure SignatureIndex where
  methods : Table MethodKey MethodInfo := .empty
  deriving Repr, Inhabited

namespace SignatureIndex

/-- The index of a list of methods; of methods with one key the last counts. -/
def build (methods : List (MethodKey × MethodInfo)) : SignatureIndex := ⟨.ofList methods⟩

def get? (index : SignatureIndex) (key : MethodKey) : Option MethodInfo :=
  index.methods.get? key

/-- Number of different keys. -/
def size (index : SignatureIndex) : Nat := index.methods.size

def isEmpty (index : SignatureIndex) : Bool := index.size = 0

end SignatureIndex

end Jil
