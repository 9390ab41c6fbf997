/-
Jil.ClassUnit — one class, and what is known about others.

A unit holds a class: its place in the hierarchy, its static members and those
of its objects, and its functions. It also holds declarations of members of
other classes. Calls are resolved through the signature index, which is absent
after a function was added and until it is built again; a look-up in the class
itself is then a fault.
-/
import Jil.Function
import Jil.Hierarchy
import Jil.Structure

namespace Jil

/-! ## Declarations of other classes -/

/-- A field of another class. -/
structure ExternalField where
  owner : String
  name : String
  type : Ty
  kind : MemberKind
  deriving DecidableEq, Repr

/-- A method of another class. -/
structure ExternalMethod where
  owner : String
  key : MethodKey
  info : MethodInfo
  deriving DecidableEq, Repr

/-- What is declared about other classes, in the order of declaration. -/
structure Externals where
  /-- Classes with their superclasses. -/
  classes : List (String × Option String) := []
  fields : List ExternalField := []
  methods : List ExternalMethod := []
  deriving DecidableEq, Repr

namespace Externals

/-- The first field of a class that has a given name. -/
def field? (e : Externals) (owner name : String) : Option ExternalField :=
  e.fields.find? fun f => f.owner = owner && f.name = name

/-- The first method of a class that has a given key. -/
def method? (e : Externals) (owner : String) (key : MethodKey) : Option ExternalMethod :=
  e.methods.find? fun m => m.owner = owner && m.key = key

end Externals

/-! ## Units -/

/-- A class and what it refers to. -/
structure ClassUnit where
  name : String
  superclass : String
  interfaces : List String
  statics : Structure
  fields : Structure
  functions : List Function
  /-- The methods of the class by key; absent when functions were added since it was built. -/
  index? : Option SignatureIndex
  externals : Externals
  hierarchy : ClassHierarchy
  deriving Repr

namespace ClassUnit

/-- Records the unit's own place in the hierarchy. -/
def declareSelf (u : ClassUnit) : ClassUnit :=
  { u with hierarchy := u.hierarchy.declare u.name (some u.superclass) u.interfaces }

/-- A class without members, right below the root class. -/
def create (name : String) : ClassUnit :=
  declareSelf
    { name := name
      superclass := objectClass
      interfaces := []
      statics := { owner := name, kind := .static }
      fields := { owner := name, kind := .perObject }
      functions := []
      index? := some {}
      externals := {}
      hierarchy := .empty }

def setSuperclass (u : ClassUnit) (superclass : String) : ClassUnit :=
  declareSelf { u with superclass := superclass }

def addInterface (u : ClassUnit) (name : String) : ClassUnit :=
  declareSelf { u with interfaces := u.interfaces ++ [name] }

/-- Sets the line that the next members belong to. -/
def setMemberOrigin (u : ClassUnit) (origin : Origin) : ClassUnit :=
  { u with statics := { u.statics with origin := origin }
           fields := { u.fields with origin := origin } }

/-- The structure of one kind of members. -/
def structureOf (u : ClassUnit) : MemberKind → Structure
  | .static => u.statics
  | .perObject => u.fields

/-- Adds a member of either kind. -/
def addField (u : ClassUnit) (kind : MemberKind) (type : Ty) (name : String)
    (default : Option String) : ClassUnit :=
  match kind with
  | .static => { u with statics := u.statics.add type name default }
  | .perObject => { u with fields := u.fields.add type name default }

/-- Adds a function; the signature index is out of date until it is built again. -/
def addFunction (u : ClassUnit) (f : Function) : ClassUnit :=
  { u with functions := u.functions ++ [f], index? := none }

/-- Declares another class. -/
def declareClass (u : ClassUnit) (name : String) (superclass : Option String) : ClassUnit :=
  { u with
    hierarchy := u.hierarchy.declare name superclass []
    externals := { u.externals with classes := u.externals.classes ++ [(name, superclass)] } }

def declareField (u : ClassUnit) (f : ExternalField) : ClassUnit :=
  { u with externals := { u.externals with fields := u.externals.fields ++ [f] } }

def declareMethod (u : ClassUnit) (m : ExternalMethod) : ClassUnit :=
  { u with externals := { u.externals with methods := u.externals.methods ++ [m] } }

/-- The first function of a given name. -/
def function? (u : ClassUnit) (name : String) : Option Function :=
  u.functions.find? (·.name = name)

/-- Offset of a member of the class. -/
def fieldOffset (u : ClassUnit) (kind : MemberKind) (name : String) (origin : Origin) :
    Except CompileError Nat :=
  (u.structureOf kind).fieldOffset name origin

/-- Size of an object in bytes. -/
def objectSize (u : ClassUnit) : Nat := u.fields.totalSize

/-- Size of the static members in bytes. -/
def staticSize (u : ClassUnit) : Nat := u.statics.totalSize

/-! ## The signature index -/

/-- Builds the signature index from the functions as they are. -/
def rebuildIndex (u : ClassUnit) : ClassUnit :=
  { u with index? := some (.build (u.functions.map fun f => (f.key, f.info))) }

/-- The signature index, when it is up to date. -/
def index (u : ClassUnit) : Except Fault SignatureIndex :=
  match u.index? with
  | some index => .ok index
  | none => .error (.staleIndex u.name)

/-! ## Resolution -/

/-- A field of another class. A class is asked for its first declaration of the name; when that
has the other kind, or there is none, the search goes on with the superclass. -/
def externalField? (u : ClassUnit) (kind : MemberKind) (owner name : String) :
    Option ExternalField :=
  ((u.hierarchy.lineage owner).filterMap (u.externals.field? · name)).find? (·.kind = kind)

/-- Type of a static field. -/
def staticFieldType (u : ClassUnit) (owner name : String) (origin : Origin) :
    Except CompileError Ty :=
  if owner = u.name then u.statics.fieldType name origin
  else
    match u.externalField? .static owner name with
    | some f => .ok f.type
    | none => .error (.undefined (.staticField owner name) (some origin))

/-- Type of a field of an object. -/
def objectFieldType (u : ClassUnit) (owner name : String) (origin : Origin) :
    Except CompileError Ty :=
  if owner = u.name then u.fields.fieldType name origin
  else
    match u.externalField? .perObject owner name with
    | some f => .ok f.type
    | none => .error (.undefined (.field owner name) (some origin))

/-- The method with a given key in one class. -/
def methodIn? (u : ClassUnit) (key : MethodKey) (owner : String) :
    Except Fault (Option ResolvedMethod) :=
  if owner = u.name then do
    let index ← u.index
    pure ((index.get? key).map fun info => ⟨owner, key, info, true⟩)
  else
    pure ((u.externals.method? owner key).map fun m => ⟨owner, key, m.info, false⟩)

/-- The method with a given key in the first of some classes that has one. -/
def findMethod? (u : ClassUnit) (key : MethodKey) :
    List String → Except Fault (Option ResolvedMethod)
  | [] => pure none
  | owner :: rest => do
    match ← u.methodIn? key owner with
    | some m => pure (some m)
    | none => u.findMethod? key rest

/-- The method that a call of `owner.name` with arguments of exactly these types reaches. -/
def resolveMethod (u : ClassUnit) (owner name : String) (args : List Ty) (origin : Origin) :
    Except Failure ResolvedMethod := do
  match ← u.findMethod? ⟨name, args⟩ (u.hierarchy.lineage owner) with
  | some m => pure m
  | none => throw (.undefined (.method owner ⟨name, args⟩) origin)

/-- Return type of the method that a call reaches. -/
def returnType (u : ClassUnit) (owner name : String) (args : List Ty) (origin : Origin) :
    Except Failure Ty := do
  let m ← u.resolveMethod owner name args origin
  pure m.info.returns

/-! ## Text -/

/-- Declaration of another class as it is written in a source. -/
def classText : String × Option String → String
  | (name, some superclass) => "declare class " ++ name ++ " extends " ++ superclass
  | (name, none) => "declare class " ++ name

/-- Declaration of a field as it is written in a source. -/
def fieldText (f : ExternalField) : String :=
  "declare field " ++ f.kind.keyword ++ " " ++ f.owner ++ "." ++ f.name ++ " "
    ++ f.type.descriptor

/-- Declaration of a method as it is written in a source. -/
def methodText (m : ExternalMethod) : String :=
  "declare method " ++ m.info.kind.keyword ++ " " ++ m.owner ++ "." ++ m.key.text
    ++ " returns " ++ m.info.returns.descriptor

/-- The lines in front of the structures. -/
def headerLines (u : ClassUnit) : List String :=
  ["// file: " ++ u.name ++ ".jil", "super " ++ u.superclass]
    ++ (if u.interfaces.isEmpty then []
        else ["implements " ++ String.intercalate ", " u.interfaces])
    ++ u.externals.classes.map classText
    ++ u.externals.fields.map fieldText
    ++ u.externals.methods.map methodText

/-- The unit as it is written in a source. -/
def text (u : ClassUnit) : String :=
  String.join (u.headerLines.map (· ++ "\n")) ++ "\n"
    ++ u.statics.text ++ "\n"
    ++ u.fields.text
    ++ String.join (u.functions.map fun f => "\n" ++ f.text)

end ClassUnit

end Jil
