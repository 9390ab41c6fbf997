/-
Jil.Function — functions of a class.

A function has a name and parameters, and a body of statements over registers
that are each defined once. Building a body draws registers and labels from
two counters; `Function.Build` is that activity, and its operations append one
statement each.
-/
import Jil.Diagnostic

namespace Jil

/-- A parameter of a function. -/
structure Param where
  type : Ty
  name : String
  deriving DecidableEq, Repr

/-- A method, a constructor or the initializer of a class. -/
structure Function where
  name : String
  kind : MemberKind
  params : List Param
  returns : Ty
  /-- Whether the function is a constructor or the initializer of its class. -/
  isInit : Bool := false
  varargs : Bool := false
  throws : List String := []
  body : List Located := []
  /-- Registers below this number have been drawn. -/
  registerCount : Nat := 0
  /-- Labels below this number have been drawn. -/
  labelCount : Nat := 0
  /-- The line that the next statements belong to. -/
  origin : Origin := .generated
  /-- Types of the registers, from the last check of the body as it is. -/
  registerTypes : Option (Table Register Ty) := none
  deriving Repr

namespace Function

/-- A constructor, or the initializer of the class. -/
def initializer (kind : MemberKind) (params : List Param) : Function where
  name := match kind with
    | .perObject => "<init>"
    | .static => "<clinit>"
  kind := kind
  params := params
  returns := .void
  isInit := true

def isPerObject (f : Function) : Bool := f.kind = .perObject

def paramTypes (f : Function) : List Ty := f.params.map Param.type

/-- Name and parameter types. -/
def key (f : Function) : MethodKey := ⟨f.name, f.paramTypes⟩

/-- What calls have to know about the function. -/
def info (f : Function) : MethodInfo := ⟨f.returns, f.kind, f.varargs⟩

def descriptor (f : Function) : String := methodDescriptor f.paramTypes f.returns

/-- The statements without their lines. -/
def statements (f : Function) : List Statement := f.body.map Located.statement

/-- The labels that the body places, in order. -/
def labels (f : Function) : List Label := f.statements.filterMap Statement.placedLabel?

/-- The symbol that the body names last. -/
def lastSymbol? (f : Function) : Option String :=
  (f.statements.filterMap Statement.namedSymbol?).getLast?

/-- Type of a register, after a successful check. -/
def registerType? (f : Function) (r : Register) : Option Ty :=
  f.registerTypes.bind (·.get? r)

/-- Appends a statement at the current line. What was known about registers is forgotten. -/
def append (f : Function) (s : Statement) : Function :=
  { f with body := f.body ++ [⟨s, f.origin⟩], registerTypes := none }

/-- Draws no more registers below `registers` and no more labels below `labels`. -/
def reserve (f : Function) (registers labels : Nat) : Function :=
  { f with registerCount := max f.registerCount registers
           labelCount := max f.labelCount labels }

/-! ## Text -/

/-- The parameters in parentheses. -/
def paramsText (f : Function) : String :=
  "("
    ++ String.intercalate ", " (f.params.map fun p => p.type.descriptor ++ " " ++ p.name)
    ++ ")"

/-- The line that introduces the function. An initializer has neither name nor return type, and
no parentheses unless it has parameters. -/
def header (f : Function) : String :=
  "function " ++ f.kind.keyword
    ++ (if f.varargs then " varargs" else "")
    ++ (if f.isInit then " init" else " " ++ f.name)
    ++ (if f.isInit && f.params.isEmpty then "" else f.paramsText)
    ++ (if f.isInit then "" else " returns " ++ f.returns.descriptor)
    ++ (if f.throws.isEmpty then "" else " throws(" ++ String.intercalate " " f.throws ++ ")")

/-- The function as it is written in a source. -/
def text (f : Function) : String :=
  f.header ++ "\n"
    ++ String.join (f.statements.map fun s => "\t" ++ s.text ++ "\n")
    ++ "end function\n"

/-! ## Building a body -/

/-- An activity that extends a function. -/
abbrev Build (α : Type) := StateM Function α

namespace Build

/-- Appends a statement that defines no register. -/
def statement (s : Statement) : Build Unit := modify (·.append s)

/-- Draws a register. -/
def register : Build Register :=
  modifyGet fun f => (⟨f.registerCount⟩, { f with registerCount := f.registerCount + 1 })

/-- Draws a label. -/
def label : Build Label :=
  modifyGet fun f => (⟨f.labelCount⟩, { f with labelCount := f.labelCount + 1 })

/-- Draws a register and appends the statement that defines it. -/
def define (s : Register → Statement) : Build Register := do
  let r ← register
  statement (s r)
  pure r

def copy (src : Register) : Build Register := define (.copy src)

def choose (first second : Register) : Build Register := define (.choose first second)

def literal (type : Ty) (value : String) : Build Register := define (.literal type value)

def string (value : String) : Build Register := define (.string value)

def getLocal (name : String) : Build Register := define (.getLocal name)

def putLocal (name : String) (src : Register) : Build Unit := statement (.putLocal name src)

def getParam (name : String) : Build Register := define (.getParam name)

def getStatic (owner field : String) : Build Register := define (.getStatic owner field)

def getStaticAddress (owner field : String) : Build Register :=
  define (.getStaticAddress owner field)

def putStatic (owner field : String) (src : Register) : Build Unit :=
  statement (.putStatic owner field src)

def getField (object : Register) (field : String) : Build Register :=
  define (.getField object field)

def getFieldAddress (object : Register) (field : String) : Build Register :=
  define (.getFieldAddress object field)

def putField (object : Register) (field : String) (src : Register) : Build Unit :=
  statement (.putField object field src)

def compare (op : Comparison) (left right : Register) : Build Register :=
  define (.compare op left right)

def binary (op : BinaryOp) (left right : Register) : Build Register :=
  define (.binary op left right)

def unary (op : UnaryOp) (src : Register) : Build Register := define (.unary op src)

def convert (src : Register) (target : Ty) : Build Register := define (.convert src target)

def placeLabel (l : Label) : Build Unit := statement (.label l)

def branch (condition : Register) (expected : Bool) (target : Label) : Build Unit :=
  statement (.branch condition expected target)

def jump (target : Label) : Build Unit := statement (.jump target)

/-- Draws a register for the result of a call, if one is wanted, and appends the call. -/
def callWith (wanted : Bool) (s : Option Register → Statement) : Build (Option Register) := do
  let result ← if wanted then some <$> register else pure none
  statement (s result)
  pure result

def callActual (object : Option Register) (owner method : String) (args : List Register)
    (wanted : Bool) : Build (Option Register) :=
  callWith wanted (.callActual object owner method args)

def callVirtual (object : Register) (method : String) (args : List Register) (wanted : Bool) :
    Build (Option Register) :=
  callWith wanted (.callVirtual object method args)

def returnValue (src : Register) : Build Unit := statement (.returnValue src)

def returnVoid : Build Unit := statement .returnVoid

def startScope (name : String) (type : Ty) : Build Unit := statement (.startScope name type)

def endScope (name : String) : Build Unit := statement (.endScope name)

end Build

end Function

end Jil
