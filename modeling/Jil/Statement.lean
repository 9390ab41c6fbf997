/-
Jil.Statement — statements and their text.

A function body is a list of statements over registers and labels. A statement
knows the register that it defines, the registers that it reads, the label
that it places or jumps to, and the member or variable that it names; `text`
is its spelling, ended by a semicolon.
-/
import Jil.Operator
import Jil.Text.Quoted
import Jil.Ty

namespace Jil

/-! ## Registers, labels and places in a source -/

/-- A register: it is defined by one statement of a function. -/
structure Register where
  index : Nat
  deriving DecidableEq, Repr, Inhabited

def Register.text (r : Register) : String := "%r" ++ toString r.index

/-- A label: statements jump to it. -/
structure Label where
  index : Nat
  deriving DecidableEq, Repr, Inhabited

def Label.text (l : Label) : String := "L" ++ toString l.index

/-- A line of a source. -/
structure Origin where
  file : String
  line : Nat
  deriving DecidableEq, Repr, Inhabited

namespace Origin

/-- Where code stands that no source contains. -/
def generated : Origin := ⟨"<generated>", 0⟩

def text (o : Origin) : String := o.file ++ ":" ++ toString o.line

end Origin

/-! ## Statements -/

/-- A statement. -/
inductive Statement where
  | copy (src dest : Register)
  /-- The value of `first` or of `second`, after the one or the other path was taken. -/
  | choose (first second result : Register)
  | literal (type : Ty) (value : String) (result : Register)
  | string (value : String) (result : Register)
  | getLocal (name : String) (result : Register)
  | putLocal (name : String) (src : Register)
  | getParam (name : String) (result : Register)
  | getStatic (owner field : String) (result : Register)
  | getStaticAddress (owner field : String) (result : Register)
  | putStatic (owner field : String) (src : Register)
  | getField (object : Register) (field : String) (result : Register)
  | getFieldAddress (object : Register) (field : String) (result : Register)
  | putField (object : Register) (field : String) (src : Register)
  | compare (op : Comparison) (left right result : Register)
  | binary (op : BinaryOp) (left right result : Register)
  | unary (op : UnaryOp) (src result : Register)
  | convert (src : Register) (target : Ty) (result : Register)
  /-- Jumps to `target` when `condition` equals `expected`. -/
  | branch (condition : Register) (expected : Bool) (target : Label)
  | jump (target : Label)
  | label (name : Label)
  /-- Calls the method that the class names; a receiver makes it a call on an object. -/
  | callActual (object : Option Register) (owner method : String) (args : List Register)
      (result : Option Register)
  /-- Calls the method that the class of the object provides at run time. -/
  | callVirtual (object : Register) (method : String) (args : List Register)
      (result : Option Register)
  | returnValue (src : Register)
  | returnVoid
  | startScope (name : String) (type : Ty)
  | endScope (name : String)
  deriving DecidableEq, Repr

namespace Statement

/-- The variable, field or method that a statement names; the end of a scope names none. -/
def namedSymbol? : Statement → Option String
  | .getLocal name _ | .putLocal name _ | .getParam name _ | .startScope name _ => some name
  | .getStatic _ field _ | .getStaticAddress _ field _ | .putStatic _ field _ => some field
  | .getField _ field _ | .getFieldAddress _ field _ | .putField _ field _ => some field
  | .callActual _ _ method _ _ | .callVirtual _ method _ _ => some method
  | _ => none

/-- The register that a statement defines. -/
def definedRegister? : Statement → Option Register
  | .copy _ dest => some dest
  | .choose _ _ result | .literal _ _ result | .string _ result => some result
  | .getLocal _ result | .getParam _ result => some result
  | .getStatic _ _ result | .getStaticAddress _ _ result => some result
  | .getField _ _ result | .getFieldAddress _ _ result => some result
  | .compare _ _ _ result | .binary _ _ _ result => some result
  | .unary _ _ result | .convert _ _ result => some result
  | .callActual _ _ _ _ result | .callVirtual _ _ _ result => result
  | _ => none

/-- The registers that a statement reads, in the order of its operands. -/
def usedRegisters : Statement → List Register
  | .copy src _ | .putLocal _ src | .putStatic _ _ src => [src]
  | .unary _ src _ | .convert src _ _ | .returnValue src => [src]
  | .choose first second _ => [first, second]
  | .getField object _ _ | .getFieldAddress object _ _ => [object]
  | .putField object _ src => [object, src]
  | .compare _ left right _ | .binary _ left right _ => [left, right]
  | .branch condition _ _ => [condition]
  | .callActual object _ _ args _ => object.toList ++ args
  | .callVirtual object _ args _ => object :: args
  | _ => []

/-- The label that a statement places. -/
def placedLabel? : Statement → Option Label
  | .label name => some name
  | _ => none

/-- The label that a statement may jump to. -/
def jumpTarget? : Statement → Option Label
  | .branch _ _ target | .jump target => some target
  | _ => none

/-- The label that a statement places or may jump to. -/
def mentionedLabel? (s : Statement) : Option Label := s.placedLabel? <|> s.jumpTarget?

/-- Whether control never reaches the statement after this one. -/
def endsPath : Statement → Bool
  | .jump _ | .returnValue _ | .returnVoid => true
  | _ => false

/-! ## Text -/

/-- The arguments of a call. -/
def argumentsText (args : List Register) : String :=
  "(" ++ String.intercalate ", " (args.map Register.text) ++ ")"

/-- The result of a call. -/
def resultText : Option Register → String
  | some r => " -> " ++ r.text
  | none => ""

/-- The statement without the semicolon. -/
def body : Statement → String
  | .copy src dest => "copy " ++ src.text ++ " -> " ++ dest.text
  | .choose first second result =>
    "choose " ++ first.text ++ ", " ++ second.text ++ " -> " ++ result.text
  | .literal type value result =>
    "literal " ++ type.descriptor ++ " " ++ value ++ " -> " ++ result.text
  | .string value result =>
    "string " ++ String.ofList (Text.Quoted.encode value.toList) ++ " -> " ++ result.text
  | .getLocal name result => "getLocal " ++ name ++ " -> " ++ result.text
  | .putLocal name src => "putLocal " ++ src.text ++ " -> " ++ name
  | .getParam name result => "getParam " ++ name ++ " -> " ++ result.text
  | .getStatic owner field result =>
    "getStatic " ++ owner ++ "." ++ field ++ " -> " ++ result.text
  | .getStaticAddress owner field result =>
    "getStaticAddress " ++ owner ++ "." ++ field ++ " -> " ++ result.text
  | .putStatic owner field src => "putStatic " ++ src.text ++ " -> " ++ owner ++ "." ++ field
  | .getField object field result =>
    "getField " ++ object.text ++ "." ++ field ++ " -> " ++ result.text
  | .getFieldAddress object field result =>
    "getFieldAddress " ++ object.text ++ "." ++ field ++ " -> " ++ result.text
  | .putField object field src =>
    "putField " ++ src.text ++ " -> " ++ object.text ++ "." ++ field
  | .compare op left right result =>
    "setCondition " ++ left.text ++ " " ++ op.symbol ++ " " ++ right.text ++ " -> "
      ++ result.text
  | .binary op left right result =>
    "binary " ++ left.text ++ " " ++ op.symbol ++ " " ++ right.text ++ " -> " ++ result.text
  | .unary op src result => "unary " ++ op.name ++ " " ++ src.text ++ " -> " ++ result.text
  | .convert src target result =>
    "convert " ++ src.text ++ " to " ++ target.descriptor ++ " -> " ++ result.text
  | .branch condition expected target =>
    "branch " ++ (if expected then "true" else "false") ++ " " ++ condition.text ++ " "
      ++ target.text
  | .jump target => "jump " ++ target.text
  | .label name => "label " ++ name.text
  | .callActual object owner method args result =>
    let receiver := match object with
      | some r => r.text ++ " "
      | none => ""
    "callActual " ++ receiver ++ owner ++ "." ++ method ++ argumentsText args
      ++ resultText result
  | .callVirtual object method args result =>
    "callVirtual " ++ object.text ++ "." ++ method ++ argumentsText args ++ resultText result
  | .returnValue src => "return " ++ src.text
  | .returnVoid => "return"
  | .startScope name type => "startScope " ++ name ++ " " ++ type.descriptor
  | .endScope name => "endScope " ++ name

/-- The statement as it is written in a source. -/
def text (s : Statement) : String := s.body ++ ";"

end Statement

/-- A statement and the line that it comes from. -/
structure Located where
  statement : Statement
  origin : Origin
  deriving DecidableEq, Repr

end Jil
