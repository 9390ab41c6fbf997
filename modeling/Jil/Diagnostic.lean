/-
Jil.Diagnostic — what can go wrong, and how it is told.

A `CompileError` is a cause together with the line it belongs to. The causes
are grouped as the messages are: references to nothing (`Reference`), types
that do not fit (`Mismatch`), constructs that are recognised but not compiled
(`Construct`), text that cannot be read (`Malformation`), members missing from
a structure, and streams that the allocator refuses (`AllocationFailure`). In
each group `words` holds a cause that is known by its words only. All that users
see of an error, its group, line and message, is kept when its cause is put into
words (`CompileError.inWords`).

A `Fault` is a broken promise between parts of the compiler. A `Failure` is
one or the other.
-/
import Jil.Machine.Convention
import Jil.Pseudo.Register
import Jil.Signature
import Jil.Statement

namespace Jil

/-! ## References -/

/-- Something that is named and not there. -/
inductive Reference where
  | register (r : Register)
  | localVariable (name : String)
  | parameter (name : String)
  | staticField (owner field : String)
  | field (owner field : String)
  | method (owner : String) (key : MethodKey)
  | methodNamed (owner name : String)
  | label (l : Label) (function : String)
  | receiver (owner method : String)
  | words (text : String)
  deriving DecidableEq, Repr

def Reference.text : Reference → String
  | .register r => "register " ++ r.text
  | .localVariable name => "local variable " ++ name
  | .parameter name => "parameter " ++ name
  | .staticField owner member => "static field " ++ owner ++ "." ++ member
  | .field owner member => "field " ++ owner ++ "." ++ member
  | .method owner key => "method " ++ owner ++ "." ++ key.text
  | .methodNamed owner name => "method " ++ owner ++ "." ++ name
  | .label l function => "label " ++ l.text ++ " in " ++ function
  | .receiver owner name => "receiver for " ++ owner ++ "." ++ name
  | .words text => text

/-! ## Types -/

/-- Where a value is stored. -/
inductive Store where
  | localVariable (name : String)
  | field (owner field : String)
  | returnValue
  deriving DecidableEq, Repr

def Store.text : Store → String
  | .localVariable name => "local variable " ++ name
  | .field owner member => "field " ++ owner ++ "." ++ member
  | .returnValue => "return value"

/-- Types that do not fit. -/
inductive Mismatch where
  | chooseOperands (first second : Register) (a b : Ty)
  | noCommonSupertype (a b : Ty)
  | literal (value : String) (type : Ty)
  | assignment (value : Ty) (store : Store) (declared : Ty)
  | comparison (a : Ty) (op : Comparison) (b : Ty)
  | binaryOperands (a : Ty) (op : BinaryOp) (b : Ty)
  | unaryOperand (type : Ty) (op : UnaryOp)
  | conversion (a b : Ty)
  | branchCondition (condition : Register) (type : Ty)
  | receiver (object : Register) (owner method : String) (type : Ty)
  | notAClass (object : Register) (type : Ty)
  | voidResult (method : String)
  | valueFromVoid (function : String)
  | missingValue (function : String) (type : Ty)
  | memberDefault (value member : String) (type : Ty)
  | words (text : String)
  deriving DecidableEq, Repr

def Mismatch.text : Mismatch → String
  | .chooseOperands first second a b =>
    "choose operands " ++ first.text ++ " and " ++ second.text ++ " have different types "
      ++ a.descriptor ++ " and " ++ b.descriptor
  | .noCommonSupertype a b =>
    "no common supertype for " ++ a.descriptor ++ " and " ++ b.descriptor
  | .literal value type => "literal " ++ value ++ " is not a valid " ++ type.descriptor
  | .assignment value store declared =>
    "cannot assign " ++ value.descriptor ++ " to " ++ store.text ++ " of type "
      ++ declared.descriptor
  | .comparison a op b =>
    "cannot compare " ++ a.descriptor ++ " " ++ op.symbol ++ " " ++ b.descriptor
  | .binaryOperands a op b =>
    "invalid operands for " ++ a.descriptor ++ " " ++ op.symbol ++ " " ++ b.descriptor
  | .unaryOperand type op => "invalid operand " ++ type.descriptor ++ " for " ++ op.name
  | .conversion a b => "cannot convert " ++ a.descriptor ++ " to " ++ b.descriptor
  | .branchCondition condition type =>
    "branch condition " ++ condition.text ++ " has type " ++ type.descriptor ++ ", expected Z"
  | .receiver object owner method type =>
    "receiver " ++ object.text ++ " of " ++ owner ++ "." ++ method ++ " is " ++ type.descriptor
  | .notAClass object type =>
    object.text ++ " has type " ++ type.descriptor ++ ", expected a class reference"
  | .voidResult method => method ++ " returns V and cannot be used as a value"
  | .valueFromVoid function => function ++ " returns V but a value is returned"
  | .missingValue function type =>
    function ++ " must return a value of type " ++ type.descriptor
  | .memberDefault value member type =>
    "default " ++ value ++ " of " ++ member ++ " is not a " ++ type.descriptor ++ " literal"
  | .words text => text

/-! ## Constructs that are not compiled -/

/-- A construct that is well typed and for which no code is generated. -/
inductive Construct where
  | varargsFunction (name : String)
  | floatingReturn (name : String)
  | floatingParameter (name : String)
  | parameterOverflow (name : String) (registers : Nat) (family : Machine.AbiFamily)
  | operandOverflow (callee : String) (operands registers : Nat) (family : Machine.AbiFamily)
  | floatingOperand (type : Ty)
  | floatingComparison (op : Comparison)
  | floatingArithmetic (op : BinaryOp)
  | floatingUnary (op : UnaryOp)
  | conversion (a b : Ty)
  | staticFieldAddress (owner field : String)
  | fieldAddress (owner field : String)
  | varargsCall (method : String)
  | floatingCall (method : String) (type : Ty)
  | chooseWithoutJoin (result : Register)
  | chooseOperandUnreached (operand : Register) (join : Label)
  | words (text : String)
  deriving DecidableEq, Repr

def Construct.text : Construct → String
  | .varargsFunction name => "varargs function " ++ name
  | .floatingReturn name => "floating-point return type of " ++ name
  | .floatingParameter name => "floating-point parameter " ++ name
  | .parameterOverflow name registers family =>
    "parameter " ++ name ++ " does not fit into the " ++ toString registers
      ++ " argument registers of " ++ family.name
  | .operandOverflow callee operands registers family =>
    callee ++ " with " ++ toString operands ++ " operands exceeds the " ++ toString registers
      ++ " argument registers of " ++ family.name
  | .floatingOperand type =>
    "floating-point operand of type " ++ type.descriptor ++ " in a native call"
  | .floatingComparison op => "floating-point comparison " ++ op.symbol
  | .floatingArithmetic op => "floating-point arithmetic " ++ op.symbol
  | .floatingUnary op => "floating-point " ++ op.name
  | .conversion a b => "conversion from " ++ a.descriptor ++ " to " ++ b.descriptor
  | .staticFieldAddress owner field =>
    "address of static field " ++ owner ++ "." ++ field ++ " of another class"
  | .fieldAddress owner field =>
    "address of field " ++ owner ++ "." ++ field ++ " of another class"
  | .varargsCall method => "call to varargs method " ++ method
  | .floatingCall method type => "call to " ++ method ++ " returning " ++ type.descriptor
  | .chooseWithoutJoin result => "choose " ++ result.text ++ " without a join label"
  | .chooseOperandUnreached operand join =>
    "choose operand " ++ operand.text ++ " reaches no incoming edge of " ++ join.text
  | .words text => text

/-! ## Text that cannot be read -/

/-- What is wrong with a line of a source. -/
inductive Malformation where
  | unexpectedLine (line : String)
  | unknownType (text : String)
  | expectedKind (word : String)
  | expectedMember (text : String)
  | missingClassName
  | expectedExtends
  | expectedFieldDeclaration
  | expectedDeclarationOpen
  | expectedDeclarationClose
  | expectedReturns
  | unknownDeclaration (what : String)
  | missingEndStructure
  | memberWithoutSemicolon
  | expectedTypeAndName
  | missingEndFunction
  | statementWithoutSemicolon
  | registerDefinedTwice (r : Register)
  | registerOutOfRange (r : Register)
  | labelOutOfRange (l : Label)
  | expectedParametersOpen
  | expectedParametersClose
  | expectedParameter (text : String)
  | initializerReturns
  | expectedThrowsClose
  | expectedRegister (text : String)
  | expectedLabel (text : String)
  | expectedArrow
  | operandCount (count : Nat) (text : String)
  | expectedObjectMember (text : String)
  | expectedCallOpen
  | expectedCallClose
  | expectedCallTarget
  | expectedChooseOperands
  | expectedLiteral
  | expectedQuotes
  | badEscape (c : Char)
  | unknownComparison (symbol : String)
  | unknownOperator (symbol : String)
  | unknownUnary (name : String)
  | expectedConvert
  | expectedTruth
  | expectedStartScope
  | unknownStatement (opcode : String)
  | words (text : String)
  deriving DecidableEq, Repr

def Malformation.text : Malformation → String
  | .unexpectedLine line => "unexpected line '" ++ line ++ "'"
  | .unknownType text => "unknown type '" ++ text ++ "'"
  | .expectedKind word => "expected 'static' or 'instance', found '" ++ word ++ "'"
  | .expectedMember text => "expected Class.member, found '" ++ text ++ "'"
  | .missingClassName => "missing class name"
  | .expectedExtends => "expected 'extends Superclass'"
  | .expectedFieldDeclaration => "expected 'declare field static|instance C.f T'"
  | .expectedDeclarationOpen => "expected '(' in method declaration"
  | .expectedDeclarationClose => "expected ')' in method declaration"
  | .expectedReturns => "expected 'returns T'"
  | .unknownDeclaration what => "unknown declaration '" ++ what ++ "'"
  | .missingEndStructure => "missing 'end structure'"
  | .memberWithoutSemicolon => "member must end with ';'"
  | .expectedTypeAndName => "expected 'T name'"
  | .missingEndFunction => "missing 'end function'"
  | .statementWithoutSemicolon => "statement must end with ';'"
  | .registerDefinedTwice r => "register " ++ r.text ++ " defined twice"
  | .registerOutOfRange r => "register " ++ r.text ++ " out of range"
  | .labelOutOfRange l => "label " ++ l.text ++ " out of range"
  | .expectedParametersOpen => "expected '(' after function name"
  | .expectedParametersClose => "expected ')' after parameters"
  | .expectedParameter text => "expected 'T name' parameter, found '" ++ text ++ "'"
  | .initializerReturns => "initializers do not declare a return type"
  | .expectedThrowsClose => "expected ')' after throws list"
  | .expectedRegister text => "expected register, found '" ++ text ++ "'"
  | .expectedLabel text => "expected label, found '" ++ text ++ "'"
  | .expectedArrow => "expected '->'"
  | .operandCount count text =>
    "expected " ++ toString count ++ " operands in '" ++ text ++ "'"
  | .expectedObjectMember text => "expected %rN.member, found '" ++ text ++ "'"
  | .expectedCallOpen => "expected '(' in call"
  | .expectedCallClose => "expected ')' in call"
  | .expectedCallTarget => "expected call target after receiver"
  | .expectedChooseOperands => "expected two choose operands"
  | .expectedLiteral => "expected 'literal T value'"
  | .expectedQuotes => "expected quoted string"
  | .badEscape c => "bad escape '\\" ++ c.toString ++ "'"
  | .unknownComparison symbol => "unknown comparison '" ++ symbol ++ "'"
  | .unknownOperator symbol => "unknown operator '" ++ symbol ++ "'"
  | .unknownUnary name => "unknown unary operator '" ++ name ++ "'"
  | .expectedConvert => "expected 'convert %rN to T'"
  | .expectedTruth => "expected 'true' or 'false'"
  | .expectedStartScope => "expected 'startScope name T'"
  | .unknownStatement opcode => "unknown statement '" ++ opcode ++ "'"
  | .words text => text

/-! ## Allocation -/

/-- Why the allocator refuses a stream. -/
inductive AllocationFailure where
  | neverDefined (p : Pseudo.Reg)
  | unknownLabel (name : String)
  | words (text : String)
  deriving DecidableEq, Repr

def AllocationFailure.text : AllocationFailure → String
  | .neverDefined p => "pseudo-register " ++ p.text ++ " used but never defined"
  | .unknownLabel name => "jump to unknown label " ++ name
  | .words text => text

/-! ## Errors -/

/-- An error that is reported to the user. -/
inductive CompileError where
  | undefined (what : Reference) (origin : Option Origin)
  | typeMismatch (what : Mismatch) (origin : Option Origin)
  | unsupported (what : Construct) (origin : Option Origin)
  | layout (structureName field : String) (origin : Option Origin)
  | parse (what : Malformation) (origin : Option Origin)
  | registerAllocation (reason : AllocationFailure)
  deriving DecidableEq, Repr

namespace CompileError

/-- The line that an error belongs to. -/
def origin? : CompileError → Option Origin
  | .undefined _ origin | .typeMismatch _ origin | .unsupported _ origin
  | .layout _ _ origin | .parse _ origin => origin
  | .registerAllocation _ => none

/-- The message without the line. -/
def description : CompileError → String
  | .undefined what _ => "undefined reference: " ++ what.text
  | .typeMismatch what _ => "type mismatch: " ++ what.text
  | .unsupported what _ => "unsupported construct: " ++ what.text
  | .layout structureName field _ =>
    "field " ++ field ++ " not present in structure " ++ structureName
  | .parse what _ => "parse error: " ++ what.text
  | .registerAllocation reason => "register allocation failed: " ++ reason.text

/-- The whole message, led by the line where one is known. -/
def message (e : CompileError) : String :=
  match e.origin? with
  | some origin => origin.text ++ ": " ++ e.description
  | none => e.description

/-- The error with its cause put into words. -/
def inWords : CompileError → CompileError
  | .undefined what origin => .undefined (.words what.text) origin
  | .typeMismatch what origin => .typeMismatch (.words what.text) origin
  | .unsupported what origin => .unsupported (.words what.text) origin
  | .layout structureName field origin => .layout structureName field origin
  | .parse what origin => .parse (.words what.text) origin
  | .registerAllocation reason => .registerAllocation (.words reason.text)

@[simp] theorem origin?_inWords (e : CompileError) : e.inWords.origin? = e.origin? := by
  cases e <;> rfl

@[simp] theorem description_inWords (e : CompileError) :
    e.inWords.description = e.description := by
  cases e <;> rfl

theorem message_inWords (e : CompileError) : e.inWords.message = e.message := by
  rw [message, message, origin?_inWords, description_inWords]

end CompileError

/-! ## Faults -/

/-- A promise between parts of the compiler that was not kept. -/
inductive Fault where
  /-- A method of the class was looked up while its signature index was out of date. -/
  | staleIndex (owner : String)
  /-- A register was given a type a second time. -/
  | definedTwice (r : Register) (first : Ty)
  /-- Code was asked for a function that has not been checked. -/
  | uncheckedFunction (owner function : String)
  /-- An instruction names a pseudo-register that was given no location. -/
  | noLocation (p : Pseudo.Reg)
  /-- A call passes more arguments than there are registers for. -/
  | argumentOutOfRange (position : Nat)
  deriving DecidableEq, Repr

def Fault.message : Fault → String
  | .staleIndex owner =>
    "signature index of " ++ owner ++ " is stale: functions changed since the last rebuild"
  | .definedTwice r first =>
    "register " ++ r.text ++ " defined twice (first as " ++ first.descriptor ++ ")"
  | .uncheckedFunction owner function =>
    owner ++ "." ++ function ++ " lowered before type checking"
  | .noLocation p => "pseudo-register " ++ p.text ++ " has no location"
  | .argumentOutOfRange position =>
    "argument register " ++ toString position ++ " checked before use"

/-- An error to report or a fault. -/
inductive Failure where
  | reported (e : CompileError)
  | fault (f : Fault)
  deriving DecidableEq, Repr

namespace Failure

def message : Failure → String
  | .reported e => e.message
  | .fault f => f.message

def undefined (what : Reference) (origin : Origin) : Failure :=
  .reported (.undefined what (some origin))

def mismatch (what : Mismatch) (origin : Origin) : Failure :=
  .reported (.typeMismatch what (some origin))

def unsupported (what : Construct) (origin : Origin) : Failure :=
  .reported (.unsupported what (some origin))

end Failure

/-- What can only be reported can also fail. -/
instance : MonadLift (Except CompileError) (Except Failure) where
  monadLift x := x.mapError .reported

/-- What can only fault can also fail. -/
instance : MonadLift (Except Fault) (Except Failure) where
  monadLift x := x.mapError .fault

end Jil
