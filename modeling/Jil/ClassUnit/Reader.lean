/-
Jil.ClassUnit.Reader — reading the source of a class.

A source is read line by line. What a line means depends on where it stands:
between the parts of the class, inside a structure or inside a function; a
`Reading` is the unit so far and that place, and `Reading.line` is the step
that one line makes. Blank lines are skipped everywhere, comments outside
structures. An error belongs to the line at which reading stopped, and a part
that is not closed to the last line.
-/
import Jil.ClassUnit
import Jil.Statement.Reader

namespace Jil

open Jil.Text

/-! ## State -/

/-- A function whose statements are being read. -/
structure OpenFunction where
  function : Function
  /-- Registers defined so far. -/
  defined : List Register := []
  /-- Bound of the registers defined so far. -/
  registers : Nat := 0
  /-- Bound of the labels mentioned so far. -/
  labels : Nat := 0

/-- Where in a source a line stands. -/
inductive Place where
  /-- Between the parts of the class. -/
  | outside
  /-- Among the members of one kind. -/
  | members (kind : MemberKind)
  /-- Among the statements of a function. -/
  | statements (f : OpenFunction)

/-- What has been read. -/
structure Reading where
  unit : ClassUnit
  place : Place := .outside

namespace Reader

/-- Reads `static` or `instance`. -/
def kind (s : List Char) : Except Malformation MemberKind :=
  orElse (MemberKind.ofKeyword? (String.ofList s)) (.expectedKind (String.ofList s))

/-- Reads a type after the word `returns`. -/
def returns (s : List Char) : Except Malformation Ty := do
  type (← orElse (stripStart? "returns".toList s) .expectedReturns)

/-! ## Declarations -/

/-- A class, possibly with a superclass; what follows the superclass is not looked at. -/
def classDeclaration (u : ClassUnit) (s : List Char) : Except Malformation ClassUnit :=
  match words s with
  | [] => .error .missingClassName
  | [name] => .ok (u.declareClass (String.ofList name) none)
  | name :: extends_ :: superclass :: _ =>
    if extends_ = "extends".toList then
      .ok (u.declareClass (String.ofList name) (some (String.ofList superclass)))
    else .error .expectedExtends
  | _ => .error .expectedExtends

def fieldDeclaration (u : ClassUnit) (s : List Char) : Except Malformation ClassUnit :=
  match words s with
  | [kindWord, target, typeWord] => do
    let k ← kind kindWord
    let (owner, name) ← member target
    let t ← type typeWord
    pure (u.declareField ⟨owner, name, t, k⟩)
  | _ => .error .expectedFieldDeclaration

def methodDeclaration (u : ClassUnit) (s : List Char) : Except Malformation ClassUnit := do
  let (kindWord, rest) := cutSpace s
  let k ← kind kindWord
  let (target, rest) ← orElse (cut ['('] rest) .expectedDeclarationOpen
  let (owner, name) ← member (trim target)
  let (params, rest) ← orElse (cut [')'] rest) .expectedDeclarationClose
  let params ← (items params).mapM type
  let result ← returns (trim rest)
  pure (u.declareMethod ⟨owner, ⟨name, params⟩, ⟨result, k, false⟩⟩)

def declaration (u : ClassUnit) (s : List Char) : Except Malformation ClassUnit :=
  let (what, rest) := cutSpace s
  if what = "class".toList then classDeclaration u rest
  else if what = "field".toList then fieldDeclaration u rest
  else if what = "method".toList then methodDeclaration u rest
  else .error (.unknownDeclaration (String.ofList what))

/-! ## Members -/

/-- A member without its semicolon; a value may follow an equals sign between spaces. -/
def memberLine (u : ClassUnit) (k : MemberKind) (origin : Origin) (s : List Char) :
    Except Malformation ClassUnit := do
  let (left, value) := match cut " = ".toList s with
    | some (left, value) => (left, some (String.ofList (trim value)))
    | none => (s, none)
  let (t, name) ← orElse (cut [' '] (trim left)) .expectedTypeAndName
  let t ← type t
  pure ((u.setMemberOrigin origin).addField k t (String.ofList (trim name)) value)

/-! ## Function headers -/

/-- Reads a type and a name. -/
def param (s : List Char) : Except Malformation Param := do
  let (t, name) ← orElse (cut [' '] s) (.expectedParameter (String.ofList s))
  let t ← type t
  pure ⟨t, String.ofList (trim name)⟩

/-- Whether what follows the kind of a function introduces an initializer. -/
def isInitializer (s : List Char) : Bool :=
  s = "init".toList || (stripStart? "init(".toList s).isSome
    || (stripStart? "init ".toList s).isSome

/-- The name in front of the parameters, the parameters and what follows them. An initializer
may do without parentheses. -/
def signatureParts (s : List Char) :
    Except Malformation (List Char × List Char × List Char) :=
  match cut ['('] s with
  | some (name, rest) => do
    let (params, rest) ← orElse (cut [')'] rest) .expectedParametersClose
    pure (trim name, params, trim rest)
  | none =>
    if isInitializer s then
      pure ("init".toList, [], trim ((stripStart? "init".toList s).getD []))
    else .error .expectedParametersOpen

/-- The words of a throws list, up to the parenthesis that ends it. -/
def throwsList (s : List Char) : Except Malformation (List String) := do
  let list ← orElse (stripEnd? [')'] s) .expectedThrowsClose
  pure ((words list).map String.ofList)

/-- The header of a function without the word `function`. -/
def header (s : List Char) : Except Malformation Function := do
  let (kindWord, rest) := cutSpace s
  let k ← kind kindWord
  let (varargs, signature) := match stripStart? "varargs ".toList rest with
    | some signature => (true, signature)
    | none => (false, rest)
  let (name, params, rest) ← signatureParts signature
  let params ← (items params).mapM param
  let (result, throws) := match cut "throws(".toList rest with
    | some (result, throws) => (trim result, some throws)
    | none => (rest, none)
  let f ←
    if isInitializer signature then
      if result.isEmpty then pure (Function.initializer k params)
      else throw .initializerReturns
    else do
      let t ← returns result
      pure { name := String.ofList name, kind := k, params := params, returns := t : Function }
  let throws ← match throws with
    | none => pure []
    | some list => throwsList list
  pure { f with varargs := varargs, throws := throws }

/-! ## Statements -/

/-- Adds a statement to a function. A register is defined once, and the numbers of registers
and labels leave room for one more. -/
def addStatement (f : OpenFunction) (origin : Origin) (s : Statement) :
    Except Malformation OpenFunction := do
  let f ← match s.definedRegister? with
    | none => pure f
    | some r =>
      if r ∈ f.defined then throw (.registerDefinedTwice r)
      else if r.index = numberMax then throw (.registerOutOfRange r)
      else
        pure { f with defined := r :: f.defined, registers := max f.registers (r.index + 1) }
  let f ← match s.mentionedLabel? with
    | none => pure f
    | some l =>
      if l.index = numberMax then throw (.labelOutOfRange l)
      else pure { f with labels := max f.labels (l.index + 1) }
  pure { f with function := { f.function with origin := origin }.append s }

end Reader

/-! ## Lines -/

namespace Reading

open Reader

/-- Whether a line is a comment. -/
def isComment (s : List Char) : Bool := (stripStart? ['/', '/'] s).isSome

/-- A line between the parts of the class. -/
def outsideLine (u : ClassUnit) (origin : Origin) (s : List Char) :
    Except Malformation Reading :=
  let (keyword, rest) := cutSpace s
  if isComment s then .ok ⟨u, .outside⟩
  else if keyword = "super".toList then
    .ok ⟨u.setSuperclass (String.ofList (trim rest)), .outside⟩
  else if keyword = "implements".toList then
    .ok ⟨(pieces ',' rest).foldl (fun u name => u.addInterface (String.ofList (trim name))) u,
      .outside⟩
  else if keyword = "declare".toList then (declaration u rest).map (⟨·, .outside⟩)
  else if keyword = "structure".toList then (kind (trim rest)).map fun k => ⟨u, .members k⟩
  else if keyword = "function".toList then
    (header rest).map fun f => ⟨u, .statements { function := { f with origin := origin } }⟩
  else .error (.unexpectedLine (String.ofList s))

/-- A line inside a structure. -/
def membersLine (u : ClassUnit) (k : MemberKind) (origin : Origin) (s : List Char) :
    Except Malformation Reading :=
  if s = "end structure".toList then .ok ⟨u, .outside⟩
  else do
    let s ← orElse (stripEnd? [';'] s) .memberWithoutSemicolon
    let u ← memberLine u k origin s
    pure ⟨u, .members k⟩

/-- A line inside a function. -/
def statementsLine (u : ClassUnit) (f : OpenFunction) (origin : Origin) (s : List Char) :
    Except Malformation Reading :=
  if s = "end function".toList then
    .ok ⟨u.addFunction (f.function.reserve f.registers f.labels), .outside⟩
  else if isComment s then .ok ⟨u, .statements f⟩
  else do
    let s ← orElse (stripEnd? [';'] s) .statementWithoutSemicolon
    let statement ← Statement.read s
    let f ← addStatement f origin statement
    pure ⟨u, .statements f⟩

/-- Reads a line that has no blanks at its ends and is not empty. -/
def line (r : Reading) (origin : Origin) (s : List Char) : Except Malformation Reading :=
  match r.place with
  | .outside => outsideLine r.unit origin s
  | .members k => membersLine r.unit k origin s
  | .statements f => statementsLine r.unit f origin s

/-- The unit, when every part is closed. -/
def finish (r : Reading) : Except Malformation ClassUnit :=
  match r.place with
  | .outside => .ok r.unit
  | .members _ => .error .missingEndStructure
  | .statements _ => .error .missingEndFunction

/-- Reads lines with their numbers and then the end of the source, which counts as `last`. -/
def lines (source : String) (last : Nat) : List (Nat × List Char) → Reading →
    Except CompileError ClassUnit
  | [], r => r.finish.mapError fun m => .parse m (some ⟨source, last⟩)
  | (number, s) :: rest, r =>
    if s.isEmpty then lines source last rest r
    else
      match r.line ⟨source, number⟩ s with
      | .ok r => lines source last rest r
      | .error m => .error (.parse m (some ⟨source, number⟩))

end Reading

namespace ClassUnit

/-- Name of the class in a source: the path in the first header comment, or else the path of
the source, without `./` in front and `.jil` behind. -/
def nameIn (lines : List (List Char)) (source : List Char) : List Char :=
  let path := match lines.findSome? (stripStart? "// file:".toList) with
    | some header => trim header
    | none => source
  let path := (stripStart? "./".toList path).getD path
  (stripEnd? ".jil".toList path).getD path

/-- Reads the source of a class; `source` is its path. -/
def read (text source : String) : Except CompileError ClassUnit :=
  let all := (Text.lines text.toList).map trim
  let unit := create (String.ofList (nameIn all source.toList))
  Reading.lines source all.length ((List.range' 1 all.length).zip all) ⟨unit, .outside⟩

end ClassUnit

end Jil
