/-
Jil.Selection.Member — code that reaches fields.

Fields of the class itself lie at known offsets: static ones from the symbol of
the static members, those of an object from its address. Fields of other
classes are reached through services of the runtime, by an identifier that is
looked up by name and descriptor.
-/
import Jil.Selection.Context

namespace Jil.Selection

open Jil.Pseudo (Instr Operand Reg)

/-- The place of a static field of the class itself. -/
def staticPlace (owner field : String) (origin : Origin) : Select Operand := do
  let scope ← read
  let offset ← scope.unit.fieldOffset .static field origin
  pure (.rip (Symbol.ofStatics scope.abi owner) offset)

/-- The place of a field in an object of the class itself. -/
def fieldPlace (base : Reg) (field : String) (origin : Origin) : Select Operand := do
  let offset ← (← read).unit.fieldOffset .perObject field origin
  pure (.indirect base offset)

/-- Looks up a class. -/
def findClass (name : String) (origin : Origin) : Select (Reg × List Instr) := do
  let handle ← draw .quad
  let text ← constant name
  let code ← service .findClass [text] (some handle) origin
  pure (handle, code)

/-- Looks up the class of an object. -/
def findClassOf (object : Reg) (origin : Origin) : Select (Reg × List Instr) := do
  let handle ← draw .quad
  let code ← service .getObjectClass [.value object .object] (some handle) origin
  pure (handle, code)

/-- Looks up a member of a class by name and descriptor. -/
def findMember (svc : Native.Service) (handle : Reg) (name descriptor : String)
    (origin : Origin) : Select (Reg × List Instr) := do
  let id ← draw .quad
  let name ← constant name
  let signature ← constant descriptor
  let code ← service svc [.value handle .object, name, signature] (some id) origin
  pure (id, code)

/-- Reads a static field, or computes its address. -/
def getStatic (owner field : String) (result : Register) (address : Bool) (origin : Origin) :
    Select (List Instr) := do
  let unit := (← read).unit
  let result ← pseudoOf result origin
  if owner = unit.name then
    let place ← staticPlace owner field origin
    pure [if address then .lea place (.pseudo result)
      else .mov result.size place (.pseudo result)]
  else if address then throw (.unsupported (.staticFieldAddress owner field) origin)
  else
    let t ← unit.staticFieldType owner field origin
    let (handle, before) ← findClass owner origin
    let (id, between) ← findMember .getStaticFieldId handle field t.descriptor origin
    let code ← service (.getStaticField (.ofTy t)) [.value handle .object, .value id .long]
      (some result) origin
    pure (before ++ between ++ code)

/-- Writes a static field. -/
def putStatic (owner field : String) (src : Register) (origin : Origin) :
    Select (List Instr) := do
  let unit := (← read).unit
  let value ← pseudoOf src origin
  let type ← typeOf src origin
  if owner = unit.name then
    let place ← staticPlace owner field origin
    pure [.mov value.size (.pseudo value) place]
  else
    let t ← unit.staticFieldType owner field origin
    let (handle, before) ← findClass owner origin
    let (id, between) ← findMember .getStaticFieldId handle field t.descriptor origin
    let code ← service (.setStaticField (.ofTy t))
      [.value handle .object, .value id .long, .value value type] none origin
    pure (before ++ between ++ code)

/-- Reads a field of an object, or computes its address. -/
def getField (object : Register) (field : String) (result : Register) (address : Bool)
    (origin : Origin) : Select (List Instr) := do
  let unit := (← read).unit
  let owner ← classOf object origin
  let base ← pseudoOf object origin
  let result ← pseudoOf result origin
  if owner = unit.name then
    let place ← fieldPlace base field origin
    pure [if address then .lea place (.pseudo result)
      else .mov result.size place (.pseudo result)]
  else if address then throw (.unsupported (.fieldAddress owner field) origin)
  else
    let t ← unit.objectFieldType owner field origin
    let (handle, before) ← findClassOf base origin
    let (id, between) ← findMember .getFieldId handle field t.descriptor origin
    let code ← service (.getField (.ofTy t)) [.value base .object, .value id .long]
      (some result) origin
    pure (before ++ between ++ code)

/-- Writes a field of an object. -/
def putField (object : Register) (field : String) (src : Register) (origin : Origin) :
    Select (List Instr) := do
  let unit := (← read).unit
  let owner ← classOf object origin
  let base ← pseudoOf object origin
  let value ← pseudoOf src origin
  let type ← typeOf src origin
  if owner = unit.name then
    let place ← fieldPlace base field origin
    pure [.mov value.size (.pseudo value) place]
  else
    let t ← unit.objectFieldType owner field origin
    let (handle, before) ← findClassOf base origin
    let (id, between) ← findMember .getFieldId handle field t.descriptor origin
    let code ← service (.setField (.ofTy t))
      [.value base .object, .value id .long, .value value type] none origin
    pure (before ++ between ++ code)

end Jil.Selection
