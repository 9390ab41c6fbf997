/-
Jil.Native.Service — services of the host runtime.

Running code reaches other classes through a table of functions. Services that
move values exist once for each kind of value; calls of methods exist three
times for each, of which the first takes a variable argument list.
-/
import Jil.Ty

namespace Jil.Native

/-- Kind of value that a service moves. -/
inductive ValueKind where
  | object | boolean | byte | char | short | int | long | float | double | void
  deriving DecidableEq, Repr

namespace ValueKind

/-- Kind of the values of a type. -/
def ofTy : Ty → ValueKind
  | .boolean => .boolean
  | .byte => .byte
  | .char => .char
  | .short => .short
  | .int => .int
  | .long => .long
  | .float => .float
  | .double => .double
  | .void => .void
  | .null | .classRef _ | .array _ => .object

/-- Place among the services that differ only in the kind of value. -/
def index : ValueKind → Nat
  | .object => 0
  | .boolean => 1
  | .byte => 2
  | .char => 3
  | .short => 4
  | .int => 5
  | .long => 6
  | .float => 7
  | .double => 8
  | .void => 9

def name : ValueKind → String
  | .object => "Object"
  | .boolean => "Boolean"
  | .byte => "Byte"
  | .char => "Char"
  | .short => "Short"
  | .int => "Int"
  | .long => "Long"
  | .float => "Float"
  | .double => "Double"
  | .void => "Void"

end ValueKind

/-- A service. -/
inductive Service where
  | findClass
  | getObjectClass
  | getMethodId
  | callMethod (kind : ValueKind)
  | getFieldId
  | getField (kind : ValueKind)
  | setField (kind : ValueKind)
  | getStaticMethodId
  | callStaticMethod (kind : ValueKind)
  | getStaticFieldId
  | getStaticField (kind : ValueKind)
  | setStaticField (kind : ValueKind)
  | newStringUtf
  deriving DecidableEq, Repr

namespace Service

/-- Place of a service in the table. -/
def index : Service → Nat
  | .findClass => 6
  | .getObjectClass => 31
  | .getMethodId => 33
  | .callMethod kind => 34 + 3 * kind.index
  | .getFieldId => 94
  | .getField kind => 95 + kind.index
  | .setField kind => 104 + kind.index
  | .getStaticMethodId => 113
  | .callStaticMethod kind => 114 + 3 * kind.index
  | .getStaticFieldId => 144
  | .getStaticField kind => 145 + kind.index
  | .setStaticField kind => 154 + kind.index
  | .newStringUtf => 167

/-- Offset of the address of a service from the beginning of the table. -/
def offset (s : Service) : Nat := 8 * s.index

/-- Whether the arguments of the method follow as a variable argument list. -/
def isVariadic : Service → Bool
  | .callMethod _ | .callStaticMethod _ => true
  | _ => false

/-- Whether a service gives back a value. -/
def returnsValue : Service → Bool
  | .callMethod kind | .callStaticMethod kind => kind ≠ .void
  | .setField _ | .setStaticField _ => false
  | _ => true

def name : Service → String
  | .findClass => "FindClass"
  | .getObjectClass => "GetObjectClass"
  | .getMethodId => "GetMethodID"
  | .callMethod kind => "Call" ++ kind.name ++ "Method"
  | .getFieldId => "GetFieldID"
  | .getField kind => "Get" ++ kind.name ++ "Field"
  | .setField kind => "Set" ++ kind.name ++ "Field"
  | .getStaticMethodId => "GetStaticMethodID"
  | .callStaticMethod kind => "CallStatic" ++ kind.name ++ "Method"
  | .getStaticFieldId => "GetStaticFieldID"
  | .getStaticField kind => "GetStatic" ++ kind.name ++ "Field"
  | .setStaticField kind => "SetStatic" ++ kind.name ++ "Field"
  | .newStringUtf => "NewStringUTF"

end Service

end Jil.Native
