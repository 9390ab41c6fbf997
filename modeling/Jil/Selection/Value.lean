/-
Jil.Selection.Value — code that computes values.

The machine has instructions of two operands, so the left operand is moved into
the result first. Division works on the accumulator and its upper half, shifts
take their count from `rcx`. Multiplication, division and shifts of values
narrower than a long are carried out on widened values, and the result is cut
off.
-/
import Jil.Selection.Context

namespace Jil.Selection

open Jil.Machine (AluOp Condition ShiftOp Size)
open Jil.Pseudo (Instr Reg)

/-! ## Comparisons -/

/-- The condition that holds after comparing, when a comparison does. -/
def condition : Comparison → Bool → Condition
  | .equal, _ => .equal
  | .notEqual, _ => .notEqual
  | .less, false => .less
  | .lessEqual, false => .lessEqual
  | .greater, false => .greater
  | .greaterEqual, false => .greaterEqual
  | .less, true => .below
  | .lessEqual, true => .belowEqual
  | .greater, true => .above
  | .greaterEqual, true => .aboveEqual

/-- Compares values of a type; chars have no sign. -/
def compareCode (op : Comparison) (type : Ty) (left right result : Reg) : List Instr :=
  [.alu .cmp left.size (.pseudo right) (.pseudo left),
    .setcc (condition op (type = .char)) (.pseudo result)]

/-! ## Binary operators -/

/-- How an operator is carried out. -/
inductive BinaryForm where
  | plain (op : AluOp)
  | multiply
  /-- Division; the result is left in the given register. -/
  | divide (part : Machine.Reg)
  | shift (op : ShiftOp)
  deriving DecidableEq, Repr

/-- How an operator is carried out. -/
def formOf : BinaryOp → BinaryForm
  | .add => .plain .add
  | .sub => .plain .sub
  | .and => .plain .and
  | .or => .plain .or
  | .xor => .plain .xor
  | .mul => .multiply
  | .div => .divide .rax
  | .rem => .divide .rdx
  | .shl => .shift .sal
  | .shr => .shift .sar
  | .ushr => .shift .shr

namespace BinaryForm

/-- Whether the low part of the result depends on the low parts of the operands only. -/
def worksNarrow : BinaryForm → Bool
  | .plain _ => true
  | _ => false

/-- Computes a result at a given size. -/
def code (size : Size) (left right result : Reg) : BinaryForm → List Instr
  | .plain op => [move size left result, .alu op size (.pseudo right) (.pseudo result)]
  | .multiply => [move size left result, .alu .imul size (.pseudo right) (.pseudo result)]
  | .divide part =>
    [.mov size (.pseudo left) (.fixed .rax), .signExtendAccumulator size,
      .idiv size (.pseudo right), .mov size (.fixed part) (.pseudo result)]
  | .shift op =>
    [.mov .long (.pseudo right) (.fixed .rcx), move size left result,
      .shift op size (.pseudo result)]

end BinaryForm

/-- Widens a value that is narrower than a long. -/
def widen (value : Reg) (type : Ty) : Select (Reg × List Instr) := do
  if 4 ≤ value.size.bytes then pure (value, [])
  else
    let wide ← draw .long
    pure (wide, [.extend (type ≠ .char) value.size .long (.pseudo value) (.pseudo wide)])

/-- Computes a binary operator on values of a type. -/
def binaryCode (op : BinaryOp) (type : Ty) (left right result : Reg) :
    Select (List Instr) := do
  let form := formOf op
  if form.worksNarrow || 4 ≤ result.size.bytes then
    pure (form.code result.size left right result)
  else
    let (left, before) ← widen left type
    let (right, between) ← if op.isShift then pure (right, []) else widen right type
    let wide ← draw .long
    pure (before ++ between ++ form.code .long left right wide
      ++ [move result.size wide result])

/-! ## Unary operators and conversions -/

/-- Computes a unary operator. -/
def unaryCode (op : UnaryOp) (src result : Reg) : List Instr :=
  [move result.size src result,
    match op with
    | .negate => .neg result.size (.pseudo result)
    | .not => .alu .xor result.size (.imm 1) (.pseudo result)
    | .complement => .not result.size (.pseudo result)]

/-- Converts a value of type `source` to the size of the result: a wider result is filled with
zeros for chars and with the sign otherwise, a narrower one takes the low part. -/
def convertCode (source : Ty) (src result : Reg) : List Instr :=
  if src.size.bytes < result.size.bytes then
    [.extend (source ≠ .char) src.size result.size (.pseudo src) (.pseudo result)]
  else [move result.size src result]

end Jil.Selection
