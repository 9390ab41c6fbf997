/-
Jil.Selection.Merge — merges of values.

A `choose` statement takes one of two values, after the label where two paths
meet. No instruction stands for it: on every edge into the label, the operand
that was defined last before the edge is copied into the result. `mergeCopies`
plans these copies. An edge is named by the statement that it leaves: the jump
or branch to the label, or the label itself when control falls through to it.
-/
import Jil.Function

namespace Jil.Selection

/-- A copy along an edge. -/
structure MergeCopy where
  edge : Nat
  src : Register
  dest : Register
  deriving DecidableEq, Repr

/-- One of the two operands of a merge. -/
inductive Side where
  | first
  | second
  deriving DecidableEq, Repr

/-- Index of the last statement that defines a register. -/
def definedAt? (body : List Statement) (r : Register) : Option Nat :=
  (body.zipIdx.filter fun (s, _) => s.definedRegister? = some r).getLast?.map Prod.snd

/-- The last label in front of a statement, and its index. -/
def joinBefore? (body : List Statement) (index : Nat) : Option (Nat × Label) :=
  ((body.take index).zipIdx.filterMap fun (s, place) => s.placedLabel?.map (place, ·)).getLast?

/-- Indices of the statements that may jump to a label. -/
def jumpsTo (body : List Statement) (join : Label) : List Nat :=
  (body.zipIdx.filter fun (s, _) => s.jumpTarget? = some join).map Prod.snd

/-- Whether control can come to the statement at `index` from the one before it. -/
def fallsThrough (body : List Statement) (index : Nat) : Bool :=
  match index with
  | 0 => false
  | before + 1 => (body[before]?).any (!·.endsPath)

/-- The edges into the label at `index`. -/
def edgesInto (body : List Statement) (index : Nat) (join : Label) : List Nat :=
  jumpsTo body join ++ (if fallsThrough body index then [index] else [])

/-- The operand that was defined last before an edge. -/
def incoming? (firstAt secondAt : Option Nat) (edge : Nat) : Option Side :=
  match firstAt.filter (· < edge), secondAt.filter (· < edge) with
  | some a, some b => some (if b < a then .first else .second)
  | some _, none => some .first
  | none, some _ => some .second
  | none, none => none

/-- The edges into a label on which an operand arrives, with that operand. -/
def arrivals (body : List Statement) (index : Nat) (join : Label) (first second : Register) :
    List (Nat × Side) :=
  (edgesInto body index join).filterMap fun edge =>
    (incoming? (definedAt? body first) (definedAt? body second) edge).map (edge, ·)

/-- The copies of one merge. Each operand has to arrive on some edge. -/
def copiesOf (body : List Statement) (index : Nat) (first second result : Register)
    (origin : Origin) : Except CompileError (List MergeCopy) :=
  match joinBefore? body index with
  | none => .error (.unsupported (.chooseWithoutJoin result) (some origin))
  | some (place, join) =>
    let edges := arrivals body place join first second
    if !edges.any (·.2 = .first) then
      .error (.unsupported (.chooseOperandUnreached first join) (some origin))
    else if !edges.any (·.2 = .second) then
      .error (.unsupported (.chooseOperandUnreached second join) (some origin))
    else
      .ok (edges.map fun (edge, side) =>
        ⟨edge, if side = .first then first else second, result⟩)

/-- The copies of all merges of a function, merge by merge. -/
def mergeCopies (f : Function) : Except CompileError (List MergeCopy) := do
  let copies ← f.body.zipIdx.mapM fun (s, index) =>
    match s.statement with
    | .choose first second result => copiesOf f.statements index first second result s.origin
    | _ => pure []
  pure copies.flatten

end Jil.Selection
