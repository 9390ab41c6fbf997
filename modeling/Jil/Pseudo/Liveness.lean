/-
Jil.Pseudo.Liveness — how long values are needed.

The lifetime of a pseudo-register is an interval of instruction indices: from
the first instruction that touches it to the last, prolonged to the end of
every loop that the value is carried into. `Liveness.ofCode` computes the
intervals and what else an allocator has to know about a stream, and refuses
streams that read what is never written or jump to labels that are not there.
-/
import Jil.Diagnostic
import Jil.Pseudo.Effect

namespace Jil.Pseudo

/-! ## Intervals -/

/-- Lifetime of a pseudo-register in instruction indices, both ends included. -/
structure Interval where
  /-- The pseudo-register as it is first touched. -/
  pseudo : Reg
  first : Nat
  last : Nat
  /-- Whether some instruction writes it. -/
  written : Bool
  deriving DecidableEq, Repr

namespace Interval

/-- Whether the value has to survive the instruction at `index`. -/
def spans (i : Interval) (index : Nat) : Bool := i.first < index && index < i.last

/-- Prolongs the interval of `p` to `index`, or begins it there. The intervals are kept in the
order of their numbers. -/
def touch (p : Reg) (index : Nat) (writes : Bool) : List Interval → List Interval
  | [] => [⟨p, index, index, writes⟩]
  | i :: rest =>
    if p.id = i.pseudo.id then
      { i with last := max i.last index, written := i.written || writes } :: rest
    else if p.id < i.pseudo.id then ⟨p, index, index, writes⟩ :: i :: rest
    else i :: touch p index writes rest

/-- Records one effect of the instruction at `index`. -/
def record (index : Nat) (intervals : List Interval) : Effect → List Interval
  | .uses p => touch p index false intervals
  | .defines p => touch p index true intervals
  | .touches _ => intervals

/-- Records the effects of instructions of which the first has the given index. -/
def scan (index : Nat) (intervals : List Interval) : List Instr → List Interval
  | [] => intervals
  | i :: rest => scan (index + 1) (i.effects.foldl (record index) intervals) rest

end Interval

/-! ## Loops -/

/-- Fewer members satisfy the stronger of two tests when one member tells them apart. -/
theorem countP_lt {α : Type} {p q : α → Bool} {l : List α} {a : α} (ha : a ∈ l)
    (hpq : ∀ x, p x = true → q x = true) (hp : p a = false) (hq : q a = true) :
    l.countP p < l.countP q := by
  induction l with
  | nil => simp at ha
  | cons b r ih =>
    rcases List.mem_cons.1 ha with h | h
    · subst h
      have : r.countP p ≤ r.countP q := List.countP_mono_left fun x _ => hpq x
      simp only [List.countP_cons, hp, hq]
      simp
      omega
    · have := ih h
      have hb : (if p b = true then 1 else 0) ≤ (if q b = true then 1 else 0) := by
        by_cases hp' : p b = true
        · simp [hp', hpq b hp']
        · simp [hp']
      simp only [List.countP_cons]
      omega

/-- A jump to a label at or before it. -/
structure BackEdge where
  target : Nat
  jump : Nat
  deriving DecidableEq, Repr

namespace Interval

/-- Whether a value is carried into a loop without being kept to its end. -/
def breaksOff (i : Interval) (e : BackEdge) : Bool :=
  i.first < e.target && e.target ≤ i.last && i.last < e.jump

/-- The interval, prolonged until it ends inside no loop that it enters from outside. -/
def close (edges : List BackEdge) (i : Interval) : Interval :=
  match _h : edges.find? i.breaksOff with
  | some e => close edges { i with last := e.jump }
  | none => i
termination_by edges.countP fun e => i.last < e.jump
decreasing_by
  have hb : i.breaksOff e = true := List.find?_some _h
  simp only [breaksOff, Bool.and_eq_true, decide_eq_true_eq] at hb
  refine countP_lt (List.mem_of_find?_eq_some _h) (fun x hx => ?_) (by simp)
    (by simpa using hb.2)
  simp only [decide_eq_true_eq] at hx ⊢
  omega

/-- Closing changes the end of an interval only. -/
theorem close_first (edges : List BackEdge) (i : Interval) :
    (i.close edges).first = i.first := by
  fun_induction close edges i with
  | case1 i e h ih => exact ih
  | case2 i h => rfl

theorem close_pseudo (edges : List BackEdge) (i : Interval) :
    (i.close edges).pseudo = i.pseudo := by
  fun_induction close edges i with
  | case1 i e h ih => exact ih
  | case2 i h => rfl

/-- A closed interval ends inside no loop that it enters from outside. -/
theorem breaksOff_close (edges : List BackEdge) (i : Interval) :
    ∀ e ∈ edges, (i.close edges).breaksOff e = false := by
  fun_induction close edges i with
  | case1 i e h ih => exact ih
  | case2 i h =>
    intro e he
    simpa using List.find?_eq_none.1 h e he

end Interval

/-! ## Streams -/

/-- Index of the last place of a label. -/
def labelIndex? (code : List Instr) (name : String) : Option Nat :=
  (code.zipIdx.filter fun (i, _) => i.placedLabel? = some name).getLast?.map Prod.snd

/-- The jumps of a stream with the indices of their targets, or the first that has none. -/
def jumps (code : List Instr) : Except AllocationFailure (List BackEdge) :=
  (code.zipIdx.filterMap fun (i, index) => i.jumpTarget?.map (·, index)).mapM
    fun (name, index) =>
      match labelIndex? code name with
      | some target => .ok ⟨target, index⟩
      | none => .error (.unknownLabel name)

/-- The jumps that close loops. -/
def backEdges (code : List Instr) : Except AllocationFailure (List BackEdge) := do
  let edges ← jumps code
  pure (edges.filter fun e => e.target ≤ e.jump)

/-- What an allocator has to know about a stream. -/
structure Liveness where
  /-- The intervals, in the order of their numbers. -/
  intervals : List Interval
  /-- Indices of the calls. -/
  calls : List Nat
  /-- The hardware registers that the stream names or needs. -/
  touched : Machine.RegSet
  deriving Repr

namespace Liveness

/-- Indices of the calls of a stream. -/
def callIndices (code : List Instr) : List Nat :=
  (code.zipIdx.filter fun (i, _) => i.isCall).map Prod.snd

/-- The hardware registers that a stream names or needs. -/
def touchedRegisters (code : List Instr) : Machine.RegSet :=
  (code.flatMap Instr.touched).foldl Machine.RegSet.insert .empty

/-- The liveness of a stream. -/
def ofCode (code : List Instr) : Except AllocationFailure Liveness := do
  let intervals := Interval.scan 0 [] code
  match intervals.find? (!·.written) with
  | some i => throw (.neverDefined i.pseudo)
  | none => pure ()
  let edges ← backEdges code
  pure
    { intervals := intervals.map (·.close edges)
      calls := callIndices code
      touched := touchedRegisters code }

/-- Whether a value has to survive a call. -/
def crossesCall (live : Liveness) (i : Interval) : Bool := live.calls.any i.spans

end Liveness

end Jil.Pseudo
