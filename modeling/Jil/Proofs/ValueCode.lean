/-
Jil.Proofs.ValueCode — what selecting gives for operators and copies.

Operators on narrow values work on longs: their operands are widened into
pseudo-registers that are drawn for them, and so is what they give
(`yields_binaryCode`). Copies along an edge happen at once: when there are
several of them, each value passes through a pseudo-register of its own, and
`stage` lists these in the order in which they are drawn (`yields_moveAll`).
-/
import Jil.Proofs.Selecting

namespace Jil.Selection

open Jil.Pseudo (Instr Reg)

variable {scope : Scope} {st after : State} {origin : Origin} {code : List Instr}

/-! ## Operators -/

theorem yields_widen {value wide : Reg} {type : Ty} :
    Yields scope (widen value type) st (wide, code) after ↔
      4 ≤ value.size.bytes ∧ wide = value ∧ code = [] ∧ after = st
      ∨ ¬ 4 ≤ value.size.bytes ∧ wide = ⟨st.drawn + 1, .long⟩
        ∧ code = [.extend (type ≠ .char) value.size .long (.pseudo value) (.pseudo wide)]
        ∧ after = { st with drawn := st.drawn + 1 } := by
  unfold widen
  split
  · next hwide => simp [hwide, and_assoc]
  · next hnarrow =>
    simp only [yields_bind, yields_draw, yields_pure, Prod.mk.injEq, hnarrow, false_and,
      not_false_eq_true, true_and, false_or]
    constructor
    · rintro ⟨_, _, ⟨rfl, rfl⟩, ⟨rfl, rfl⟩, rfl⟩
      exact ⟨rfl, rfl, rfl⟩
    · rintro ⟨rfl, rfl, rfl⟩
      exact ⟨_, _, ⟨rfl, rfl⟩, ⟨rfl, rfl⟩, rfl⟩

/-- The second operand of an operator on longs: the count of a shift is an `int` as it
stands. -/
def WidensSecond (scope : Scope) (op : BinaryOp) (type : Ty) (right : Reg) (st : State)
    (wide : Reg) (code : List Instr) (after : State) : Prop :=
  op.isShift = true ∧ wide = right ∧ code = [] ∧ after = st
    ∨ op.isShift = false ∧ Yields scope (widen right type) st (wide, code) after

/-- An operator works at the size of its result, or on longs of which the low part is taken. -/
theorem yields_binaryCode {op : BinaryOp} {type : Ty} {left right result : Reg} :
    Yields scope (binaryCode op type left right result) st code after ↔
      ((formOf op).worksNarrow = true ∨ 4 ≤ result.size.bytes)
        ∧ code = (formOf op).code result.size left right result ∧ after = st
      ∨ (formOf op).worksNarrow = false ∧ ¬ 4 ≤ result.size.bytes
        ∧ ∃ first before mid second between last,
          Yields scope (widen left type) st (first, before) mid
          ∧ WidensSecond scope op type right mid second between last
          ∧ code = before ++ between ++ (formOf op).code .long first second
            ⟨last.drawn + 1, .long⟩
            ++ [move result.size ⟨last.drawn + 1, .long⟩ result]
          ∧ after = { last with drawn := last.drawn + 1 } := by
  by_cases hdirect : (formOf op).worksNarrow = true ∨ 4 ≤ result.size.bytes
  · have hcondition : ((formOf op).worksNarrow || decide (4 ≤ result.size.bytes)) = true := by
      simpa using hdirect
    have hnot : ¬ ((formOf op).worksNarrow = false ∧ ¬ 4 ≤ result.size.bytes) := by
      rintro ⟨hplain, hnarrow⟩
      simp [hplain, hnarrow] at hdirect
    rw [binaryCode, if_pos hcondition, yields_pure]
    constructor
    · exact fun h => .inl ⟨hdirect, h⟩
    · rintro (⟨-, h⟩ | ⟨hplain, hnarrow, -⟩)
      · exact h
      · exact absurd ⟨hplain, hnarrow⟩ hnot
  · have hcondition :
      ¬ ((formOf op).worksNarrow || decide (4 ≤ result.size.bytes)) = true := by
      simpa using hdirect
    obtain ⟨hplain, hnarrow⟩ := not_or.1 hdirect
    rw [binaryCode, if_neg hcondition]
    constructor
    · intro h
      refine .inr ⟨Bool.eq_false_iff.2 hplain, hnarrow, ?_⟩
      obtain ⟨⟨first, before⟩, mid, hfirst, h⟩ := yields_bind.1 h
      dsimp only at h
      split at h
      · next hshift =>
        simp only [yields_bind, yields_draw, yields_pure] at h
        obtain ⟨_, _, ⟨rfl, rfl⟩, _, _, ⟨rfl, rfl⟩, rfl, rfl⟩ := h
        exact ⟨first, before, _, right, [], _, hfirst, .inl ⟨hshift, rfl, rfl, rfl⟩, rfl, rfl⟩
      · next hplain =>
        simp only [yields_bind, yields_draw, yields_pure] at h
        obtain ⟨⟨second, between⟩, last, hsecond, _, _, ⟨rfl, rfl⟩, rfl, rfl⟩ := h
        exact ⟨first, before, mid, second, between, last, hfirst,
          .inr ⟨Bool.eq_false_iff.2 hplain, hsecond⟩, rfl, rfl⟩
    · rintro (⟨h, -⟩
        | ⟨-, -, first, before, mid, second, between, last, hfirst, hsecond, rfl, rfl⟩)
      · exact absurd h hdirect
      · refine yields_bind.2 ⟨_, _, hfirst, ?_⟩
        have hdraw : Yields scope (draw .long) last ⟨last.drawn + 1, .long⟩
            { last with drawn := last.drawn + 1 } := yields_draw.2 ⟨rfl, rfl⟩
        obtain ⟨hshift, rfl, rfl, rfl⟩ | ⟨hshift, hsecond⟩ := hsecond
        · rw [hshift]
          exact yields_bind.2 ⟨_, _, yields_pure.2 ⟨rfl, rfl⟩,
            yields_bind.2 ⟨_, _, hdraw, yields_pure.2 ⟨rfl, rfl⟩⟩⟩
        · rw [hshift]
          exact yields_bind.2 ⟨_, _, hsecond,
            yields_bind.2 ⟨_, _, hdraw, yields_pure.2 ⟨rfl, rfl⟩⟩⟩

/-- Widening changes the state by drawing alone. -/
theorem draws_of_widen {value : Reg} {type : Ty} {r : Reg × List Instr}
    (h : Yields scope (widen value type) st r after) :
    ∃ count, after = { st with drawn := st.drawn + count } := by
  obtain ⟨-, -, -, rfl⟩ | ⟨-, -, -, rfl⟩ := yields_widen.1 h
  · exact ⟨0, rfl⟩
  · exact ⟨1, rfl⟩

/-- Operators change the state by drawing alone. -/
theorem draws_of_binaryCode {op : BinaryOp} {type : Ty} {left right result : Reg}
    (h : Yields scope (binaryCode op type left right result) st code after) :
    ∃ count, after = { st with drawn := st.drawn + count } := by
  obtain ⟨-, -, rfl⟩
      | ⟨-, -, first, before, mid, second, between, last, hfirst, hsecond, -, rfl⟩ :=
    yields_binaryCode.1 h
  · exact ⟨0, rfl⟩
  · obtain ⟨count, rfl⟩ := draws_of_widen hfirst
    obtain ⟨-, -, -, rfl⟩ | ⟨-, hsecond⟩ := hsecond
    · exact ⟨count + 1, rfl⟩
    · obtain ⟨more, rfl⟩ := draws_of_widen hsecond
      exact ⟨count + more + 1, by simp only [Nat.add_assoc]⟩

/-! ## Copies -/

/-- The moves of which each value passes through a pseudo-register of its own. -/
def stage (drawn : Nat) : List (Reg × Reg) → List (Reg × Reg × Reg)
  | [] => []
  | m :: moves => (m.1, ⟨drawn + 1, m.2.size⟩, m.2) :: stage (drawn + 1) moves

@[simp] theorem length_stage (drawn : Nat) (moves : List (Reg × Reg)) :
    (stage drawn moves).length = moves.length := by
  induction moves generalizing drawn with
  | nil => rfl
  | cons m moves ih => simp [stage, ih]

theorem yields_stage {moves : List (Reg × Reg)} {staged : List (Reg × Reg × Reg)} :
    Yields scope
      (moves.mapM fun (src, dest) => do
        let held ← draw dest.size
        pure (src, held, dest)) st staged after ↔
      staged = stage st.drawn moves
      ∧ after = { st with drawn := st.drawn + moves.length } := by
  induction moves generalizing staged st with
  | nil => exact yields_mapM_nil
  | cons m moves ih =>
    simp only [yields_mapM_cons, ih, yields_bind, yields_draw, yields_pure, stage,
      List.length_cons]
    constructor
    · rintro ⟨_, _, _, ⟨_, _, ⟨rfl, rfl⟩, rfl, rfl⟩, ⟨rfl, rfl⟩, rfl⟩
      exact ⟨rfl, by rw [Nat.add_right_comm, Nat.add_assoc]⟩
    · rintro ⟨rfl, rfl⟩
      exact ⟨_, _, _, ⟨_, _, ⟨rfl, rfl⟩, rfl, rfl⟩,
        ⟨rfl, by rw [Nat.add_right_comm, Nat.add_assoc]⟩,
        rfl⟩

/-- A single value is moved as it is; several are staged. -/
theorem yields_moveAll {moves : List (Reg × Reg)} :
    Yields scope (moveAll moves) st code after ↔
      (∃ src dest, moves = [(src, dest)] ∧ code = [move dest.size src dest] ∧ after = st)
      ∨ moves.length ≠ 1
        ∧ code = (stage st.drawn moves).map (fun m => move m.2.2.size m.1 m.2.1)
          ++ (stage st.drawn moves).map (fun m => move m.2.2.size m.2.1 m.2.2)
        ∧ after = { st with drawn := st.drawn + moves.length } := by
  unfold moveAll
  split
  · next src dest =>
    rw [yields_pure]
    constructor
    · exact fun h => .inl ⟨src, dest, rfl, h⟩
    · rintro (⟨_, _, ⟨⟩, h⟩ | ⟨hne, -⟩)
      · exact h
      · exact absurd rfl hne
  · next hother =>
    have hlength : moves.length ≠ 1 := by
      intro h
      obtain ⟨m, rfl⟩ := List.length_eq_one_iff.1 h
      exact hother m.1 m.2 rfl
    simp only [yields_bind, yields_stage, yields_pure]
    constructor
    · rintro ⟨_, _, ⟨rfl, rfl⟩, rfl, rfl⟩
      exact .inr ⟨hlength, rfl, rfl⟩
    · rintro (⟨src, dest, rfl, -⟩ | ⟨-, rfl, rfl⟩)
      · exact absurd rfl hlength
      · exact ⟨_, _, ⟨rfl, rfl⟩, rfl, rfl⟩

/-- Moves change the state by drawing alone. -/
theorem draws_of_moveAll {moves : List (Reg × Reg)}
    (h : Yields scope (moveAll moves) st code after) :
    ∃ count, after = { st with drawn := st.drawn + count } := by
  obtain ⟨src, dest, -, -, rfl⟩ | ⟨-, -, rfl⟩ := yields_moveAll.1 h
  · exact ⟨0, rfl⟩
  · exact ⟨moves.length, rfl⟩

/-- The move that a copy asks for. -/
def Scope.move? (scope : Scope) (c : MergeCopy) : Option (Reg × Reg) :=
  (scope.types.get? c.src).bind fun t => (scope.types.get? c.dest).map fun u =>
    (⟨c.src.index, sizeOf t⟩, ⟨c.dest.index, sizeOf u⟩)

theorem Scope.move?_eq_some {c : MergeCopy} {m : Reg × Reg} :
    scope.move? c = some m ↔ ∃ t u, scope.types.get? c.src = some t
      ∧ scope.types.get? c.dest = some u
      ∧ m = (⟨c.src.index, sizeOf t⟩, ⟨c.dest.index, sizeOf u⟩) := by
  simp only [Scope.move?, Option.bind_eq_some_iff, Option.map_eq_some_iff]
  constructor
  · rintro ⟨t, ht, u, hu, rfl⟩
    exact ⟨t, u, ht, hu, rfl⟩
  · rintro ⟨t, u, ht, hu, rfl⟩
    exact ⟨t, ht, u, hu, rfl⟩

/-- The moves that an edge asks for write the results of its copies. -/
theorem ids_of_moves {copies : List MergeCopy} {moves : List (Reg × Reg)}
    (h : copies.mapM scope.move? = some moves) :
    moves.map (·.2.id) = copies.map (·.dest.index) := by
  induction copies generalizing moves with
  | nil =>
    cases h
    rfl
  | cons c copies ih =>
    simp only [List.mapM_cons, bind, Option.bind_eq_some_iff, pure, Option.some.injEq] at h
    obtain ⟨m, hm, rest, hrest, rfl⟩ := h
    obtain ⟨t, u, -, -, rfl⟩ := Scope.move?_eq_some.1 hm
    exact congrArg (c.dest.index :: ·) (ih hrest)

/-- The copies along an edge are moved at once. -/
theorem yields_edgeCode {edge : Nat} :
    Yields scope (edgeCode edge origin) st code after ↔
      ∃ moves, (scope.copiesAt edge).mapM scope.move? = some moves
        ∧ Yields scope (moveAll moves) st code after := by
  have hmoves : ∀ {st moves after}, Yields scope ((scope.copiesAt edge).mapM fun c => do
      let src ← pseudoOf c.src origin
      let dest ← pseudoOf c.dest origin
      pure (src, dest)) st moves after ↔
        (scope.copiesAt edge).mapM scope.move? = some moves ∧ after = st :=
    yields_mapM_of_lookup fun c st m after => by
      simp only [yields_bind, yields_pseudoOf, yields_pure, Scope.move?_eq_some]
      constructor
      · rintro ⟨_, _, ⟨⟨t, ht, rfl⟩, rfl⟩, _, _, ⟨⟨u, hu, rfl⟩, rfl⟩, rfl, rfl⟩
        exact ⟨⟨t, u, ht, hu, rfl⟩, rfl⟩
      · rintro ⟨⟨t, u, ht, hu, rfl⟩, rfl⟩
        exact ⟨_, _, ⟨⟨t, ht, rfl⟩, rfl⟩, _, _, ⟨⟨u, hu, rfl⟩, rfl⟩, rfl, rfl⟩
  unfold edgeCode
  simp only [yields_bind, yields_read]
  constructor
  · rintro ⟨_, _, ⟨rfl, rfl⟩, moves, _, hyields, hcode⟩
    obtain ⟨h, rfl⟩ := hmoves.1 hyields
    exact ⟨moves, h, hcode⟩
  · rintro ⟨moves, h, hcode⟩
    exact ⟨scope, st, ⟨rfl, rfl⟩, moves, st, hmoves.2 ⟨h, rfl⟩, hcode⟩

/-- Copies change the state by drawing alone. -/
theorem draws_of_edgeCode {edge : Nat}
    (h : Yields scope (edgeCode edge origin) st code after) :
    ∃ count, after = { st with drawn := st.drawn + count } := by
  obtain ⟨moves, -, h⟩ := yields_edgeCode.1 h
  exact draws_of_moveAll h

end Jil.Selection
