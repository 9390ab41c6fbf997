/-
Jil.Proofs.Lowered — the code of statements and of whole functions.

Every statement of a checked function emits a segment, and opens and closes
scopes among the places as it does among the types (`Selected`). So the code of
a whole function keeps the discipline: it is `Orderly`, which is all that its
execution on the machine has to know of it.
-/
import Jil.Proofs.Confinement
import Jil.Proofs.Segments
import Jil.Proofs.StatementCode

namespace Jil.Selection

open Jil.Machine (Abi AluOp Condition ShiftOp Size)
open Jil.Pseudo (Admitted Instr Named Operand Ready Reg bind_eq_ok ite_eq_ok)

variable {scope : Scope} {locals : Table String Ty} {st after : State} {w : Supply}
  {origin : Origin} {code : List Instr} {abi : Abi}

/-! ## Values -/

theorem named_rcx (habi : abi ∈ Abi.all) : Named abi .rcx := by
  simp only [Abi.all, List.mem_cons, List.not_mem_nil, or_false] at habi
  rcases habi with rfl | rfl | rfl <;> exact .inl (by decide)

theorem named_rdx (habi : abi ∈ Abi.all) : Named abi .rdx := by
  simp only [Abi.all, List.mem_cons, List.not_mem_nil, or_false] at habi
  rcases habi with rfl | rfl | rfl <;> exact .inl (by decide)

/-- What an operator needs of its right operand: an `int` for the count of a shift, and
otherwise the size that it works at. -/
def BinaryForm.countSize (size : Size) : BinaryForm → Size
  | .shift _ => .long
  | _ => size

/-- The forms of operators: no move, results of divisions in either of their registers. -/
def BinaryForm.Known : BinaryForm → Prop
  | .plain op => op ≠ .mov
  | .divide part => part = .rax ∨ part = .rdx
  | _ => True

theorem known_formOf (op : BinaryOp) : (formOf op).Known := by
  cases op <;> simp [formOf, BinaryForm.Known]

theorem segment_binaryForm (habi : abi ∈ Abi.all) {form : BinaryForm} {left right result : Reg}
    (hknown : form.Known) (hleft : w.Has left) (hright : w.Has right) (hresult : w.Has result)
    (hleftSize : result.size.bytes ≤ left.size.bytes)
    (hrightSize : (form.countSize result.size).bytes ≤ right.size.bytes)
    (hwide : form.worksNarrow = true ∨ result.size ≠ .byte) :
    Segment abi w (form.code result.size left right result) := by
  have hmove : Segment abi w [move result.size left result] :=
    Segment.move hleft hresult hleftSize
  cases form with
  | plain op =>
    exact hmove.append (Segment.single (.operate hknown ⟨hright, hrightSize⟩ hresult)
      (by cases op <;> exact ⟨rfl, rfl⟩))
  | multiply =>
    exact hmove.append
      (Segment.single (.operate nofun ⟨hright, hrightSize⟩ hresult) ⟨rfl, rfl⟩)
  | divide part =>
    have hbyte : result.size ≠ .byte := by simpa [BinaryForm.worksNarrow] using hwide
    refine ⟨fun i hi => ?_, ?_⟩
    · simp only [BinaryForm.code, List.mem_cons, List.not_mem_nil, or_false] at hi
      rcases hi with rfl | rfl | rfl | rfl
      · exact .pass ⟨hleft, hleftSize⟩ (.inr (.inl rfl))
      · exact .signExtendAccumulator hbyte
      · exact .idiv hright hrightSize hbyte
      · rcases hknown with rfl | rfl
        · exact .receive (.inr (.inl rfl)) hresult
        · exact .receive (named_rdx habi) hresult
    · -- the accumulator is set first, then its upper half, and division sets both
      refine ⟨⟨nofun, nofun⟩, ⟨fun r s hr => ?_, nofun⟩, ⟨fun r s hr => ?_, nofun⟩,
        ⟨fun r s hr => ?_, nofun⟩, trivial⟩
      · obtain ⟨rfl, rfl⟩ : r = .rax ∧ s = result.size := by simpa [Instr.fixedReads] using hr
        exact ⟨result.size, rfl, Nat.le_refl _⟩
      · simp only [Instr.fixedReads, Operand.fixedReads, Operand.baseReads, List.mem_cons,
          Prod.mk.injEq, List.not_mem_nil, or_false] at hr
        rcases hr with ⟨rfl, rfl⟩ | ⟨rfl, rfl⟩ <;> exact ⟨result.size, rfl, Nat.le_refl _⟩
      · obtain ⟨rfl, rfl⟩ : r = part ∧ s = result.size := by
          simpa [Instr.mov, Instr.fixedReads, Operand.fixedReads, Operand.baseReads,
            AluOp.readsDestination] using hr
        rcases hknown with rfl | rfl <;> exact ⟨result.size, rfl, Nat.le_refl _⟩
  | shift op =>
    refine ⟨fun i hi => ?_, ?_⟩
    · simp only [BinaryForm.code, List.mem_cons, List.not_mem_nil, or_false] at hi
      rcases hi with rfl | rfl | rfl
      · exact .pass ⟨hright, hrightSize⟩ (named_rcx habi)
      · exact .move ⟨hleft, hleftSize⟩ hresult
      · exact .shift hresult
    · simp [BinaryForm.code, Selection.move, Admitted, Ready.Admits, Ready.after, Instr.mov,
        Instr.fixedReads, Instr.fixedWrite?, Instr.spoils, Instr.readsFlags,
        Operand.fixedReads, Operand.baseReads, AluOp.readsDestination, AluOp.writesDestination,
        Machine.valueScratch, Machine.addressScratch, Operand.isIndirect, Size.bytes]

/-- Narrow values are widened into a long. -/
theorem emits_widen {value wide : Reg} {type : Ty} (hlaid : Arranged scope locals st w)
    (hvalue : w.Has value) (h : Yields scope (widen value type) st (wide, code) after) :
    ∃ w', Emits scope.abi w st code w' after ∧ w'.Has wide ∧ 4 ≤ wide.size.bytes := by
  obtain ⟨hsize, rfl, rfl, rfl⟩ | ⟨-, rfl, rfl, rfl⟩ := yields_widen.1 h
  · exact ⟨w, .of_segment .nil hlaid.drawn rfl, hvalue, hsize⟩
  · have hwide := Supply.has_draw_of_eq hlaid.drawn .long
    refine ⟨w.draw .long, ⟨w.grows_draw .long, Supply.drawn_draw hlaid.drawn .long, rfl, ?_⟩,
      hwide, Nat.le_refl 4⟩
    exact Segment.single
      (.extend (p := ⟨st.drawn + 1, .long⟩) (hvalue.grow (w.grows_draw .long))
        (Nat.le_refl _) hwide)
      ⟨rfl, rfl⟩

/-- The sizes of the operands of an operator. -/
theorem operandSizes {op : BinaryOp} {a b : Ty} (h : Typing.binaryOperands op a b = true) :
    if op.isShift then b = .int else a = b := by
  unfold Typing.binaryOperands at h
  split at h
  · next hshift =>
    rw [Bool.and_eq_true, decide_eq_true_eq] at h
    rw [if_pos hshift]
    exact h.2
  · next hshift =>
    rw [if_neg hshift]
    split at h
    · rw [Bool.and_eq_true, decide_eq_true_eq] at h
      exact h.1
    · rw [Bool.and_eq_true, decide_eq_true_eq] at h
      exact h.1

theorem countSize_formOf (op : BinaryOp) (size : Size) :
    (formOf op).countSize size = if op.isShift then .long else size := by
  cases op <;> rfl

theorem emits_binaryCode (habi : scope.abi ∈ Abi.all) (hlaid : Arranged scope locals st w)
    {op : BinaryOp} {a b : Ty} {left right result : Register}
    (hleft : scope.types.get? left = some a) (hright : scope.types.get? right = some b)
    (hresult : scope.types.get? result = some a) (htyped : Typing.binaryOperands op a b = true)
    (h : Yields scope (binaryCode op a ⟨left.index, sizeOf a⟩ ⟨right.index, sizeOf b⟩
      ⟨result.index, sizeOf a⟩) st code after) :
    ∃ w', Emits scope.abi w st code w' after := by
  have hleft := hlaid.has_register hleft
  have hright := hlaid.has_register hright
  have hresult := hlaid.has_register hresult
  have hsizes := operandSizes htyped
  obtain ⟨hdirect, rfl, rfl⟩
      | ⟨-, hnarrow, first, before, mid, second, between, last, hfirst, hsecond,
    rfl, rfl⟩ := yields_binaryCode.1 h
  · -- the operator works at the size of its result
    refine ⟨w, .of_segment (segment_binaryForm habi
      (known_formOf op) hleft hright hresult (Nat.le_refl _) ?_ ?_) hlaid.drawn rfl⟩
    · rw [countSize_formOf]
      split at hsizes
      · next hshift =>
        subst hsizes
        exact Nat.le_of_eq (congrArg Size.bytes (if_pos hshift))
      · next hshift =>
        subst hsizes
        exact Nat.le_of_eq (congrArg Size.bytes (if_neg hshift))
    · refine hdirect.imp id fun hwide hbyte => ?_
      simp only at hwide hbyte
      rw [hbyte] at hwide
      exact absurd hwide (by decide)
  · -- the operator works on longs, of which the low part is taken
    obtain ⟨w₁, hemits₁, hleft₁, hleftWide⟩ := emits_widen hlaid hleft hfirst
    have hlaid₁ := hemits₁.arranged hlaid
    have hemits₂ : ∃ w₂, Emits scope.abi w₁ mid between w₂ last ∧ w₂.Has second
        ∧ 4 ≤ second.size.bytes := by
      obtain ⟨hshift, rfl, rfl, rfl⟩ | ⟨-, hsecond⟩ := hsecond
      · rw [if_pos hshift] at hsizes
        subst hsizes
        exact ⟨w₁, .of_segment .nil hlaid₁.drawn rfl, hright.grow hemits₁.grows, Nat.le_refl 4⟩
      · exact emits_widen hlaid₁ (hright.grow hemits₁.grows) hsecond
    obtain ⟨w₂, hemits₂, hright₂, hrightWide⟩ := hemits₂
    have hlaid₂ := hemits₂.arranged hlaid₁
    have hgrows := w₂.grows_draw .long
    have hwide := Supply.has_draw_of_eq hlaid₂.drawn .long
    have hform := segment_binaryForm habi (known_formOf op)
      (hleft₁.grow (hemits₂.grows.trans hgrows)) (hright₂.grow hgrows) hwide hleftWide
      (by rw [countSize_formOf]; split <;> exact hrightWide) (.inr (by rintro ⟨⟩))
    have hcut : Segment scope.abi (w₂.draw .long) [move (sizeOf a) ⟨last.drawn + 1, .long⟩
        ⟨result.index, sizeOf a⟩] :=
      Segment.move hwide (hresult.grow (hemits₁.grows.trans (hemits₂.grows.trans hgrows)))
        (Nat.le_of_lt (Nat.not_le.1 hnarrow))
    have hlast :
        Emits scope.abi w₂ last _ (w₂.draw .long) { last with drawn := last.drawn + 1 } :=
      ⟨hgrows, Supply.drawn_draw hlaid₂.drawn .long, rfl, hform.append hcut⟩
    have hall := (hemits₁.append hemits₂).append hlast
    rw [← List.append_assoc] at hall
    exact ⟨_, hall⟩

/-! ## Comparisons, unary operators and conversions -/

section Registers

variable (hlaid : Arranged scope locals st w)

include hlaid

theorem segment_compareCode {op : Comparison} {a b : Ty} {left right result : Register}
    (hleft : scope.types.get? left = some a) (hright : scope.types.get? right = some b)
    (hresult : scope.types.get? result = some .boolean)
    (htyped : Typing.comparable op a b = true) :
    Segment abi w (compareCode op a ⟨left.index, sizeOf a⟩ ⟨right.index, sizeOf b⟩
      ⟨result.index, sizeOf .boolean⟩) := by
  refine ⟨fun i hi => ?_, ⟨nofun, nofun⟩, ⟨nofun, fun _ => rfl⟩, trivial⟩
  simp only [compareCode, List.mem_cons, List.not_mem_nil, or_false] at hi
  rcases hi with rfl | rfl
  · exact .operate (p := ⟨left.index, sizeOf a⟩) nofun
      ⟨hlaid.has_register hright, Nat.le_of_eq (by rw [sizeOf_of_comparable htyped])⟩
      (hlaid.has_register hleft)
  · exact .setcc (hlaid.has_register hresult) rfl

theorem segment_unaryCode {op : UnaryOp} {t : Ty} {src result : Register}
    (hsrc : scope.types.get? src = some t) (hresult : scope.types.get? result = some t) :
    Segment abi w (unaryCode op ⟨src.index, sizeOf t⟩ ⟨result.index, sizeOf t⟩) := by
  have hresult := hlaid.has_register hresult
  refine Segment.append
    (Segment.move (hlaid.has_register hsrc) hresult (Nat.le_refl _)) ?_
  cases op with
  | negate => exact Segment.single (.neg hresult) ⟨rfl, rfl⟩
  | not =>
    have hfits : Instr.Fits abi w.Has (.alu .xor (sizeOf t) (.imm 1)
        (.pseudo ⟨result.index, sizeOf t⟩)) :=
      .operate (p := ⟨result.index, sizeOf t⟩) (by decide) trivial hresult
    exact Segment.single hfits ⟨rfl, rfl⟩
  | complement => exact Segment.single (.not hresult) ⟨rfl, rfl⟩

theorem segment_convertCode {source target : Ty} {src result : Register}
    (hsrc : scope.types.get? src = some source)
    (hresult : scope.types.get? result = some target) :
    Segment abi w
      (convertCode source ⟨src.index, sizeOf source⟩ ⟨result.index, sizeOf target⟩) := by
  have hsrc := hlaid.has_register hsrc
  have hresult := hlaid.has_register hresult
  unfold convertCode
  split
  · exact Segment.single (.extend hsrc (Nat.le_refl _) hresult) ⟨rfl, rfl⟩
  · next hsize => exact Segment.move hsrc hresult (Nat.not_lt.1 hsize)

/-! ## Merges -/

/-- The copies of merges fit: their destinations are no wider than their sources. -/
def CopiesFit (scope : Scope) : Prop :=
  ∀ c ∈ scope.copies, ∃ t u, scope.types.get? c.src = some t ∧ scope.types.get? c.dest = some u
    ∧ (sizeOf u).bytes ≤ (sizeOf t).bytes

/-- A move that is planned. -/
def Movable (w : Supply) (m : Reg × Reg) : Prop :=
  w.Has m.1 ∧ w.Has m.2 ∧ m.2.size.bytes ≤ m.1.size.bytes

/-- A move that passes through a pseudo-register of its own. -/
def Staged (w : Supply) (m : Reg × Reg × Reg) : Prop :=
  w.Has m.1 ∧ w.Has m.2.1 ∧ w.Has m.2.2 ∧ m.2.1.size = m.2.2.size ∧
    m.2.2.size.bytes ≤ m.1.size.bytes

omit hlaid in
theorem Staged.grow {w grown : Supply} {m : Reg × Reg × Reg} (h : Staged w m)
    (hg : w.Grows grown) :
    Staged grown m :=
  ⟨h.1.grow hg, h.2.1.grow hg, h.2.2.1.grow hg, h.2.2.2⟩

theorem movable_of_copies (hcopies : CopiesFit scope) {edge : Nat} {moves : List (Reg × Reg)}
    (h : (scope.copiesAt edge).mapM scope.move? = some moves) : ∀ m ∈ moves, Movable w m := by
  intro m hm
  obtain ⟨c, hc, hmove⟩ := (Pseudo.exists_of_mapM_eq_some h).2 m hm
  obtain ⟨t, u, ht, hu, rfl⟩ := Scope.move?_eq_some.1 hmove
  obtain ⟨t', u', ht', hu', hsize⟩ := hcopies c (List.mem_filter.1 hc).1
  rw [ht, Option.some.injEq] at ht'
  rw [hu, Option.some.injEq] at hu'
  subst ht' hu'
  exact ⟨hlaid.has_register ht, hlaid.has_register hu, hsize⟩

omit hlaid in
theorem staged_of_movable {moves : List (Reg × Reg)} {drawn : Nat} (hdrawn : w.drawn = drawn)
    (hmoves : ∀ m ∈ moves, Movable w m) :
    ∃ w', w.Grows w' ∧ w'.drawn = drawn + moves.length
    ∧ ∀ m ∈ stage drawn moves, Staged w' m := by
  induction moves generalizing drawn w with
  | nil => exact ⟨w, .refl w, hdrawn, List.forall_mem_nil _⟩
  | cons m moves ih =>
    have hgrows := w.grows_draw m.2.size
    obtain ⟨hsrc, hdest, hsize⟩ := hmoves m List.mem_cons_self
    have hhas : (w.draw m.2.size).Has ⟨drawn + 1, m.2.size⟩ := hdrawn ▸ w.has_draw m.2.size
    have hnext : (w.draw m.2.size).drawn = drawn + 1 := hdrawn ▸ rfl
    obtain ⟨w', hgrows', hdrawn', hstaged⟩ := ih hnext fun m hm => by
      obtain ⟨h₁, h₂, h₃⟩ := hmoves m (List.mem_cons_of_mem _ hm)
      exact ⟨h₁.grow hgrows, h₂.grow hgrows, h₃⟩
    refine ⟨w', hgrows.trans hgrows', by rw [hdrawn', List.length_cons]; omega,
      List.forall_mem_cons.2 ⟨?_, hstaged⟩⟩
    exact Staged.grow ⟨hsrc.grow hgrows, hhas, hdest.grow hgrows, rfl, hsize⟩ hgrows'

omit hlaid in
theorem emits_moveAll {moves : List (Reg × Reg)} (hdrawn : w.drawn = st.drawn)
    (hmoves : ∀ m ∈ moves, Movable w m) (h : Yields scope (moveAll moves) st code after) :
    ∃ w', Emits abi w st code w' after := by
  obtain ⟨src, dest, rfl, rfl, rfl⟩ | ⟨-, rfl, rfl⟩ := yields_moveAll.1 h
  · obtain ⟨hsrc, hdest, hsize⟩ := hmoves (src, dest) List.mem_cons_self
    exact ⟨w, .of_segment (Segment.move hsrc hdest hsize) hdrawn rfl⟩
  · obtain ⟨w', hgrows, hdrawn', hall⟩ := staged_of_movable hdrawn hmoves
    refine ⟨w', hgrows, hdrawn', rfl, Segment.of_quiet fun i hi => ?_⟩
    rcases List.mem_append.1 hi with hi | hi
    · obtain ⟨⟨src, held, dest⟩, hm, rfl⟩ := List.mem_map.1 hi
      obtain ⟨hsrc, hheld, -, hsame, hsize⟩ := hall _ hm
      simp only at hsame hsize ⊢
      rw [← hsame] at hsize ⊢
      exact ⟨.move ⟨hsrc, hsize⟩ hheld, rfl, rfl⟩
    · obtain ⟨⟨src, held, dest⟩, hm, rfl⟩ := List.mem_map.1 hi
      obtain ⟨-, hheld, hdest, hsame, -⟩ := hall _ hm
      exact ⟨.move ⟨hheld, Nat.le_of_eq (congrArg Size.bytes hsame.symm)⟩ hdest, rfl, rfl⟩

theorem emits_edgeCode (hcopies : CopiesFit scope) {edge : Nat}
    (h : Yields scope (edgeCode edge origin) st code after) :
    ∃ w', Emits abi w st code w' after := by
  obtain ⟨moves, hmoves, h⟩ := yields_edgeCode.1 h
  exact emits_moveAll hlaid.drawn (movable_of_copies hlaid hcopies hmoves) h

/-- A branch, whatever copies it makes. -/
theorem segment_branchCode {condition : Register} {expected : Bool} {target skip : String}
    {copies : List Instr} (hcondition : scope.types.get? condition = some .boolean)
    {w' : Supply} (hgrows : w.Grows w') (hcopies : Segment abi w' copies) :
    Segment abi w'
      (branchCode ⟨condition.index, sizeOf .boolean⟩ expected target skip copies) := by
  have htest : ∀ cond target, Segment abi w'
      [.alu .cmp .byte (.imm 0) (.pseudo ⟨condition.index, sizeOf .boolean⟩),
        .jcc cond target] := by
    intro cond target
    refine ⟨fun i hi => ?_, ⟨nofun, nofun⟩, ⟨nofun, fun _ => rfl⟩, trivial⟩
    simp only [List.mem_cons, List.not_mem_nil, or_false] at hi
    rcases hi with rfl | rfl
    · exact .operate (p := ⟨condition.index, sizeOf .boolean⟩) nofun trivial
        ((hlaid.has_register hcondition).grow hgrows)
    · exact .jcc
  have hend : Segment abi w' [.jmp target, .label skip] :=
    (Segment.single .jmp ⟨rfl, rfl⟩).append (Segment.single .label ⟨rfl, rfl⟩)
  unfold branchCode
  split
  next taken skipped _ =>
  split
  · exact htest taken target
  · exact ((htest skipped skip).append hcopies).append hend

end Registers

/-! ## Statements on values -/

section Values

variable {params : Table String Ty} {index : Nat} {src result : Register} {name : String}

/-- Code that draws no number. -/
theorem Arranged.emits (hlaid : Arranged scope locals st w) (h : Segment abi w code) :
    ∃ w', Emits abi w st code w' st :=
  ⟨w, .of_segment h hlaid.drawn rfl⟩

variable (hlaid : Arranged scope locals st w)

include hlaid

theorem emits_copy (hjudged : (Statement.copy src result).Judged scope.types locals params)
    (h : Yields scope (statementCode index (.copy src result) origin) st code after) :
    ∃ w', Emits abi w st code w' after := by
  obtain ⟨t, hsrc, hresult⟩ := hjudged
  obtain ⟨rfl, rfl⟩ := h.unique (Gives.copy hsrc hresult).yields
  have hsrc := hlaid.has_register hsrc
  have hresult := hlaid.has_register hresult
  exact hlaid.emits (Segment.move hsrc hresult (Nat.le_refl _))

theorem emits_literal {type : Ty} {value : String}
    (hjudged : (Statement.literal type value result).Judged scope.types locals params)
    (h : Yields scope (statementCode index (.literal type value result) origin) st
      code after) :
    ∃ w', Emits abi w st code w' after := by
  obtain ⟨hresult, bits, hbits⟩ := hjudged
  obtain ⟨rfl, rfl⟩ := h.unique (Gives.literal hbits hresult).yields
  have hfits : Instr.Fits abi w.Has
      (.mov (sizeOf type) (.imm bits) (.pseudo ⟨result.index, sizeOf type⟩)) :=
    .move (p := ⟨result.index, sizeOf type⟩) trivial (hlaid.has_register hresult)
  exact hlaid.emits (Segment.single hfits ⟨rfl, rfl⟩)

theorem emits_string (habi : scope.abi ∈ Abi.all) {value : String}
    (h : Yields scope (statementCode index (.string value result) origin) st code after) :
    ∃ w', Emits scope.abi w st code w' after := by
  cases gives_of_yields h with
  | string ht htext hcode =>
    obtain ⟨⟨label, rfl⟩, strings, rfl⟩ := yields_constant htext
    have hinterned : Arranged scope locals { st with strings := strings } w :=
      hlaid.grow (.refl w) hlaid.drawn rfl
    have hemits := emits_service habi hinterned hcode (by simp [Native.Argument.Known])
      (by rintro p ⟨⟩; exact hlaid.has_register ht)
    exact ⟨w, hemits.grows, hemits.drawn, hemits.locals, hemits.segment⟩

theorem emits_getLocal
    (hjudged : (Statement.getLocal name result).Judged scope.types locals params)
    (h : Yields scope (statementCode index (.getLocal name result) origin) st code after) :
    ∃ w', Emits abi w st code w' after := by
  obtain ⟨t, hlocal, hresult⟩ := hjudged
  obtain ⟨p, hp, hsize⟩ := hlaid.located (.localVariable name) hlocal
  have hsize : p.size = sizeOf t := hsize (by simp)
  obtain ⟨rfl, rfl⟩ := h.unique (Gives.getLocal hp hresult).yields
  have hresult := hlaid.has_register hresult
  exact hlaid.emits (Segment.move (hlaid.has _ hp) hresult (Nat.le_of_eq (by rw [hsize])))

theorem emits_putLocal
    (hjudged : (Statement.putLocal name src).Judged scope.types locals params)
    (h : Yields scope (statementCode index (.putLocal name src) origin) st code after) :
    ∃ w', Emits abi w st code w' after := by
  obtain ⟨t, declared, hsrc, hlocal, hstores⟩ := hjudged
  obtain ⟨p, hp, hsize⟩ := hlaid.located (.localVariable name) hlocal
  have hsize : p.size = sizeOf declared := hsize (by simp)
  obtain ⟨rfl, rfl⟩ := h.unique (Gives.putLocal hp hsrc).yields
  have hbytes := bytes_le_of_stores (hstores.imp id And.right)
  rw [← hsize] at hbytes
  exact hlaid.emits (Segment.move (hlaid.has_register hsrc) (hlaid.has _ hp) hbytes)

theorem emits_compare {op : Comparison} {left right : Register}
    (hjudged : (Statement.compare op left right result).Judged scope.types locals params)
    (h : Yields scope (statementCode index (.compare op left right result) origin) st
      code after) :
    ∃ w', Emits abi w st code w' after := by
  obtain ⟨a, b, hleft, hright, htyped, hresult⟩ := hjudged
  cases gives_of_yields h with
  | compare hleft' hright' hresult' =>
    obtain rfl := Option.some.inj (hleft'.symm.trans hleft)
    obtain rfl := Option.some.inj (hright'.symm.trans hright)
    obtain rfl := Option.some.inj (hresult'.symm.trans hresult)
    exact hlaid.emits (segment_compareCode hlaid hleft hright hresult htyped)

theorem emits_binary (habi : scope.abi ∈ Abi.all) {op : BinaryOp} {left right : Register}
    (hjudged : (Statement.binary op left right result).Judged scope.types locals params)
    (h : Yields scope (statementCode index (.binary op left right result) origin) st
      code after) :
    ∃ w', Emits scope.abi w st code w' after := by
  obtain ⟨a, b, hleft, hright, htyped, hresult, -⟩ := hjudged
  cases gives_of_yields h with
  | binary hleft' hright' hresult' _ hcode =>
    obtain rfl := Option.some.inj (hleft'.symm.trans hleft)
    obtain rfl := Option.some.inj (hright'.symm.trans hright)
    obtain rfl := Option.some.inj (hresult'.symm.trans hresult)
    exact emits_binaryCode habi hlaid hleft hright hresult htyped hcode

theorem emits_unary {op : UnaryOp}
    (hjudged : (Statement.unary op src result).Judged scope.types locals params)
    (h : Yields scope (statementCode index (.unary op src result) origin) st code after) :
    ∃ w', Emits abi w st code w' after := by
  obtain ⟨t, hsrc, -, hresult⟩ := hjudged
  cases gives_of_yields h with
  | unary hsrc' hresult' =>
    obtain rfl := Option.some.inj (hsrc'.symm.trans hsrc)
    obtain rfl := Option.some.inj (hresult'.symm.trans hresult)
    exact hlaid.emits (segment_unaryCode hlaid hsrc hresult)

theorem emits_convert {target : Ty}
    (hjudged : (Statement.convert src target result).Judged scope.types locals params)
    (h : Yields scope (statementCode index (.convert src target result) origin) st
      code after) :
    ∃ w', Emits abi w st code w' after := by
  obtain ⟨t, hsrc, -, -, hresult⟩ := hjudged
  cases gives_of_yields h with
  | convert hsrc' hresult' =>
    obtain rfl := Option.some.inj (hsrc'.symm.trans hsrc)
    obtain rfl := Option.some.inj (hresult'.symm.trans hresult)
    exact hlaid.emits (segment_convertCode hlaid hsrc hresult)

end Values

/-! ## Jumps and returns -/

section Jumps

variable {params : Table String Ty} {index : Nat} {target : Label}
  (hlaid : Arranged scope locals st w)

include hlaid

theorem emits_branch (hcopies : CopiesFit scope) {condition : Register} {expected : Bool}
    (hjudged : (Statement.branch condition expected target).Judged scope.types locals params)
    (h : Yields scope (statementCode index (.branch condition expected target) origin) st code
      after) :
    ∃ w', Emits abi w st code w' after := by
  cases gives_of_yields h with
  | branch ht hcopied =>
    obtain rfl := Option.some.inj (ht.symm.trans hjudged)
    obtain ⟨w', hemits⟩ := emits_edgeCode hlaid hcopies hcopied
    exact ⟨w', hemits.grows, hemits.drawn, hemits.locals,
      segment_branchCode hlaid hjudged hemits.grows hemits.segment⟩

theorem emits_jump (hcopies : CopiesFit scope)
    (h : Yields scope (statementCode index (.jump target) origin) st code after) :
    ∃ w', Emits abi w st code w' after := by
  cases gives_of_yields h with
  | jump hcopied =>
    obtain ⟨w', hemits⟩ := emits_edgeCode hlaid hcopies hcopied
    refine ⟨w', hemits.append ?_⟩
    exact .of_segment (Segment.single .jmp ⟨rfl, rfl⟩) hemits.drawn rfl

theorem emits_label (hcopies : CopiesFit scope)
    (h : Yields scope (statementCode index (.label target) origin) st code after) :
    ∃ w', Emits abi w st code w' after := by
  cases gives_of_yields h with
  | label hcopied =>
    obtain ⟨w', hemits⟩ := emits_edgeCode hlaid hcopies hcopied
    refine ⟨w', hemits.append ?_⟩
    exact .of_segment (Segment.single .label ⟨rfl, rfl⟩) hemits.drawn rfl

theorem emits_returnValue {src : Register}
    (h : Yields scope (statementCode index (.returnValue src) origin) st code after) :
    ∃ w', Emits scope.abi w st code w' after := by
  cases gives_of_yields h with
  | @returnValue _ t ht =>
    have hload : Segment scope.abi w
        [.mov (sizeOf t) (.pseudo ⟨src.index, sizeOf t⟩) (.fixed scope.abi.returnRegister)] :=
      Segment.single (.pass ⟨hlaid.has_register ht, Nat.le_refl _⟩ (.inr (.inl rfl))) ⟨rfl,
        rfl⟩
    exact hlaid.emits (hload.append (Segment.single .jmp ⟨rfl, rfl⟩))

end Jumps

/-! ## Statements -/

/-- How far selecting has come: more may have been drawn, the places are arranged for the local
variables in scope, and the code writes where streams do. It keeps the discipline when the
receiver has the size of its type. -/
structure Advances (scope : Scope) (locals : Table String Ty) (w : Supply) (after : State)
    (code : List Instr) (grown : Supply) : Prop where
  grows : w.Grows grown
  arranged : Arranged scope locals after grown
  confined : ∀ i ∈ code, i.Confined scope.abi grown.Has
  segment : ReceiverFits scope → Segment scope.abi grown code

/-- No code. -/
theorem Advances.nil {grown : Supply} (hgrows : w.Grows grown)
    (harranged : Arranged scope locals after grown) : Advances scope locals w after [] grown :=
  ⟨hgrows, harranged, fun _ hi => absurd hi List.not_mem_nil, fun _ => .nil⟩

theorem Emits.advances {grown : Supply} (h : Emits scope.abi w st code grown after)
    (habi : scope.abi ∈ Abi.all) (hlaid : Arranged scope locals st w) :
    Advances scope locals w after code grown :=
  ⟨h.grows, h.arranged hlaid, fun i hi => (h.segment.fits i hi).confined habi,
    fun _ => h.segment⟩

/-- A parameter has the size of its type, the receiver when that fits. -/
theorem advances_getParam (hlaid : Arranged scope locals st w) {index : Nat} {name : String}
    {result : Register}
    (hjudged : (Statement.getParam name result).Judged scope.types locals
      (scope.function.paramTable scope.unit.name))
    (h : Yields scope (statementCode index (.getParam name result) origin) st code after) :
    Advances scope locals w after code w := by
  obtain ⟨t, hparam, hresult⟩ := hjudged
  obtain ⟨p, hp, hsize⟩ := hlaid.located (.parameter name) hparam
  obtain ⟨rfl, rfl⟩ := h.unique (Gives.getParam hp hresult).yields
  have hdest := hlaid.has_register hresult
  refine ⟨.refl w, hlaid, fun i hi => ?_, fun hreceiver => ?_⟩
  · rw [List.mem_singleton] at hi
    subst hi
    exact Instr.confined_move (p := ⟨result.index, sizeOf t⟩) (hlaid.has _ hp) hdest
  · have hsize : p.size = sizeOf t := by
      by_cases hname : name = "this"
      · subst hname
        exact hreceiver t p hparam hp
      · exact hsize (by simpa using hname)
    exact Segment.move (hlaid.has _ hp) hdest (Nat.le_of_eq (by rw [hsize]))

/-- Statements that are no ends of scopes emit code and leave the local
variables as they are. -/
theorem advances_of_emits (habi : scope.abi ∈ Abi.all) (hlaid : Arranged scope locals st w)
    {s : Statement} (hlocals : s.scopeAfter locals = locals)
    (h : ∃ grown, Emits scope.abi w st code grown after) :
    ∃ grown, Advances scope (s.scopeAfter locals) w after code grown := by
  obtain ⟨grown, hemits⟩ := h
  rw [hlocals]
  exact ⟨grown, hemits.advances habi hlaid⟩

/-- The code of a statement that has been judged. -/
theorem advances_statementCode (habi : scope.abi ∈ Abi.all) (hcopies : CopiesFit scope)
    (hlaid : Arranged scope locals st w) {index : Nat} {s : Statement}
    (hjudged : s.Judged scope.types locals (scope.function.paramTable scope.unit.name))
    (h : Yields scope (statementCode index s origin) st code after) :
    ∃ w', Advances scope (s.scopeAfter locals) w after code w' := by
  have hsame : s.scopeAfter locals = locals → (∃ w', Emits scope.abi w st code w' after) →
      ∃ w', Advances scope (s.scopeAfter locals) w after code w' :=
      advances_of_emits habi hlaid
  cases s with
  | copy src dest => exact hsame rfl (emits_copy hlaid hjudged h)
  | choose first second result =>
    cases gives_of_yields h
    exact hsame rfl (hlaid.emits .nil)
  | literal type value result => exact hsame rfl (emits_literal hlaid hjudged h)
  | string value result => exact hsame rfl (emits_string hlaid habi h)
  | getLocal name result => exact hsame rfl (emits_getLocal hlaid hjudged h)
  | putLocal name src => exact hsame rfl (emits_putLocal hlaid hjudged h)
  | getParam name result => exact ⟨w, advances_getParam hlaid hjudged h⟩
  | getStatic owner field result =>
    exact hsame rfl (emits_getStatic habi hlaid (by rintro ⟨⟩) h)
  | getStaticAddress owner field result =>
    exact hsame rfl (emits_getStatic habi hlaid (fun _ => hjudged) h)
  | putStatic owner field src => exact hsame rfl (emits_putStatic habi hlaid h)
  | getField object field result =>
    exact hsame rfl (emits_getField habi hlaid (by rintro ⟨⟩) h)
  | getFieldAddress object field result =>
    exact hsame rfl (emits_getField habi hlaid (fun _ => hjudged) h)
  | putField object field src => exact hsame rfl (emits_putField habi hlaid h)
  | compare op left right result => exact hsame rfl (emits_compare hlaid hjudged h)
  | binary op left right result => exact hsame rfl (emits_binary hlaid habi hjudged h)
  | unary op src result => exact hsame rfl (emits_unary hlaid hjudged h)
  | convert src target result => exact hsame rfl (emits_convert hlaid hjudged h)
  | branch condition expected target => exact hsame rfl (emits_branch hlaid hcopies hjudged h)
  | jump target => exact hsame rfl (emits_jump hlaid hcopies h)
  | label name => exact hsame rfl (emits_label hlaid hcopies h)
  | callActual object owner method args result =>
    exact hsame rfl (emits_callActual habi hlaid h)
  | callVirtual object method args result => exact hsame rfl (emits_callVirtual habi hlaid h)
  | returnValue src => exact hsame rfl (emits_returnValue hlaid h)
  | returnVoid =>
    cases gives_of_yields h
    exact hsame rfl (hlaid.emits (Segment.single .jmp ⟨rfl, rfl⟩))
  | startScope name type =>
    cases gives_of_yields h
    exact ⟨_, .nil (w.grows_draw _) (hlaid.openScope name type)⟩
  | endScope name =>
    cases gives_of_yields h
    exact ⟨w, .nil (.refl w) (hlaid.closeScope name)⟩

/-! ## Bodies -/

/-- The code of statements that have been judged. -/
theorem advances_bodyCode (habi : scope.abi ∈ Abi.all) (hcopies : CopiesFit scope)
    (hlaid : Arranged scope locals st w) {index : Nat} {l : List Located}
    (hjudged : ∀ pre s post, l = pre ++ s :: post → s.statement.Judged scope.types
      (openLocals locals pre) (scope.function.paramTable scope.unit.name))
    (h : Yields scope (bodyCode index l) st code after) :
    ∃ w', Advances scope (openLocals locals l) w after code w' := by
  induction l generalizing locals st w index code with
  | nil =>
    obtain ⟨rfl, rfl⟩ := yields_pure.1 h
    exact ⟨w, .nil (.refl w) hlaid⟩
  | cons s l ih =>
    obtain ⟨first, mid, rest, hfirst, hrest, rfl⟩ := yields_bodyCode_cons.1 h
    obtain ⟨w', hadvances⟩ :=
      advances_statementCode habi hcopies hlaid (hjudged [] s l rfl) hfirst
    obtain ⟨w'', hadvances'⟩ := ih hadvances.arranged
      (fun pre s' post heq => hjudged (s :: pre) s' post (by rw [heq]; rfl)) hrest
    refine ⟨w'', hadvances.grows.trans hadvances'.grows, hadvances'.arranged, fun i hi => ?_,
      fun hreceiver => ((hadvances.segment hreceiver).grow hadvances'.grows).append
        (hadvances'.segment hreceiver)⟩
    rcases List.mem_append.1 hi with hi | hi
    · exact (hadvances.confined i hi).mono fun _ hp => hp.grow hadvances'.grows
    · exact hadvances'.confined i hi

/-- What has been selected when the receiver has the size of its type. -/
structure Selected (scope : Scope) (locals : Table String Ty) (w : Supply) (after : State)
    (code : List Instr) (grown : Supply) : Prop where
  grows : w.Grows grown
  laid : Laid scope locals after grown
  segment : Segment scope.abi grown code

theorem selected_bodyCode (habi : scope.abi ∈ Abi.all) (hcopies : CopiesFit scope)
    (hlaid : Laid scope locals st w) {index : Nat} {l : List Located}
    (hjudged : ∀ pre s post, l = pre ++ s :: post → s.statement.Judged scope.types
      (openLocals locals pre) (scope.function.paramTable scope.unit.name))
    (h : Yields scope (bodyCode index l) st code after) :
    ∃ w', Selected scope (openLocals locals l) w after code w' := by
  obtain ⟨w', hadvances⟩ := advances_bodyCode habi hcopies hlaid.toArranged hjudged h
  exact ⟨w', hadvances.grows, ⟨hadvances.arranged, hlaid.receiver⟩,
    hadvances.segment hlaid.receiver⟩

/-- A copy of a merge moves one of its operands into its result. -/
theorem mem_copiesOf {body : List Statement} {index : Nat} {first second result : Register}
    {copies : List MergeCopy} (h : copiesOf body index first second result origin = .ok copies)
    {c : MergeCopy} (hc : c ∈ copies) :
    (c.src = first ∨ c.src = second) ∧ c.dest = result := by
  unfold copiesOf at h
  split at h
  · cases h
  · simp only at h
    split at h
    · cases h
    · split at h
      · cases h
      · cases h
        obtain ⟨⟨edge, side⟩, -, rfl⟩ := List.mem_map.1 hc
        refine ⟨?_, rfl⟩
        simp only
        split
        · exact .inl rfl
        · exact .inr rfl

/-- The copies of the merges of a function that passed its check. -/
theorem copies_of_mergeCopies {f : Function} {types : Table Register Ty} {owner : String}
    (ht : f.Typed owner types) {copies : List MergeCopy} (h : mergeCopies f = .ok copies)
    {c : MergeCopy} (hc : c ∈ copies) :
    ∃ t u, types.get? c.src = some t ∧ types.get? c.dest = some u ∧
      (sizeOf u).bytes ≤ (sizeOf t).bytes := by
  unfold mergeCopies at h
  obtain ⟨lists, hlists, h⟩ := bind_eq_ok.1 h
  cases h
  obtain ⟨list, hlist, hc⟩ := List.mem_flatten.1 hc
  obtain ⟨hlength, hget⟩ := Pseudo.getElem?_of_mapM_eq_ok hlists
  obtain ⟨n, hn⟩ := List.getElem?_of_mem hlist
  have hlt : n < f.body.length := by
    have := (List.getElem?_eq_some_iff.1 hn).1
    rw [hlength, List.length_zipIdx] at this
    exact this
  obtain ⟨list', hlist', hs⟩ := hget n (f.body[n], n) (by simp [hlt])
  rw [hn, Option.some.injEq] at hlist'
  subst hlist'
  have hbody : f.body = f.body.take n ++ f.body[n] :: f.body.drop (n + 1) := by
    rw [List.getElem_cons_drop, List.take_append_drop]
  have hjudged := ht.judged _ _ _ hbody
  simp only at hs
  split at hs
  · next first second result hchoose =>
    rw [hchoose] at hjudged
    obtain ⟨a, b, t, ha, hb, hresult, hfirst, hsecond⟩ := hjudged
    obtain ⟨hsrc, hdest⟩ := mem_copiesOf hs hc
    rw [hdest]
    rcases hsrc with hsrc | hsrc <;> rw [hsrc]
    · exact ⟨a, t, ha, hresult, bytes_le_of_stores hfirst⟩
    · exact ⟨b, t, hb, hresult, bytes_le_of_stores hsecond⟩
  · cases hs
    exact absurd hc List.not_mem_nil

/-! ## Functions -/

/-- Receiving arguments reads them, and leaves the others ready. -/
theorem admitted_of_receives {ready : Ready}
    (hready : ∀ r ∈ abi.arguments, ready.regs r = some .quad)
    (h : ∀ i ∈ code, Receives abi w i) : Admitted abi ready code := by
  induction code generalizing ready with
  | nil => trivial
  | cons i code ih =>
    obtain ⟨r, p, hr, -, rfl⟩ := h i List.mem_cons_self
    refine ⟨⟨fun r' s hr' => ?_, nofun⟩, ih (fun r' hr' => ?_)
      fun i hi => h i (List.mem_cons_of_mem _ hi)⟩
    · obtain ⟨rfl, rfl⟩ : r' = r ∧ s = p.size := by
        simpa [Instr.mov, Instr.fixedReads, Operand.fixedReads, Operand.baseReads,
          AluOp.readsDestination] using hr'
      exact ⟨.quad, hready r' hr, p.size.bytes_le⟩
    · rw [← hready r' hr']
      simp [Ready.after, Instr.mov, Instr.fixedWrite?, Instr.spoils, Operand.isFixed,
        Operand.isIndirect]

section

variable {u : ClassUnit} {position : Nat} {f : Function} {types : Table Register Ty}
  {entry : Entry}

/-- The scope of a function that passed its check. -/
theorem copiesFit_of_scopeOf (ht : f.Typed u.name types)
    (h : scopeOf u abi position f = .ok (scope, entry)) : CopiesFit scope := by
  obtain ⟨copies, hcopies, rfl, -⟩ := scopeOf_eq_ok ht.recorded h
  exact fun c hc => copies_of_mergeCopies ht hcopies hc

/-- The stream of a function that passed its check writes where streams do. -/
theorem confined_of_ofFunction (habi : abi ∈ Abi.all) (hf : Checked u position f)
    {strings interned : Assembly.StringTable} {p : Pseudo.Function}
    (h : ofFunction u abi position f strings = (.ok p, interned)) :
    ∃ size : Nat → Size, ∀ i ∈ p.code, i.Confined abi fun q => size q.id = q.size := by
  obtain ⟨types, ht⟩ := hf.typed
  obtain ⟨scope, entry, body, state, hscope, hbody, rfl, rfl⟩ := ofFunction_eq_ok h
  obtain ⟨w, hsound, harranged, -⟩ := arranged_start ht hscope strings
  have hcopies := copiesFit_of_scopeOf ht hscope
  obtain ⟨copies, -, rfl, -⟩ := scopeOf_eq_ok ht.recorded hscope
  obtain ⟨w', hadvances⟩ := advances_bodyCode habi hcopies harranged
    (fun pre s post heq => ht.judged pre s post heq) hbody
  have hhas : ∀ p, w'.Has p → w'.size p.id = p.size := fun p hp => hp.2
  refine ⟨w'.size, fun i hi => ?_⟩
  rcases List.mem_append.1 hi with hi | hi
  · rcases List.mem_append.1 hi with hi | hi
    · obtain ⟨r, q, hr, hq, rfl⟩ := hsound.receives i hi
      exact (Instr.Fits.receive (.inl hr) (hhas q (hq.grow hadvances.grows))).confined habi
    · exact (hadvances.confined i hi).mono hhas
  · rw [List.mem_singleton] at hi
    subst hi
    exact Instr.Fits.label.confined habi

/-- The stream of a function that passed its check keeps the discipline. -/
theorem orderly_of_ofFunction (habi : abi ∈ Abi.all) (hf : Checked u position f)
    (hthis : KeepsReceiver f) {strings interned : Assembly.StringTable} {p : Pseudo.Function}
    (h : ofFunction u abi position f strings = (.ok p, interned)) :
    ∃ size, Pseudo.Orderly abi p.code size := by
  obtain ⟨types, ht⟩ := hf.typed
  obtain ⟨scope, entry, body, state, hscope, hbody, rfl, rfl⟩ := ofFunction_eq_ok h
  obtain ⟨w, hsound, hlaid⟩ := laid_start ht hthis hscope strings
  have hcopies := copiesFit_of_scopeOf ht hscope
  obtain ⟨copies, -, rfl, -⟩ := scopeOf_eq_ok ht.recorded hscope
  obtain ⟨w', hselected⟩ :=
    selected_bodyCode habi hcopies hlaid (fun pre s post heq => ht.judged pre s post heq) hbody
  have hhas : ∀ p, w'.Has p → w'.size p.id = p.size := fun p hp => hp.2
  refine ⟨w'.size, fun i hi => ?_, ?_, fun i hi id huse => ?_⟩
  · rcases List.mem_append.1 hi with hi | hi
    · rcases List.mem_append.1 hi with hi | hi
      · obtain ⟨r, q, hr, hq, rfl⟩ := hsound.receives i hi
        exact .receive (.inl hr) (hhas q (hq.grow hselected.grows))
      · exact (hselected.segment.fits i hi).mono hhas
    · rw [List.mem_singleton] at hi
      subst hi
      exact .label
  · have hentry : Admitted abi (.arguments abi) entry.code :=
      admitted_of_receives (fun r hr => if_pos hr) hsound.receives
    exact (hentry.append hselected.segment.admitted).append ⟨⟨nofun, nofun⟩, trivial⟩
  · obtain ⟨first, rest, hcode⟩ := List.exists_cons_of_ne_nil hsound.begun
    obtain ⟨r, q, -, -, hfirst⟩ :=
      hsound.receives first (by rw [hcode]; exact List.mem_cons_self)
    rw [hcode, List.cons_append, List.cons_append, List.getElem?_cons_zero, Option.some.injEq]
      at hi
    subst hi
    subst hfirst
    obtain ⟨q', hq', -⟩ := huse
    simp [Instr.mov, Instr.effects, Operand.readEffects, Operand.writeEffects,
      AluOp.readsDestination, AluOp.writesDestination] at hq'

end

end Jil.Selection
