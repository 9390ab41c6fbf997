/-
Jil.Proofs.Computing — what the code of operators computes.

`Computes` says that running code puts a value into a pseudo-register and keeps
the others, `Puts` the same about the number of a type. The code of operators
comes in two shapes: on values of the result's size, and on values that are
widened first. `computes_form` is what both do, and `Numbers` says why both
agree with the operators on promoted numbers.
-/
import Jil.Proofs.Numbers
import Jil.Proofs.Places
import Jil.Proofs.StreamExecution
import Jil.Proofs.ValueCode

namespace Jil.Pseudo

open Jil.Machine (AluOp Runtime ShiftOp Size Value Word)

/-! ## Running code on values -/

/-- A run that changes one of the first `drawn` pseudo-registers only. -/
structure Keeps (drawn dest : Nat) (st after : State) : Prop where
  pseudo : ∀ id, id ≤ drawn → id ≠ dest → after.pseudo id = st.pseudo id
  memory : after.memory = st.memory
  calls : after.calls = st.calls

namespace Keeps

variable {drawn dest id : Nat} {st mid after : State}

theorem trans (h : Keeps drawn dest st mid) (h' : Keeps drawn dest mid after) :
    Keeps drawn dest st after where
  pseudo id hid hne := (h'.pseudo id hid hne).trans (h.pseudo id hid hne)
  memory := h'.memory.trans h.memory
  calls := h'.calls.trans h.calls

/-- Writing the destination, or a pseudo-register that was drawn later. -/
theorem setPseudo {s : Size} (v : Value s) (hid : id = dest ∨ drawn < id) :
    Keeps drawn dest st (st.setPseudo s id v) where
  pseudo x hx hne := by
    refine st.pseudo_setPseudo_of_ne v ?_
    rcases hid with rfl | hid
    · exact hne
    · omega
  memory := rfl
  calls := rfl

/-- Hardware registers and flags are no pseudo-registers. -/
theorem onMachine {f : Machine.State → Machine.State} (hmemory : ∀ m, (f m).memory = m.memory)
    (hcalls : ∀ m, (f m).calls = m.calls) : Keeps drawn dest st (st.onMachine f) where
  pseudo _ _ _ := rfl
  memory := hmemory _
  calls := hcalls _

/-- Pseudo-registers drawn later are none of the first. -/
theorem ofDrawn {x : Nat} (h : Keeps drawn x st after) (hx : drawn < x) :
    Keeps drawn dest st after where
  pseudo id hid _ := h.pseudo id hid (by omega)
  memory := h.memory
  calls := h.calls

end Keeps

/-- Running code puts a value into a pseudo-register, and leaves the others alone. -/
def Computes (rt : Runtime) (st : State) (code : List Instr) (drawn dest : Nat) {s : Size}
    (v : Value s) : Prop :=
  ∃ after, Instr.execAll rt st code = .ok after ∧ after.value s dest = v
    ∧ Keeps drawn dest st after

section

variable {rt : Runtime} {st mid after : State} {code rest : List Instr} {drawn dest : Nat}
  {s : Size}

theorem execAll_append_of_ok (h : Instr.execAll rt st code = .ok mid) :
    Instr.execAll rt st (code ++ rest) = Instr.execAll rt mid rest := by
  rw [Instr.execAll_append, h]

/-- A move. -/
theorem computes_move (size : Size) (src : Reg) {p : Reg} :
    Computes rt st [Selection.move size src p] drawn p.id (st.value size src.id) :=
  ⟨_, rfl, st.value_setPseudo _, .setPseudo _ (.inl rfl)⟩

/-- Code behind code that keeps all but the destination. -/
theorem Computes.behind {v : Value s} (hrun : Instr.execAll rt st code = .ok mid)
    (hkeeps : Keeps drawn dest st mid) (h : Computes rt mid rest drawn dest v) :
    Computes rt st (code ++ rest) drawn dest v := by
  obtain ⟨after, hrest, hvalue, hkeeps'⟩ := h
  exact ⟨after, (execAll_append_of_ok hrun).trans hrest, hvalue, hkeeps.trans hkeeps'⟩

/-- The low part of what was computed into a pseudo-register drawn later. -/
theorem Computes.cut {wide dest : Reg} {v : Value s} (h : Computes rt st code drawn wide.id v)
    (hwide : drawn < wide.id) {size : Size} (hsize : size.bits ≤ s.bits) :
    Computes rt st (code ++ [Selection.move size wide dest]) drawn dest.id
      (v.setWidth size.bits) := by
  obtain ⟨mid, hrun, hvalue, hkeeps⟩ := h
  have hmove : Computes rt mid [Selection.move size wide dest] drawn dest.id
      (mid.value size wide.id) := computes_move size wide
  rw [← mid.setWidth_value hsize, hvalue] at hmove
  exact hmove.behind hrun (hkeeps.ofDrawn hwide)

theorem exec_alu {op : AluOp} (hop : op.writesDestination = true) (src : Operand) (p : Reg) :
    (Instr.alu op s src (.pseudo p)).exec rt st
      = .ok ((st.setPseudo s p.id (op.value (st.read rt s src) (st.value s p.id))).setFlags
          (op.flags (st.read rt s src) (st.value s p.id) st.flags)) := by
  simp only [Instr.exec, hop, if_true]
  rfl

/-- An operation on its destination. -/
theorem computes_alu {op : AluOp} (hop : op.writesDestination = true) (src : Operand)
    (p : Reg) :
    Computes rt st [.alu op s src (.pseudo p)] drawn p.id
      (op.value (st.read rt s src) (st.value s p.id)) := by
  let written : State := st.setPseudo s p.id (op.value (st.read rt s src) (st.value s p.id))
  have hrun : Instr.execAll rt st [.alu op s src (.pseudo p)]
      = .ok (written.setFlags (op.flags (st.read rt s src) (st.value s p.id) st.flags)) := by
    rw [Instr.execAll, exec_alu hop]
    rfl
  have hwritten : Keeps drawn p.id st written := .setPseudo _ (.inl rfl)
  exact ⟨_, hrun, st.value_setPseudo _,
    hwritten.trans (.onMachine (fun _ => rfl) fun _ => rfl)⟩

/-- An operation of two operands, behind the move of its left operand. -/
theorem computes_operate {op : AluOp} (hop : op.writesDestination = true)
    {left right result : Reg} (hne : right.id ≠ result.id) :
    Computes rt st
      [Selection.move s left result, .alu op s (.pseudo right) (.pseudo result)]
        drawn result.id
      (op.value (st.value s right.id) (st.value s left.id)) := by
  have hrun : Instr.execAll rt st [Selection.move s left result]
      = .ok (st.setPseudo s result.id (st.value s left.id)) := rfl
  have h : Computes rt (st.setPseudo s result.id (st.value s left.id))
      [.alu op s (.pseudo right) (.pseudo result)] drawn result.id _ :=
    computes_alu hop (.pseudo right) result
  rw [State.value_setPseudo, show State.read _ rt s (.pseudo right)
    = State.value _ s right.id from rfl, State.value_setPseudo_of_ne _ _ hne] at h
  exact Computes.behind hrun (.setPseudo _ (.inl rfl)) h

/-- A shift of the left operand by the low byte of the right one. -/
theorem computes_shift (op : ShiftOp) (left right result : Reg) :
    Computes rt st
      [.mov .long (.pseudo right) (.fixed .rcx), Selection.move s left result,
        .shift op s (.pseudo result)] drawn result.id
      (op.value (st.value .byte right.id) (st.value s left.id)) := by
  let counted : State := st.onMachine (·.setReg .long .rcx (st.value .long right.id))
  let moved : State := counted.setPseudo s result.id (st.value s left.id)
  have hcount : moved.reg .byte .rcx = st.value .byte right.id :=
    (Machine.State.reg_setReg st.toState (by decide) _ _).trans (st.setWidth_value (by decide))
  refine ⟨(moved.setPseudo s result.id (op.value (moved.reg .byte .rcx)
    (moved.value s result.id))).setFlags none, rfl, ?_, ?_⟩
  · rw [hcount, State.value_setPseudo]
    exact State.value_setPseudo moved _
  · have hcounted : Keeps drawn result.id st counted := .onMachine (fun _ => rfl) fun _ => rfl
    exact ((hcounted.trans (.setPseudo _ (.inl rfl))).trans (.setPseudo _ (.inl rfl))).trans
      (.onMachine (fun _ => rfl) fun _ => rfl)

/-- A division of operands that have a quotient. -/
theorem computes_divide {part : Machine.Reg} {left right result : Reg}
    {quotient remainder : Value s} (hbyte : s ≠ .byte) (hpart : part = .rax ∨ part = .rdx)
    (hdivision : Machine.division (Machine.signFill (st.value s left.id)) (st.value s left.id)
      (st.value s right.id) = some (quotient, remainder)) :
    Computes rt st
      [.mov s (.pseudo left) (.fixed .rax), .signExtendAccumulator s, .idiv s (.pseudo right),
        .mov s (.fixed part) (.pseudo result)] drawn result.id
      (if part = .rax then quotient else remainder) := by
  let loaded : State := st.onMachine (·.setReg s .rax (st.value s left.id))
  let extended : State :=
    loaded.onMachine (·.setReg s .rdx (Machine.signFill (loaded.reg s .rax)))
  let divided : State := extended.onMachine fun m =>
    ((m.setReg s .rax quotient).setReg s .rdx remainder).setFlags none
  have hwhole : ∀ v : Value s, v.setWidth s.bits = v := fun v => BitVec.setWidth_eq v
  have hlow : loaded.reg s .rax = st.value s left.id :=
    (Machine.State.reg_setReg st.toState (Nat.le_refl _) _ _).trans (hwhole _)
  have hlow' : extended.reg s .rax = st.value s left.id :=
    (Machine.State.reg_setReg_of_ne loaded.toState _ (by decide)).trans hlow
  have hhigh : extended.reg s .rdx = Machine.signFill (st.value s left.id) := by
    rw [← hlow]
    exact (Machine.State.reg_setReg loaded.toState (Nat.le_refl _) _ _).trans (hwhole _)
  have hdivide : (Instr.idiv s (.pseudo right)).exec rt extended = .ok divided := by
    simp only [Instr.exec, if_neg hbyte]
    rw [hlow', hhigh, show extended.read rt s (.pseudo right) = st.value s right.id from rfl,
      hdivision]
  have hextend : (Instr.signExtendAccumulator s).exec rt loaded = .ok extended := by
    simp only [Instr.exec, if_neg hbyte]
    rfl
  have hpartValue : divided.reg s part = if part = .rax then quotient else remainder := by
    rcases hpart with rfl | rfl
    · exact (Machine.State.reg_setReg_of_ne _ _ (by decide)).trans
        ((Machine.State.reg_setReg _ (Nat.le_refl _) _ _).trans (hwhole _))
    · exact (Machine.State.reg_setReg _ (Nat.le_refl _) _ _).trans (hwhole _)
  refine ⟨divided.setPseudo s result.id (divided.reg s part), ?_, ?_, ?_⟩
  · rw [Instr.execAll, show (Instr.mov s (.pseudo left) (.fixed .rax)).exec rt st
      = .ok loaded from rfl]
    simp only [Instr.execAll, hextend, hdivide]
    rfl
  · rw [State.value_setPseudo, hpartValue]
  · have hloaded : Keeps drawn result.id st loaded := .onMachine (fun _ => rfl) fun _ => rfl
    have hextended : Keeps drawn result.id loaded extended :=
      .onMachine (fun _ => rfl) fun _ => rfl
    have hdivided : Keeps drawn result.id extended divided :=
      .onMachine (fun _ => rfl) fun _ => rfl
    exact ((hloaded.trans hextended).trans hdivided).trans (.setPseudo _ (.inl rfl))

/-! ## Operators on values of a promoted size -/

/-- Counts of shifts are masked. -/
theorem places_eq {s : Size} (hs : 4 ≤ s.bytes) (y : Value s) :
    (y.setWidth Size.byte.bits).toNat % (if s.bytes = 8 then 64 else 32)
      = y.toNat % s.bits := by
  rw [BitVec.toNat_setWidth]
  cases s with
  | byte | word => exact absurd hs (by decide)
  | long | single =>
    show y.toNat % 2 ^ 8 % 32 = y.toNat % 32
    omega
  | quad | double =>
    show y.toNat % 2 ^ 8 % 64 = y.toNat % 64
    omega

open Selection (formOf)

/-- The code of an operator, at the size of its promoted operands. -/
theorem computes_form {op : BinaryOp} (hs : 4 ≤ s.bytes) {left right result : Reg}
    {x y : Value s} (hleft : st.value s left.id = x)
    (hright : if op.isShift then st.value .byte right.id = y.setWidth Size.byte.bits
      else st.value s right.id = y) (hne : right.id ≠ result.id)
    (hdefined : op.Defined s.bits x.toInt y.toInt) :
    Computes rt st ((formOf op).code s left right result) drawn result.id (op.apply x y) := by
  have hshift : ∀ shift : ShiftOp, st.value .byte right.id = y.setWidth Size.byte.bits →
      Computes rt st ((Selection.BinaryForm.shift shift).code s left right result)
        drawn result.id
        (shift.value (y.setWidth Size.byte.bits) x) := by
    intro shift hcount
    rw [← hcount, ← hleft]
    exact computes_shift shift left right result
  have hdivide : ∀ part : Machine.Reg, part = .rax ∨ part = .rdx → op = .div ∨ op = .rem →
      st.value s right.id = y →
      Computes rt st ((Selection.BinaryForm.divide part).code s left right result)
        drawn result.id
        (if part = .rax then (BitVec.ofInt _ (x.toInt.tdiv y.toInt) : Value s)
          else BitVec.ofInt _ (x.toInt.tmod y.toInt)) := by
    intro part hpart hop hright
    obtain ⟨hzero, hleast⟩ := hdefined hop
    refine computes_divide (fun h => absurd hs (by rw [h]; decide)) hpart ?_
    rw [hleft, hright]
    exact division_signFill x y hzero hleast
  have hoperate : ∀ alu : AluOp, alu.writesDestination = true → st.value s right.id = y →
      Computes rt st
        [Selection.move s left result, .alu alu s (.pseudo right) (.pseudo result)]
          drawn result.id
        (alu.value y x) := by
    intro alu halu hright
    rw [← hright, ← hleft]
    exact computes_operate halu hne
  cases op with
  | add => exact hoperate .add rfl hright
  | sub => exact hoperate .sub rfl hright
  | mul => exact hoperate .imul rfl hright
  | and => exact hoperate .and rfl hright
  | or => exact hoperate .or rfl hright
  | xor => exact hoperate .xor rfl hright
  | div => exact hdivide .rax (.inl rfl) (.inl rfl) hright
  | rem => exact hdivide .rdx (.inr rfl) (.inr rfl) hright
  | shl =>
    have h := hshift .sal hright
    simp only [ShiftOp.value, places_eq hs] at h
    exact h
  | shr =>
    have h := hshift .sar hright
    simp only [ShiftOp.value, places_eq hs] at h
    exact h
  | ushr =>
    have h := hshift .shr hright
    simp only [ShiftOp.value, places_eq hs] at h
    exact h

end

end Jil.Pseudo

namespace Jil.Selection

open Jil.Machine (Runtime Size Value)
open Jil.Pseudo (Computes Instr Keeps Reg)

variable {scope : Scope} {st : State} {rt : Runtime} {σ : Pseudo.State} {code : List Instr}
  {drawn dest : Nat}

/-- Running code puts a number of a type into a pseudo-register, and leaves the others
alone. -/
def Puts (rt : Runtime) (σ : Pseudo.State) (code : List Instr) (drawn dest : Nat) (t : Ty)
    (n : Int) : Prop :=
  ∃ after, Instr.execAll rt σ code = .ok after ∧ t.number (after.pseudo dest) = n
    ∧ Keeps drawn dest σ after

theorem puts_of_computes {t : Ty} {n : Int} {v : Value (sizeOf t)}
    (h : Computes rt σ code drawn dest v) (hn : t.ofBits v = n) :
    Puts rt σ code drawn dest t n := by
  obtain ⟨after, hrun, hvalue, hkeeps⟩ := h
  refine ⟨after, hrun, ?_, hkeeps⟩
  rw [← hn, ← hvalue]
  rfl

/-! ## Moves -/

/-- A move between types of one width and sign keeps the number. -/
theorem puts_move {t u : Ty} {size : Size} (hsize : size = sizeOf u)
    (hwidth : u.width ≤ t.width) (src : Reg) {p : Reg} :
    Puts rt σ [move size src p] drawn p.id u (u.wrap (t.number (σ.pseudo src.id))) := by
  subst hsize
  refine puts_of_computes (Pseudo.computes_move _ src) ?_
  rw [← Ty.ofBits_ofInt, Ty.ofInt_number_of_le hwidth]
  rfl

/-! ## Binary operators -/

section Binary

variable {op : BinaryOp} {a b : Ty} {left right result : Reg}

/-- The code of an operator, on operands that stand for numbers. -/
theorem computes_form_ofInt {s : Size} (hs : 4 ≤ s.bytes) {x y : Int}
    (hleft : σ.value s left.id = BitVec.ofInt s.bits x)
    (hright : if op.isShift then σ.value .byte right.id = BitVec.ofInt Size.byte.bits y
      else σ.value s right.id = BitVec.ofInt s.bits y) (hne : right.id ≠ result.id)
    (hdefined : op.Defined s.bits (BitVec.ofInt s.bits x).toInt
      (BitVec.ofInt s.bits y).toInt) :
    Computes rt σ ((formOf op).code s left right result) drawn result.id
      (op.apply (BitVec.ofInt s.bits x) (BitVec.ofInt s.bits y)) := by
  have hbyte : Size.byte.bits ≤ s.bits := Nat.mul_le_mul_left 8 (Nat.le_trans (by decide) hs)
  refine Pseudo.computes_form hs hleft ?_ hne hdefined
  rw [setWidth_ofInt hbyte]
  exact hright

/-- What is left of an operator on promoted operands. -/
theorem ofBits_apply {t : Ty} {m : Nat} (hm : t.promoted = m) (hwidth : t.width ≤ m)
    (x y : Int) :
    t.ofBits ((op.apply (BitVec.ofInt m x) (BitVec.ofInt m y)).setWidth t.width)
      = op.result t x y := by
  subst hm
  exact Ty.ofBits_setWidth hwidth _

/-- What is defined on numbers is defined on promoted operands. -/
theorem defined_ofInt {m : Nat} (hm : a.promoted = m) (hinteger : a.isIntegral = true)
    (hoperands : if op.isShift then b = .int else a = b) {x y : Machine.Word}
    (h : op.Defined m (a.number x) (b.number y)) :
    op.Defined m (BitVec.ofInt m (a.number x)).toInt (BitVec.ofInt m (b.number y)).toInt := by
  subst hm
  intro hop
  have hequal : a = b := by
    rcases hop with rfl | rfl <;> exact hoperands
  subst hequal
  rw [Ty.toInt_promote hinteger, Ty.toInt_promote hinteger]
  exact h hop

/-- Operators that work on values of the result's size, whatever it is. -/
theorem puts_plain (hplain : (formOf op).worksNarrow = true) (hwidth : a.width ≤ a.promoted)
    (hne : right.id ≠ result.id) :
    Puts rt σ ((formOf op).code (sizeOf a) left right result) drawn result.id a
      (op.result a (a.number (σ.pseudo left.id)) (a.number (σ.pseudo right.id))) := by
  obtain ⟨alu, hform, hwrites⟩ :
      ∃ alu, formOf op = .plain alu ∧ alu.writesDestination = true := by
    cases op <;> first | exact ⟨_, rfl, rfl⟩ | cases hplain
  rw [hform]
  refine puts_of_computes (Pseudo.computes_operate hwrites hne) ?_
  rw [← ofBits_apply rfl hwidth, setWidth_apply_of_plain hform hwidth, setWidth_ofInt hwidth,
    setWidth_ofInt hwidth, Ty.ofInt_number_of_le (Nat.le_refl _),
    Ty.ofInt_number_of_le (Nat.le_refl _)]
  rfl

/-- Operators on values of at least the size of a long. -/
theorem puts_promoted (hs : 4 ≤ (sizeOf a).bytes) (hinteger : a.isIntegral = true)
    (hoperands : if op.isShift then b = .int else a = b) (hne : right.id ≠ result.id)
    (hdefined : op.Defined a.promoted (a.number (σ.pseudo left.id))
      (b.number (σ.pseudo right.id))) :
    Puts rt σ ((formOf op).code (sizeOf a) left right result) drawn result.id a
      (op.result a (a.number (σ.pseudo left.id)) (b.number (σ.pseudo right.id))) := by
  have hpromoted : a.promoted = a.width := by
    cases a <;> first | rfl | exact absurd hs (by decide) | cases hinteger
  rw [hpromoted] at hdefined
  have hleft :
      σ.value (sizeOf a) left.id = BitVec.ofInt a.width (a.number (σ.pseudo left.id)) :=
    (Ty.ofInt_number_of_le (Nat.le_refl _) _).symm
  have hright : if op.isShift then
      σ.value .byte right.id = BitVec.ofInt Size.byte.bits (b.number (σ.pseudo right.id))
      else σ.value (sizeOf a) right.id
        = BitVec.ofInt a.width (b.number (σ.pseudo right.id)) := by
    split at hoperands
    · next hshift =>
      subst hoperands
      rw [if_pos hshift]
      exact (Ty.ofInt_number_of_le (by decide) _).symm
    · next hshift =>
      subst hoperands
      rw [if_neg hshift]
      exact (Ty.ofInt_number_of_le (Nat.le_refl _) _).symm
  refine puts_of_computes (computes_form_ofInt hs hleft hright hne
    (defined_ofInt hpromoted hinteger hoperands hdefined)) ?_
  rw [← ofBits_apply hpromoted (Nat.le_refl _), BitVec.setWidth_eq]

/-- Widens a value into a pseudo-register. -/
def widening (type : Ty) (value wide : Reg) : Instr :=
  .extend (type ≠ .char) value.size .long (.pseudo value) (.pseudo wide)

/-- A pseudo-register for a widened value. -/
abbrev wideAt (id : Nat) : Reg := ⟨id, .long⟩

/-- The code of a shift of a value that is widened. -/
theorem yields_shift_wide (hplain : (formOf op).worksNarrow = false)
    (hresult : ¬ 4 ≤ result.size.bytes) (hleft : ¬ 4 ≤ left.size.bytes)
    (hshift : op.isShift = true) :
    Yields scope (binaryCode op a left right result) st
      ([widening a left (wideAt (st.drawn + 1))]
        ++ (formOf op).code .long (wideAt (st.drawn + 1)) right (wideAt (st.drawn + 2))
        ++ [move result.size (wideAt (st.drawn + 2)) result])
      { st with drawn := st.drawn + 2 } := by
  refine yields_binaryCode.2 (.inr ⟨hplain, hresult, _, _, _, _, _, _,
    yields_widen.2 (.inr ⟨hleft, rfl, rfl, rfl⟩), .inl ⟨hshift, rfl, rfl, rfl⟩, ?_, rfl⟩)
  rw [List.append_nil]
  rfl

/-- The code of an operator on two values that are widened. -/
theorem yields_binary_wide (hplain : (formOf op).worksNarrow = false)
    (hresult : ¬ 4 ≤ result.size.bytes) (hleft : ¬ 4 ≤ left.size.bytes)
    (hright : ¬ 4 ≤ right.size.bytes) (hshift : op.isShift = false) :
    Yields scope (binaryCode op a left right result) st
      ([widening a left (wideAt (st.drawn + 1)), widening a right (wideAt (st.drawn + 2))]
        ++ (formOf op).code .long (wideAt (st.drawn + 1)) (wideAt (st.drawn + 2))
          (wideAt (st.drawn + 3))
        ++ [move result.size (wideAt (st.drawn + 3)) result])
      { st with drawn := st.drawn + 3 } := by
  exact yields_binaryCode.2 (.inr ⟨hplain, hresult, _, _, _, _, _, _,
    yields_widen.2 (.inr ⟨hleft, rfl, rfl, rfl⟩),
    .inr ⟨hshift, yields_widen.2 (.inr ⟨hright, rfl, rfl, rfl⟩)⟩, rfl, rfl⟩)

/-- Widening gives the promoted operand. -/
theorem extension_eq_ofInt_of_isIntegral {t : Ty} (h : t.isIntegral = true) (wide : Size)
    (w : Machine.Word) :
    Machine.extension (t ≠ .char) (sizeOf t) wide (w.setWidth t.width)
      = BitVec.ofInt wide.bits (t.number w) := by
  have hsigned : decide (t ≠ .char) = !t.isUnsigned := by
    cases t <;> first | rfl | cases h
  rw [hsigned]
  exact Ty.extension_eq_ofInt t wide w

/-- An operator on widened operands, and the cutting off of what it gives. -/
theorem puts_behind {before : List Instr} {mid : Pseudo.State} {wide : Reg} {x y : Int}
    (hrun : Instr.execAll rt σ before = .ok mid) (hkeeps : Keeps drawn result.id σ mid)
    (hleft : mid.value .long left.id = BitVec.ofInt Size.long.bits x)
    (hright : if op.isShift then mid.value .byte right.id = BitVec.ofInt Size.byte.bits y
      else mid.value .long right.id = BitVec.ofInt Size.long.bits y)
    (hne : right.id ≠ wide.id) (hwide : drawn < wide.id)
    (hpromoted : a.promoted = Size.long.bits) (hwidth : a.width ≤ Size.long.bits)
    (hdefined : op.Defined Size.long.bits (BitVec.ofInt Size.long.bits x).toInt
      (BitVec.ofInt Size.long.bits y).toInt) :
    Puts rt σ (before ++ (formOf op).code .long left right wide
      ++ [move (sizeOf a) wide result])
      drawn result.id a (op.result a x y) := by
  have hform : Computes rt mid ((formOf op).code .long left right wide) drawn wide.id
      (op.apply (BitVec.ofInt Size.long.bits x) (BitVec.ofInt Size.long.bits y)) :=
    computes_form_ofInt (Nat.le_refl _) hleft hright hne hdefined
  have hcut := (hform.cut hwide hwidth).behind hrun hkeeps
  rw [← List.append_assoc] at hcut
  exact puts_of_computes hcut (ofBits_apply hpromoted hwidth x y)

/-- Operators on values that are widened. -/
theorem binary_wide (hplain : (formOf op).worksNarrow = false) (hs : ¬ 4 ≤ (sizeOf a).bytes)
    (hinteger : a.isIntegral = true) (hoperands : if op.isShift then b = .int else a = b)
    (hl : left.size = sizeOf a) (hr : right.size = sizeOf b) (hresult : result.size = sizeOf a)
    (hright : right.id ≤ st.drawn) :
    ∃ code after, Yields scope (binaryCode op a left right result) st code after ∧
      ∀ rt σ, op.Defined a.promoted (a.number (σ.pseudo left.id))
        (b.number (σ.pseudo right.id)) →
        Puts rt σ code st.drawn result.id a
          (op.result a (a.number (σ.pseudo left.id)) (b.number (σ.pseudo right.id))) := by
  have hpromoted : a.promoted = Size.long.bits := by
    cases a <;> first | rfl | exact absurd (by decide) hs
  have hwidth : a.width ≤ Size.long.bits := hpromoted ▸ Ty.width_le_promoted (.inl hinteger)
  have hnarrow : ∀ p : Reg, p.size = sizeOf a → ¬ 4 ≤ p.size.bytes := by
    intro p hp
    rwa [hp]
  rw [hpromoted]
  cases hshift : op.isShift with
  | true =>
    refine ⟨_, _, yields_shift_wide hplain (hnarrow _ hresult) (hnarrow _ hl) hshift,
      fun rt σ hdefined => ?_⟩
    have hb : b = .int := by rwa [if_pos hshift] at hoperands
    subst hb
    let mid : Pseudo.State := σ.setPseudo .long (st.drawn + 1)
      (Machine.extension (a ≠ .char) left.size .long (σ.value left.size left.id))
    rw [hresult]
    refine puts_behind (show _ = Except.ok mid from rfl)
      (.setPseudo _ (.inr (Nat.lt_succ_self _))) ?_ ?_ ?_ ?_
      hpromoted hwidth (defined_ofInt hpromoted hinteger hoperands hdefined)
    · refine (σ.value_setPseudo _).trans ?_
      rw [hl]
      exact extension_eq_ofInt_of_isIntegral hinteger .long _
    · rw [if_pos hshift, Ty.ofInt_number_of_le (by decide)]
      exact σ.value_setPseudo_of_ne _ (by omega)
    · show right.id ≠ st.drawn + 2
      omega
    · show st.drawn < st.drawn + 2
      omega
  | false =>
    have hequal : a = b := by rwa [hshift, if_neg nofun] at hoperands
    subst hequal
    refine ⟨_, _,
      yields_binary_wide hplain (hnarrow _ hresult) (hnarrow _ hl) (hnarrow _ hr) hshift,
      fun rt σ hdefined => ?_⟩
    let extended : Pseudo.State := σ.setPseudo .long (st.drawn + 1)
      (Machine.extension (a ≠ .char) left.size .long (σ.value left.size left.id))
    let mid : Pseudo.State := extended.setPseudo .long (st.drawn + 2)
      (Machine.extension (a ≠ .char) right.size .long (extended.value right.size right.id))
    have hextended : Keeps st.drawn result.id σ extended :=
      .setPseudo _ (.inr (Nat.lt_succ_self _))
    have hmid : Keeps st.drawn result.id extended mid := .setPseudo _ (.inr (by omega))
    rw [hresult]
    refine puts_behind (show _ = Except.ok mid from rfl) (hextended.trans hmid) ?_ ?_ ?_ ?_
      hpromoted hwidth (defined_ofInt hpromoted hinteger hoperands hdefined)
    · refine (extended.value_setPseudo_of_ne _ (by simp)).trans
        ((σ.value_setPseudo _).trans ?_)
      rw [hl]
      exact extension_eq_ofInt_of_isIntegral hinteger .long _
    · rw [if_neg (by rw [hshift]; exact nofun)]
      refine (extended.value_setPseudo _).trans ?_
      rw [σ.value_setPseudo_of_ne _ (by omega), hr]
      exact extension_eq_ofInt_of_isIntegral hinteger .long _
    · show st.drawn + 2 ≠ st.drawn + 3
      omega
    · show st.drawn < st.drawn + 3
      omega

/-- The code of a binary operator. -/
theorem binary_correct (hoperands : if op.isShift then b = .int else a = b)
    (ha : a.isIntegral = true ∨ a = .boolean ∧ op.isBitwise = true) (hl : left.size = sizeOf a)
    (hr : right.size = sizeOf b) (hresult : result.size = sizeOf a)
    (hright : right.id ≤ st.drawn) (hne : right.id ≠ result.id) :
    ∃ code after, Yields scope (binaryCode op a left right result) st code after ∧
      ∀ rt σ, op.Defined a.promoted (a.number (σ.pseudo left.id))
        (b.number (σ.pseudo right.id)) →
        Puts rt σ code st.drawn result.id a
          (op.result a (a.number (σ.pseudo left.id)) (b.number (σ.pseudo right.id))) := by
  have hdirect : (formOf op).worksNarrow = true ∨ 4 ≤ result.size.bytes →
      Yields scope (binaryCode op a left right result) st
        ((formOf op).code (sizeOf a) left right result) st :=
    fun h => yields_binaryCode.2 (.inl ⟨h, hresult ▸ rfl, rfl⟩)
  cases hplain : (formOf op).worksNarrow with
  | true =>
    refine ⟨_, _, hdirect (.inl hplain), fun rt σ _ => ?_⟩
    have hequal : a = b := by
      have hshift : op.isShift = false := by
        cases op <;> first | rfl | cases hplain
      rwa [hshift, if_neg nofun] at hoperands
    subst hequal
    exact puts_plain hplain (Ty.width_le_promoted (ha.imp_right And.left)) hne
  | false =>
    have hinteger : a.isIntegral = true := by
      refine ha.resolve_right ?_
      rintro ⟨-, hbitwise⟩
      have hworks : (formOf op).worksNarrow = true := by
        cases op <;> first | rfl | cases hbitwise
      rw [hworks] at hplain
      cases hplain
    by_cases hs : 4 ≤ (sizeOf a).bytes
    · refine ⟨_, _, hdirect (.inr (hresult ▸ hs)), fun rt σ h => ?_⟩
      exact puts_promoted hs hinteger hoperands hne h
    · exact binary_wide hplain hs hinteger hoperands hl hr hresult hright

end Binary

/-! ## Unary operators -/

section Unary

variable {t : Ty} {src result : Reg}

/-- An operation behind the move of its operand. -/
theorem computes_behind_move {s : Size} {rest : List Instr} {f : Value s → Value s}
    (h : ∀ mid : Pseudo.State, Computes rt mid rest drawn result.id
      (f (mid.value s result.id))) :
    Computes rt σ (move s src result :: rest) drawn result.id (f (σ.value s src.id)) := by
  have hrest := h (σ.setPseudo s result.id (σ.value s src.id))
  rw [σ.value_setPseudo] at hrest
  exact Computes.behind (show Instr.execAll rt σ [move s src result] = .ok _ from rfl)
    (.setPseudo _ (.inl rfl)) hrest

theorem computes_neg (s : Size) (p : Reg) :
    Computes rt σ [.neg s (.pseudo p)] drawn p.id (-(σ.value s p.id)) := by
  refine ⟨_, rfl, σ.value_setPseudo _, ?_⟩
  have hwritten : Keeps drawn p.id σ (σ.setPseudo s p.id (-(σ.value s p.id))) :=
    .setPseudo _ (.inl rfl)
  exact hwritten.trans (.onMachine (fun _ => rfl) fun _ => rfl)

theorem computes_not (s : Size) (p : Reg) :
    Computes rt σ [.not s (.pseudo p)] drawn p.id (~~~(σ.value s p.id)) :=
  ⟨_, rfl, σ.value_setPseudo _, .setPseudo _ (.inl rfl)⟩

/-- The other truth value. -/
theorem ofBits_xor_one {v : BitVec 8} (h : Ty.boolean.ofBits v = 0 ∨ Ty.boolean.ofBits v = 1) :
    Ty.boolean.ofBits (v ^^^ 1) = if Ty.boolean.ofBits v = 0 then 1 else 0 := by
  have hcases : v = 0#8 ∨ v = 1#8 := by
    rcases h with h | h
    · exact .inl (BitVec.eq_of_toNat_eq (Int.ofNat_inj.1 h))
    · exact .inr (BitVec.eq_of_toNat_eq (Int.ofNat_inj.1 h))
  rcases hcases with rfl | rfl <;> decide

theorem puts_unary {op : UnaryOp} (htyped : Typing.unaryOperand op t = true)
    (hfloating : t.isFloating = false) (hresult : result.size = sizeOf t)
    (hboolean : t = .boolean → t.number (σ.pseudo src.id) = 0
      ∨ t.number (σ.pseudo src.id) = 1) :
    Puts rt σ (unaryCode op src result) drawn result.id t
      (op.result t (t.number (σ.pseudo src.id))) := by
  have hbits : σ.value (sizeOf t) src.id = BitVec.ofInt t.width (t.number (σ.pseudo src.id)) :=
    (Ty.ofInt_number_of_le (Nat.le_refl _) _).symm
  unfold unaryCode
  rw [hresult]
  cases op with
  | negate =>
    have hinteger : t.isIntegral = true := by
      have hnumeric : (t.isIntegral || t.isFloating) = true := htyped
      rwa [hfloating, Bool.or_false] at hnumeric
    have hwidth := Ty.width_le_promoted (.inl hinteger)
    refine puts_of_computes (computes_behind_move fun mid => computes_neg _ result) ?_
    rw [UnaryOp.result, ← Ty.ofBits_setWidth hwidth, BitVec.setWidth_neg_of_le hwidth,
      setWidth_ofInt hwidth, hbits]
  | complement =>
    have hwidth := Ty.width_le_promoted (.inl htyped)
    refine puts_of_computes (computes_behind_move fun mid => computes_not _ result) ?_
    rw [UnaryOp.result, ← Ty.ofBits_setWidth hwidth, BitVec.setWidth_not hwidth,
      setWidth_ofInt hwidth, hbits]
  | not =>
    have ht : t = .boolean := of_decide_eq_true htyped
    subst ht
    let flip : Value .byte → Value .byte := fun v => v ^^^ 1
    have hxor : ∀ mid : Pseudo.State,
        Computes rt mid [.alu .xor .byte (.imm 1) (.pseudo result)] drawn result.id
          (flip (mid.value .byte result.id)) :=
      fun mid => Pseudo.computes_alu rfl (.imm 1) result
    exact puts_of_computes (computes_behind_move hxor) (ofBits_xor_one (hboolean rfl))

end Unary

/-! ## Comparisons, conversions and literals -/

section Others

variable {a b t : Ty} {left right src result : Reg}

theorem isUnsigned_of_isReference (h : t.isReference = true) : t.isUnsigned = false := by
  cases t <;> first | rfl | cases h

/-- What can be compared is compared as the flags tell. -/
theorem compared_of_comparable {op : Comparison} (h : Typing.comparable op a b = true) :
    a.isUnsigned = b.isUnsigned ∧ (op.isEquality = true ∨ a.isNumeric = true) := by
  unfold Typing.comparable at h
  split at h
  · next hequality =>
    refine ⟨?_, .inl hequality⟩
    rw [Bool.or_eq_true, Bool.and_eq_true, Bool.and_eq_true, decide_eq_true_eq] at h
    rcases h with ⟨ha, hb⟩ | ⟨-, rfl⟩
    · rw [isUnsigned_of_isReference ha, isUnsigned_of_isReference hb]
    · rfl
  · rw [Bool.and_eq_true, decide_eq_true_eq] at h
    obtain ⟨hnumeric, rfl⟩ := h
    exact ⟨rfl, .inr hnumeric⟩

theorem puts_compare {op : Comparison} (htyped : Typing.comparable op a b = true)
    (hl : left.size = sizeOf a) :
    Puts rt σ (compareCode op a left right result) drawn result.id .boolean
      (if op.holds (a.number (σ.pseudo left.id)) (b.number (σ.pseudo right.id)) then 1
        else 0) := by
  obtain ⟨hunsigned, hordered⟩ := compared_of_comparable htyped
  have hsize := sizeOf_of_comparable htyped
  have hb : b.number (σ.pseudo right.id) = b.ofBits (σ.value (sizeOf a) right.id) := by
    rw [hsize]
    rfl
  have hholds :=
    holds_condition (σ.value (sizeOf a) left.id) (σ.value (sizeOf a) right.id) hunsigned
    hordered
  rw [hb, show a.number (σ.pseudo left.id) = a.ofBits (σ.value (sizeOf a) left.id) from rfl,
    ← hholds]
  let compared : Pseudo.State := σ.setFlags
    (some (.ofDifference (σ.value (sizeOf a) right.id) (σ.value (sizeOf a) left.id)))
  have hcompared : Instr.execAll rt σ [.alu .cmp left.size (.pseudo right) (.pseudo left)]
      = .ok compared := by
    rw [hl]
    rfl
  have hset : Computes rt compared [.setcc (condition op (a = .char)) (.pseudo result)] drawn
      result.id
      (if (condition op (a = .char)).holds (.ofDifference (σ.value (sizeOf a) right.id)
        (σ.value (sizeOf a) left.id)) then (1 : Value .byte) else 0) :=
    ⟨_, rfl, compared.value_setPseudo _, .setPseudo _ (.inl rfl)⟩
  refine puts_of_computes (hset.behind hcompared (.onMachine (fun _ => rfl) fun _ => rfl)) ?_
  split <;> rfl

theorem puts_convert (ha : a.isIntegral = true) (hs : src.size = sizeOf a)
    (hresult : result.size = sizeOf t) :
    Puts rt σ (convertCode a src result) drawn result.id t
      (t.wrap (a.number (σ.pseudo src.id))) := by
  unfold convertCode
  split
  · rw [hs, hresult]
    refine puts_of_computes ⟨_, rfl, σ.value_setPseudo _, .setPseudo _ (.inl rfl)⟩ ?_
    rw [← Ty.ofBits_ofInt]
    exact congrArg t.ofBits (extension_eq_ofInt_of_isIntegral ha (sizeOf t) _)
  · next hsize =>
    rw [hs, hresult] at hsize
    exact puts_move hresult (Nat.mul_le_mul_left 8 (Nat.not_lt.1 hsize)) src

theorem puts_literal (hfloating : t.isFloating = false) {text : List Char} {bits : Int}
    (hbits : Literal.bits? t text = some bits) :
    Puts rt σ [.mov (sizeOf t) (.imm bits) (.pseudo result)] drawn result.id t bits := by
  refine puts_of_computes ⟨_, rfl, σ.value_setPseudo _, .setPseudo _ (.inl rfl)⟩ ?_
  exact (Ty.ofBits_ofInt t bits).trans (Ty.wrap_of_bits? hfloating hbits)

end Others

end Jil.Selection
