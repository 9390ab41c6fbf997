/-
Jil.Proofs.Execution — what machine code does.

A `State` is registers, memory, flags and the number of calls made so far.
`Instr.exec` is the effect of an instruction that control only passes through,
`step` one step of a list of instructions, `Reaches` a run. Where the machine
does something that no statement about it may depend on, nothing is said: the
flags after arithmetic are absent, and an instruction that does not exist, such
as one with two memory operands, stops the run.

What lies outside the code is a `Runtime`: the addresses of symbols and what
each call leaves behind. A call changes every register but the preserved ones
and the stack pointer, and all memory but the frame of its caller.
-/
import Jil.Machine.Convention
import Jil.Machine.Instruction
import Jil.Proofs.Words

namespace Jil.Machine

/-! ## Flags -/

/-- The flags. -/
structure Flags where
  zero : Bool
  sign : Bool
  carry : Bool
  overflow : Bool
  deriving DecidableEq, Repr

/-- The flags after `src` was compared with `dest`, or taken from it. -/
def Flags.ofDifference {s : Size} (src dest : Value s) : Flags where
  zero := dest - src = 0#_
  sign := (dest - src).msb
  carry := dest.ult src
  overflow := dest.ssubOverflow src

/-- Whether a condition holds. -/
def Condition.holds (f : Flags) : Condition → Bool
  | .equal => f.zero
  | .notEqual => !f.zero
  | .less => f.sign != f.overflow
  | .lessEqual => f.zero || f.sign != f.overflow
  | .greater => !(f.zero || f.sign != f.overflow)
  | .greaterEqual => f.sign == f.overflow
  | .below => f.carry
  | .belowEqual => f.zero || f.carry
  | .above => !(f.zero || f.carry)
  | .aboveEqual => !f.carry

theorem Flags.zero_ofDifference {s : Size} (src dest : Value s) :
    (ofDifference src dest).zero = decide (dest = src) := by
  simp only [ofDifference, decide_eq_decide]
  constructor
  · intro h
    rw [← BitVec.sub_add_cancel dest src, h, BitVec.zero_add]
  · intro h
    rw [h, BitVec.sub_self]

/-- Sign and overflow tell the signed order. -/
theorem Flags.sign_ne_overflow {s : Size} (src dest : Value s) :
    ((ofDifference src dest).sign != (ofDifference src dest).overflow) = dest.slt src := by
  show ((dest - src).msb != dest.ssubOverflow src) = dest.slt src
  by_cases hover : dest.ssubOverflow src = true
  · have hmsb := BitVec.ssubOverflow_eq dest src
    rw [hover] at hmsb ⊢
    have hdest := BitVec.msb_eq_toInt (x := dest)
    have hsrc := BitVec.msb_eq_toInt (x := src)
    rw [BitVec.slt_eq_decide]
    cases hd : dest.msb <;> cases hs : src.msb <;> rw [hd, hs] at hmsb <;> simp at hmsb
    · rw [hd] at hdest
      rw [hs] at hsrc
      simp only [eq_comm (a := false), eq_comm (a := true), decide_eq_false_iff_not,
        decide_eq_true_eq] at hdest hsrc
      have : ¬ dest.toInt < src.toInt := by omega
      simp [hmsb, this]
    · rw [hd] at hdest
      rw [hs] at hsrc
      simp only [eq_comm (a := false), eq_comm (a := true), decide_eq_false_iff_not,
        decide_eq_true_eq] at hdest hsrc
      have : dest.toInt < src.toInt := by omega
      simp [hmsb, this]
  · have hsub := BitVec.toInt_sub_of_not_ssubOverflow hover
    rw [Bool.not_eq_true] at hover
    rw [hover, BitVec.msb_eq_toInt, hsub, BitVec.slt_eq_decide, Bool.bne_false,
      decide_eq_decide]
    omega

/-! ## Operations -/

/-- The result of a two-operand operation. -/
def AluOp.value {s : Size} (src dest : Value s) : AluOp → Value s
  | .mov => src
  | .add => dest + src
  | .sub => dest - src
  | .and => dest &&& src
  | .or => dest ||| src
  | .xor => dest ^^^ src
  | .cmp => dest
  | .imul => dest * src

/-- The flags after a two-operand operation. -/
def AluOp.flags {s : Size} (src dest : Value s) (before : Option Flags) : AluOp → Option Flags
  | .mov => before
  | .cmp => some (.ofDifference src dest)
  | _ => none

/-- A value of another width. -/
def extension (signed : Bool) (narrow wide : Size) (v : Value narrow) : Value wide :=
  if signed then v.signExtend wide.bits else v.setWidth wide.bits

/-- Shifts use the low bits of the count. -/
def ShiftOp.value {s : Size} (count : Value .byte) (v : Value s) (op : ShiftOp) : Value s :=
  let places := count.toNat % (if s.bytes = 8 then 64 else 32)
  match op with
  | .sal => v <<< places
  | .sar => v.sshiftRight places
  | .shr => v >>> places

/-- Quotient and remainder of a number of double width, when the quotient can be
represented. -/
def division {s : Size} (high low divisor : Value s) : Option (Value s × Value s) :=
  let dividend := (high ++ low).toInt
  let quotient := dividend.tdiv divisor.toInt
  if divisor = 0 ∨ quotient < -2 ^ (s.bits - 1) ∨ 2 ^ (s.bits - 1) ≤ quotient then none
  else some (BitVec.ofInt _ quotient, BitVec.ofInt _ (dividend.tmod divisor.toInt))

/-- The upper half of the sign extension to double width. -/
def signFill {s : Size} (v : Value s) : Value s := if v.msb then BitVec.allOnes _ else 0

/-! ## States -/

/-- What a call leaves behind. -/
structure Outcome where
  regs : Reg → Word
  memory : Memory

/-- What lies outside the code. -/
structure Runtime where
  abi : Abi
  /-- Addresses of symbols. -/
  symbol : String → Word
  /-- What each call leaves behind, the first call first. -/
  outcome : Nat → Outcome
  /-- The frame of the function that runs. -/
  frame : Word → Bool

/-- State of the machine. -/
structure State where
  regs : Reg → Word
  memory : Memory
  flags : Option Flags
  /-- Number of calls made so far. -/
  calls : Nat

/-- Why a run stops. -/
inductive Stop where
  /-- The code is at its end. -/
  | finished
  /-- A division by zero, or one of which the quotient does not fit. -/
  | divide
  /-- Something was stored into the frame through an address. -/
  | frame
  /-- Nothing is said about what happens. -/
  | unknown
  deriving DecidableEq, Repr

namespace State

/-- The low part of a register. -/
def reg (st : State) (s : Size) (r : Reg) : Value s := (st.regs r).setWidth s.bits

/-- Writes the low part of a register. -/
def setReg (st : State) (s : Size) (r : Reg) (v : Value s) : State :=
  { st with regs := fun x => if x = r then merge s (st.regs r) v else st.regs x }

def setFlags (st : State) (flags : Option Flags) : State := { st with flags := flags }

/-- What was written to a register is read, or its low part. -/
theorem reg_setReg (st : State) {s t : Size} (h : t.bits ≤ s.bits) (r : Reg) (v : Value s) :
    (st.setReg s r v).reg t r = v.setWidth t.bits := by
  unfold reg setReg
  simp only [if_true]
  rw [← setWidth_setWidth _ h, setWidth_merge]

theorem reg_setReg_of_ne (st : State) {s t : Size} {r x : Reg} (v : Value s) (h : x ≠ r) :
    (st.setReg s r v).reg t x = st.reg t x := by
  unfold reg setReg
  simp only [if_neg h]

theorem regs_setReg_quad (st : State) (r : Reg) (v : Word) :
    (st.setReg .quad r v).regs r = v :=
  (if_pos rfl).trans ((merge_of_le (s := .quad) (by decide) _ v).trans (BitVec.setWidth_eq v))

theorem regs_setReg_of_ne (st : State) {s : Size} {r x : Reg} (v : Value s) (h : x ≠ r) :
    (st.setReg s r v).regs x = st.regs x := if_neg h

/-- Writes memory. -/
def store (st : State) (s : Size) (a : Word) (v : Value s) : State :=
  { st with memory := st.memory.store a s v }

/-- Whether a register is left alone by calls. -/
def survives (abi : Abi) (r : Reg) : Bool := abi.isPreserved r || r = .rsp

/-- The state after a call. -/
def afterCall (st : State) (rt : Runtime) : State where
  regs r := if survives rt.abi r then st.regs r else (rt.outcome st.calls).regs r
  memory x := if rt.frame x then st.memory x else (rt.outcome st.calls).memory x
  flags := none
  calls := st.calls + 1

/-- The address of a memory operand. -/
def address (st : State) (rt : Runtime) : Operand → Option Word
  | .mem base disp => some (st.regs base + BitVec.ofInt 64 disp)
  | .rip symbol disp => some (rt.symbol symbol + BitVec.ofInt 64 disp)
  | .reg _ | .imm _ => none

/-- The value of an operand. -/
def read (st : State) (rt : Runtime) (s : Size) : Operand → Value s
  | .reg r => st.reg s r
  | .imm v => BitVec.ofInt _ v
  | .mem base disp => st.memory.load (st.regs base + BitVec.ofInt 64 disp) s
  | .rip symbol disp => st.memory.load (rt.symbol symbol + BitVec.ofInt 64 disp) s

/-- The state after an operand was written. -/
def write (st : State) (rt : Runtime) (s : Size) (v : Value s) : Operand → State
  | .reg r => st.setReg s r v
  | .imm _ => st
  | .mem base disp => st.store s (st.regs base + BitVec.ofInt 64 disp) v
  | .rip symbol disp => st.store s (rt.symbol symbol + BitVec.ofInt 64 disp) v

end State

/-! ## Instructions -/

namespace Instr

/-- Whether the machine has such an instruction: at most one operand lies in memory, and what
is written is no immediate, and a register where it has to be one. -/
def isExecutable : Instr → Bool
  | .alu op _ src dest =>
    !(src.isMemory && dest.isMemory) && (dest.isRegister || dest.isMemory && !op.needsRegister)
  | .neg _ dest | .not _ dest | .shift _ _ dest | .setcc _ dest =>
    dest.isRegister || dest.isMemory
  | .lea src _ => src.isMemory
  | .idiv _ divisor => divisor.isRegister || divisor.isMemory
  | _ => true

/-- The effect of an instruction that control only passes through. Division at the width of a
byte uses other registers, and does not occur. -/
def exec (rt : Runtime) (st : State) (i : Instr) : Except Stop State :=
  if !i.isExecutable then .error .unknown
  else
    match i with
    | .alu op s src dest =>
      let a := st.read rt s src
      let b := st.read rt s dest
      let written := if op.writesDestination then st.write rt s (op.value a b) dest else st
      .ok (written.setFlags (op.flags a b st.flags))
    | .extend signed narrow wide src dest =>
      .ok (st.setReg wide dest (extension signed narrow wide (st.read rt narrow src)))
    | .lea src dest =>
      match st.address rt src with
      | some a => .ok (st.setReg .quad dest a)
      | none => .error .unknown
    | .neg s dest => .ok ((st.write rt s (-(st.read rt s dest)) dest).setFlags none)
    | .not s dest => .ok (st.write rt s (~~~(st.read rt s dest)) dest)
    | .shift op s dest =>
      .ok
        ((st.write rt s (op.value (st.reg .byte .rcx) (st.read rt s dest)) dest).setFlags none)
    | .idiv s divisor =>
      if s = .byte then .error .unknown
      else
        match division (st.reg s .rdx) (st.reg s .rax) (st.read rt s divisor) with
        | some (quotient, remainder) =>
          .ok (((st.setReg s .rax quotient).setReg s .rdx remainder).setFlags none)
        | none => .error .divide
    | .signExtendAccumulator s =>
      if s = .byte then .error .unknown else .ok (st.setReg s .rdx (signFill (st.reg s .rax)))
    | .setcc cond dest =>
      match st.flags with
      | some f => .ok (st.write rt .byte (if cond.holds f then 1 else 0) dest)
      | none => .error .unknown
    | .push r =>
      let sp : Word := st.regs .rsp - 8
      .ok ((st.store .quad sp (st.regs r)).setReg .quad .rsp sp)
    | .pop r =>
      let sp := st.regs .rsp
      let above : Word := sp + 8
      .ok ((st.setReg .quad .rsp above).setReg .quad r (st.memory.load sp .quad))
    | .leave =>
      let bp := st.regs .rbp
      let above : Word := bp + 8
      .ok ((st.setReg .quad .rsp above).setReg .quad .rbp (st.memory.load bp .quad))
    | _ => .error .unknown

/-- The effects of instructions in order. -/
def execAll (rt : Runtime) (st : State) : List Instr → Except Stop State
  | [] => .ok st
  | i :: rest =>
    match i.exec rt st with
    | .ok after => execAll rt after rest
    | .error e => .error e

theorem execAll_append (rt : Runtime) (st : State) (l rest : List Instr) :
    execAll rt st (l ++ rest) =
      match execAll rt st l with
      | .ok after => execAll rt after rest
      | .error e => .error e := by
  induction l generalizing st with
  | nil => rfl
  | cons i l ih =>
    rw [List.cons_append, execAll, execAll]
    cases i.exec rt st with
    | ok after => exact ih after
    | error e => rfl

end Instr

/-! ## Code -/

/-- Index of the last place of a label. -/
def labelIndex? (code : List Instr) (name : String) : Option Nat :=
  (code.zipIdx.filter fun (i, _) => i = .label name).getLast?.map Prod.snd

/-- Labels are found where they stand. -/
theorem getElem?_of_labelIndex? {code : List Instr} {name : String} {index : Nat}
    (h : labelIndex? code name = some index) : code[index]? = some (.label name) := by
  unfold labelIndex? at h
  obtain ⟨⟨i, k⟩, hlast, rfl⟩ := Option.map_eq_some_iff.1 h
  have hmem := List.mem_of_getLast? hlast
  simp only [List.mem_filter, List.mem_zipIdx_iff_getElem?, decide_eq_true_eq] at hmem
  rw [hmem.1, hmem.2]

/-- Goes to a label. -/
def jumpTo (code : List Instr) (target : String) (st : State) : Except Stop (Nat × State) :=
  match labelIndex? code target with
  | some index => .ok (index, st)
  | none => .error .unknown

/-- One step from the instruction at an index. -/
def step (rt : Runtime) (code : List Instr) (p : Nat × State) : Except Stop (Nat × State) :=
  let (index, st) := p
  match code[index]? with
  | none | some .ret => .error .finished
  | some (.label _) => .ok (index + 1, st)
  | some (.jmp target) => jumpTo code target st
  | some (.jcc cond target) =>
    match st.flags with
    | some f => if cond.holds f then jumpTo code target st else .ok (index + 1, st)
    | none => .error .unknown
  | some (.call _) | some (.callIndirect _ _) => .ok (index + 1, st.afterCall rt)
  | some i => (i.exec rt st).map (index + 1, ·)

/-- Whether control only passes through an instruction. -/
def Instr.isStraight : Instr → Bool
  | .jcc _ _ | .jmp _ | .label _ | .call _ | .callIndirect _ _ | .ret => false
  | _ => true

/-- What a step does: it carries out an instruction, or it calls, passes on or jumps. -/
theorem step_eq_ok {rt : Runtime} {code : List Instr} {index : Nat} {st : State}
    {q : Nat × State} (h : step rt code (index, st) = .ok q) :
    ∃ i, code[index]? = some i ∧
      ((∃ after, i.exec rt st = .ok after ∧ q = (index + 1, after)) ∨
        i.isStraight = false ∧
          (i.isCall = true ∧ q = (index + 1, st.afterCall rt) ∨ q = (index + 1, st) ∨
            ∃ target next, labelIndex? code target = some next ∧ q = (next, st))) := by
  have hexec : ∀ {i : Instr}, (i.exec rt st).map (index + 1, ·) = .ok q →
      ∃ after, i.exec rt st = .ok after ∧ q = (index + 1, after) := by
    intro i h
    cases hexec : i.exec rt st with
    | error e =>
      rw [hexec] at h
      cases h
    | ok after =>
      rw [hexec] at h
      exact ⟨after, rfl, (Except.ok.inj h).symm⟩
  have hjump : ∀ {target}, jumpTo code target st = .ok q →
      ∃ target next, labelIndex? code target = some next ∧ q = (next, st) := by
    intro target h
    unfold jumpTo at h
    split at h
    · next next hnext => exact ⟨target, next, hnext, (Except.ok.inj h).symm⟩
    · cases h
  cases hi : code[index]? with
  | none =>
    simp only [step, hi] at h
    cases h
  | some i =>
    refine ⟨i, rfl, ?_⟩
    simp only [step, hi] at h
    cases i with
    | ret => cases h
    | label name => exact .inr ⟨rfl, .inr (.inl (Except.ok.inj h).symm)⟩
    | jmp target => exact .inr ⟨rfl, .inr (.inr (hjump h))⟩
    | jcc cond target =>
      simp only at h
      split at h
      · split at h
        · exact .inr ⟨rfl, .inr (.inr (hjump h))⟩
        · exact .inr ⟨rfl, .inr (.inl (Except.ok.inj h).symm)⟩
      · cases h
    | call symbol | callIndirect base disp =>
      exact .inr ⟨rfl, .inl ⟨rfl, (Except.ok.inj h).symm⟩⟩
    | _ => exact .inl (hexec h)

/-- A run. -/
inductive Reaches (rt : Runtime) (code : List Instr) : Nat × State → Nat × State → Prop
  | refl (p : Nat × State) : Reaches rt code p p
  | step {p q r : Nat × State} : step rt code p = .ok q → Reaches rt code q r →
      Reaches rt code p r

end Jil.Machine
