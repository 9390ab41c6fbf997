/-
Jil.Proofs.Simulation — expanded code runs as its stream does.

`Agree` relates a machine to a stream in front of an instruction: the values
that are needed are at their locations, what is awaited of hardware registers
and flags is the same, and so is memory outside the frame. The instructions
that control only passes through keep it (`Agree.after`), calls keep it
(`Agree.afterCall`), and jumps and labels change nothing (`Agree.carry`).

`keepsPace_of_agree` is one step, `exists_sideBySide` any number of them, and
`expanded_runs_in_lockstep` says so for the streams of checked functions.
-/
import Jil.Proofs.Allocated
import Jil.Proofs.ScalarMeaning

namespace Jil.Pseudo

open Jil.Machine (Abi Memory Runtime Size Stop Word)

/-! ## Agreement -/

/-- A machine and a stream agree in front of an instruction. -/
structure Agree (rt : Runtime) (a : Assignment) (code : List Instr) (base : Word)
    (p : Nat × State) (m : Machine.State) : Prop where
  /-- A value that is needed is at its location. -/
  values : ∀ id q, firstTouch? code id = some q → LiveIn code id p.1 →
    ∃ location, a id = some location ∧ m.read rt q.size location.operand = p.2.value q.size id
  /-- Hardware registers hold the same, as far as it is read before it is overwritten. -/
  fixed : ∀ r s, Awaited rt.abi code r s p.1 → m.reg s r = p.2.reg s r
  flags : FlagsAwaited code p.1 → ∃ f, m.flags = some f ∧ p.2.flags = some f
  memory : ∀ x, rt.frame x = false → m.memory x = p.2.memory x
  rbp : m.regs .rbp = base
  calls : m.calls = p.2.calls

/-- A stream with other memory. -/
def State.withMemory (σ : State) (memory : Memory) : State :=
  σ.onMachine fun m => { m with memory := memory }

namespace Agree

section

variable {rt : Runtime} {code : List Instr} {size : Nat → Size} {live : Liveness}
  {a : Allocation} {base : Word} {index : Nat} {i : Instr} {σ σ' : State}
  {m m' : Machine.State} {id : Nat}

/-- A stream may find in the frame what the machine finds there. -/
theorem withMemory {p : Nat × State} (hagree : Agree rt a.assignment code base p m) :
    SameOutsideFrame rt p.2 (p.2.withMemory m.memory)
      ∧ Agree rt a.assignment code base (p.1, p.2.withMemory m.memory) m :=
  ⟨⟨m.memory, hagree.memory, rfl⟩,
    hagree.values, hagree.fixed, hagree.flags, fun _ _ => rfl, hagree.rbp, hagree.calls⟩

variable (h : Allocated rt.abi code size live a)
include h

/-- Values that are needed are held. -/
theorem holds (hagree : Agree rt a.assignment code base (index, σ) m)
    (hlive : LiveIn code id index) : Holds rt a.assignment size m σ id := by
  obtain ⟨v, hv, rfl⟩ := h.lives.exists_of_liveIn hlive
  obtain ⟨location, ha, hread⟩ := hagree.values _ _ (h.lives.named v hv) hlive
  refine ⟨location, ha, ?_⟩
  rw [h.size_of_interval hv]
  exact hread

theorem values_of_holds
    (hholds : ∀ id, LiveIn code id index → Holds rt a.assignment size m σ id) {q : Reg}
    (hq : firstTouch? code id = some q) (hlive : LiveIn code id index) :
    ∃ location, a.assignment id = some location
      ∧ m.read rt q.size location.operand = σ.value q.size id := by
  rw [← (size_of_firstTouch (fun i hi => (h.orderly.fits i hi).allowed h.convention) hq).2]
  exact hholds id hlive

/-- What an instruction reads has been prepared. -/
theorem prepared (hagree : Agree rt a.assignment code base (index, σ) m)
    (hmemory : m.memory = σ.memory) (hi : code[index]? = some i) :
    Prepared rt a.assignment size i σ m where
  apart := h.unscratched
  located _ hdef := h.located hi hdef.touches
  holds _ huses := hagree.holds h (.read hi huses)
  fixed r s hr := hagree.fixed r s (.read hi (.inl hr))
  flags hflags := hagree.flags (.read hi hflags)
  memory := hmemory

/-! ### Instructions that control only passes through -/

section

variable (hi : code[index]? = some i) (hdone : Done rt a.assignment size i σ' m m')
  (huntouched : Untouched rt i σ σ')
include hi hdone

/-- The frame pointer stays. -/
theorem rbp_of_done : m'.regs .rbp = m.regs .rbp := by
  refine hdone.regs .rbp ?_ ?_ fun id _ => h.ne_reg_of_scratch (.inr (.inr rfl))
  · cases hw : i.fixedWrite? .rbp with
    | none => rfl
    | some s => exact absurd (Instr.mem_touched_of_fixedWrite? hw) (h.rbp_not_touched hi)
  · cases hs : i.spoils .rbp with
    | false => rfl
    | true => rcases Instr.eq_scratch_of_spoils hs with hr | hr <;> cases hr

include huntouched

/-- A value that is carried on stays where it is. -/
theorem holds_of_done (hframe : Framed rt base a.frameSize) (hrbp : m.regs .rbp = base)
    (hmemory : m.memory = σ.memory) (hreach : Reachable code index)
    (hsucc : index + 1 ∈ successors code index) (hlive' : LiveIn code id (index + 1))
    (hdef : ¬ i.Defines id) (hholds : Holds rt a.assignment size m σ id) :
    Holds rt a.assignment size m' σ' id := by
  have hlive : LiveIn code id index := .carried hi hdef hsucc hlive'
  have hne : ∀ other, i.Defines other → id ≠ other := by
    rintro other hother rfl
    exact hdef hother
  obtain ⟨location, ha, hread⟩ := hholds
  refine ⟨location, ha, ?_⟩
  have hvalue : σ'.value (size id) id = σ.value (size id) id := by
    unfold State.value
    rw [huntouched.pseudo id hdef]
  rw [hvalue, ← hread]
  cases location with
  | reg r =>
    have hregs : m'.regs r = m.regs r := by
      refine hdone.regs r ?_ ?_ fun other hother => ?_
      · cases hw : i.fixedWrite? r with
        | none => rfl
        | some s =>
          have htouched := Instr.mem_touched_of_fixedWrite? hw
          exact absurd ha (h.ne_reg_of_touched ⟨i, List.mem_of_getElem? hi, htouched⟩)
      · cases hs : i.spoils r with
        | false => rfl
        | true =>
          have hscratch := Instr.eq_scratch_of_spoils hs
          exact absurd ha (h.ne_reg_of_scratch (hscratch.imp_right .inl))
      · exact h.register_apart hreach hlive (hreach.step hsucc) hlive' hi hother.touches
          (hne other hother) ha
    show m'.reg (size id) r = m.reg (size id) r
    unfold Machine.State.reg
    rw [hregs]
  | slot offset =>
    have hload : ∀ x, Memory.Within (base + BitVec.ofInt 64 offset) (size id).bytes x →
        m'.memory x = m.memory x := by
      intro x hx
      have hinside := h.frame_of_slot hframe ha hx
      rw [hdone.memory x ?_, huntouched.memory x hinside, hmemory]
      intro other offset' hother hb
      rw [hrbp]
      exact h.slot_apart hframe (hne other hother) ha hb hx
    show m'.memory.load (m'.regs .rbp + _) _ = m.memory.load (m.regs .rbp + _) _
    rw [rbp_of_done h hi hdone, hrbp]
    exact Memory.load_congr hload

/-- Hardware registers that are awaited behind an instruction hold the same there. -/
theorem fixed_of_done (hagree : Agree rt a.assignment code base (index, σ) m)
    (hstraight : i.isStraight = true) (hsucc : index + 1 ∈ successors code index)
    {r : Machine.Reg} {s : Size} (hawaited : Awaited rt.abi code r s (index + 1)) :
    m'.reg s r = σ'.reg s r := by
  obtain ⟨-, t, ht, hsize⟩ := ready_of_awaited h.orderly.admitted h.orderly.fits hawaited
  rw [Ready.before_succ hi] at ht
  cases hw : i.fixedWrite? r with
  | some written =>
    rw [Ready.regs_after_of_fixedWrite? hw, Option.some.injEq] at ht
    subst ht
    have hbits : s.bits ≤ written.bits := Nat.mul_le_mul_left 8 hsize
    calc m'.reg s r = (m'.reg written r).setWidth s.bits :=
      (Machine.setWidth_setWidth _ hbits).symm
      _ = (σ'.reg written r).setWidth s.bits := by rw [hdone.fixed r written hw]
      _ = σ'.reg s r := Machine.setWidth_setWidth _ hbits
  | none =>
    have hwrites : ¬ i.WritesFixed rt.abi r := by
      rintro (hwrite | ⟨hcall, -⟩)
      · rw [hw] at hwrite
        cases hwrite
      · cases i <;> first | cases hcall; done | cases hstraight
    obtain ⟨-, hspoils, -⟩ := regs_of_regs_after hwrites ht
    have hmachine : m'.regs r = m.regs r := hdone.regs r hw hspoils fun other _ =>
      h.ne_reg_of_touched (exists_touched_of_awaited hawaited)
    have hbefore := hagree.fixed r s (.carried hi hwrites hsucc hawaited)
    unfold Machine.State.reg at hbefore ⊢
    rw [hmachine, huntouched.regs r hw, hbefore]

/-- Agreement behind an instruction that control only passes through. -/
theorem after (hframe : Framed rt base a.frameSize)
    (hagree : Agree rt a.assignment code base (index, σ) m) (hmemory : m.memory = σ.memory)
    (hreach : Reachable code index) (hstraight : i.isStraight = true) :
    Agree rt a.assignment code base (index + 1, σ') m' := by
  have hsucc : index + 1 ∈ successors code index := by
    unfold successors
    rw [hi]
    cases i <;> first | cases hstraight; done | exact List.mem_singleton_self _
  refine ⟨fun id q hq hlive => ?_, fun r s hawaited => ?_, fun hawaited => ?_,
    fun x hx => ?_, ?_, ?_⟩
  · refine values_of_holds h (fun id hlive => ?_) hq hlive
    by_cases hdef : i.Defines id
    · exact hdone.holds id hdef
    · exact holds_of_done h hi hdone huntouched hframe hagree.rbp hmemory hreach
        hsucc hlive hdef
        (hagree.holds h (.carried hi hdef hsucc hlive))
  · exact fixed_of_done h hi hdone huntouched hagree hstraight hsucc hawaited
  · have hready := (ready_of_flagsAwaited h.orderly.admitted hawaited).2
    rw [Ready.before_succ hi] at hready
    exact hdone.flags hready
  · refine hdone.memory x fun other offset _ ha hwithin => ?_
    rw [hagree.rbp] at hwithin
    rw [h.frame_of_slot hframe ha hwithin] at hx
    cases hx
  · rw [rbp_of_done h hi hdone]
    exact hagree.rbp
  · rw [hdone.calls, huntouched.calls]
    exact hagree.calls

end

/-! ### Calls -/

/-- Agreement behind a call. -/
theorem afterCall (hframe : Framed rt base a.frameSize)
    (hagree : Agree rt a.assignment code base (index, σ) m) (hi : code[index]? = some i)
    (hcall : i.isCall = true) (hreach : Reachable code index) :
    Agree rt a.assignment code base (index + 1, σ.onMachine (·.afterCall rt))
      (m.afterCall rt) := by
  have hsucc : index + 1 ∈ successors code index := by
    unfold successors
    rw [hi]
    cases i <;> first | cases hcall; done | exact List.mem_singleton_self _
  have hrbp : (m.afterCall rt).regs .rbp = m.regs .rbp := by
    have hall : ∀ abi ∈ Abi.all, Machine.State.survives abi .rbp = true := by decide
    exact if_pos (hall rt.abi h.convention)
  refine ⟨fun id q hq hlive => ?_, fun r s hawaited => ?_, fun hawaited => ?_,
    fun x hx => ?_, ?_, ?_⟩
  · refine values_of_holds h (fun id hlive' => ?_) hq hlive
    have hdef : ¬ i.Defines id := fun hdef => Instr.not_touches_of_isCall hcall id hdef.touches
    have hlive : LiveIn code id index := .carried hi hdef hsucc hlive'
    obtain ⟨location, ha, hread⟩ := hagree.holds h hlive
    refine ⟨location, ha, Eq.trans ?_ hread⟩
    cases location with
    | reg r =>
      -- the value has to survive the call, and so does its register
      obtain ⟨v, hv, rfl, -, hlast⟩ := h.covers id (index + 1) (hreach.step hsucc) hlive'
      have hfirst := h.first_lt_of_liveIn hreach hlive hv rfl
      have hcross : live.crossesCall v = true := by
        refine List.any_eq_true.2 ⟨index, (h.lives.calls index).2 ⟨i, hi, hcall⟩, ?_⟩
        simp only [Interval.spans, Bool.and_eq_true, decide_eq_true_eq]
        omega
      have hpreserved := h.meets.survives v hv hcross r ha
      have hsurvives : Machine.State.survives rt.abi r = true := by
        rw [Machine.State.survives, hpreserved]
        rfl
      have hregs : (m.afterCall rt).regs r = m.regs r := if_pos hsurvives
      show (m.afterCall rt).reg _ r = m.reg _ r
      unfold Machine.State.reg
      rw [hregs]
    | slot offset =>
      show (m.afterCall rt).memory.load ((m.afterCall rt).regs .rbp + _) _
        = m.memory.load (m.regs .rbp + _) _
      rw [hrbp]
      refine Memory.load_congr fun x hx => ?_
      rw [hagree.rbp] at hx
      exact if_pos (h.frame_of_slot hframe ha hx)
  · cases hsurvives : Machine.State.survives rt.abi r with
    | false =>
      have hregs : (m.afterCall rt).regs r = (rt.outcome m.calls).regs r := by
        simp only [Machine.State.afterCall, hsurvives, Bool.false_eq_true, if_false]
      have hregs' : (σ.toState.afterCall rt).regs r = (rt.outcome σ.calls).regs r := by
        simp only [Machine.State.afterCall, hsurvives, Bool.false_eq_true, if_false]
      show (m.afterCall rt).reg s r = (σ.toState.afterCall rt).reg s r
      unfold Machine.State.reg
      rw [hregs, hregs', hagree.calls]
    | true =>
      have hwrites : ¬ i.WritesFixed rt.abi r := by
        rintro (hwrite | ⟨-, hnot⟩)
        · cases i <;> first | cases hcall; done | cases hwrite
        · rw [hsurvives] at hnot
          cases hnot
      have hregs : (m.afterCall rt).regs r = m.regs r := if_pos hsurvives
      have hregs' : (σ.toState.afterCall rt).regs r = σ.regs r := if_pos hsurvives
      have hbefore := hagree.fixed r s (.carried hi hwrites hsucc hawaited)
      show (m.afterCall rt).reg s r = (σ.toState.afterCall rt).reg s r
      unfold Machine.State.reg at hbefore ⊢
      rw [hregs, hregs', hbefore]
  · have hready := (ready_of_flagsAwaited h.orderly.admitted hawaited).2
    rw [Ready.before_succ hi] at hready
    cases i <;> first | cases hcall; done | cases hready
  · have hmachine : (m.afterCall rt).memory x = (rt.outcome m.calls).memory x := by
      simp only [Machine.State.afterCall, hx, Bool.false_eq_true, if_false]
    have hstream : (σ.toState.afterCall rt).memory x = (rt.outcome σ.calls).memory x := by
      simp only [Machine.State.afterCall, hx, Bool.false_eq_true, if_false]
    show (m.afterCall rt).memory x = (σ.toState.afterCall rt).memory x
    rw [hmachine, hstream, hagree.calls]
  · rw [hrbp]
    exact hagree.rbp
  · exact congrArg (· + 1) hagree.calls

omit h in
/-- Agreement behind an instruction that changes nothing. -/
theorem carry {p : Nat × State} (hagree : Agree rt a.assignment code base p m)
    (hi : code[p.1]? = some i) (hdefines : ∀ id, ¬ i.Defines id)
    (hwrites : ∀ r, ¬ i.WritesFixed rt.abi r) (hflags : i.writesFlags = false) {next : Nat}
    (hnext : next ∈ successors code p.1) : Agree rt a.assignment code base (next, p.2) m := by
  refine ⟨fun id q hq hlive => ?_, fun r s hawaited => ?_, fun hawaited => ?_, hagree.memory,
    hagree.rbp, hagree.calls⟩
  · exact hagree.values id q hq (.carried hi (hdefines id) hnext hlive)
  · exact hagree.fixed r s (.carried hi (hwrites r) hnext hawaited)
  · refine hagree.flags (.carried hi ?_ hnext hawaited)
    rw [hflags]
    exact nofun

/-- Agreement at the entry. -/
theorem entry (σ : State) : Agree rt a.assignment code (σ.regs .rbp) (0, σ) σ.toState := by
  refine ⟨fun id _ _ hlive => ?_, fun _ _ _ => rfl, fun hawaited => ?_,
    fun _ _ => rfl, rfl, rfl⟩
  · exact absurd hlive h.not_liveIn_entry
  · cases (ready_of_flagsAwaited h.orderly.admitted hawaited).2

end

end Agree

/-! ## One step -/

/-- What the machine does at the beginning of an expanded instruction, where the stream takes
the same step: it comes to the beginning of the instruction that the stream comes to, and the
two agree again. It divides by zero where the stream does, and is behind the expansion where
the stream is at its end. Nothing is said when the stream stores into the frame. -/
def KeepsPace (rt : Runtime) (a : Assignment) (code : List Instr) (base : Word)
    (listing : List Machine.Instr) (front last : Nat) (p : Nat × State) (m : Machine.State) :
    Prop :=
  match step rt code p with
  | .ok q => ∃ m', Machine.Reaches rt listing (front + startOf a code p.1, m)
      (front + startOf a code q.1, m') ∧ Agree rt a code base q m'
  | .error .finished => front + startOf a code p.1 = last
  | .error .divide => ∃ q, Machine.Reaches rt listing (front + startOf a code p.1, m) q
      ∧ Machine.step rt listing q = .error .divide
  | .error .frame => True
  | .error .unknown => False

section

variable {rt : Runtime} {code : List Instr} {size : Nat → Size} {live : Liveness}
  {a : Allocation} {base : Word} {body front back : List Machine.Instr} {index : Nat}
  {i : Instr} {σ : State} {m : Machine.State}

/-- The expansion of one instruction in a listing. -/
theorem exists_part (front back : List Machine.Instr)
    (hbody : expandAll a.assignment code = .ok body)
    (hi : code[index]? = some i) :
    ∃ before part after, i.expand a.assignment = .ok part
      ∧ front ++ body ++ back = before ++ part ++ after
      ∧ front.length + startOf a.assignment code index = before.length
      ∧ front.length + startOf a.assignment code (index + 1)
        = before.length + part.length := by
  obtain ⟨before, part, after, hpart, rfl, hstart, hnext⟩ := exists_split hbody hi
  refine ⟨front ++ before, part, after ++ back, hpart,
    by simp only [List.append_assoc], ?_, ?_⟩
  · rw [hstart, List.length_append]
  · rw [hnext, List.length_append, Nat.add_assoc]

/-- The expansion of an instruction that is one instruction of the machine too. -/
theorem getElem?_of_expand_singleton (front back : List Machine.Instr) {j : Machine.Instr}
    (hbody : expandAll a.assignment code = .ok body) (hi : code[index]? = some i)
    (hpart : i.expand a.assignment = .ok [j]) :
    (front ++ body ++ back)[front.length + startOf a.assignment code index]? = some j
      ∧ startOf a.assignment code (index + 1) = startOf a.assignment code index + 1 := by
  obtain ⟨before, part, after, hpart', hlisting, hstart, hnext⟩ :=
    exists_part front back hbody hi
  rw [hpart, Except.ok.injEq] at hpart'
  subst hpart'
  rw [List.length_singleton] at hnext
  refine ⟨?_, by omega⟩
  rw [hlisting, hstart]
  simp

/-- At the end of a stream the machine is behind the expansion. -/
theorem startOf_of_getElem?_eq_none (hbody : expandAll a.assignment code = .ok body)
    (hi : code[index]? = none) : startOf a.assignment code index = body.length := by
  unfold startOf
  rw [List.take_of_length_le (List.getElem?_eq_none_iff.1 hi), hbody]

/-- Where the stream jumps the machine jumps. -/
theorem jumpTo_startOf (front : List Machine.Instr) (m : Machine.State)
    (h : Allocated rt.abi code size live a) (hbody : expandAll a.assignment code = .ok body)
    (hback : ∀ name, .label name ∉ back) {target : String} (hi : code[index]? = some i)
    (htarget : i.jumpTarget? = some target) :
    ∃ next, next ∈ successors code index ∧ jumpTo code target σ = .ok (next, σ)
      ∧ Machine.jumpTo (front ++ body ++ back) target m
        = .ok (front.length + startOf a.assignment code next, m) := by
  obtain ⟨next, hnext⟩ := h.targets index i target hi htarget
  refine ⟨next, ?_, ?_, ?_⟩
  · unfold successors
    simp only [hi]
    cases i with
    | jmp name | jcc cond name =>
      cases htarget
      simp [hnext]
    | _ => cases htarget
  · unfold jumpTo
    simp only [hnext]
  · unfold Machine.jumpTo
    simp only [labelIndex?_of_expandAll hbody (hback target) hnext]

section

variable (h : Allocated rt.abi code size live a) (hframe : Framed rt base a.frameSize)
  (hbody : expandAll a.assignment code = .ok body) (hback : ∀ name, .label name ∉ back)
  (hagree : Agree rt a.assignment code base (index, σ) m)
include h hframe hbody hagree

/-- Instructions that control only passes through are kept pace with. -/
theorem keepsPace_of_isStraight (hmemory : m.memory = σ.memory) (hreach : Reachable code index)
    (hi : code[index]? = some i) (hstraight : i.isStraight = true) :
    KeepsPace rt a.assignment code base (front ++ body ++ back) front.length
      (front.length + body.length) (index, σ) m := by
  have hstep : step rt code (index, σ) = (i.exec rt σ).map (index + 1, ·) := by
    unfold step
    simp only [hi]
    cases i <;> first | rfl | cases hstraight
  obtain ⟨before, part, after, hpart, hlisting, hstart, hnext⟩ :=
    exists_part front back hbody hi
  obtain ⟨part', hpart', hsimulated⟩ := simulated_of_fits
    (h.orderly.fits i (List.mem_of_getElem? hi)) hstraight (hagree.prepared h hmemory hi)
  rw [hpart, Except.ok.injEq] at hpart'
  subst hpart'
  unfold KeepsPace
  rw [hstep]
  rcases hsimulated with ⟨σ', m', hexec, hrun, hdone, huntouched⟩ | hexec | ⟨hexec, hrun⟩
  · rw [hexec]
    refine ⟨m', ?_, hagree.after h hi hdone huntouched hframe hmemory hreach hstraight⟩
    rw [hstart, hnext, hlisting]
    exact Machine.reaches_of_execAll hrun
  · rw [hexec]
    trivial
  · rw [hexec]
    show ∃ q, _
    rw [hstart, hlisting]
    exact Machine.stops_of_execAll hrun

/-- Calls are kept pace with. -/
theorem keepsPace_of_isCall (hreach : Reachable code index) (hi : code[index]? = some i)
    (hcall : i.isCall = true) :
    KeepsPace rt a.assignment code base (front ++ body ++ back) front.length
      (front.length + body.length) (index, σ) m := by
  have hstep : step rt code (index, σ) = .ok (index + 1, σ.onMachine (·.afterCall rt)) := by
    unfold step
    simp only [hi]
    cases i <;> first | rfl | cases hcall
  obtain ⟨j, hpart, hj⟩ : ∃ j, i.expand a.assignment = .ok [j]
      ∧ ((∃ symbol, j = .call symbol) ∨ ∃ r disp, j = .callIndirect r disp) := by
    cases i with
    | call symbol => exact ⟨_, rfl, .inl ⟨_, rfl⟩⟩
    | callIndirect r disp => exact ⟨_, rfl, .inr ⟨_, _, rfl⟩⟩
    | _ => cases hcall
  obtain ⟨hget, hnext⟩ := getElem?_of_expand_singleton front back hbody hi hpart
  unfold KeepsPace
  rw [hstep]
  refine ⟨m.afterCall rt, .step ?_ (.refl _), hagree.afterCall h hframe hi hcall hreach⟩
  unfold Machine.step
  simp only [hget, hnext, ← Nat.add_assoc]
  rcases hj with ⟨symbol, rfl⟩ | ⟨r, disp, rfl⟩ <;> rfl

include hback

/-- A machine that agrees with a stream in front of an instruction keeps pace with it. -/
theorem keepsPace_of_agree (hmemory : m.memory = σ.memory) (hreach : Reachable code index) :
    KeepsPace rt a.assignment code base (front ++ body ++ back) front.length
      (front.length + body.length) (index, σ) m := by
  cases hi : code[index]? with
  | none =>
    have hstep : step rt code (index, σ) = .error .finished := by
      unfold step
      simp only [hi]
    unfold KeepsPace
    rw [hstep]
    show _ = _
    rw [startOf_of_getElem?_eq_none hbody hi]
  | some i =>
    -- labels and jumps change nothing, so the two agree wherever control goes
    have hcarry : i.fixedWrite? = (fun _ => none) → i.effects = [] → i.isCall = false →
        i.writesFlags = false → ∀ next ∈ successors code index,
          Agree rt a.assignment code base (next, σ) m := by
      intro hfixed heffects hcall hflags next hnext
      refine hagree.carry hi (fun id hdef => ?_) (fun r hwrites => ?_) hflags hnext
      · obtain ⟨p, hp, -⟩ := hdef
        rw [heffects] at hp
        cases hp
      · rcases hwrites with hwrite | ⟨hcall', -⟩
        · rw [hfixed] at hwrite
          cases hwrite
        · rw [hcall] at hcall'
          cases hcall'
    cases i with
    | label name =>
      obtain ⟨hget, hnext⟩ := getElem?_of_expand_singleton front back
        (j := .label name) hbody hi rfl
      have hstep : step rt code (index, σ) = .ok (index + 1, σ) := by
        unfold step
        simp only [hi]
      unfold KeepsPace
      rw [hstep]
      refine ⟨m, .step ?_ (.refl _),
        hcarry rfl rfl rfl rfl (index + 1) (by simp [successors, hi])⟩
      unfold Machine.step
      simp only [hget, hnext, ← Nat.add_assoc]
    | jmp target =>
      obtain ⟨hget, -⟩ := getElem?_of_expand_singleton front back
        (j := .jmp target) hbody hi rfl
      obtain ⟨next, hnext, hjump, hjump'⟩ := jumpTo_startOf front m
        (σ := σ) h hbody hback hi rfl
      have hstep : step rt code (index, σ) = .ok (next, σ) := by
        unfold step
        simp only [hi, hjump]
      unfold KeepsPace
      rw [hstep]
      refine ⟨m, .step ?_ (.refl _), hcarry rfl rfl rfl rfl next hnext⟩
      unfold Machine.step
      simp only [hget, hjump']
    | jcc cond target =>
      obtain ⟨hget, hsucc⟩ := getElem?_of_expand_singleton front back
        (j := .jcc cond target) hbody hi rfl
      obtain ⟨next, hnext, hjump, hjump'⟩ := jumpTo_startOf front m
        (σ := σ) h hbody hback hi rfl
      -- the flags are the same, and so is the branch
      obtain ⟨f, hf, hf'⟩ : ∃ f, m.flags = some f ∧ σ.flags = some f :=
        hagree.flags (.read hi rfl)
      have hstep : step rt code (index, σ)
          = .ok (if cond.holds f then next else index + 1, σ) := by
        unfold step
        simp only [hi, hf', hjump]
        split <;> rfl
      have hbranch : (if cond.holds f then next else index + 1) ∈ successors code index := by
        split
        · exact hnext
        · simp [successors, hi]
      unfold KeepsPace
      rw [hstep]
      refine ⟨m, .step ?_ (.refl _), hcarry rfl rfl rfl rfl _ hbranch⟩
      unfold Machine.step
      simp only [hget, hf, hjump']
      split
      · rfl
      · simp only [hsucc, ← Nat.add_assoc]
    | call symbol => exact keepsPace_of_isCall h hframe hbody hagree hreach hi rfl
    | callIndirect r disp => exact keepsPace_of_isCall h hframe hbody hagree hreach hi rfl
    | _ => exact keepsPace_of_isStraight h hframe hbody hagree hmemory hreach hi rfl

end

end

/-! ## Any number of steps -/

/-- A stream has run for a number of steps, and the machine has come with it. In front of every
instruction the stream finds in the frame what the machine has there, and behind
it the two agree again. -/
inductive SideBySide (rt : Runtime) (a : Assignment) (code : List Instr) (base : Word)
    (listing : List Machine.Instr) (front : Nat) (p : Nat × State) (m : Machine.State) :
    Nat → Nat × State → Machine.State → Prop
  | start : Agree rt a code base p m → SideBySide rt a code base listing front p m 0 p m
  | step {n : Nat} {q r : Nat × State} {m' m'' : Machine.State} :
      SideBySide rt a code base listing front p m n q m' →
      SameOutsideFrame rt q.2 (q.2.withMemory m'.memory) →
      step rt code (q.1, q.2.withMemory m'.memory) = .ok r →
      Machine.Reaches rt listing (front + startOf a code q.1, m')
        (front + startOf a code r.1, m'') →
      Agree rt a code base r m'' → SideBySide rt a code base listing front p m (n + 1) r m''

/-- A run of a stream is over: it is at the end of the stream, and the machine behind the
expansion; it divides by zero, and so does the machine; or it stores into the frame. -/
def RunsOut (rt : Runtime) (a : Assignment) (code : List Instr) (listing : List Machine.Instr)
    (front last : Nat) (q : Nat × State) (m : Machine.State) : Prop :=
  let stop := step rt code (q.1, q.2.withMemory m.memory)
  stop = .error .finished ∧ front + startOf a code q.1 = last
    ∨ stop = .error .divide
      ∧ (∃ r, Machine.Reaches rt listing (front + startOf a code q.1, m) r
        ∧ Machine.step rt listing r = .error .divide)
    ∨ stop = .error .frame

namespace SideBySide

variable {rt : Runtime} {a : Assignment} {code : List Instr} {base : Word}
  {listing : List Machine.Instr} {front n : Nat} {p q : Nat × State} {m m' : Machine.State}

theorem agree (h : SideBySide rt a code base listing front p m n q m') :
    Agree rt a code base q m' := by
  cases h with
  | start hagree | step _ _ _ _ hagree => exact hagree

theorem reachable (h : SideBySide rt a code base listing front p m n q m')
    (hp : Reachable code p.1) : Reachable code q.1 := by
  induction h with
  | start _ => exact hp
  | step _ _ hstep _ _ ih =>
    have hnext := mem_successors_of_step hstep
    exact ih.step hnext

end SideBySide

section

variable {rt : Runtime} {code : List Instr} {size : Nat → Size} {live : Liveness}
  {a : Allocation} {base : Word} {body front back : List Machine.Instr} {p : Nat × State}
  {m : Machine.State}

/-- From where they agree the machine comes with the stream as far as the stream runs. -/
theorem exists_sideBySide (h : Allocated rt.abi code size live a)
    (hframe : Framed rt base a.frameSize) (hbody : expandAll a.assignment code = .ok body)
    (hback : ∀ name, .label name ∉ back) (hreach : Reachable code p.1)
    (hagree : Agree rt a.assignment code base p m) (n : Nat) :
    ∃ k q m', SideBySide rt a.assignment code base (front ++ body ++ back)
      front.length p m k q m'
      ∧ (k = n ∨ k < n ∧ RunsOut rt a.assignment code (front ++ body ++ back) front.length
          (front.length + body.length) q m') := by
  induction n with
  | zero => exact ⟨0, p, m, .start hagree, .inl rfl⟩
  | succ n ih =>
    obtain ⟨k, q, m', hrun, rfl | ⟨hlt, hout⟩⟩ := ih
    · obtain ⟨hsame, hagree'⟩ := hrun.agree.withMemory
      have hpace : KeepsPace rt a.assignment code base (front ++ body ++ back) front.length
          (front.length + body.length) (q.1, q.2.withMemory m'.memory) m' :=
        keepsPace_of_agree h hframe hbody hback hagree' rfl (hrun.reachable hreach)
      unfold KeepsPace at hpace
      cases hstep : step rt code (q.1, q.2.withMemory m'.memory) with
      | ok r =>
        rw [hstep] at hpace
        obtain ⟨m'', hreaches, hafter⟩ := hpace
        exact ⟨k + 1, r, m'', .step hrun hsame hstep hreaches hafter, .inl rfl⟩
      | error e =>
        rw [hstep] at hpace
        refine ⟨k, q, m', hrun, .inr ⟨Nat.lt_succ_self k, ?_⟩⟩
        cases e with
        | finished => exact .inl ⟨hstep, hpace⟩
        | divide => exact .inr (.inl ⟨hstep, hpace⟩)
        | frame => exact .inr (.inr hstep)
        | unknown => exact hpace.elim
    · exact ⟨k, q, m', hrun, .inr ⟨Nat.lt_succ_of_lt hlt, hout⟩⟩

end

/-! ## Functions -/

section

variable {u : ClassUnit} {abi : Abi} {position : Nat} {f : Jil.Function}
  {strings interned : Assembly.StringTable} {p : Pseudo.Function} {live : Liveness}
  {a : Allocation}

/-- The allocation for the stream of a function that passed its check, where intervals
cover what is needed. -/
theorem exists_allocated (habi : abi ∈ Abi.all) (hf : Checked u position f)
    (hthis : Selection.KeepsReceiver f)
    (hselect : Selection.ofFunction u abi position f strings = (.ok p, interned))
    (hlive : Liveness.ofCode p.code = .ok live) (hcovers : live.Covers p.code)
    (halloc : Allocation.ofCode abi p.code = .ok a) :
    ∃ size, Allocated abi p.code size live a := by
  obtain ⟨size, horderly⟩ := Selection.orderly_of_ofFunction habi hf hthis hselect
  obtain ⟨live', hlive', hmeets⟩ := Allocation.spec_of_ofCode habi halloc
  obtain rfl : live = live' := Except.ok.inj (hlive.symm.trans hlive')
  exact ⟨size, habi, horderly, Liveness.spec_of_ofCode hlive, hmeets, hcovers,
    fun _ _ _ hi hname => exists_target_of_ofCode hlive hi hname⟩

/-- The expanded code of a function, begun in any state, runs side by side with the stream of
the function for as many steps as the stream takes: behind every instruction the values that
are needed are at their locations, the hardware registers and flags that are read next hold the
same, and control is at the beginning of the expansion of the same instruction. The code may
stand in a listing behind any other code and in front of code without labels. -/
theorem expanded_runs_in_lockstep (habi : abi ∈ Abi.all) (hf : Checked u position f)
    (hthis : Selection.KeepsReceiver f)
    (hselect : Selection.ofFunction u abi position f strings = (.ok p, interned))
    (hlive : Liveness.ofCode p.code = .ok live) (hcovers : live.Covers p.code)
    (halloc : Allocation.ofCode abi p.code = .ok a) :
    ∃ body, expandAll a.assignment p.code = .ok body ∧
      ∀ (rt : Runtime) (front back : List Machine.Instr) (σ : State), rt.abi = abi →
        Framed rt (σ.regs .rbp) a.frameSize → (∀ name, .label name ∉ back) →
        let listing := front ++ body ++ back
        ∀ n, ∃ k q m, SideBySide rt a.assignment p.code (σ.regs .rbp) listing front.length
            (0, σ) σ.toState k q m
          ∧ (k = n ∨ k < n ∧ RunsOut rt a.assignment p.code listing front.length
              (front.length + body.length) q m) := by
  obtain ⟨size, h⟩ := exists_allocated habi hf hthis hselect hlive hcovers halloc
  obtain ⟨body, hbody⟩ := h.exists_expandAll
  refine ⟨body, hbody, fun rt front back σ hrt hframe hback => ?_⟩
  subst hrt
  exact exists_sideBySide h hframe hbody hback .entry (Agree.entry h σ)

end

/-- The stream of the remainder of two bytes. The register of the first byte is reused by the
instruction that extends it. -/
def remainderStream : Pseudo.Function :=
  let p (id : Nat) (size : Size) : Operand := .pseudo ⟨id, size⟩
  { symbol := Selection.remainderUnit.functionSymbol .systemV Selection.remainderChecked
    code :=
      [.mov .quad (.fixed .rdi) (p 3 .quad), .mov .byte (.imm (-7)) (p 0 .byte),
        .mov .byte (.imm 2) (p 1 .byte), .extend true .byte .long (p 0 .byte) (p 4 .long),
        .extend true .byte .long (p 1 .byte) (p 5 .long), .mov .long (p 4 .long) (.fixed .rax),
        .signExtendAccumulator .long, .idiv .long (p 5 .long),
        .mov .long (.fixed .rdx) (p 6 .long), .mov .byte (p 6 .long) (p 2 .byte),
        .jmp ".LF0_exit", .label ".LF0_exit"]
    exitLabel := ".LF0_exit"
    serviceCalls := 0 }

/-- The compiled remainder comes with its stream, to the end of both or to a stop of both. -/
theorem remainder_runs_in_lockstep :
    ∃ live a body, Checked Selection.remainderUnit 0 Selection.remainderChecked
      ∧ Selection.KeepsReceiver Selection.remainderChecked
      ∧ Selection.ofFunction Selection.remainderUnit .systemV 0 Selection.remainderChecked {}
        = (.ok remainderStream, {})
      ∧ Liveness.ofCode remainderStream.code = .ok live ∧ live.Covers remainderStream.code
      ∧ Allocation.ofCode .systemV remainderStream.code = .ok a
      ∧ Framed Selection.quiet 0 a.frameSize
      ∧ expandAll a.assignment remainderStream.code = .ok body
      ∧ ∃ k q m, SideBySide Selection.quiet a.assignment remainderStream.code 0
          ([.push .rbp] ++ body ++ [.leave, .ret]) 1 (0, Selection.remainderState)
          Selection.remainderState.toState k q m
        ∧ (k = 13 ∨ k < 13 ∧ RunsOut Selection.quiet a.assignment remainderStream.code
            ([.push .rbp] ++ body ++ [.leave, .ret]) 1 (1 + body.length) q m) := by
  have habi : Abi.systemV ∈ Abi.all := by decide
  have hthis : Selection.KeepsReceiver Selection.remainderChecked := nofun
  obtain ⟨live, hlive⟩ : ∃ live, Liveness.ofCode remainderStream.code = .ok live := ⟨_, rfl⟩
  have hentry : ∀ id, ¬ LiveIn remainderStream.code id 0 :=
    Liveness.not_liveIn_of_writtenFirst
      (fun | 2 => [0] | 3 => [0, 1] | 4 => [1, 4] | 5 => [4, 5] | 6 => [5] | 7 => [5]
           | 9 => [6] | _ => []) (by decide) rfl
  have hcovers : live.Covers remainderStream.code :=
    (Liveness.spec_of_ofCode hlive).covers_of_forward hentry (by decide)
  obtain ⟨a, halloc⟩ : ∃ a, Allocation.ofCode .systemV remainderStream.code = .ok a := ⟨_, rfl⟩
  have hsize : a.frameSize = 0 := by
    have hcomputed :
        (Allocation.ofCode .systemV remainderStream.code).toOption.map (·.frameSize)
        = some 0 := by decide +kernel
    rw [halloc] at hcomputed
    exact Option.some.inj hcomputed
  have hselect :
      Selection.ofFunction Selection.remainderUnit .systemV 0 Selection.remainderChecked {}
      = (.ok remainderStream, {}) := rfl
  have hframe : Framed Selection.quiet 0 a.frameSize := by
    rw [hsize]
    exact ⟨by decide, fun x => ⟨nofun, fun hx => absurd hx (Nat.not_lt_zero _)⟩⟩
  obtain ⟨body, hbody, hruns⟩ :=
    expanded_runs_in_lockstep habi Selection.checked_remainder hthis hselect hlive
      hcovers halloc
  exact ⟨live, a, body, Selection.checked_remainder, hthis, hselect, hlive, hcovers,
    halloc, hframe, hbody,
    hruns Selection.quiet [.push .rbp] [.leave, .ret] Selection.remainderState rfl hframe
      (by simp) 13⟩

end Jil.Pseudo
