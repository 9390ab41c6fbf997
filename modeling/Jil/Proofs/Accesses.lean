/-
Jil.Proofs.Accesses — what machine instructions read and write.

An instruction reads the values of operands (`reads`), and the registers that
the addresses in it are made of; it writes operands (`writes`). What a call
leads to is no part of the instruction: a call changes what does not survive it.

The lists are complete. Two states of which an instruction reads the same are
`Alike` for it, and in both of them it stops for the same reason, or it puts the
same values into the places that it writes and does no more
(`exec_eq_of_alike`). A step therefore changes no register that its instruction
does not write (`regs_of_step`).
-/
import Jil.Proofs.Encoding
import Jil.Proofs.FrameBody

namespace Jil.Machine

/-! ## Reads and writes -/

namespace Instr

/-- The operands whose values an instruction reads, and how much of them. -/
def reads : Instr → List (Size × Operand)
  | .alu op s src dest => (s, src) :: if op.readsDestination then [(s, dest)] else []
  | .extend _ narrow _ src _ => [(narrow, src)]
  | .neg s dest | .not s dest => [(s, dest)]
  | .shift _ s dest => [(.byte, .reg .rcx), (s, dest)]
  | .idiv s divisor => [(s, .reg .rax), (s, .reg .rdx), (s, divisor)]
  | .signExtendAccumulator s => [(s, .reg .rax)]
  | .callIndirect base disp => [(.quad, .mem base disp)]
  | _ => []

/-- The operands that an instruction writes, named in it or not, and how much of them. -/
def writes : Instr → List (Size × Operand)
  | .idiv s _ => [(s, .reg .rax), (s, .reg .rdx)]
  | .signExtendAccumulator s => [(s, .reg .rdx)]
  | i => i.written?.toList

/-- Whether a call changes a register. -/
def Clobbers (abi : Abi) (i : Instr) (r : Reg) : Prop :=
  i.isCall = true ∧ State.survives abi r = false

/-- Whether an instruction only computes an address. -/
def isAddress : Instr → Bool
  | .lea _ _ => true
  | _ => false

/-- An operand is read or written, unless it is an address that is only computed. -/
theorem accessed_of_mem_operands {i : Instr} {o : Operand} (ho : o ∈ i.operands)
    (haddress : i.isAddress = false) (hstack : i.isStack = false) :
    (∃ s, (s, o) ∈ i.reads) ∨ ∃ s, (s, o) ∈ i.writes := by
  cases i with
  | alu op s src dest =>
    rcases List.mem_cons.1 ho with rfl | ho
    · exact .inl ⟨s, List.mem_cons_self⟩
    · cases List.mem_singleton.1 ho
      cases hop : op.writesDestination with
      | true => exact .inr ⟨s, by simp [writes, written?, hop]⟩
      | false =>
        have hread : op.readsDestination = true := by
          cases op <;> first | rfl | cases hop
        exact .inl ⟨s, List.mem_cons_of_mem _ (by simp [hread])⟩
  | extend signed narrow wide src dest =>
    rcases List.mem_cons.1 ho with rfl | ho
    · exact .inl ⟨narrow, List.mem_cons_self⟩
    · exact .inr ⟨wide, by rw [List.mem_singleton.1 ho]; exact List.mem_cons_self⟩
  | lea src dest => cases haddress
  | neg s dest => exact .inl ⟨s, by rw [List.mem_singleton.1 ho]; exact List.mem_cons_self⟩
  | not s dest => exact .inl ⟨s, by rw [List.mem_singleton.1 ho]; exact List.mem_cons_self⟩
  | shift op s dest =>
    exact .inr ⟨s, by rw [List.mem_singleton.1 ho]; exact List.mem_cons_self⟩
  | idiv s divisor => exact .inl ⟨s, by rw [List.mem_singleton.1 ho]; simp [reads]⟩
  | setcc cond dest =>
    exact .inr ⟨.byte, by rw [List.mem_singleton.1 ho]; exact List.mem_cons_self⟩
  | callIndirect base disp =>
    exact .inl ⟨.quad, by rw [List.mem_singleton.1 ho]; exact List.mem_cons_self⟩
  | push r | pop r => cases hstack
  | _ => cases ho

end Instr

/-- A value, and where it is written. -/
structure Put where
  size : Size
  place : Operand
  value : Value size

/-- The state after a value was written. -/
def State.put (rt : Runtime) (m : State) (p : Put) : State := m.write rt p.size p.value p.place

/-- Two states of which an instruction reads the same. -/
structure Alike (rt : Runtime) (i : Instr) (m m' : State) : Prop where
  values : ∀ s o, (s, o) ∈ i.reads → m'.read rt s o = m.read rt s o
  bases : ∀ base disp, .mem base disp ∈ i.operands → m'.regs base = m.regs base
  flags : m'.flags = m.flags

variable {rt : Runtime} {i : Instr} {m m' after : State} {r : Reg} {s : Size}

theorem Alike.refl (rt : Runtime) (i : Instr) (m : State) : Alike rt i m m :=
  ⟨fun _ _ _ => rfl, fun _ _ _ => rfl, rfl⟩

/-- Writing an operand leaves the flags as they were. -/
theorem setFlags_write (rt : Runtime) (m : State) (s : Size) (v : Value s) (o : Operand) :
    (m.write rt s v o).setFlags m.flags = m.write rt s v o := by
  cases o <;> rfl

/-- In two states an instruction stops for the same reason, or it puts the same values into the
places that it writes, and does no more. -/
def ActsAlike (rt : Runtime) (i : Instr) (m m' : State) : Prop :=
  (∃ e, i.exec rt m = .error e ∧ i.exec rt m' = .error e) ∨
    ∃ (ps : List Put) (flags : Option Flags), ps.map (fun p => (p.size, p.place)) = i.writes
      ∧ i.exec rt m = .ok ((ps.foldl (State.put rt) m).setFlags flags)
      ∧ i.exec rt m' = .ok ((ps.foldl (State.put rt) m').setFlags flags)

theorem actsAlike_of_write {o : Operand} (v : Value s) (flags : Option Flags)
    (hwrites : i.writes = [(s, o)])
    (hm : i.exec rt m = .ok ((m.write rt s v o).setFlags flags))
    (hm' : i.exec rt m' = .ok ((m'.write rt s v o).setFlags flags)) : ActsAlike rt i m m' :=
  .inr ⟨[⟨s, o, v⟩], flags, hwrites.symm, hm, hm'⟩

/-- Instructions that keep the flags. -/
theorem actsAlike_of_keeping {o : Operand} (v : Value s) (hwrites : i.writes = [(s, o)])
    (hflags : m'.flags = m.flags) (hm : i.exec rt m = .ok (m.write rt s v o))
    (hm' : i.exec rt m' = .ok (m'.write rt s v o)) : ActsAlike rt i m m' := by
  refine actsAlike_of_write v m.flags hwrites ?_ ?_
  · rw [hm, setFlags_write]
  · rw [hm', ← hflags, setFlags_write]

/-- The result of an operation does not depend on a destination that it does not read. -/
theorem AluOp.result_congr (op : AluOp) (src : Value s) {dest dest' : Value s}
    (flags : Option Flags) (h : op.readsDestination = true → dest' = dest) :
    op.value src dest' = op.value src dest
    ∧ op.flags src dest' flags = op.flags src dest flags := by
  cases op with
  | mov => exact ⟨rfl, rfl⟩
  | _ => rw [h rfl]; exact ⟨rfl, rfl⟩

/-- What an instruction writes depends on what it reads, and on nothing else. -/
theorem actsAlike_of_alike (h : Alike rt i m m') (hstack : i.isStack = false) :
    ActsAlike rt i m m' := by
  by_cases hexec : i.isExecutable = true
  case neg => exact .inl ⟨.unknown, by simp [Instr.exec, hexec], by simp [Instr.exec, hexec]⟩
  cases i with
  | alu op s src dest =>
    have hsrc := h.values s src List.mem_cons_self
    obtain ⟨hvalue, hflags⟩ := op.result_congr (m.read rt s src) m.flags
      fun hop => h.values s dest (List.mem_cons_of_mem _ (by simp [hop]))
    cases hop : op.writesDestination with
    | true =>
      refine actsAlike_of_write (o := dest) (op.value (m.read rt s src) (m.read rt s dest))
        (op.flags (m.read rt s src) (m.read rt s dest) m.flags) ?_ ?_ ?_
      · simp [Instr.writes, Instr.written?, hop]
      · simp [Instr.exec, hexec, hop]
      · simp [Instr.exec, hexec, hop, hsrc, h.flags, hvalue, hflags]
    | false =>
      refine .inr ⟨[], op.flags (m.read rt s src) (m.read rt s dest) m.flags, ?_, ?_, ?_⟩
      · simp [Instr.writes, Instr.written?, hop]
      · simp [Instr.exec, hexec, hop]
      · simp [Instr.exec, hexec, hop, hsrc, h.flags, hflags]
  | extend signed narrow wide src dest =>
    have hsrc := h.values narrow src (List.mem_singleton.2 rfl)
    refine actsAlike_of_keeping (o := .reg dest)
      (extension signed narrow wide (m.read rt narrow src))
      rfl h.flags rfl ?_
    rw [← hsrc]
    rfl
  | lea src dest =>
    cases src with
    | mem base disp =>
      have hbase := h.bases base disp List.mem_cons_self
      refine actsAlike_of_keeping (s := .quad) (o := .reg dest)
        (m.regs base + BitVec.ofInt 64 disp)
        rfl h.flags rfl ?_
      rw [← hbase]
      rfl
    | rip symbol disp =>
      exact actsAlike_of_keeping (s := .quad) (o := .reg dest)
        (rt.symbol symbol + BitVec.ofInt 64 disp) rfl h.flags rfl rfl
    | _ => cases hexec
  | neg s dest =>
    have hdest := h.values s dest (List.mem_singleton.2 rfl)
    refine actsAlike_of_write (-(m.read rt s dest)) none rfl ?_ ?_
    · simp [Instr.exec, hexec]
    · simp [Instr.exec, hexec, hdest]
  | not s dest =>
    have hdest := h.values s dest (List.mem_singleton.2 rfl)
    refine actsAlike_of_keeping (~~~(m.read rt s dest)) rfl h.flags ?_ ?_
    · simp [Instr.exec, hexec]
    · simp [Instr.exec, hexec, hdest]
  | shift op s dest =>
    have hcount : m'.reg .byte .rcx = m.reg .byte .rcx :=
      h.values .byte (.reg .rcx) List.mem_cons_self
    have hdest := h.values s dest (List.mem_cons_of_mem _ List.mem_cons_self)
    refine actsAlike_of_write (op.value (m.reg .byte .rcx) (m.read rt s dest)) none rfl ?_ ?_
    · simp [Instr.exec, hexec]
    · simp [Instr.exec, hexec, hcount, hdest]
  | idiv s divisor =>
    have hlow : m'.reg s .rax = m.reg s .rax := h.values s (.reg .rax) (by simp [Instr.reads])
    have hhigh : m'.reg s .rdx = m.reg s .rdx := h.values s (.reg .rdx) (by simp [Instr.reads])
    have hdivisor := h.values s divisor (by simp [Instr.reads])
    by_cases hs : s = .byte
    · exact .inl ⟨.unknown, by simp [Instr.exec, hs], by simp [Instr.exec, hs]⟩
    · cases hdivision : division (m.reg s .rdx) (m.reg s .rax) (m.read rt s divisor) with
      | none =>
        refine .inl ⟨.divide, ?_, ?_⟩
        · simp [Instr.exec, hexec, hs, hdivision]
        · simp [Instr.exec, hexec, hs, hlow, hhigh, hdivisor, hdivision]
      | some results =>
        refine .inr ⟨[⟨s, .reg .rax, results.1⟩, ⟨s, .reg .rdx, results.2⟩], none, rfl, ?_, ?_⟩
        · simp [Instr.exec, hexec, hs, hdivision, State.put, State.write]
        · simp [Instr.exec, hexec, hs, hlow, hhigh, hdivisor, hdivision, State.put,
            State.write]
  | signExtendAccumulator s =>
    have hlow : m'.reg s .rax = m.reg s .rax :=
      h.values s (.reg .rax) (List.mem_singleton.2 rfl)
    by_cases hs : s = .byte
    · exact .inl ⟨.unknown, by simp [Instr.exec, hs], by simp [Instr.exec, hs]⟩
    · refine actsAlike_of_keeping (o := .reg .rdx) (signFill (m.reg s .rax)) rfl h.flags ?_ ?_
      · simp [Instr.exec, hexec, hs, State.write]
      · simp [Instr.exec, hexec, hs, hlow, State.write]
  | setcc cond dest =>
    cases hflags : m.flags with
    | none =>
      refine .inl ⟨.unknown, ?_, ?_⟩
      · simp [Instr.exec, hexec, hflags]
      · simp [Instr.exec, hexec, h.flags, hflags]
    | some f =>
      refine actsAlike_of_keeping (if cond.holds f then 1 else 0) rfl h.flags ?_ ?_
      · simp [Instr.exec, hexec, hflags]
      · simp [Instr.exec, hexec, h.flags, hflags]
  | push r | pop r | leave => cases hstack
  | _ => exact .inl ⟨.unknown, rfl, rfl⟩

/-! ## Registers -/

/-- Writes elsewhere leave a register as it was. -/
theorem regs_foldl_put {ps : List Put} (h : ∀ p ∈ ps, p.place ≠ .reg r) :
    (ps.foldl (State.put rt) m).regs r = m.regs r := by
  induction ps generalizing m with
  | nil => rfl
  | cons p ps ih =>
    rw [List.foldl_cons, ih fun p hp => h p (List.mem_cons_of_mem _ hp)]
    exact regs_write p.value (h p List.mem_cons_self)

/-- An instruction leaves the registers as they were that it does not write. -/
theorem regs_of_exec (hexec : i.exec rt m = .ok after) (hstack : i.isStack = false)
    (hr : ∀ s, (s, .reg r) ∉ i.writes) : after.regs r = m.regs r := by
  rcases actsAlike_of_alike (.refl rt i m) hstack with ⟨e, he, -⟩ | ⟨ps, flags, hps, hok, -⟩
  · rw [he] at hexec
    cases hexec
  · rw [hok] at hexec
    cases hexec
    refine regs_foldl_put fun p hp hplace => hr p.size ?_
    rw [← hps, ← hplace]
    exact List.mem_map_of_mem hp

/-- A step changes no register that its instruction does not write, calls what does not survive
them. -/
theorem regs_of_step {code : List Instr} {p q : Nat × State} (hi : code[p.1]? = some i)
    (hstep : step rt code p = .ok q) (hstack : i.isStack = false)
    (hr : ∀ s, (s, .reg r) ∉ i.writes) (hcall : ¬ i.Clobbers rt.abi r) :
    q.2.regs r = p.2.regs r := by
  obtain ⟨j, hj, hcases⟩ := step_eq_ok hstep
  obtain rfl : i = j := Option.some.inj (hi.symm.trans hj)
  rcases hcases with ⟨after, hexec, rfl⟩ | ⟨-, ⟨hiscall, rfl⟩ | rfl | ⟨target, next, -, rfl⟩⟩
  · exact regs_of_exec hexec hstack hr
  · have hsurvives : State.survives rt.abi r = true := by
      cases hr : State.survives rt.abi r with
      | true => rfl
      | false => exact absurd ⟨hiscall, hr⟩ hcall
    exact if_pos hsurvives
  · rfl
  · rfl

/-! ## States that agree -/

theorem State.reg_quad (st : State) (r : Reg) : st.reg .quad r = st.regs r :=
  BitVec.setWidth_eq _

/-- The low bits of a register whose low part was written depend on its low bits. -/
theorem setWidth_merge_congr {s t : Size} {old old' : Word} (v : Value t)
    (h : old'.setWidth s.bits = old.setWidth s.bits) :
    (merge t old' v).setWidth s.bits = (merge t old v).setWidth s.bits := by
  unfold merge
  split
  · rfl
  · apply BitVec.eq_of_getLsbD_eq
    intro k hk
    have hbit := congrArg (BitVec.getLsbD · k) h
    simp only [BitVec.getLsbD_setWidth, hk, decide_true, Bool.true_and] at hbit
    simp only [BitVec.getLsbD_setWidth, BitVec.getLsbD_or, BitVec.getLsbD_shiftLeft,
      BitVec.getLsbD_ushiftRight, hk, decide_true, Bool.true_and]
    by_cases hlow : k < t.bits
    · simp [hlow]
    · rw [Nat.add_sub_cancel' (Nat.le_of_not_lt hlow), hbit]

/-- Two states that agree on memory, flags and what is known of the registers. -/
structure SameOn (known : Size → Reg → Prop) (m m' : State) : Prop where
  regs : ∀ s r, known s r → m'.reg s r = m.reg s r
  memory : m'.memory = m.memory
  flags : m'.flags = m.flags

/-- What was written is known afterwards. -/
theorem SameOn.put {known : Size → Reg → Prop} (h : SameOn known m m') (rt : Runtime) {p : Put}
    (hbase : ∀ base disp, p.place = .mem base disp → known .quad base) :
    SameOn (fun s r => known s r ∨ p.place = .reg r ∧ s.bytes ≤ p.size.bytes)
      (m.put rt p) (m'.put rt p) := by
  obtain ⟨s, place, v⟩ := p
  cases place with
  | reg x =>
    refine ⟨fun t r hr => ?_, h.memory, h.flags⟩
    show (m'.setReg s x v).reg t r = (m.setReg s x v).reg t r
    rcases hr with hr | ⟨heq, hsize⟩
    · by_cases heq : r = x
      · subst heq
        simp only [State.reg, State.setReg, if_true]
        exact setWidth_merge_congr v (h.regs t r hr)
      · rw [State.reg_setReg_of_ne _ _ heq, State.reg_setReg_of_ne _ _ heq, h.regs t r hr]
    · cases heq
      have hbits : t.bits ≤ s.bits := Nat.mul_le_mul_left 8 hsize
      rw [State.reg_setReg _ hbits, State.reg_setReg _ hbits]
  | imm n =>
    exact ⟨fun t r hr => h.regs t r (hr.resolve_right fun h => nomatch h.1), h.memory, h.flags⟩
  | mem base disp =>
    refine ⟨fun t r hr => h.regs t r (hr.resolve_right fun h => nomatch h.1), ?_, h.flags⟩
    have hregs : m'.regs base = m.regs base := by
      rw [← State.reg_quad, ← State.reg_quad, h.regs .quad base (hbase base disp rfl)]
    show m'.memory.store _ _ _ = m.memory.store _ _ _
    rw [h.memory, hregs]
  | rip symbol disp =>
    refine ⟨fun t r hr => h.regs t r (hr.resolve_right fun h => nomatch h.1), ?_, h.flags⟩
    show m'.memory.store _ _ _ = m.memory.store _ _ _
    rw [h.memory]

/-- What a list of writes has written is known afterwards. -/
theorem SameOn.foldl_put {known : Size → Reg → Prop} (h : SameOn known m m') (rt : Runtime)
    {ps : List Put}
    (hbase : ∀ p ∈ ps, ∀ base disp, p.place = .mem base disp → known .quad base) :
    SameOn (fun s r => known s r ∨ ∃ p ∈ ps, p.place = .reg r ∧ s.bytes ≤ p.size.bytes)
      (ps.foldl (State.put rt) m) (ps.foldl (State.put rt) m') := by
  induction ps generalizing m m' known with
  | nil => exact ⟨fun s r hr => h.regs s r (hr.resolve_right nofun), h.memory, h.flags⟩
  | cons p ps ih =>
    have hput := h.put rt (hbase p List.mem_cons_self)
    have hrest := ih hput fun q hq base disp hplace =>
      .inl (hbase q (List.mem_cons_of_mem _ hq) base disp hplace)
    refine ⟨fun s r hr => hrest.regs s r ?_, hrest.memory, hrest.flags⟩
    rcases hr with hr | ⟨q, hq, hplace⟩
    · exact .inl (.inl hr)
    · rcases List.mem_cons.1 hq with rfl | hq
      · exact .inl (.inr hplace)
      · exact .inr ⟨q, hq, hplace⟩

/-- What an instruction computes from what is known is known afterwards. -/
theorem SameOn.exec {known : Size → Reg → Prop} (h : SameOn known m m') (rt : Runtime)
    (hstack : i.isStack = false)
    (hread : ∀ s o, (s, o) ∈ i.reads → m'.read rt s o = m.read rt s o)
    (hbase : ∀ base disp, .mem base disp ∈ i.operands → known .quad base)
    (hplace : ∀ s base disp, (s, .mem base disp) ∈ i.writes → known .quad base) :
    (∃ e, i.exec rt m = .error e ∧ i.exec rt m' = .error e) ∨
      ∃ after after', i.exec rt m = .ok after ∧ i.exec rt m' = .ok after'
        ∧ SameOn (fun s r => known s r ∨ ∃ t, (t, .reg r) ∈ i.writes ∧ s.bytes ≤ t.bytes)
          after after' := by
  have halike : Alike rt i m m' := by
    refine ⟨hread, fun base disp ho => ?_, h.flags⟩
    rw [← State.reg_quad, ← State.reg_quad, h.regs .quad base (hbase base disp ho)]
  rcases actsAlike_of_alike halike hstack with hstop | ⟨ps, flags, hps, hok, hok'⟩
  · exact .inl hstop
  · have hmem : ∀ p ∈ ps, (p.size, p.place) ∈ i.writes := fun p hp => by
      rw [← hps]
      exact List.mem_map_of_mem hp
    have hputs := h.foldl_put rt fun p (hp : p ∈ ps) base disp heq =>
      hplace p.size base disp (heq ▸ hmem p hp)
    refine .inr ⟨_, _, hok, hok', fun s r hr => hputs.regs s r ?_, hputs.memory, rfl⟩
    refine hr.imp_right fun ⟨t, ht, hsize⟩ => ?_
    rw [← hps] at ht
    obtain ⟨p, hp, heq⟩ := List.mem_map.1 ht
    obtain ⟨rfl, hplace⟩ := Prod.mk.inj heq
    exact ⟨p, hp, hplace, hsize⟩

end Jil.Machine
