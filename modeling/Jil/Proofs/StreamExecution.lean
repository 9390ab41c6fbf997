/-
Jil.Proofs.StreamExecution — what streams over pseudo-registers do.

A stream runs on the machine with an unlimited supply of further registers:
its `State` is the machine's and the words in the pseudo-registers. `exec`,
`step` and `execAll` are the counterparts of those of the machine.

A stream has no frame yet. What it would read there is left open: a run beside
one of the machine finds there what the machine has (`SameOutsideFrame`), and a
store into the frame stops the run.
-/
import Jil.Proofs.Execution
import Jil.Proofs.Flow

namespace Jil.Pseudo

open Jil.Machine (Memory Runtime Size Stop Value Word extension division signFill merge)

/-! ## States -/

/-- State of a stream. -/
structure State extends Machine.State where
  /-- The words in the pseudo-registers. -/
  pseudo : Nat → Word

namespace State

/-- The low part of a pseudo-register. -/
def value (st : State) (s : Size) (id : Nat) : Value s := (st.pseudo id).setWidth s.bits

/-- Writes the low part of a pseudo-register. -/
def setPseudo (st : State) (s : Size) (id : Nat) (v : Value s) : State :=
  { st with pseudo := fun x => if x = id then merge s (st.pseudo id) v else st.pseudo x }

/-- Changes what the machine has too. -/
def onMachine (st : State) (f : Machine.State → Machine.State) : State :=
  { st with toState := f st.toState }

/-- The address of a memory operand. -/
def address (st : State) (rt : Runtime) : Operand → Option Word
  | .indirect base disp => some (st.pseudo base.id + BitVec.ofInt 64 disp)
  | .fixedIndirect base disp => some (st.regs base + BitVec.ofInt 64 disp)
  | .rip symbol disp => some (rt.symbol symbol + BitVec.ofInt 64 disp)
  | .pseudo _ | .fixed _ | .imm _ => none

/-- The value of an operand. -/
def read (st : State) (rt : Runtime) (s : Size) : Operand → Value s
  | .pseudo p => st.value s p.id
  | .fixed r => st.reg s r
  | .imm v => BitVec.ofInt _ v
  | .indirect base disp => st.memory.load (st.pseudo base.id + BitVec.ofInt 64 disp) s
  | .fixedIndirect base disp => st.memory.load (st.regs base + BitVec.ofInt 64 disp) s
  | .rip symbol disp => st.memory.load (rt.symbol symbol + BitVec.ofInt 64 disp) s

/-- Whether some byte of a value lies in the frame. -/
def hitsFrame (rt : Runtime) (s : Size) (a : Word) : Bool :=
  (List.range s.bytes).any fun k => rt.frame (a + BitVec.ofNat 64 k)

/-- Writes memory outside the frame. -/
def store (st : State) (rt : Runtime) (s : Size) (a : Word) (v : Value s) :
    Except Stop State :=
  if hitsFrame rt s a then .error .frame else .ok (st.onMachine (·.store s a v))

/-- The state after an operand was written. -/
def write (st : State) (rt : Runtime) (s : Size) (v : Value s) : Operand → Except Stop State
  | .pseudo p => .ok (st.setPseudo s p.id v)
  | .fixed r => .ok (st.onMachine (·.setReg s r v))
  | .imm _ => .error .unknown
  | .indirect base disp => st.store rt s (st.pseudo base.id + BitVec.ofInt 64 disp) v
  | .fixedIndirect base disp => st.store rt s (st.regs base + BitVec.ofInt 64 disp) v
  | .rip symbol disp => st.store rt s (rt.symbol symbol + BitVec.ofInt 64 disp) v

/-- Forgets the flags, or sets them. -/
def setFlags (st : State) (flags : Option Machine.Flags) : State :=
  st.onMachine (·.setFlags flags)

section

variable (st : State) {s t : Size} {id x : Nat}

theorem value_setPseudo (v : Value s) : (st.setPseudo s id v).value s id = v := by
  unfold value setPseudo
  simp only [if_true]
  exact Machine.setWidth_merge s _ v

theorem pseudo_setPseudo_of_ne (v : Value s) (h : x ≠ id) :
    (st.setPseudo s id v).pseudo x = st.pseudo x := if_neg h

theorem value_setPseudo_of_ne (v : Value s) (h : x ≠ id) :
    (st.setPseudo s id v).value t x = st.value t x := by
  unfold value
  rw [pseudo_setPseudo_of_ne st v h]

/-- The low part of a value. -/
theorem setWidth_value (h : t.bits ≤ s.bits) :
    (st.value s id).setWidth t.bits = st.value t id :=
  Machine.setWidth_setWidth _ h

end

end State

/-! ## Instructions -/

namespace Instr

/-- The effect of an instruction that control only passes through. -/
def exec (rt : Runtime) (st : State) : Instr → Except Stop State
  | .alu op s src dest =>
    let a := st.read rt s src
    let b := st.read rt s dest
    (if op.writesDestination then st.write rt s (op.value a b) dest else .ok st).map
      (·.setFlags (op.flags a b st.flags))
  | .extend signed narrow wide src dest =>
    st.write rt wide (extension signed narrow wide (st.read rt narrow src)) dest
  | .lea src dest =>
    match st.address rt src with
    | some a => st.write rt .quad a dest
    | none => .error .unknown
  | .neg s dest => (st.write rt s (-(st.read rt s dest)) dest).map (·.setFlags none)
  | .not s dest => st.write rt s (~~~(st.read rt s dest)) dest
  | .shift op s dest =>
    (st.write rt s (op.value (st.reg .byte .rcx) (st.read rt s dest)) dest).map
      (·.setFlags none)
  | .idiv s divisor =>
    if s = .byte then .error .unknown
    else
      match division (st.reg s .rdx) (st.reg s .rax) (st.read rt s divisor) with
      | some (quotient, remainder) =>
        .ok (st.onMachine fun m =>
          ((m.setReg s .rax quotient).setReg s .rdx remainder).setFlags none)
      | none => .error .divide
  | .signExtendAccumulator s =>
    if s = .byte then .error .unknown
    else .ok (st.onMachine (·.setReg s .rdx (signFill (st.reg s .rax))))
  | .setcc cond dest =>
    match st.flags with
    | some f => st.write rt .byte (if cond.holds f then 1 else 0) dest
    | none => .error .unknown
  | .jcc _ _ | .jmp _ | .label _ | .call _ | .callIndirect _ _ => .error .unknown

/-- The effects of instructions in order. -/
def execAll (rt : Runtime) (st : State) : List Instr → Except Stop State
  | [] => .ok st
  | i :: rest =>
    match i.exec rt st with
    | .ok after => execAll rt after rest
    | .error e => .error e

theorem execAll_append (rt : Runtime) (st : State) (l rest : List Instr) :
    execAll rt st (l ++ rest) =
      match execAll rt st l with
      | .ok after => execAll rt after rest
      | .error e => .error e := by
  induction l generalizing st with
  | nil => rfl
  | cons i l ih =>
    rw [List.cons_append, execAll, execAll]
    cases i.exec rt st with
    | ok after => exact ih after
    | error e => rfl

end Instr

/-! ## Streams -/

/-- Goes to a label. -/
def jumpTo (code : List Instr) (target : String) (st : State) : Except Stop (Nat × State) :=
  match labelIndex? code target with
  | some index => .ok (index, st)
  | none => .error .unknown

/-- One step from the instruction at an index. -/
def step (rt : Runtime) (code : List Instr) (p : Nat × State) : Except Stop (Nat × State) :=
  let (index, st) := p
  match code[index]? with
  | none => .error .finished
  | some (.label _) => .ok (index + 1, st)
  | some (.jmp target) => jumpTo code target st
  | some (.jcc cond target) =>
    match st.flags with
    | some f => if cond.holds f then jumpTo code target st else .ok (index + 1, st)
    | none => .error .unknown
  | some (.call _) | some (.callIndirect _ _) =>
    .ok (index + 1, st.onMachine (·.afterCall rt))
  | some i => (i.exec rt st).map (index + 1, ·)

/-- States that differ in the bytes of the frame only. -/
def SameOutsideFrame (rt : Runtime) (st st' : State) : Prop :=
  ∃ memory : Memory, (∀ x, rt.frame x = false → memory x = st.memory x) ∧
    st' = st.onMachine fun m => { m with memory := memory }

/-- Control goes where the stream says. -/
theorem mem_successors_of_step {rt : Runtime} {code : List Instr} {p q : Nat × State}
    (h : step rt code p = .ok q) : q.1 ∈ successors code p.1 := by
  obtain ⟨index, st⟩ := p
  have hjump : ∀ {target}, jumpTo code target st = .ok q →
      q.1 ∈ (labelIndex? code target).toList := by
    intro target hq
    unfold jumpTo at hq
    split at hq
    · next i hi =>
      cases hq
      simp [hi]
    · cases hq
  have hnext : ∀ {i : Instr}, (i.exec rt st).map (index + 1, ·) = .ok q → q.1 = index + 1 := by
    intro i hq
    cases hi : i.exec rt st with
    | ok after => rw [hi] at hq; cases hq; rfl
    | error e => rw [hi] at hq; cases hq
  simp only [step] at h
  unfold successors
  split at h
  · cases h
  · next heq => cases h; simp [heq]
  · next target heq => simpa [heq] using hjump h
  · next cond target heq =>
    simp only [heq]
    split at h
    · split at h
      · exact List.mem_cons_of_mem _ (hjump h)
      · cases h; exact List.mem_cons_self
    · cases h
  · next heq => cases h; simp [heq]
  · next heq => cases h; simp [heq]
  · next i _ _ _ _ _ heq =>
    have := hnext h
    cases i <;> simp_all

/-! ## What is not written -/

section

variable {rt : Runtime} {st after : State} {id : Nat}

/-- Writing an operand changes no other pseudo-register. -/
theorem State.pseudo_of_write {s : Size} {v : Value s} {o : Operand}
    (h : st.write rt s v o = .ok after) (ho : ∀ p, .defines p ∈ o.writeEffects → p.id ≠ id) :
    after.pseudo id = st.pseudo id := by
  have hstore : ∀ {a}, st.store rt s a v = .ok after → after.pseudo id = st.pseudo id := by
    intro a hok
    unfold State.store at hok
    split at hok
    · cases hok
    · cases hok
      rfl
  cases o with
  | pseudo p =>
    cases h
    exact st.pseudo_setPseudo_of_ne v (ho p List.mem_cons_self).symm
  | fixed r =>
    cases h
    rfl
  | imm v => cases h
  | indirect base disp | fixedIndirect base disp | rip symbol disp => exact hstore h

/-- The effect of an instruction is on the pseudo-registers that it defines. -/
theorem Instr.pseudo_of_exec {i : Instr} (h : i.exec rt st = .ok after) (hi : ¬ i.Defines id) :
    after.pseudo id = st.pseudo id := by
  have hdest : ∀ p, .defines p ∈ i.effects → p.id ≠ id := fun p hp heq => hi ⟨p, hp, heq⟩
  have hflags : ∀ {x : Except Stop State} {flags}, x.map (·.setFlags flags) = .ok after →
      ∃ mid, x = .ok mid ∧ after.pseudo id = mid.pseudo id := by
    intro x flags hx
    cases x with
    | error e => cases hx
    | ok mid =>
      cases hx
      exact ⟨mid, rfl, rfl⟩
  cases i with
  | alu op s src dest =>
    obtain ⟨mid, hmid, hsame⟩ := hflags h
    rw [hsame]
    split at hmid
    · next hop =>
      exact State.pseudo_of_write hmid fun p hp => hdest p (by simp [effects, hop, hp])
    · cases hmid
      rfl
  | neg s dest | shift op s dest =>
    obtain ⟨mid, hmid, hsame⟩ := hflags h
    rw [hsame]
    exact State.pseudo_of_write hmid fun p hp => hdest p (by simp [effects, hp])
  | extend _ _ _ src dest | not s dest =>
    exact State.pseudo_of_write h fun p hp => hdest p (by simp [effects, hp])
  | lea src dest =>
    simp only [exec] at h
    split at h
    · exact State.pseudo_of_write h fun p hp => hdest p (by simp [effects, hp])
    · cases h
  | setcc cond dest =>
    simp only [exec] at h
    split at h
    · exact State.pseudo_of_write h fun p hp => hdest p (by simp [effects, hp])
    · cases h
  | idiv s divisor =>
    simp only [exec] at h
    repeat' split at h
    all_goals cases h <;> rfl
  | signExtendAccumulator s =>
    simp only [exec] at h
    split at h <;> cases h
    rfl
  | jcc _ _ | jmp _ | label _ | call _ | callIndirect _ _ => cases h

/-- A step changes the pseudo-registers that the instruction defines, and no
others. Calls change none. -/
theorem pseudo_of_step {code : List Instr} {p q : Nat × State} (h : step rt code p = .ok q)
    (hkeep : ∀ i, code[p.1]? = some i → ¬ i.Defines id) : q.2.pseudo id = p.2.pseudo id := by
  obtain ⟨index, st⟩ := p
  have hjump : ∀ {target}, jumpTo code target st = .ok q → q.2 = st := by
    intro target hq
    unfold jumpTo at hq
    split at hq <;> cases hq
    rfl
  simp only [step] at h
  split at h
  · cases h
  · cases h
    rfl
  · rw [hjump h]
  · split at h
    · split at h
      · rw [hjump h]
      · cases h
        rfl
    · cases h
  · cases h
    rfl
  · cases h
    rfl
  · next i _ _ _ _ _ heq =>
    cases hexec : i.exec rt st with
    | error e =>
      rw [hexec] at h
      cases h
    | ok after =>
      rw [hexec] at h
      cases h
      exact i.pseudo_of_exec hexec (hkeep i heq)

end

end Jil.Pseudo
