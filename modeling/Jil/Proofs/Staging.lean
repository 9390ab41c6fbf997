/-
Jil.Proofs.Staging — what staged code does.

An operation between two places in memory, and one whose destination has to be
a register, is carried out through the value scratch register. The state
afterwards is that of the operation itself, begun in a state that differs in
the scratch register only (`exec_expandAlu`, `exec_expandInto`). An address
that is kept in the frame is loaded first (`exec_resolve_inMemory`).

`Wrote` is what a write to the location of a pseudo-register leaves alone.
-/
import Jil.Proofs.Discipline
import Jil.Pseudo.Expansion

namespace Jil.Machine

/-! ## States that differ in registers -/

/-- States that are equal but for registers that may have been spoiled. -/
structure Kept (spoiled : Reg → Prop) (m m' : State) : Prop where
  regs : ∀ r, ¬ spoiled r → m'.regs r = m.regs r
  memory : m'.memory = m.memory
  flags : m'.flags = m.flags
  calls : m'.calls = m.calls

namespace Kept

variable {spoiled more : Reg → Prop} {m mid m' : State} {r : Reg} {s : Size}

theorem refl (spoiled : Reg → Prop) (m : State) : Kept spoiled m m :=
  ⟨fun _ _ => rfl, rfl, rfl, rfl⟩

theorem trans (h : Kept spoiled m mid) (h' : Kept spoiled mid m') : Kept spoiled m m' where
  regs r hr := (h'.regs r hr).trans (h.regs r hr)
  memory := h'.memory.trans h.memory
  flags := h'.flags.trans h.flags
  calls := h'.calls.trans h.calls

theorem mono (h : Kept spoiled m m') (hmore : ∀ r, spoiled r → more r) : Kept more m m' where
  regs r hr := h.regs r fun hspoiled => hr (hmore r hspoiled)
  memory := h.memory
  flags := h.flags
  calls := h.calls

theorem setReg (m : State) (s : Size) (r : Reg) (v : Value s) :
    Kept (· = r) m (m.setReg s r v) where
  regs _ hx := if_neg hx
  memory := rfl
  flags := rfl
  calls := rfl

theorem reg (h : Kept spoiled m m') (hr : ¬ spoiled r) : m'.reg s r = m.reg s r := by
  unfold State.reg
  rw [h.regs r hr]

end Kept

namespace Operand

/-- Whether an operand has nothing to do with a register. -/
def Avoids (r : Reg) : Operand → Prop
  | .reg x | .mem x _ => x ≠ r
  | .imm _ | .rip _ _ => True

end Operand

section

variable {rt : Runtime} {m m' : State} {r : Reg} {s : Size} {o src dest : Operand}

/-- Operands read alike where a register differs that they have nothing to do with. -/
theorem Kept.read (h : Kept (· = r) m m') (ho : o.Avoids r) (rt : Runtime) (s : Size) :
    m'.read rt s o = m.read rt s o := by
  cases o with
  | reg x => exact h.reg ho
  | imm v => rfl
  | mem base disp =>
    unfold State.read
    simp only [h.memory, h.regs base ho]
  | rip symbol disp =>
    unfold State.read
    simp only [h.memory]

/-! ## Instructions -/

theorem exec_alu {op : AluOp} (hmemory : (src.isMemory && dest.isMemory) = false)
    (hdest : dest.isRegister = true ∨ dest.isMemory = true ∧ op.needsRegister = false) :
    (Instr.alu op s src dest).exec rt m
      = .ok ((if op.writesDestination then
          m.write rt s (op.value (m.read rt s src) (m.read rt s dest)) dest else m).setFlags
          (op.flags (m.read rt s src) (m.read rt s dest) m.flags)) := by
  have hexecutable : (Instr.alu op s src dest).isExecutable = true := by
    simp only [Instr.isExecutable, hmemory]
    rcases hdest with h | ⟨h, h'⟩
    · simp [h]
    · simp [h, h']
  unfold Instr.exec
  rw [hexecutable]
  rfl

theorem exec_mov (hmemory : (src.isMemory && dest.isMemory) = false)
    (hdest : dest.isRegister = true ∨ dest.isMemory = true) :
    (Instr.mov s src dest).exec rt m = .ok (m.write rt s (m.read rt s src) dest) := by
  show (Instr.alu .mov s src dest).exec rt m = _
  refine (exec_alu hmemory (hdest.imp_right fun h => ⟨h, rfl⟩)).trans (congrArg Except.ok ?_)
  cases dest <;> rfl

end

section

variable {rt : Runtime} {code rest : List Instr} {i : Instr} {m mid m' : State}

theorem execAll_append_of_ok (h : Instr.execAll rt m code = .ok mid) :
    Instr.execAll rt m (code ++ rest) = Instr.execAll rt mid rest := by
  rw [Instr.execAll_append, h]

theorem execAll_cons_of_ok (h : i.exec rt m = .ok mid) :
    Instr.execAll rt m (i :: rest) = Instr.execAll rt mid rest := by
  rw [Instr.execAll, h]

theorem execAll_singleton (h : i.exec rt m = .ok m') : Instr.execAll rt m [i] = .ok m' :=
  execAll_cons_of_ok h

end

end Jil.Machine

namespace Jil.Pseudo

open Jil.Machine (AluOp Kept Memory Runtime Size Value Word addressScratch execAll_append_of_ok
  execAll_cons_of_ok execAll_singleton valueScratch)

/-! ## Staged operations -/

section

variable {rt : Runtime} {m : Machine.State} {s : Size} {src dest : Machine.Operand}
  {op : AluOp}

/-- Nothing is staged when the source or the destination is a register. -/
theorem expandAlu_mov (h : src.isRegister = true ∨ dest.isRegister = true) :
    expandAlu .mov s src dest = [.mov s src dest] := by
  rcases h with h | h
  · cases src with
    | reg r => rfl
    | _ => cases h
  · cases dest with
    | reg r =>
      simp [expandAlu, AluOp.needsRegister, Machine.Operand.isMemory, Machine.Instr.mov]
    | _ => cases h

/-- An operation, staged or not, does what it says, but for the scratch register. -/
theorem exec_expandAlu (hsrc : src.Avoids valueScratch) (hdest : dest.Avoids valueScratch)
    (hplace : dest.isRegister = true ∨ dest.isMemory = true) :
    ∃ m₁, Kept (· = valueScratch) m m₁ ∧
      Machine.Instr.execAll rt m (expandAlu op s src dest)
        = .ok ((if op.writesDestination then
            m₁.write rt s (op.value (m.read rt s src) (m.read rt s dest)) dest
              else m₁).setFlags
            (op.flags (m.read rt s src) (m.read rt s dest) m.flags)) := by
  have hwhole : ∀ v : Value s, v.setWidth s.bits = v := fun v => BitVec.setWidth_eq v
  unfold expandAlu
  split
  · next hstaged =>
    -- the destination passes through the scratch register, and back
    obtain ⟨hregister, hmemory⟩ := Bool.and_eq_true_iff.1 hstaged
    have hop : op = .imul := by
      cases op <;> first | rfl | cases hregister
    subst hop
    let loaded := m.setReg s valueScratch (m.read rt s dest)
    let product := AluOp.value (m.read rt s src) (m.read rt s dest) .imul
    let multiplied := loaded.setReg s valueScratch product
    have hload : (Machine.Instr.mov s dest scratch).exec rt m = .ok loaded :=
      Machine.exec_mov (by cases dest <;> rfl) (.inl rfl)
    have hloaded : Kept (· = valueScratch) m loaded := .setReg m s _ _
    have hvalue : loaded.reg s valueScratch = m.read rt s dest :=
      (m.reg_setReg (Nat.le_refl _) _ _).trans (hwhole _)
    have hmultiply : (Machine.Instr.alu .imul s src scratch).exec rt loaded
        = .ok (multiplied.setFlags none) := by
      refine (Machine.exec_alu (by cases src <;> rfl) (.inl rfl)).trans (congrArg Except.ok ?_)
      rw [hloaded.read hsrc rt s, show loaded.read rt s scratch = m.read rt s dest from hvalue]
      rfl
    have hmultiplied : Kept (· = valueScratch) m multiplied :=
      hloaded.trans (.setReg loaded s _ _)
    have hstore : (Machine.Instr.mov s scratch dest).exec rt (multiplied.setFlags none)
        = .ok ((multiplied.write rt s product dest).setFlags none) := by
      refine (Machine.exec_mov rfl (.inr hmemory)).trans (congrArg Except.ok ?_)
      have hproduct : (multiplied.setFlags none).read rt s scratch = product :=
        (loaded.reg_setReg (Nat.le_refl _) _ _).trans (hwhole _)
      rw [hproduct]
      cases dest <;> rfl
    refine ⟨multiplied, hmultiplied, ?_⟩
    rw [execAll_cons_of_ok hload, execAll_cons_of_ok hmultiply]
    exact execAll_singleton hstore
  · next hdirect =>
    split
    · next hstaged =>
      -- the source passes through the scratch register
      let loaded := m.setReg s valueScratch (m.read rt s src)
      have hload : (Machine.Instr.mov s src scratch).exec rt m = .ok loaded :=
        Machine.exec_mov (by cases src <;> rfl) (.inl rfl)
      have hloaded : Kept (· = valueScratch) m loaded := .setReg m s _ _
      have hvalue : loaded.reg s valueScratch = m.read rt s src :=
        (m.reg_setReg (Nat.le_refl _) _ _).trans (hwhole _)
      refine ⟨loaded, hloaded, ?_⟩
      rw [execAll_cons_of_ok hload]
      refine execAll_singleton ((Machine.exec_alu rfl ?_).trans (congrArg Except.ok ?_))
      · refine hplace.imp_right fun hmemory => ⟨hmemory, ?_⟩
        simpa [hmemory] using hdirect
      · rw [hloaded.read hdest rt s,
          show loaded.read rt s scratch = m.read rt s src from hvalue]
        rfl
    · next hplain =>
      refine ⟨m, .refl _ m, execAll_singleton (Machine.exec_alu ?_ ?_)⟩
      · revert hplain
        cases src.isMemory && dest.isMemory <;> simp
      · refine hplace.imp_right fun hmemory => ⟨hmemory, ?_⟩
        simpa [hmemory] using hdirect

/-- An operation whose destination has to be a register does what it says, but for the scratch
register. -/
theorem exec_expandInto {operation : Machine.Reg → Machine.Instr} {v : Value s}
    (hoperation : ∀ r, (operation r).exec rt m = .ok (m.setReg s r v)) (location : Location) :
    ∃ m₁, Kept (· = valueScratch) m m₁ ∧
      Machine.Instr.execAll rt m (expandInto s operation location.operand)
        = .ok (m₁.write rt s v location.operand) := by
  cases location with
  | reg r => exact ⟨m, .refl _ m, execAll_singleton (hoperation r)⟩
  | slot offset =>
    let computed := m.setReg s valueScratch v
    have hvalue : computed.read rt s scratch = v :=
      (m.reg_setReg (Nat.le_refl _) _ _).trans (BitVec.setWidth_eq v)
    refine ⟨computed, .setReg m s _ _, ?_⟩
    refine (execAll_cons_of_ok (hoperation valueScratch)).trans (execAll_singleton ?_)
    rw [Machine.exec_mov rfl (.inr rfl), hvalue]

end

/-! ## Locations -/

/-- The low part of what is at a location. -/
theorem setWidth_read (rt : Runtime) (m : Machine.State) (location : Location) {s t : Size}
    (h : t.bytes ≤ s.bytes) :
    (m.read rt s location.operand).setWidth t.bits = m.read rt t location.operand := by
  cases location with
  | reg r => exact Machine.setWidth_setWidth _ (Nat.mul_le_mul_left 8 h)
  | slot offset => exact Memory.setWidth_load m.memory _ h

/-- What a write to a location leaves alone. -/
structure Wrote (rt : Runtime) (m m' : Machine.State) (location : Location) (s : Size)
    (v : Value s) : Prop where
  value : m'.read rt s location.operand = v
  regs : ∀ r, location ≠ .reg r → m'.regs r = m.regs r
  memory : ∀ x, (∀ offset, location = .slot offset →
    ¬ Memory.Within (m.regs .rbp + BitVec.ofInt 64 offset) s.bytes x) →
    m'.memory x = m.memory x
  flags : m'.flags = m.flags
  calls : m'.calls = m.calls

theorem wrote_write (rt : Runtime) (m : Machine.State) (location : Location) (s : Size)
    (v : Value s) : Wrote rt m (m.write rt s v location.operand) location s v := by
  cases location with
  | reg r =>
    refine ⟨?_, fun x hx => ?_, fun _ _ => rfl, rfl, rfl⟩
    · exact (m.reg_setReg (Nat.le_refl _) r v).trans (BitVec.setWidth_eq v)
    · exact if_neg fun heq => hx (by rw [heq])
  | slot offset =>
    refine ⟨Memory.load_store _ _ _ _, fun _ _ => rfl, fun x hx => ?_, rfl, rfl⟩
    exact Memory.store_of_not_within v (hx offset rfl)

/-- The location of a pseudo-register holds its value. -/
def Holds (rt : Runtime) (a : Assignment) (size : Nat → Size) (m : Machine.State) (σ : State)
    (id : Nat) : Prop :=
  ∃ location, a id = some location ∧ m.read rt (size id) location.operand
    = σ.value (size id) id

/-- No pseudo-register is kept in a register that expanded code uses for itself. -/
def Unscratched (a : Assignment) : Prop :=
  ∀ id r, a id = some (.reg r) → r ≠ valueScratch ∧ r ≠ addressScratch ∧ r ≠ .rbp

/-! ## Operands -/

section

variable {rt : Runtime} {a : Assignment} {size : Nat → Size} {m : Machine.State} {σ : State}
  {s : Size} {o : Operand} {p : Reg} {location : Location}

theorem Unscratched.avoids (h : Unscratched a) {id : Nat} (ha : a id = some location) :
    location.operand.Avoids valueScratch := by
  cases location with
  | reg r => exact (h id r ha).1
  | slot offset => exact (by decide : Machine.Reg.rbp ≠ valueScratch)

theorem Unscratched.avoids_address (h : Unscratched a) {id : Nat} (ha : a id = some location) :
    location.operand.Avoids addressScratch := by
  cases location with
  | reg r => exact (h id r ha).2.1
  | slot offset => exact (by decide : Machine.Reg.rbp ≠ addressScratch)

theorem isPlace_operand (location : Location) :
    location.operand.isRegister = true ∨ location.operand.isMemory = true := by
  cases location with
  | reg r => exact .inl rfl
  | slot offset => exact .inr rfl

theorem location_of_eq_some (ha : a p.id = some location) : a.location p = .ok location := by
  unfold Assignment.location
  rw [ha]

theorem eq_some_of_location (h : a.location p = .ok location) : a p.id = some location := by
  unfold Assignment.location at h
  split at h
  · next other heq =>
    cases h
    exact heq
  · cases h

theorem resolve_pseudo (ha : a p.id = some location) :
    (Operand.pseudo p).resolve a = .ok ([], location.operand) := by
  simp only [Operand.resolve, location_of_eq_some ha]
  rfl

/-- Only the load of an address out of the frame stands in front of the use of an operand. -/
theorem load_of_resolve {o : Operand} {before : List Machine.Instr} {mo : Machine.Operand}
    (h : o.resolve a = .ok (before, mo)) {j : Machine.Instr} (hj : j ∈ before) :
    ∃ offset, j = .mov .quad (.mem .rbp offset) (.reg addressScratch) := by
  cases o with
  | pseudo p =>
    obtain ⟨location, -, h⟩ := bind_eq_ok.1 h
    cases h
    cases hj
  | indirect base disp =>
    obtain ⟨location, -, h⟩ := bind_eq_ok.1 h
    cases location with
    | reg r =>
      cases h
      cases hj
    | slot offset =>
      cases h
      exact ⟨offset, List.mem_singleton.1 hj⟩
  | _ =>
    cases h
    cases hj

/-- A value that is held is held in part. -/
theorem Holds.read (h : Holds rt a size m σ p.id) (hsize : size p.id = p.size)
    (hs : s.bytes ≤ p.size.bytes) :
    ∃ location, a p.id = some location ∧ m.read rt s location.operand = σ.value s p.id := by
  obtain ⟨location, ha, hread⟩ := h
  rw [hsize] at hread
  refine ⟨location, ha, ?_⟩
  rw [← setWidth_read rt m location hs, hread]
  exact Machine.setWidth_setWidth _ (Nat.mul_le_mul_left 8 hs)

/-- A plain operand needs no code of its own. -/
theorem resolve_plain (hplain : o.Plain (fun p => size p.id = p.size) s)
    (hapart : Unscratched a) (hholds : ∀ p, o = .pseudo p → Holds rt a size m σ p.id) :
    ∃ mo, o.resolve a = .ok ([], mo) ∧ m.read rt s mo = σ.read rt s o
      ∧ mo.Avoids valueScratch := by
  cases o with
  | pseudo p =>
    obtain ⟨location, ha, hread⟩ := (hholds p rfl).read hplain.1 hplain.2
    exact ⟨_, resolve_pseudo ha, hread, hapart.avoids ha⟩
  | imm v => exact ⟨.imm v, rfl, rfl, trivial⟩
  | _ => exact hplain.elim

/-- The address of a place in memory, loaded first when it is kept in the frame. -/
theorem resolve_inMemory (hmemory : o.InMemory (fun p => size p.id = p.size))
    (hapart : Unscratched a)
    (hholds : ∀ base disp, o = .indirect base disp → Holds rt a size m σ base.id) :
    ∃ before mo m₁ address, o.resolve a = .ok (before, mo)
      ∧ Machine.Instr.execAll rt m before = .ok m₁
      ∧ Kept (fun r => r = addressScratch ∧ o.isIndirect = true) m m₁
      ∧ mo.isMemory = true ∧ mo.Avoids valueScratch
      ∧ m₁.address rt mo = some address ∧ σ.address rt o = some address := by
  cases o with
  | indirect base disp =>
    obtain ⟨hsize, hquad⟩ := hmemory
    obtain ⟨location, ha, hread⟩ := (hholds base disp rfl).read hsize (Nat.le_refl _)
    rw [hquad] at hread
    have hvalue : m.read rt .quad location.operand = σ.pseudo base.id :=
      hread.trans (BitVec.setWidth_eq _)
    have hlocation := location_of_eq_some ha
    cases location with
    | reg r =>
      have hr : m.regs r = σ.pseudo base.id := (BitVec.setWidth_eq _).symm.trans hvalue
      refine ⟨[], .mem r disp, m, m.regs r + BitVec.ofInt 64 disp, ?_, rfl, .refl _ m, rfl,
        (hapart base.id r ha).1, rfl, by rw [hr]; rfl⟩
      simp only [Operand.resolve, hlocation]
      rfl
    | slot offset =>
      let loaded := m.setReg .quad addressScratch (σ.pseudo base.id)
      have hload : (Machine.Instr.mov .quad (.mem .rbp offset) (.reg addressScratch)).exec rt m
          = .ok loaded := by
        rw [Machine.exec_mov rfl (.inl rfl)]
        exact congrArg (fun v => Except.ok (m.setReg .quad addressScratch v)) hvalue
      have hloaded : loaded.regs addressScratch = σ.pseudo base.id :=
        (BitVec.setWidth_eq _).symm.trans
          ((m.reg_setReg (s := .quad) (t := .quad) (Nat.le_refl _) _ _).trans
            (BitVec.setWidth_eq _))
      refine ⟨[.mov .quad (.mem .rbp offset) (.reg addressScratch)],
        .mem addressScratch disp, loaded,
        loaded.regs addressScratch + BitVec.ofInt 64 disp, ?_,
        execAll_singleton hload, ?_, rfl,
        (by decide : addressScratch ≠ valueScratch), rfl, by rw [hloaded]; rfl⟩
      · simp only [Operand.resolve, hlocation]
        rfl
      · exact (Kept.setReg m .quad addressScratch _).mono fun r hr => ⟨hr, rfl⟩
  | rip symbol disp =>
    exact ⟨[], .rip symbol disp, m, rt.symbol symbol + BitVec.ofInt 64 disp, rfl, rfl,
      .refl _ m, rfl,
      trivial, rfl, rfl⟩
  | _ => exact hmemory.elim

theorem read_of_address {mo : Machine.Operand} {address : Word}
    (h : m.address rt mo = some address) : m.read rt s mo = m.memory.load address s := by
  cases mo <;> cases h <;> rfl

theorem write_of_address {mo : Machine.Operand} {address : Word}
    (h : m.address rt mo = some address) (v : Value s) :
    m.write rt s v mo = m.store s address v := by
  cases mo <;> cases h <;> rfl

theorem State.read_of_address {address : Word} (h : σ.address rt o = some address) :
    σ.read rt s o = σ.memory.load address s := by
  cases o <;> cases h <;> rfl

theorem State.write_of_address {address : Word} (h : σ.address rt o = some address)
    (v : Value s) :
    σ.write rt s v o = σ.store rt s address v := by
  cases o <;> cases h <;> rfl

end

end Jil.Pseudo
