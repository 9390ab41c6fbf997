/-
Jil.Proofs.Expanding — expanded instructions do what the instructions do.

`Prepared` says that the machine holds what an instruction of a stream reads:
pseudo-registers at their locations, hardware registers, flags and memory.
`Done` says what it holds behind the expansion of the instruction, and what the
expansion leaves alone; `Untouched` is the same about the stream itself.

`simulated_of_fits` is the theorem for all the shapes of instructions that
control only passes through, one lemma for each way to write a result.
-/
import Jil.Proofs.Staging

namespace Jil.Pseudo

open Jil.Machine (Abi AluOp Kept Memory Runtime Size Stop Value Word addressScratch
  execAll_append_of_ok execAll_cons_of_ok execAll_singleton valueScratch)

/-! ## Before and after -/

section

variable (rt : Runtime) (a : Assignment) (size : Nat → Size) (i : Instr)

/-- The machine holds what an instruction reads, and has a place for what it writes. -/
structure Prepared (σ : State) (m : Machine.State) : Prop where
  apart : Unscratched a
  located : ∀ id, i.Defines id → ∃ location, a id = some location
  holds : ∀ id, i.Uses id → Holds rt a size m σ id
  fixed : ∀ r s, (r, s) ∈ i.fixedReads → m.reg s r = σ.reg s r
  flags : i.readsFlags = true → ∃ f, m.flags = some f ∧ σ.flags = some f
  memory : m.memory = σ.memory

/-- The machine holds what an instruction has written, and leaves the rest alone. -/
structure Done (σ' : State) (m m' : Machine.State) : Prop where
  holds : ∀ id, i.Defines id → Holds rt a size m' σ' id
  fixed : ∀ r s, i.fixedWrite? r = some s → m'.reg s r = σ'.reg s r
  flags : i.compares = true → ∃ f, m'.flags = some f ∧ σ'.flags = some f
  memory : ∀ x, (∀ id offset, i.Defines id → a id = some (.slot offset) →
    ¬ Memory.Within (m.regs .rbp + BitVec.ofInt 64 offset) (size id).bytes x) →
    m'.memory x = σ'.memory x
  regs : ∀ r, i.fixedWrite? r = none → i.spoils r = false →
    (∀ id, i.Defines id → a id ≠ some (.reg r)) → m'.regs r = m.regs r
  calls : m'.calls = m.calls

/-- What a stream leaves alone at an instruction. -/
structure Untouched (σ σ' : State) : Prop where
  pseudo : ∀ id, ¬ i.Defines id → σ'.pseudo id = σ.pseudo id
  regs : ∀ r, i.fixedWrite? r = none → σ'.regs r = σ.regs r
  memory : ∀ x, rt.frame x = true → σ'.memory x = σ.memory x
  calls : σ'.calls = σ.calls

/-- The expansion of an instruction does what the instruction does, and stops where it divides
by zero; nothing is said when the instruction stores into the frame. -/
def Simulated (σ : State) (m : Machine.State) : Prop :=
  ∃ part, i.expand a = .ok part ∧
    ((∃ σ' m', i.exec rt σ = .ok σ' ∧ Machine.Instr.execAll rt m part = .ok m'
        ∧ Done rt a size i σ' m m' ∧ Untouched rt i σ σ')
      ∨ i.exec rt σ = .error .frame
      ∨ i.exec rt σ = .error .divide ∧ Machine.Instr.execAll rt m part = .error .divide)

end

section

variable {rt : Runtime} {a : Assignment} {size : Nat → Size} {i : Instr} {σ : State}
  {m m₁ : Machine.State} {part : List Machine.Instr} {p : Reg} {s : Size} {location : Location}

/-! ## Results -/

/-- Instructions that write a pseudo-register. -/
theorem simulated_of_defines {v : Value p.size} {flags flags' : Option Machine.Flags}
    (h : Prepared rt a size i σ m) (hsize : size p.id = p.size) (ha : a p.id = some location)
    (hdefines : ∀ id, i.Defines id ↔ id = p.id) (hfixed : ∀ r, i.fixedWrite? r = none)
    (hframe : i.spoils .rbp = false) (hcompares : i.compares = false)
    (hexec : i.exec rt σ = .ok ((σ.setPseudo p.size p.id v).setFlags flags))
    (hexpand : i.expand a = .ok part) (hkept : Kept (fun r => i.spoils r = true) m m₁)
    (hrun : Machine.Instr.execAll rt m part
      = .ok ((m₁.write rt p.size v location.operand).setFlags flags')) :
    Simulated rt a size i σ m := by
  have hwrote := wrote_write rt m₁ location p.size v
  have hrbp : m₁.regs .rbp = m.regs .rbp := hkept.regs .rbp (by rw [hframe]; exact nofun)
  refine ⟨part, hexpand, .inl ⟨_, _, hexec, hrun, ?_, ?_⟩⟩
  · refine ⟨fun id hid => ?_, fun r s' hr => ?_, fun hc => ?_, fun x hx => ?_,
      fun r _ hr hid => ?_, ?_⟩
    · obtain rfl := (hdefines id).1 hid
      refine ⟨location, ha, ?_⟩
      rw [hsize]
      have hvalue : (m₁.write rt p.size v location.operand).read rt p.size location.operand
          = (σ.setPseudo p.size p.id v).value p.size p.id :=
        hwrote.value.trans (σ.value_setPseudo v).symm
      cases location <;> exact hvalue
    · rw [hfixed] at hr
      cases hr
    · rw [hcompares] at hc
      cases hc
    · refine (hwrote.memory x fun offset hoffset => ?_).trans
        ((congrFun hkept.memory x).trans (congrFun h.memory x))
      rw [hrbp, ← hsize]
      exact hx p.id offset ((hdefines _).2 rfl) (by rw [ha, hoffset])
    · refine (hwrote.regs r fun hlocation => ?_).trans (hkept.regs r (by rw [hr]; exact nofun))
      exact hid p.id ((hdefines _).2 rfl) (by rw [ha, hlocation])
    · exact hwrote.calls.trans hkept.calls
  · refine ⟨fun id hid => ?_, fun _ _ => rfl, fun _ _ => rfl, rfl⟩
    exact if_neg fun heq => hid ((hdefines id).2 heq)

/-- Instructions that put a value into a hardware register. -/
theorem simulated_of_load {r : Machine.Reg} {v : Value s} (h : Prepared rt a size i σ m)
    (hdefines : ∀ id, ¬ i.Defines id)
    (hfixed : ∀ x, i.fixedWrite? x = if x = r then some s else none)
    (hcompares : i.compares = false) (hexec : i.exec rt σ = .ok (σ.onMachine (·.setReg s r v)))
    (hexpand : i.expand a = .ok part) (hkept : Kept (fun r => i.spoils r = true) m m₁)
    (hrun : Machine.Instr.execAll rt m part = .ok (m₁.setReg s r v)) :
    Simulated rt a size i σ m := by
  have hvalue : ∀ st : Machine.State, (st.setReg s r v).reg s r = v := fun st =>
    (st.reg_setReg (Nat.le_refl _) r v).trans (BitVec.setWidth_eq v)
  refine ⟨part, hexpand, .inl ⟨_, _, hexec, hrun, ?_, ?_⟩⟩
  · refine ⟨fun id hid => absurd hid (hdefines id), fun x s' hx => ?_, fun hc => ?_,
      fun x _ => ?_,
      fun x hx hspoils _ => ?_, hkept.calls⟩
    · rw [hfixed] at hx
      split at hx
      · next heq =>
        cases hx
        subst heq
        exact (hvalue m₁).trans (hvalue σ.toState).symm
      · cases hx
    · rw [hcompares] at hc
      cases hc
    · exact (congrFun hkept.memory x).trans (congrFun h.memory x)
    · rw [hfixed] at hx
      split at hx
      · cases hx
      · next hne => exact (if_neg hne).trans (hkept.regs x (by rw [hspoils]; exact nofun))
  · refine ⟨fun _ _ => rfl, fun x hx => ?_, fun _ _ => rfl, rfl⟩
    rw [hfixed] at hx
    split at hx
    · cases hx
    · next hne => exact if_neg hne

/-! ## Sources -/

/-- A source of an operation has been made ready. -/
def Sourced (rt : Runtime) (a : Assignment) (m : Machine.State) (σ : State) (s : Size)
    (src : Operand) : Prop :=
  ∃ before mo m₀, src.resolve a = .ok (before, mo) ∧ Machine.Instr.execAll rt m before = .ok m₀
    ∧ Kept (fun r => r = addressScratch ∧ src.isIndirect = true) m m₀
    ∧ m₀.read rt s mo = σ.read rt s src ∧ mo.Avoids valueScratch

section

variable {src : Operand}

theorem sourced_of_plain (h : Prepared rt a size i σ m)
    (hplain : src.Plain (fun p => size p.id = p.size) s)
    (huses : ∀ q, .uses q ∈ src.readEffects → i.Uses q.id) : Sourced rt a m σ s src := by
  obtain ⟨mo, hresolve, hread, havoids⟩ := resolve_plain (m := m) (σ := σ) hplain h.apart
    fun p hp => h.holds p.id (huses p (by rw [hp]; exact List.mem_cons_self))
  exact ⟨[], mo, m, hresolve, rfl, .refl _ m, hread, havoids⟩

theorem sourced_of_inMemory (h : Prepared rt a size i σ m)
    (hmemory : src.InMemory fun p => size p.id = p.size)
    (huses : ∀ q, .uses q ∈ src.readEffects → i.Uses q.id) : Sourced rt a m σ s src := by
  obtain ⟨before, mo, m₀, address, hresolve, hrun, hkept, -, havoids, haddress, haddress'⟩ :=
    resolve_inMemory (m := m) (σ := σ) hmemory h.apart fun base disp hbase =>
      h.holds base.id (huses base (by rw [hbase]; exact List.mem_cons_self))
  refine ⟨before, mo, m₀, hresolve, hrun, hkept, ?_, havoids⟩
  rw [read_of_address haddress, State.read_of_address haddress', hkept.memory, h.memory]

/-! ## Operations -/

theorem isFixed_pseudo (p : Reg) : (Operand.pseudo p).isFixed = false := rfl

theorem isIndirect_pseudo (p : Reg) : (Operand.pseudo p).isIndirect = false := rfl

/-- Reading an operand writes nothing. -/
theorem not_defines_readEffects (o : Operand) (q : Reg) :
    Effect.defines q ∉ o.readEffects := by
  cases o <;> simp [Operand.readEffects]

theorem defines_alu {op : AluOp} (hwrites : op.writesDestination = true) (id : Nat) :
    (Instr.alu op s src (.pseudo p)).Defines id ↔ id = p.id := by
  unfold Instr.Defines
  simp only [Instr.effects, hwrites, if_true, List.mem_append,
    not_defines_readEffects, false_or]
  constructor
  · rintro ⟨q, hq | hq, rfl⟩
    · split at hq
      · exact absurd hq (not_defines_readEffects _ q)
      · cases hq
    · simp only [Operand.writeEffects, List.mem_singleton, Effect.defines.injEq] at hq
      rw [hq]
  · rintro rfl
    exact ⟨p, .inr List.mem_cons_self, rfl⟩

/-- Operations on a pseudo-register, moves included. -/
theorem simulated_alu {op : AluOp}
    (h : Prepared rt a size (.alu op p.size src (.pseudo p)) σ m) (hsize : size p.id = p.size)
    (hwrites : op.writesDestination = true) (hsrc : Sourced rt a m σ p.size src)
    (hfixed : src.isFixed = false) :
    Simulated rt a size (.alu op p.size src (.pseudo p)) σ m := by
  have hdefines : ∀ id, (Instr.alu op p.size src (.pseudo p)).Defines id ↔ id = p.id :=
    defines_alu hwrites
  obtain ⟨before, mo, m₀, hresolve, hbefore, hkept₀, hread, havoids⟩ := hsrc
  obtain ⟨location, ha⟩ := h.located p.id ((hdefines _).2 rfl)
  have hdest : m₀.read rt p.size location.operand = m.read rt p.size location.operand :=
    (hkept₀.mono fun r hr => hr.1).read (h.apart.avoids_address ha) rt p.size
  obtain ⟨m₁, hkept₁, hrun⟩ := exec_expandAlu (m := m₀) (s := p.size) havoids
    (h.apart.avoids ha) (isPlace_operand location)
  -- a move does not look at what is overwritten
  have hvalue : op.value (σ.read rt p.size src) (m.read rt p.size location.operand)
      = op.value (σ.read rt p.size src) (σ.value p.size p.id) := by
    cases hreads : op.readsDestination with
    | true =>
      have huses : (Instr.alu op p.size src (.pseudo p)).Uses p.id :=
        ⟨p, by simp [Instr.effects, hreads, Operand.readEffects], rfl⟩
      obtain ⟨location', ha', hheld⟩ := (h.holds p.id huses).read hsize (Nat.le_refl _)
      obtain rfl : location' = location := Option.some.inj (ha'.symm.trans ha)
      rw [hheld]
    | false =>
      have hmov : op = .mov := by
        cases op <;> first | rfl | cases hreads
      rw [hmov]
      rfl
  rw [if_pos hwrites, hread, hdest, hvalue] at hrun
  have hexec : (Instr.alu op p.size src (.pseudo p)).exec rt σ
      = .ok
        ((σ.setPseudo p.size p.id
          (op.value (σ.read rt p.size src) (σ.value p.size p.id))).setFlags
          (op.flags (σ.read rt p.size src) (σ.value p.size p.id) σ.flags)) := by
    simp only [Instr.exec, hwrites, if_true]
    rfl
  have hexpand : (Instr.alu op p.size src (.pseudo p)).expand a
      = .ok (before ++ expandAlu op p.size mo location.operand) := by
    simp only [Instr.expand, hresolve, resolve_pseudo ha]
    exact congrArg (fun l => Except.ok (l ++ _)) (List.append_nil before)
  have hspoils : ∀ r, (Instr.alu op p.size src (.pseudo p)).spoils r
      = (r = valueScratch || r = addressScratch && src.isIndirect) := by
    intro r
    simp only [Instr.spoils, hfixed, isFixed_pseudo, isIndirect_pseudo, Bool.not_false,
      Bool.and_true, Bool.or_false]
  have hkept : Kept (fun r => (Instr.alu op p.size src (.pseudo p)).spoils r = true) m m₁ := by
    refine (hkept₀.mono fun r hr => ?_).trans (hkept₁.mono fun r hr => ?_)
    · rw [hspoils, hr.2, decide_eq_true hr.1]
      exact Bool.or_true _
    · rw [hspoils, decide_eq_true hr]
      rfl
  have hframe : (Instr.alu op p.size src (.pseudo p)).spoils .rbp = false := by
    rw [hspoils]
    rfl
  have hcompares : (Instr.alu op p.size src (.pseudo p)).compares = false := by
    cases op <;> first | rfl | cases hwrites
  exact simulated_of_defines h hsize ha hdefines (fun _ => rfl) hframe hcompares hexec hexpand
    hkept ((execAll_append_of_ok hbefore).trans hrun)

/-- A value comes out of a hardware register. -/
theorem simulated_receive {r : Machine.Reg}
    (h : Prepared rt a size (.mov p.size (.fixed r) (.pseudo p)) σ m)
    (hsize : size p.id = p.size) :
    Simulated rt a size (.mov p.size (.fixed r) (.pseudo p)) σ m := by
  have hdefines : ∀ id, (Instr.mov p.size (.fixed r) (.pseudo p)).Defines id ↔ id = p.id :=
    defines_alu rfl
  obtain ⟨location, ha⟩ := h.located p.id ((hdefines _).2 rfl)
  have hvalue : m.reg p.size r = σ.reg p.size r := h.fixed r p.size (List.mem_cons_self ..)
  have hexpand : (Instr.mov p.size (.fixed r) (.pseudo p)).expand a
      = .ok [.mov p.size (.reg r) location.operand] := by
    have hmov : expandAlu .mov p.size (.reg r) location.operand
        = [.mov p.size (.reg r) location.operand] := expandAlu_mov (.inl rfl)
    simp only [Instr.mov, Instr.expand, resolve_pseudo ha]
    exact congrArg Except.ok hmov
  have hkept : Kept (fun x => (Instr.mov p.size (.fixed r) (.pseudo p)).spoils x = true) m m :=
    .refl _ m
  have hspoils : (Instr.mov p.size (.fixed r) (.pseudo p)).spoils .rbp = false := rfl
  refine simulated_of_defines h hsize ha hdefines (fun _ => rfl) hspoils rfl rfl hexpand hkept
    (execAll_singleton (?_ : _ = Except.ok (Machine.State.setFlags _ m.flags)))
  refine (Machine.exec_mov rfl (isPlace_operand location)).trans (congrArg Except.ok ?_)
  rw [show m.read rt p.size (.reg r) = σ.read rt p.size (.fixed r) from hvalue]
  cases location <;> rfl

/-- Values are compared. -/
theorem simulated_compare (h : Prepared rt a size (.alu .cmp p.size src (.pseudo p)) σ m)
    (hsize : size p.id = p.size) (hsrc : Sourced rt a m σ p.size src)
    (hfixed : src.isFixed = false) :
    Simulated rt a size (.alu .cmp p.size src (.pseudo p)) σ m := by
  have hdefines : ∀ id, ¬ (Instr.alu .cmp p.size src (.pseudo p)).Defines id := by
    rintro id ⟨q, hq, -⟩
    simp [Instr.effects, AluOp.writesDestination, AluOp.readsDestination,
      not_defines_readEffects]
      at hq
  have huses : (Instr.alu .cmp p.size src (.pseudo p)).Uses p.id :=
    ⟨p, by simp [Instr.effects, AluOp.readsDestination, Operand.readEffects], rfl⟩
  obtain ⟨before, mo, m₀, hresolve, hbefore, hkept₀, hread, havoids⟩ := hsrc
  obtain ⟨location, ha, hheld⟩ := (h.holds p.id huses).read hsize (Nat.le_refl _)
  have hdest : m₀.read rt p.size location.operand = σ.value p.size p.id :=
    ((hkept₀.mono fun r hr => hr.1).read (h.apart.avoids_address ha) rt p.size).trans hheld
  obtain ⟨m₁, hkept₁, hrun⟩ := exec_expandAlu (m := m₀) (s := p.size) havoids
    (h.apart.avoids ha) (isPlace_operand location)
  rw [hread, hdest] at hrun
  have hexpand : (Instr.alu .cmp p.size src (.pseudo p)).expand a
      = .ok (before ++ expandAlu .cmp p.size mo location.operand) := by
    simp only [Instr.expand, hresolve, resolve_pseudo ha]
    exact congrArg (fun l => Except.ok (l ++ _)) (List.append_nil before)
  have hregs : ∀ r, (Instr.alu .cmp p.size src (.pseudo p)).spoils r = false →
      m₁.regs r = m.regs r := by
    intro r hr
    simp only [Instr.spoils, hfixed, isFixed_pseudo, isIndirect_pseudo, Bool.not_false,
      Bool.and_true, Bool.or_false, Bool.or_eq_false_iff, decide_eq_false_iff_not] at hr
    refine (hkept₁.regs r hr.1).trans (hkept₀.regs r ?_)
    rintro ⟨rfl, hindirect⟩
    simp [hindirect] at hr
  refine ⟨_, hexpand, .inl ⟨_, _, rfl, (execAll_append_of_ok hbefore).trans hrun, ?_, ?_⟩⟩
  · refine ⟨fun id hid => absurd hid (hdefines id), by rintro _ _ ⟨⟩, fun _ => ⟨_, rfl, rfl⟩,
      fun x _ => ?_, fun r _ hr _ => hregs r hr, hkept₁.calls.trans hkept₀.calls⟩
    exact congrFun (hkept₁.memory.trans (hkept₀.memory.trans h.memory)) x
  · exact ⟨fun _ _ => rfl, fun _ _ => rfl, fun _ _ => rfl, rfl⟩

/-- A value is put into a hardware register. -/
theorem simulated_pass {r : Machine.Reg} (h : Prepared rt a size (.mov s src (.fixed r)) σ m)
    (hsrc : Sourced rt a m σ s src) :
    Simulated rt a size (.mov s src (.fixed r)) σ m := by
  have hdefines : ∀ id, ¬ (Instr.mov s src (.fixed r)).Defines id := by
    rintro id ⟨q, hq, -⟩
    simp [Instr.mov, Instr.effects, AluOp.writesDestination, AluOp.readsDestination,
      Operand.writeEffects, not_defines_readEffects] at hq
  obtain ⟨before, mo, m₀, hresolve, hbefore, hkept₀, hread, -⟩ := hsrc
  have hexpand : (Instr.mov s src (.fixed r)).expand a
      = .ok (before ++ [.mov s mo (.reg r)]) := by
    simp only [Instr.mov, Instr.expand, hresolve]
    rw [show (Operand.fixed r).resolve a = .ok ([], .reg r) from rfl]
    refine congrArg Except.ok ?_
    rw [List.append_nil, expandAlu_mov (.inr rfl)]
  have hwrite : ∀ x,
      (Instr.mov s src (.fixed r)).fixedWrite? x = if x = r then some s else none := by
    intro x
    simp [Instr.mov, Instr.fixedWrite?, AluOp.writesDestination, eq_comm]
  have hkept : Kept (fun x => (Instr.mov s src (.fixed r)).spoils x = true) m m₀ := by
    refine hkept₀.mono fun x hx => ?_
    simp [Instr.mov, Instr.spoils, hx.1, hx.2]
  have hexec : (Instr.mov s src (.fixed r)).exec rt σ
      = .ok (σ.onMachine (·.setReg s r (σ.read rt s src))) := rfl
  refine simulated_of_load h hdefines hwrite rfl hexec hexpand hkept ?_
  refine (execAll_append_of_ok hbefore).trans (execAll_singleton ?_)
  refine (Machine.exec_mov ?_ (.inl rfl)).trans (congrArg Except.ok ?_)
  · cases mo <;> rfl
  · rw [hread]
    rfl

/-- What stores into the frame is stopped. -/
theorem hitsFrame_of_within {address x : Word} (h : Memory.Within address s.bytes x)
    (hx : rt.frame x = true) : State.hitsFrame rt s address = true := by
  unfold State.hitsFrame
  rw [List.any_eq_true]
  refine ⟨(x - address).toNat, List.mem_range.2 h, ?_⟩
  rw [BitVec.ofNat_toNat, BitVec.setWidth_eq, BitVec.add_comm, BitVec.sub_add_cancel]
  exact hx

/-- A value is stored through an address. -/
theorem simulated_put {dest : Operand}
    (h : Prepared rt a size (.mov p.size (.pseudo p) dest) σ m) (hsize : size p.id = p.size)
    (hdest : dest.InMemory fun p => size p.id = p.size) :
    Simulated rt a size (.mov p.size (.pseudo p) dest) σ m := by
  have hfixed : dest.isFixed = false := by
    cases dest <;> first | rfl | exact hdest.elim
  have hdefines : ∀ id, ¬ (Instr.mov p.size (.pseudo p) dest).Defines id := by
    rintro id ⟨q, hq, -⟩
    cases dest with
    | indirect base disp | rip symbol disp =>
      simp [Instr.mov, Instr.effects, AluOp.writesDestination, AluOp.readsDestination,
        Operand.writeEffects, Operand.readEffects] at hq
    | _ => exact hdest.elim
  have hwrites : ∀ r, (Instr.mov p.size (.pseudo p) dest).fixedWrite? r = none := by
    intro r
    cases dest <;> first | rfl | exact hdest.elim
  have husesBase : ∀ base disp, dest = .indirect base disp →
      (Instr.mov p.size (.pseudo p) dest).Uses base.id := by
    rintro base disp rfl
    exact ⟨base,
      by simp [Instr.mov, Instr.effects, AluOp.writesDestination, Operand.writeEffects],
      rfl⟩
  have huses : (Instr.mov p.size (.pseudo p) dest).Uses p.id :=
    ⟨p, by simp [Instr.mov, Instr.effects, Operand.readEffects], rfl⟩
  obtain ⟨location, ha, hheld⟩ := (h.holds p.id huses).read hsize (Nat.le_refl _)
  obtain ⟨before, mo, m₀, address, hresolve, hbefore, hkept₀, hmemory, havoids, haddress,
    haddress'⟩ :=
    resolve_inMemory (m := m) (σ := σ) hdest h.apart fun base disp hbase =>
      h.holds base.id (husesBase base disp hbase)
  have hvalue : m₀.read rt p.size location.operand = σ.value p.size p.id :=
    ((hkept₀.mono fun r hr => hr.1).read (h.apart.avoids_address ha) rt p.size).trans hheld
  obtain ⟨m₁, hkept₁, hrun⟩ := exec_expandAlu (m := m₀) (s := p.size)
    (h.apart.avoids ha) havoids (.inr hmemory)
  rw [hvalue] at hrun
  have hexpand : (Instr.mov p.size (.pseudo p) dest).expand a
      = .ok (before ++ expandAlu .mov p.size location.operand mo) := by
    simp only [Instr.mov, Instr.expand, hresolve, resolve_pseudo ha]
    rfl
  have haddress₁ : m₁.address rt mo = some address := by
    rw [← haddress]
    cases mo with
    | mem base disp =>
      rw [Machine.State.address, Machine.State.address, hkept₁.regs base havoids]
    | _ => rfl
  have hstored : m₁.write rt p.size (σ.value p.size p.id) mo
      = m₁.store p.size address (σ.value p.size p.id) := write_of_address haddress₁ _
  have hstore :
      Machine.Instr.execAll rt m (before ++ expandAlu .mov p.size location.operand mo)
      = .ok ((m₁.store p.size address (σ.value p.size p.id)).setFlags m₀.flags) := by
    rw [execAll_append_of_ok hbefore, hrun, ← hstored]
    rfl
  refine ⟨_, hexpand, ?_⟩
  have hexec : (Instr.mov p.size (.pseudo p) dest).exec rt σ
      = (σ.store rt p.size address (σ.value p.size p.id)).map (·.setFlags σ.flags) := by
    rw [← State.write_of_address haddress']
    rfl
  rw [hexec]
  unfold State.store
  split
  · exact .inr (.inl rfl)
  · next hmiss =>
    have hoff : ∀ x, rt.frame x = true → ¬ Memory.Within address p.size.bytes x :=
      fun x hx hwithin => hmiss (hitsFrame_of_within hwithin hx)
    refine .inl ⟨_, _, rfl, hstore, ?_, ?_⟩
    · have hmemory' : m₁.memory = σ.memory :=
        hkept₁.memory.trans (hkept₀.memory.trans h.memory)
      refine ⟨fun id hid => absurd hid (hdefines id), fun r s' hr => ?_, by rintro ⟨⟩,
        fun x _ => ?_, fun r _ hr _ => ?_, hkept₁.calls.trans hkept₀.calls⟩
      · rw [hwrites] at hr
        cases hr
      · exact congrArg
          (fun mem : Memory => mem.store address p.size (σ.value p.size p.id) x) hmemory'
      · simp only [Instr.mov, Instr.spoils, hfixed, isFixed_pseudo, isIndirect_pseudo,
          Bool.not_false,
          Bool.and_true, Bool.false_or, Bool.or_eq_false_iff, decide_eq_false_iff_not] at hr
        refine (hkept₁.regs r hr.1).trans (hkept₀.regs r ?_)
        rintro ⟨rfl, hindirect⟩
        simp [hindirect] at hr
    · refine ⟨fun _ _ => rfl, fun _ _ => rfl, fun x hx => ?_, rfl⟩
      exact Memory.store_of_not_within _ (hoff x hx)

/-- Operations whose destination has to be a register, behind code that makes an address
ready. -/
theorem simulated_into {v : Value p.size} {operation : Machine.Reg → Machine.Instr}
    {before : List Machine.Instr} {m₀ : Machine.State} {indirect : Bool}
    (h : Prepared rt a size i σ m) (hsize : size p.id = p.size)
    (hdefines : ∀ id, i.Defines id ↔ id = p.id) (hwrites : ∀ r, i.fixedWrite? r = none)
    (hspoils : ∀ r, i.spoils r = (r = valueScratch || r = addressScratch && indirect))
    (hcompares : i.compares = false) (hexec : i.exec rt σ = .ok (σ.setPseudo p.size p.id v))
    (hexpand : ∀ location, a p.id = some location →
      i.expand a = .ok (before ++ expandInto p.size operation location.operand))
    (hbefore : Machine.Instr.execAll rt m before = .ok m₀)
    (hkept₀ : Kept (fun r => r = addressScratch ∧ indirect = true) m m₀)
    (hoperation : ∀ r, (operation r).exec rt m₀ = .ok (m₀.setReg p.size r v)) :
    Simulated rt a size i σ m := by
  obtain ⟨location, ha⟩ := h.located p.id ((hdefines _).2 rfl)
  obtain ⟨m₁, hkept₁, hrun⟩ := exec_expandInto hoperation location
  have hkept : Kept (fun r => i.spoils r = true) m m₁ := by
    refine (hkept₀.mono fun r hr => ?_).trans (hkept₁.mono fun r hr => ?_)
    · rw [hspoils, hr.2, decide_eq_true hr.1]
      exact Bool.or_true _
    · rw [hspoils, decide_eq_true hr]
      rfl
  have hframe : i.spoils .rbp = false := by
    rw [hspoils]
    rfl
  have hall :
      Machine.Instr.execAll rt m (before ++ expandInto p.size operation location.operand)
      = .ok ((m₁.write rt p.size v location.operand).setFlags
          (m₁.write rt p.size v location.operand).flags) :=
          (execAll_append_of_ok hbefore).trans hrun
  exact simulated_of_defines h hsize ha hdefines hwrites hframe hcompares hexec
    (hexpand location ha) hkept hall

/-- A value is extended. -/
theorem simulated_extend {signed : Bool} {narrow : Size} {q : Reg}
    (h : Prepared rt a size (.extend signed narrow p.size (.pseudo q) (.pseudo p)) σ m)
    (hsize : size p.id = p.size) (hq : size q.id = q.size)
    (hnarrow : narrow.bytes ≤ q.size.bytes) :
    Simulated rt a size (.extend signed narrow p.size (.pseudo q) (.pseudo p)) σ m := by
  have huses : (Instr.extend signed narrow p.size (.pseudo q) (.pseudo p)).Uses q.id :=
    ⟨q, List.mem_cons_self, rfl⟩
  obtain ⟨source, hsource, hheld⟩ := (h.holds q.id huses).read hq hnarrow
  have hdefines : ∀ id, (Instr.extend signed narrow p.size (.pseudo q) (.pseudo p)).Defines id
      ↔ id = p.id := by
    intro id
    simp [Instr.Defines, Instr.effects, Operand.readEffects, Operand.writeEffects, eq_comm]
  have hspoils : ∀ r, (Instr.extend signed narrow p.size (.pseudo q) (.pseudo p)).spoils r
      = (r = valueScratch || r = addressScratch && false) := by
    intro r
    simp only [Instr.spoils, isFixed_pseudo, isIndirect_pseudo, Bool.not_false, Bool.and_true,
      Bool.or_false]
  have hnothing : Machine.Instr.execAll rt m [] = .ok m := rfl
  have hoperation : ∀ r, (Machine.Instr.extend signed narrow p.size source.operand r).exec rt m
      = .ok (m.setReg p.size r
        (Machine.extension signed narrow p.size (σ.value narrow q.id))) := by
    intro r
    rw [← hheld]
    rfl
  refine simulated_into h hsize hdefines (fun _ => rfl) hspoils rfl rfl (fun location ha => ?_)
    hnothing (.refl _ m) hoperation
  simp only [Instr.expand, resolve_pseudo ha, resolve_pseudo hsource]
  rfl

/-- A value is extended into a hardware register. -/
theorem simulated_extendInto {signed : Bool} {narrow : Size} {q : Reg} {r : Machine.Reg}
    (h : Prepared rt a size (.extend signed narrow s (.pseudo q) (.fixed r)) σ m)
    (hq : size q.id = q.size) (hnarrow : narrow.bytes ≤ q.size.bytes) :
    Simulated rt a size (.extend signed narrow s (.pseudo q) (.fixed r)) σ m := by
  have huses : (Instr.extend signed narrow s (.pseudo q) (.fixed r)).Uses q.id :=
    ⟨q, List.mem_cons_self, rfl⟩
  obtain ⟨source, hsource, hheld⟩ := (h.holds q.id huses).read hq hnarrow
  have hdefines :
      ∀ id, ¬ (Instr.extend signed narrow s (.pseudo q) (.fixed r)).Defines id := by
    rintro id ⟨p, hp, -⟩
    simp [Instr.effects, Operand.readEffects, Operand.writeEffects] at hp
  have hwrite : ∀ x, (Instr.extend signed narrow s (.pseudo q) (.fixed r)).fixedWrite? x
      = if x = r then some s else none := by
    intro x
    simp [Instr.fixedWrite?, eq_comm]
  have hexpand : (Instr.extend signed narrow s (.pseudo q) (.fixed r)).expand a
      = .ok [.extend signed narrow s source.operand r] := by
    simp only [Instr.expand, resolve_pseudo hsource]
    rfl
  refine simulated_of_load (v := Machine.extension signed narrow s (σ.value narrow q.id))
    h hdefines
    hwrite rfl rfl hexpand (.refl _ m) (execAll_singleton ?_)
  rw [← hheld]
  rfl

/-- An address is put into a pseudo-register. -/
theorem simulated_address (h : Prepared rt a size (.lea src (.pseudo p)) σ m)
    (hsize : size p.id = p.size) (hquad : p.size = .quad)
    (hsrc : src.InMemory fun p => size p.id = p.size) :
    Simulated rt a size (.lea src (.pseudo p)) σ m := by
  have hfixed : src.isFixed = false := by
    cases src <;> first | rfl | exact hsrc.elim
  have hdefines : ∀ id, (Instr.lea src (.pseudo p)).Defines id ↔ id = p.id := by
    intro id
    simp [Instr.Defines, Instr.effects, Operand.writeEffects, not_defines_readEffects, eq_comm]
  have huses : ∀ q, .uses q ∈ src.readEffects → (Instr.lea src (.pseudo p)).Uses q.id :=
    fun q hq => ⟨q, List.mem_append_left _ hq, rfl⟩
  obtain ⟨before, mo, m₀, address, hresolve, hbefore, hkept₀, hmemory, havoids, haddress,
    haddress'⟩ :=
    resolve_inMemory (m := m) (σ := σ) hsrc h.apart fun base disp hbase =>
      h.holds base.id (huses base (by rw [hbase]; exact List.mem_cons_self))
  obtain ⟨id, psize⟩ := p
  subst hquad
  have hspoils : ∀ r, (Instr.lea src (.pseudo ⟨id, .quad⟩)).spoils r
      = (r = valueScratch || r = addressScratch && src.isIndirect) := by
    intro r
    simp only [Instr.spoils, isFixed_pseudo, isIndirect_pseudo, Bool.not_false, Bool.and_true,
      Bool.or_false]
  have hexec : (Instr.lea src (.pseudo ⟨id, .quad⟩)).exec rt σ
      = .ok (σ.setPseudo .quad id address) := by
    simp only [Instr.exec, haddress']
    rfl
  have hoperation :
      ∀ r, (Machine.Instr.lea mo r).exec rt m₀ = .ok (m₀.setReg .quad r address) := by
    intro r
    simp only [Machine.Instr.exec, Machine.Instr.isExecutable, hmemory, haddress]
    rfl
  refine simulated_into h hsize hdefines (fun _ => rfl) hspoils rfl hexec
    (fun location ha => ?_)
    hbefore hkept₀ hoperation
  simp only [Instr.expand, hresolve, resolve_pseudo ha]
  exact congrArg (fun l => Except.ok (l ++ _)) (List.append_nil before)

/-- The address of a symbol is put into a hardware register. -/
theorem simulated_name {symbol : String} {disp : Int} {r : Machine.Reg}
    (h : Prepared rt a size (.lea (.rip symbol disp) (.fixed r)) σ m) :
    Simulated rt a size (.lea (.rip symbol disp) (.fixed r)) σ m := by
  have hdefines : ∀ id, ¬ (Instr.lea (.rip symbol disp) (.fixed r)).Defines id := by
    rintro id ⟨p, hp, -⟩
    simp [Instr.effects, Operand.readEffects, Operand.writeEffects] at hp
  have hwrite : ∀ x, (Instr.lea (.rip symbol disp) (.fixed r)).fixedWrite? x
      = if x = r then some .quad else none := by
    intro x
    simp [Instr.fixedWrite?, eq_comm]
  let address : Value .quad := rt.symbol symbol + BitVec.ofInt 64 disp
  exact simulated_of_load (v := address) h hdefines hwrite rfl rfl rfl (.refl _ m) rfl

/-- Operations on a pseudo-register alone. -/
theorem simulated_unary (v : Value p.size) (flags' : Option Machine.Flags)
    {flags : Option Machine.Flags}
    {operation : Machine.Operand → Machine.Instr} (h : Prepared rt a size i σ m)
    (hsize : size p.id = p.size) (hdefines : ∀ id, i.Defines id ↔ id = p.id)
    (hwrites : ∀ r, i.fixedWrite? r = none) (hspoils : i.spoils .rbp = false)
    (hcompares : i.compares = false)
    (hexec : i.exec rt σ = .ok ((σ.setPseudo p.size p.id v).setFlags flags))
    (hexpand : i.expand a = expandUnary a (.pseudo p) operation)
    (hoperation : ∀ location, a p.id = some location → (operation location.operand).exec rt m
      = .ok ((m.write rt p.size v location.operand).setFlags flags')) :
    Simulated rt a size i σ m := by
  obtain ⟨location, ha⟩ := h.located p.id ((hdefines _).2 rfl)
  have hpart : i.expand a = .ok [operation location.operand] := by
    rw [hexpand]
    simp only [expandUnary, resolve_pseudo ha]
    rfl
  exact simulated_of_defines h hsize ha hdefines hwrites hspoils hcompares hexec
    hpart (.refl _ m) (execAll_singleton (hoperation location ha))

/-- What an operation on a pseudo-register alone finds there. -/
theorem Prepared.read (h : Prepared rt a size i σ m) (hsize : size p.id = p.size)
    (huses : i.Uses p.id) (ha : a p.id = some location) :
    m.read rt p.size location.operand = σ.value p.size p.id := by
  obtain ⟨location', ha', hheld⟩ := (h.holds p.id huses).read hsize (Nat.le_refl _)
  obtain rfl : location' = location := Option.some.inj (ha'.symm.trans ha)
  exact hheld

theorem simulated_neg (h : Prepared rt a size (.neg p.size (.pseudo p)) σ m)
    (hsize : size p.id = p.size) : Simulated rt a size (.neg p.size (.pseudo p)) σ m := by
  have hdefines : ∀ id, (Instr.neg p.size (.pseudo p)).Defines id ↔ id = p.id := by
    intro id
    simp [Instr.Defines, Instr.effects, Operand.readEffects, Operand.writeEffects, eq_comm]
  have huses : (Instr.neg p.size (.pseudo p)).Uses p.id := ⟨p, List.mem_cons_self, rfl⟩
  refine simulated_unary (-(σ.value p.size p.id)) none h hsize hdefines (fun _ => rfl)
    rfl rfl rfl rfl fun location ha => ?_
  rw [← h.read hsize huses ha]
  cases location <;> rfl

theorem simulated_not (h : Prepared rt a size (.not p.size (.pseudo p)) σ m)
    (hsize : size p.id = p.size) : Simulated rt a size (.not p.size (.pseudo p)) σ m := by
  have hdefines : ∀ id, (Instr.not p.size (.pseudo p)).Defines id ↔ id = p.id := by
    intro id
    simp [Instr.Defines, Instr.effects, Operand.readEffects, Operand.writeEffects, eq_comm]
  have huses : (Instr.not p.size (.pseudo p)).Uses p.id := ⟨p, List.mem_cons_self, rfl⟩
  refine simulated_unary (~~~(σ.value p.size p.id)) m.flags h hsize
    hdefines (fun _ => rfl) rfl rfl rfl rfl fun location ha => ?_
  rw [← h.read hsize huses ha]
  cases location <;> rfl

theorem simulated_shift {op : Machine.ShiftOp}
    (h : Prepared rt a size (.shift op p.size (.pseudo p)) σ m) (hsize : size p.id = p.size) :
    Simulated rt a size (.shift op p.size (.pseudo p)) σ m := by
  have hdefines : ∀ id, (Instr.shift op p.size (.pseudo p)).Defines id ↔ id = p.id := by
    intro id
    simp [Instr.Defines, Instr.effects, Operand.readEffects, Operand.writeEffects, eq_comm]
  have huses : (Instr.shift op p.size (.pseudo p)).Uses p.id :=
    ⟨p, List.mem_cons_of_mem _ List.mem_cons_self, rfl⟩
  have hcount : m.reg .byte .rcx = σ.reg .byte .rcx := h.fixed .rcx .byte List.mem_cons_self
  refine simulated_unary (op.value (σ.reg .byte .rcx) (σ.value p.size p.id)) none h
    hsize hdefines (fun _ => rfl) rfl rfl rfl rfl fun location ha => ?_
  rw [← h.read hsize huses ha, ← hcount]
  cases location <;> rfl

theorem simulated_setcc {cond : Machine.Condition}
    (h : Prepared rt a size (.setcc cond (.pseudo p)) σ m) (hsize : size p.id = p.size)
    (hbyte : p.size = .byte) : Simulated rt a size (.setcc cond (.pseudo p)) σ m := by
  have hdefines : ∀ id, (Instr.setcc cond (.pseudo p)).Defines id ↔ id = p.id := by
    intro id
    simp [Instr.Defines, Instr.effects, Operand.writeEffects, eq_comm]
  obtain ⟨id, psize⟩ := p
  subst hbyte
  obtain ⟨f, hm, hσ⟩ := h.flags rfl
  let truth : Value .byte := if cond.holds f then 1 else 0
  have hexec : (Instr.setcc cond (.pseudo ⟨id, .byte⟩)).exec rt σ
      = .ok ((σ.setPseudo .byte id truth).setFlags σ.flags) := by
    simp only [Instr.exec, hσ]
    rw [← hσ]
    rfl
  refine simulated_unary truth m.flags h hsize hdefines (fun _ => rfl) rfl rfl hexec
    rfl fun location ha => ?_
  cases location <;> simp only [Machine.Instr.exec, hm] <;> rw [← hm] <;> rfl

/-- The sign of the accumulator is spread. -/
theorem simulated_signExtendAccumulator (h : Prepared rt a size (.signExtendAccumulator s) σ m)
    (hbyte : s ≠ .byte) : Simulated rt a size (.signExtendAccumulator s) σ m := by
  have hdefines : ∀ id, ¬ (Instr.signExtendAccumulator s).Defines id := by
    rintro id ⟨p, hp, -⟩
    simp [Instr.effects] at hp
  have hvalue : m.reg s .rax = σ.reg s .rax := h.fixed .rax s List.mem_cons_self
  have hexec : (Instr.signExtendAccumulator s).exec rt σ
      = .ok (σ.onMachine (·.setReg s .rdx (Machine.signFill (σ.reg s .rax)))) := if_neg hbyte
  refine simulated_of_load h hdefines (fun _ => rfl) rfl hexec rfl (.refl _ m)
    (execAll_singleton ?_)
  rw [← hvalue]
  exact if_neg hbyte

/-- A division, or a stop of both runs. -/
theorem simulated_idiv {q : Reg} (h : Prepared rt a size (.idiv s (.pseudo q)) σ m)
    (hq : size q.id = q.size) (hs : s.bytes ≤ q.size.bytes) (hbyte : s ≠ .byte) :
    Simulated rt a size (.idiv s (.pseudo q)) σ m := by
  have hdefines : ∀ id, ¬ (Instr.idiv s (.pseudo q)).Defines id := by
    rintro id ⟨p, hp, -⟩
    simp [Instr.effects, Operand.readEffects] at hp
  have huses : (Instr.idiv s (.pseudo q)).Uses q.id :=
    ⟨q, by simp [Instr.effects, Operand.readEffects], rfl⟩
  obtain ⟨location, ha, hheld⟩ := (h.holds q.id huses).read hq hs
  have hlow : m.reg s .rax = σ.reg s .rax := h.fixed .rax s List.mem_cons_self
  have hhigh : m.reg s .rdx = σ.reg s .rdx :=
    h.fixed .rdx s (List.mem_cons_of_mem _ List.mem_cons_self)
  have hexpand : (Instr.idiv s (.pseudo q)).expand a = .ok [.idiv s location.operand] := by
    simp only [Instr.expand, expandUnary, resolve_pseudo ha]
    rfl
  have hexecutable : (Machine.Instr.idiv s location.operand).isExecutable = true := by
    cases location <;> rfl
  refine ⟨_, hexpand, ?_⟩
  cases hdivision : Machine.division (σ.reg s .rdx) (σ.reg s .rax) (σ.value s q.id) with
  | none =>
    refine .inr (.inr ⟨?_, ?_⟩)
    · simp only [Instr.exec, if_neg hbyte]
      rw [show σ.read rt s (.pseudo q) = σ.value s q.id from rfl, hdivision]
    · have hstop : (Machine.Instr.idiv s location.operand).exec rt m = .error .divide := by
        simp only [Machine.Instr.exec, hexecutable, if_neg hbyte, hlow, hhigh,
          hheld, hdivision]
        rfl
      rw [Machine.Instr.execAll, hstop]
  | some result =>
    obtain ⟨quotient, remainder⟩ := result
    let divide (st : Machine.State) : Machine.State :=
      ((st.setReg s .rax quotient).setReg s .rdx remainder).setFlags none
    have hrax : ∀ st, (divide st).reg s .rax = quotient := fun st =>
      (Machine.State.reg_setReg_of_ne _ _ (by decide)).trans
        ((st.reg_setReg (Nat.le_refl _) _ _).trans (BitVec.setWidth_eq _))
    have hrdx : ∀ st, (divide st).reg s .rdx = remainder := fun st =>
      (Machine.State.reg_setReg _ (Nat.le_refl _) _ _).trans (BitVec.setWidth_eq _)
    have hother : ∀ st r, (Instr.idiv s (.pseudo q)).fixedWrite? r = none →
        (divide st).regs r = st.regs r := by
      intro st r hr
      simp only [Instr.fixedWrite?, ite_eq_right_iff, reduceCtorEq, imp_false, not_or] at hr
      exact (if_neg hr.2).trans (if_neg hr.1)
    have hexec : (Instr.idiv s (.pseudo q)).exec rt σ = .ok (σ.onMachine divide) := by
      simp only [Instr.exec, if_neg hbyte]
      rw [show σ.read rt s (.pseudo q) = σ.value s q.id from rfl, hdivision]
    have hrun : (Machine.Instr.idiv s location.operand).exec rt m = .ok (divide m) := by
      simp only [Machine.Instr.exec, hexecutable, if_neg hbyte, hlow, hhigh, hheld, hdivision]
      rfl
    refine .inl ⟨_, _, hexec, execAll_singleton hrun, ?_, ?_⟩
    · refine ⟨fun id hid => absurd hid (hdefines id), fun r s' hr => ?_, by rintro ⟨⟩,
        fun x _ => congrFun h.memory x, fun r hr _ _ => hother m r hr, rfl⟩
      simp only [Instr.fixedWrite?, Option.ite_none_right_eq_some, Option.some.injEq] at hr
      obtain ⟨rfl | rfl, rfl⟩ := hr
      · exact (hrax m).trans (hrax σ.toState).symm
      · exact (hrdx m).trans (hrdx σ.toState).symm
    · exact ⟨fun _ _ => rfl, fun r hr => hother σ.toState r hr, fun _ _ => rfl, rfl⟩

end

/-! ## All shapes -/

/-- The instructions that control only passes through. -/
def Instr.isStraight : Instr → Bool
  | .jcc _ _ | .jmp _ | .label _ | .call _ | .callIndirect _ _ => false
  | _ => true

/-- Expanded instructions do what the instructions do. -/
theorem simulated_of_fits {abi : Abi} (hfits : i.Fits abi fun p => size p.id = p.size)
    (hstraight : i.isStraight = true) (h : Prepared rt a size i σ m) :
    Simulated rt a size i σ m := by
  cases hfits with
  | receive _ hp => exact simulated_receive h hp
  | @move src p hsrc hp =>
    have hfixed : src.isFixed = false := by
      cases src <;> first | rfl | exact hsrc.elim
    have huses : ∀ q, .uses q ∈ src.readEffects →
        (Instr.mov p.size src (.pseudo p)).Uses q.id :=
      fun q hq => ⟨q, List.mem_append_left _ (List.mem_append_left _ hq), rfl⟩
    exact simulated_alu h hp rfl (sourced_of_plain h hsrc huses) hfixed
  | @fetch src p hsrc hp =>
    have hfixed : src.isFixed = false := by
      cases src <;> first | rfl | exact hsrc.elim
    have huses : ∀ q, .uses q ∈ src.readEffects →
        (Instr.mov p.size src (.pseudo p)).Uses q.id :=
      fun q hq => ⟨q, List.mem_append_left _ (List.mem_append_left _ hq), rfl⟩
    exact simulated_alu h hp rfl (sourced_of_inMemory h hsrc huses) hfixed
  | @pass s src r hsrc _ =>
    have huses : ∀ q, .uses q ∈ src.readEffects → (Instr.mov s src (.fixed r)).Uses q.id :=
      fun q hq => ⟨q, List.mem_append_left _ (List.mem_append_left _ hq), rfl⟩
    exact simulated_pass h (sourced_of_plain h hsrc huses)
  | @fetchAddress base disp hbase hquad =>
    have huses : ∀ q, .uses q ∈ (Operand.indirect base disp).readEffects →
        (Instr.mov .quad (.indirect base disp) (.fixed addressScratch)).Uses q.id :=
      fun q hq => ⟨q, List.mem_append_left _ (List.mem_append_left _ hq), rfl⟩
    have hsrc : (Operand.indirect base disp).InMemory fun p => size p.id = p.size :=
      ⟨hbase, hquad⟩
    exact simulated_pass h (sourced_of_inMemory h hsrc huses)
  | put hp hdest => exact simulated_put h hp hdest
  | @operate op src p _ hsrc hp =>
    have hfixed : src.isFixed = false := by
      cases src <;> first | rfl | exact hsrc.elim
    have huses : ∀ q, .uses q ∈ src.readEffects →
        (Instr.alu op p.size src (.pseudo p)).Uses q.id :=
      fun q hq => ⟨q, List.mem_append_left _ (List.mem_append_left _ hq), rfl⟩
    have hsourced := sourced_of_plain h hsrc huses
    by_cases hcmp : op = .cmp
    · subst hcmp
      exact simulated_compare h hp hsourced hfixed
    · have hwrites : op.writesDestination = true := by
        cases op <;> first | rfl | exact absurd rfl hcmp
      exact simulated_alu h hp hwrites hsourced hfixed
  | extend hq hnarrow hp => exact simulated_extend h hp hq hnarrow
  | extendInto hq hnarrow _ => exact simulated_extendInto h hq hnarrow
  | address hsrc hp hquad => exact simulated_address h hp hquad hsrc
  | name _ => exact simulated_name h
  | neg hp => exact simulated_neg h hp
  | not hp => exact simulated_not h hp
  | shift hp => exact simulated_shift h hp
  | setcc hp hbyte => exact simulated_setcc h hp hbyte
  | idiv hq hs hbyte => exact simulated_idiv h hq hs hbyte
  | signExtendAccumulator hbyte => exact simulated_signExtendAccumulator h hbyte
  | _ => cases hstraight

end

end Jil.Pseudo
