/-
Jil.Proofs.Confinement — what instructions of streams can write.

The frame of a function and the registers that it has to keep stay as they are
whatever the function computes. All that matters for that is where its
instructions write: to pseudo-registers at their sizes, to the hardware
registers that streams name, and to memory through addresses. An instruction
that does no more is `Confined`, and its effects are `Allowed`.
-/
import Jil.Proofs.Discipline

namespace Jil.Pseudo

open Jil.Machine (Abi Size addressScratch)

variable {abi : Abi} {K K' : Reg → Prop} {i : Instr} {s : Size}

/-! ## Effects -/

/-- What effects there are in streams: on pseudo-registers of known size and on hardware
registers that streams name. -/
def Effect.Allowed (abi : Abi) (K : Reg → Prop) : Effect → Prop
  | .uses p | .defines p => K p
  | .touches r => Named abi r

theorem Operand.Plain.allowed {o : Operand} (h : o.Plain K s) :
    ∀ e ∈ o.readEffects, e.Allowed abi K := by
  intro e he
  cases o with
  | pseudo p =>
    rw [Operand.readEffects, List.mem_singleton] at he
    rw [he]
    exact h.1
  | imm v => cases he
  | _ => exact h.elim

theorem Operand.InMemory.allowed {o : Operand} (h : o.InMemory K) :
    (∀ e ∈ o.readEffects, e.Allowed abi K) ∧ ∀ e ∈ o.writeEffects, e.Allowed abi K := by
  cases o with
  | indirect base disp =>
    simpa [Operand.readEffects, Operand.writeEffects, Effect.Allowed] using h.1
  | rip symbol disp => exact ⟨nofun, nofun⟩
  | _ => exact h.elim

/-- The shapes of instructions have such effects only. -/
theorem Instr.Fits.allowed (habi : abi ∈ Abi.all) (h : i.Fits abi K) :
    ∀ e ∈ i.effects, e.Allowed abi K := by
  have hrcx : Named abi .rcx := by
    have hall : ∀ abi ∈ Abi.all, Machine.Reg.rcx ∈ abi.arguments := by decide
    exact .inl (hall abi habi)
  have hrdx : Named abi .rdx := by
    have hall : ∀ abi ∈ Abi.all, Machine.Reg.rdx ∈ abi.arguments := by decide
    exact .inl (hall abi habi)
  have hrax : Named abi .rax := .inr (.inl rfl)
  have hscratch : Named abi addressScratch := .inr (.inr rfl)
  have hpseudo : ∀ {p}, K p → (∀ e ∈ (Operand.pseudo p).readEffects, e.Allowed abi K) ∧
      ∀ e ∈ (Operand.pseudo p).writeEffects, e.Allowed abi K := fun hp =>
    ⟨List.forall_mem_singleton.2 hp, List.forall_mem_singleton.2 hp⟩
  have hfixed : ∀ {r}, Named abi r → (∀ e ∈ (Operand.fixed r).readEffects, e.Allowed abi K) ∧
      ∀ e ∈ (Operand.fixed r).writeEffects, e.Allowed abi K := fun hr =>
    ⟨List.forall_mem_singleton.2 hr, List.forall_mem_singleton.2 hr⟩
  have htwo : ∀ {l l' : List Effect}, (∀ e ∈ l, e.Allowed abi K) →
      (∀ e ∈ l', e.Allowed abi K) →
      ∀ e ∈ l ++ l', e.Allowed abi K := fun h h' => List.forall_mem_append.2 ⟨h, h'⟩
  cases h with
  | receive hr hp => exact htwo (htwo (hfixed hr).1 nofun) (hpseudo hp).2
  | move hsrc hp => exact htwo (htwo hsrc.allowed nofun) (hpseudo hp).2
  | fetch hsrc hp => exact htwo (htwo hsrc.allowed.1 nofun) (hpseudo hp).2
  | pass hsrc hr => exact htwo (htwo hsrc.allowed nofun) (hfixed hr).2
  | fetchAddress hbase _ =>
    exact htwo (htwo (List.forall_mem_singleton.2 hbase) nofun) (hfixed hscratch).2
  | put hp hdest => exact htwo (htwo (hpseudo hp).1 nofun) hdest.allowed.2
  | operate _ hsrc hp =>
    refine htwo (htwo hsrc.allowed ?_) ?_
    · split
      · exact (hpseudo hp).1
      · exact nofun
    · split
      · exact (hpseudo hp).2
      · exact nofun
  | extend hq _ hp => exact htwo (hpseudo hq).1 (hpseudo hp).2
  | extendInto hq _ hr => exact htwo (hpseudo hq).1 (hfixed hr).2
  | address hsrc hp _ => exact htwo hsrc.allowed.1 (hpseudo hp).2
  | name hr => exact htwo nofun (hfixed hr).2
  | neg hp | not hp => exact htwo (hpseudo hp).1 (hpseudo hp).2
  | shift hp => exact htwo (htwo (hfixed hrcx).1 (hpseudo hp).1) (hpseudo hp).2
  | setcc hp _ => exact (hpseudo hp).2
  | idiv hq _ _ => exact htwo (htwo (hfixed hrax).1 (hfixed hrdx).1) (hpseudo hq).1
  | signExtendAccumulator _ => exact htwo (hfixed hrax).1 (hfixed hrdx).1
  | callIndirect => exact (hfixed hscratch).1
  | _ => exact nofun

/-! ## Writes -/

theorem Effect.Allowed.mono {e : Effect} (h : e.Allowed abi K) (hK : ∀ p, K p → K' p) :
    e.Allowed abi K' := by
  cases e with
  | uses p | defines p => exact hK p h
  | touches r => exact h

/-- Where streams write at a size. -/
def Operand.Writable (abi : Abi) (s : Size) : Operand → Prop
  | .pseudo p => s = p.size
  | .fixed r => Named abi r
  | .fixedIndirect _ _ => False
  | .imm _ | .indirect _ _ | .rip _ _ => True

theorem Operand.InMemory.writable {o : Operand} (h : o.InMemory K) : o.Writable abi s := by
  cases o with
  | indirect base disp | rip symbol disp => trivial
  | _ => exact h.elim

/-- The operand that an instruction writes, and how much of it. -/
def Instr.written? : Instr → Option (Size × Operand)
  | .alu op s _ dest => if op.writesDestination then some (s, dest) else none
  | .extend _ _ s _ dest => some (s, dest)
  | .lea _ dest => some (.quad, dest)
  | .neg s dest | .not s dest | .shift _ s dest => some (s, dest)
  | .setcc _ dest => some (.byte, dest)
  | _ => none

/-- Writing an operand is among the effects of the instruction that writes it. -/
theorem Instr.mem_effects_of_written? {o : Operand} (h : i.written? = some (s, o)) :
    ∀ e ∈ o.writeEffects, e ∈ i.effects := by
  intro e he
  cases i with
  | alu op size src dest =>
    obtain ⟨hwrites, h⟩ := Option.ite_none_right_eq_some.1 h
    cases h
    simp only [effects, hwrites, if_true]
    exact List.mem_append_right _ he
  | setcc cond dest =>
    cases h
    exact he
  | _ =>
    cases h
    try exact List.mem_append_right _ he

/-- An instruction whose registers are known and that writes where streams do. -/
structure Instr.Confined (abi : Abi) (K : Reg → Prop) (i : Instr) : Prop where
  allowed : ∀ e ∈ i.effects, e.Allowed abi K
  writes : ∀ s o, i.written? = some (s, o) → o.Writable abi s

namespace Instr

theorem Confined.mono (h : i.Confined abi K) (hK : ∀ p, K p → K' p) : i.Confined abi K' :=
  ⟨fun e he => (h.allowed e he).mono hK, h.writes⟩

/-- Moves between pseudo-registers are confined whatever their sizes. -/
theorem confined_move {q p : Reg} (hq : K q) (hp : K p) :
    (mov p.size (.pseudo q) (.pseudo p)).Confined abi K := by
  refine ⟨fun e he => ?_, fun s o h => ?_⟩
  · have he : e = .uses q ∨ e = .defines p := by
      simpa [mov, effects, Operand.readEffects, Operand.writeEffects,
        Machine.AluOp.readsDestination, Machine.AluOp.writesDestination] using he
    rcases he with rfl | rfl
    · exact hq
    · exact hp
  · cases h
    exact rfl

/-- All shapes of instructions are confined. -/
theorem Fits.confined (habi : abi ∈ Abi.all) (h : i.Fits abi K) : i.Confined abi K := by
  refine ⟨h.allowed habi, fun s o hw => ?_⟩
  cases h with
  | put _ hdest =>
    cases hw
    exact hdest.writable
  | pass _ hr =>
    cases hw
    exact hr
  | fetchAddress _ _ =>
    cases hw
    exact .inr (.inr rfl)
  | extendInto _ _ hr | name hr =>
    cases hw
    exact hr
  | operate _ _ _ =>
    obtain ⟨-, hw⟩ := Option.ite_none_right_eq_some.1 hw
    cases hw
    exact rfl
  | address _ _ hquad =>
    cases hw
    exact hquad.symm
  | setcc _ hbyte =>
    cases hw
    exact hbyte.symm
  | _ =>
    cases hw
    try exact rfl

end Instr

end Jil.Pseudo
