/-
Jil.Proofs.FrameBody — bodies of functions leave frames alone.

An instruction of a body writes free registers, slots, and what addresses lead
to (`Harmless`). When nothing is stored into the frame through an address, such
an instruction does not leave the body (`Inside.exec`), and neither does a call
(`Inside.call`). Streams that are confined to what streams write expand to such
instructions only, once their values have locations (`harmless_of_expand`).
-/
import Jil.Proofs.Frame

namespace Jil.Machine

/-! ## Writes -/

/-- The operand that an instruction writes, and how much of it. -/
def Instr.written? : Instr → Option (Size × Operand)
  | .alu op s _ dest => if op.writesDestination then some (s, dest) else none
  | .extend _ _ s _ dest => some (s, .reg dest)
  | .lea _ dest => some (.quad, .reg dest)
  | .neg s dest | .not s dest | .shift _ s dest => some (s, dest)
  | .setcc _ dest => some (.byte, dest)
  | _ => none

/-- Whether an instruction works on the stack. -/
def Instr.isStack : Instr → Bool
  | .push _ | .pop _ | .leave | .ret => true
  | _ => false

/-- The operand of a place at the frame pointer. -/
def Operand.isSlot : Operand → Bool
  | .mem base _ => base = .rbp
  | _ => false

/-- What an instruction stores through an address misses the frame. -/
def Spares (rt : Runtime) (m : State) (i : Instr) : Prop :=
  ∀ s o address x, i.written? = some (s, o) → o.isSlot = false →
    m.address rt o = some address →
    Memory.Within address s.bytes x → rt.frame x = false

/-- A run on which nothing is stored into the frame through an address. -/
inductive Runs (rt : Runtime) (code : List Instr) (p : Nat × State) : Nat × State → Prop
  | refl : Runs rt code p p
  | step {q r : Nat × State} :
      Runs rt code p q → (∀ i, code[q.1]? = some i → Spares rt q.2 i) →
    step rt code q = .ok r → Runs rt code p r

/-- A number of steps. -/
def steps (rt : Runtime) (code : List Instr) : Nat → Nat × State → Except Stop (Nat × State)
  | 0, p => .ok p
  | n + 1, p =>
    match step rt code p with
    | .ok q => steps rt code n q
    | .error e => .error e

/-- Code that writes registers only stores nothing through addresses. -/
theorem Runs.steps {rt : Runtime} {code : List Instr}
    (hcode : ∀ i ∈ code, ∀ written ∈ i.written?, written.2.isMemory = false) {n : Nat}
    {p q r : Nat × State} (h : Runs rt code p q) (hn : steps rt code n q = .ok r) :
    Runs rt code p r := by
  induction n generalizing q with
  | zero =>
    cases hn
    exact h
  | succ n ih =>
    unfold Machine.steps at hn
    split at hn
    · next next hstep =>
      refine ih (.step h (fun i hi s o address x hw _ haddress => ?_) hstep) hn
      have hregister := hcode i (List.mem_of_getElem? hi) (s, o) hw
      cases o <;> first | cases hregister; done | cases haddress
    · cases hn

section

variable {rt : Runtime} {m after : State} {i : Instr} {r : Reg} {x : Word}

theorem regs_write {s : Size} {o : Operand} (v : Value s) (h : o ≠ .reg r) :
    (m.write rt s v o).regs r = m.regs r := by
  cases o with
  | reg y => exact State.regs_setReg_of_ne _ _ fun heq => h (heq ▸ rfl)
  | _ => rfl

theorem memory_write {s : Size} {o : Operand} (v : Value s)
    (h : ∀ address, m.address rt o = some address → ¬ Memory.Within address s.bytes x) :
    (m.write rt s v o).memory x = m.memory x := by
  cases o with
  | mem base disp | rip symbol disp => exact Memory.store_of_not_within v (h _ rfl)
  | _ => rfl

/-- What an instruction changes: the operand that it writes, or the accumulator and its
extension. -/
theorem exec_eq_ok (h : i.exec rt m = .ok after) (hstack : i.isStack = false) :
    (∃ s o v flags, i.written? = some (s, o) ∧ after = (m.write rt s v o).setFlags flags) ∨
      (after.memory = m.memory ∧ ∀ r, r ≠ .rax → r ≠ .rdx → after.regs r = m.regs r) := by
  unfold Instr.exec at h
  split at h
  · cases h
  · cases i with
    | alu op s src dest =>
      cases h
      cases hwrites : op.writesDestination with
      | true => exact .inl ⟨s, dest, _, _, by simp [Instr.written?, hwrites], rfl⟩
      | false => exact .inr ⟨rfl, fun _ _ _ => rfl⟩
    | extend signed narrow wide src dest =>
      cases h
      exact .inl ⟨wide, .reg dest, _, m.flags, rfl, rfl⟩
    | lea src dest =>
      simp only at h
      split at h
      · cases h
        exact .inl ⟨.quad, .reg dest, _, m.flags, rfl, rfl⟩
      · cases h
    | neg s dest =>
      cases h
      exact .inl ⟨s, dest, _, _, rfl, rfl⟩
    | not s dest =>
      cases h
      exact .inl ⟨s, dest, _, (m.write rt s _ dest).flags, rfl, rfl⟩
    | shift op s dest =>
      cases h
      exact .inl ⟨s, dest, _, _, rfl, rfl⟩
    | setcc cond dest =>
      simp only at h
      split at h
      · cases h
        exact .inl ⟨.byte, dest, _, (m.write rt .byte _ dest).flags, rfl, rfl⟩
      · cases h
    | idiv s divisor =>
      simp only at h
      split at h
      · cases h
      · split at h
        · cases h
          exact .inr ⟨rfl, fun r hr hr' =>
            (State.regs_setReg_of_ne _ _ hr').trans (State.regs_setReg_of_ne _ _ hr)⟩
        · cases h
    | signExtendAccumulator s =>
      simp only at h
      split at h
      · cases h
      · cases h
        exact .inr ⟨rfl, fun r _ hr => State.regs_setReg_of_ne _ _ hr⟩
    | push r | pop r | leave => cases hstack
    | _ => cases h

end

end Jil.Machine

namespace Jil.Assembly

open Machine (Abi Instr Memory Reg Runtime Runs Spares State Word within_below)

variable {rt : Runtime} {a : Allocation} {entry m after : State} {top x : Word} {i : Instr}
  {exit : String} {code tail l rest : List Instr} {p q r : Nat × State}

/-! ## Bodies -/

/-- An instruction of a body writes free registers, slots, and what addresses lead to. -/
structure Harmless (abi : Abi) (a : Allocation) (i : Instr) : Prop where
  stack : i.isStack = false
  register : ∀ s r, i.written? = some (s, .reg r) → Free abi a r
  slot : ∀ s disp, i.written? = some (s, .mem .rbp disp) →
    -(a.frameSize : Int) ≤ disp ∧ disp + s.bytes ≤ 0

/-- Slots do not overlap what is saved. -/
theorem not_saves_of_slot (hfits : a.depth ≤ 2 ^ 64) {disp : Int} {count : Nat}
    (hlow : -(a.frameSize : Int) ≤ disp) (hhigh : disp + count ≤ 0)
    (hx : Memory.Within (top - 8 + BitVec.ofInt 64 disp) count x) : ¬ Saves a top x := by
  obtain ⟨k, rfl⟩ : ∃ k : Nat, disp = -(k : Int) := ⟨(-disp).toNat, by omega⟩
  rw [BitVec.ofInt_neg, BitVec.ofInt_natCast, ← BitVec.sub_eq_add_neg,
    show (8 : Word) = BitVec.ofNat 64 8 from rfl, Machine.sub_ofNat_sub] at hx
  unfold Allocation.depth at hfits
  rw [within_below hfits (by omega) (by omega)] at hx
  rintro (hsaved | ⟨n, hn, hsaved⟩)
  · rw [show (8 : Word) = BitVec.ofNat 64 8 from rfl,
      within_below hfits (by omega) (by omega)] at hsaved
    omega
  · rw [within_below hfits (by omega) (by omega)] at hsaved
    omega

section

variable (habi : rt.abi ∈ Abi.all)
  (hframe : ∀ x, Saves a (entry.regs .rsp) x → rt.frame x = true)
include habi hframe

/-- Instructions of a body do not leave it. -/
theorem Inside.exec (h : Inside rt.abi a entry m) (hfits : a.depth ≤ 2 ^ 64)
    (hi : Harmless rt.abi a i) (hspares : Spares rt m i) (hexec : i.exec rt m = .ok after) :
    Inside rt.abi a entry after := by
  rcases Machine.exec_eq_ok hexec hi.stack with ⟨s, o, v, flags, hwritten, rfl⟩
    | ⟨hmemory, hregs⟩
  · refine h.of_kept (fun r hr => ?_) fun x hx => ?_
    · refine Machine.regs_write v fun heq => hr ?_
      exact hi.register s r (heq ▸ hwritten)
    · refine Machine.memory_write v fun address haddress hwithin => ?_
      cases hslot : o.isSlot with
      | false =>
        have hmiss := hspares s o address x hwritten hslot haddress hwithin
        rw [hframe x hx] at hmiss
        cases hmiss
      | true =>
        cases o with
        | mem base disp =>
          obtain rfl : base = .rbp := of_decide_eq_true hslot
          obtain ⟨hlow, hhigh⟩ := hi.slot s disp hwritten
          cases haddress
          rw [h.base] at hwithin
          exact not_saves_of_slot hfits hlow hhigh hwithin hx
        | _ => cases hslot
  · have hfree : ∀ abi ∈ Abi.all, abi.isPreserved .rax = false
      ∧ abi.isPreserved .rdx = false := by
      decide
    refine h.of_kept (fun r hr => hregs r ?_ ?_) fun x _ => by rw [hmemory]
    · rintro rfl
      exact hr ⟨nofun, nofun, fun h => by rw [(hfree rt.abi habi).1] at h; cases h⟩
    · rintro rfl
      exact hr ⟨nofun, nofun, fun h => by rw [(hfree rt.abi habi).2] at h; cases h⟩

/-- Calls do not leave it either. -/
theorem Inside.call (h : Inside rt.abi a entry m) :
    Inside rt.abi a entry (m.afterCall rt) := by
  have hbase : ∀ abi ∈ Abi.all, abi.isPreserved .rbp = true := by decide
  refine h.of_kept (fun r hr => if_pos ?_) fun x hx => if_pos (hframe x hx)
  cases hsurvives : State.survives rt.abi r with
  | true => rfl
  | false =>
    simp only [State.survives, Bool.or_eq_false_iff, decide_eq_false_iff_not] at hsurvives
    refine absurd ⟨hsurvives.2, ?_, fun h => ?_⟩ hr
    · rintro rfl
      rw [hbase rt.abi habi] at hsurvives
      cases hsurvives.1
    · rw [hsurvives.1] at h
      cases h

end

/-! ## Expansions -/

section

open Pseudo (bind_eq_ok eq_some_of_location expandAlu expandInto expandUnary scratch)
open Machine (AluOp Operand Size addressScratch valueScratch)

variable {abi : Abi} {K : Pseudo.Reg → Prop} {s : Size} {part : List Instr}

/-- Where a body may write at a size. -/
structure Target (abi : Abi) (a : Allocation) (s : Size) (o : Operand) : Prop where
  register : ∀ r, o = .reg r → Free abi a r
  slot : ∀ disp, o = .mem .rbp disp → -(a.frameSize : Int) ≤ disp ∧ disp + s.bytes ≤ 0

/-- A body may write where a pseudo-register is kept. -/
def Settled (abi : Abi) (a : Allocation) (p : Pseudo.Reg) : Prop :=
  ∀ location, a.assignment p.id = some location → Target abi a p.size location.operand

theorem harmless_of_written {i : Instr} (hstack : i.isStack = false)
    (h : ∀ s o, i.written? = some (s, o) → Target abi a s o) : Harmless abi a i :=
  ⟨hstack, fun s r hw => (h s _ hw).register r rfl, fun s disp hw => (h s _ hw).slot disp rfl⟩

theorem target_of_free {r : Reg} (h : Free abi a r) : Target abi a s (.reg r) :=
  ⟨fun _ heq => by cases heq; exact h, nofun⟩

theorem harmless_alu {op : AluOp} {src dest : Operand}
    (h : op.writesDestination = true → Target abi a s dest) :
    Harmless abi a (.alu op s src dest) := by
  refine harmless_of_written rfl fun s' o hw => ?_
  obtain ⟨hwrites, hw⟩ := Option.ite_none_right_eq_some.1 hw
  cases hw
  exact h hwrites

variable (habi : abi ∈ Abi.all)
include habi

/-- Expanded code may use the scratch registers. -/
theorem free_of_scratch {r : Reg} (hr : r = valueScratch ∨ r = addressScratch) :
    Free abi a r := by
  have hall : ∀ abi ∈ Abi.all, ∀ r ∈ [valueScratch, addressScratch],
      r ≠ .rsp ∧ r ≠ .rbp ∧ abi.isPreserved r = false := by decide
  obtain ⟨hrsp, hrbp, hnot⟩ := hall abi habi r (by simpa using hr)
  refine ⟨hrsp, hrbp, fun h => ?_⟩
  rw [hnot] at h
  cases h

/-- Streams name free registers only. -/
theorem free_of_named {r : Reg} (hr : Pseudo.Named abi r) : Free abi a r := by
  have hall : ∀ abi ∈ Abi.all, ∀ r ∈ abi.arguments,
      r ≠ .rsp ∧ r ≠ .rbp ∧ abi.isPreserved r = false := by decide
  rcases hr with hr | hr | hr
  · obtain ⟨hrsp, hrbp, hnot⟩ := hall abi habi r hr
    refine ⟨hrsp, hrbp, fun h => ?_⟩
    rw [hnot] at h
    cases h
  · exact free_of_scratch habi (.inl hr)
  · exact free_of_scratch habi (.inr hr)

theorem harmless_expandAlu {op : AluOp} {src dest : Operand}
    (h : op.writesDestination = true → Target abi a s dest) :
    ∀ j ∈ expandAlu op s src dest, Harmless abi a j := by
  have hscratch : Target abi a s scratch := target_of_free (free_of_scratch habi (.inl rfl))
  unfold expandAlu
  split
  · next hregister =>
    have hwrites : op.writesDestination = true := by
      cases op <;> first | rfl | cases hregister
    simp only [List.forall_mem_cons, List.not_mem_nil, false_imp_iff, implies_true, and_true]
    exact ⟨harmless_alu fun _ => hscratch, harmless_alu fun _ => hscratch,
      harmless_alu fun _ => h hwrites⟩
  · split
    · simp only [List.forall_mem_cons, List.not_mem_nil, false_imp_iff, implies_true, and_true]
      exact ⟨harmless_alu fun _ => hscratch, harmless_alu h⟩
    · simp only [List.forall_mem_cons, List.not_mem_nil, false_imp_iff, implies_true, and_true]
      exact harmless_alu h

theorem harmless_expandInto {operation : Reg → Instr} {dest : Operand}
    (hoperation : ∀ r, (operation r).isStack = false
      ∧ (operation r).written? = some (s, .reg r)) (h : Target abi a s dest) :
    ∀ j ∈ expandInto s operation dest, Harmless abi a j := by
  have hinto : ∀ r, Free abi a r → Harmless abi a (operation r) := fun r hr =>
    harmless_of_written (hoperation r).1 fun s' o hw => by
      rw [(hoperation r).2] at hw
      cases hw
      exact target_of_free hr
  have hvalue := hinto valueScratch (free_of_scratch habi (.inl rfl))
  cases dest with
  | reg r =>
    rw [expandInto, List.forall_mem_singleton]
    exact hinto r (h.register r rfl)
  | _ =>
    simp only [expandInto, List.forall_mem_cons, List.not_mem_nil, false_imp_iff, implies_true,
      and_true]
    exact ⟨hvalue, harmless_alu fun _ => h⟩

/-- What comes before the use of an operand loads an address. -/
theorem harmless_of_resolve {o : Pseudo.Operand} {before : List Instr} {mo : Operand}
    (h : o.resolve a.assignment = .ok (before, mo)) : ∀ j ∈ before, Harmless abi a j := by
  intro j hj
  obtain ⟨offset, rfl⟩ := Pseudo.load_of_resolve h hj
  exact harmless_alu fun _ => target_of_free (free_of_scratch habi (.inr rfl))

/-- Where a stream writes, a body may. -/
theorem target_of_resolve {o : Pseudo.Operand} {before : List Instr} {mo : Operand}
    (hsettled : ∀ p, K p → Settled abi a p) (hallowed : ∀ e ∈ o.writeEffects, e.Allowed abi K)
    (hwritable : o.Writable abi s) (h : o.resolve a.assignment = .ok (before, mo)) :
    Target abi a s mo := by
  cases o with
  | pseudo p =>
    obtain ⟨location, hlocation, h⟩ := bind_eq_ok.1 h
    cases h
    obtain rfl : s = p.size := hwritable
    exact hsettled p (hallowed _ List.mem_cons_self) location (eq_some_of_location hlocation)
  | indirect base disp =>
    obtain ⟨location, hlocation, h⟩ := bind_eq_ok.1 h
    have hbase := hsettled base (hallowed _ List.mem_cons_self) location
      (eq_some_of_location hlocation)
    cases location with
    | reg r =>
      cases h
      refine ⟨nofun, fun disp' heq => ?_⟩
      cases heq
      exact absurd rfl (hbase.register _ rfl).2.1
    | slot offset =>
      cases h
      exact ⟨nofun, nofun⟩
  | fixed r =>
    cases h
    exact target_of_free (free_of_named habi hwritable)
  | fixedIndirect base disp => exact hwritable.elim
  | imm v | rip symbol disp =>
    cases h
    exact ⟨nofun, nofun⟩

/-- The parts of an expansion, what comes before the use of two operands in front. -/
theorem harmless_of_append {src dest : Pseudo.Operand} {before between rest : List Instr}
    {mo mo' : Operand} (hsrc : src.resolve a.assignment = .ok (before, mo))
    (hdest : dest.resolve a.assignment = .ok (between, mo'))
    (hrest : ∀ j ∈ rest, Harmless abi a j) :
    ∀ j ∈ before ++ between ++ rest, Harmless abi a j :=
  List.forall_mem_append.2 ⟨List.forall_mem_append.2
    ⟨harmless_of_resolve habi hsrc, harmless_of_resolve habi hdest⟩, hrest⟩

theorem harmless_of_expandUnary {o : Pseudo.Operand} {operation : Operand → Instr}
    (hpart : expandUnary a.assignment o operation = .ok part)
    (h : ∀ before mo, o.resolve a.assignment = .ok (before, mo) →
      Harmless abi a (operation mo)) :
    ∀ j ∈ part, Harmless abi a j := by
  obtain ⟨⟨before, mo⟩, hresolve, hpart⟩ := bind_eq_ok.1 hpart
  cases hpart
  exact List.forall_mem_append.2
    ⟨harmless_of_resolve habi hresolve, List.forall_mem_singleton.2 (h before mo hresolve)⟩

/-- What is confined to where streams write expands to instructions of a body. -/
theorem harmless_of_expand {i : Pseudo.Instr} (h : i.Confined abi K)
    (hsettled : ∀ p, K p → Settled abi a p) (hpart : i.expand a.assignment = .ok part) :
    ∀ j ∈ part, Harmless abi a j := by
  have htarget : ∀ {s o before mo}, i.written? = some (s, o) →
      o.resolve a.assignment = .ok (before, mo) → Target abi a s mo := fun hw hresolve =>
    target_of_resolve habi hsettled (fun e he =>
      h.allowed e (i.mem_effects_of_written? hw e he)) (h.writes _ _ hw) hresolve
  -- instructions without operands write nothing that matters
  have hplain : ∀ {j : Instr}, part = [j] → j.isStack = false → j.written? = none →
      ∀ j ∈ part, Harmless abi a j := by
    rintro j rfl hstack hnone
    refine List.forall_mem_singleton.2 (harmless_of_written hstack fun s o hw => ?_)
    rw [hnone] at hw
    cases hw
  cases i with
  | alu op s src dest =>
    obtain ⟨⟨before, mo⟩, hsrc, hpart⟩ := bind_eq_ok.1 hpart
    obtain ⟨⟨between, mo'⟩, hdest, hpart⟩ := bind_eq_ok.1 hpart
    cases hpart
    exact harmless_of_append habi hsrc hdest
      (harmless_expandAlu habi fun hwrites => htarget (if_pos hwrites) hdest)
  | extend signed narrow wide src dest | lea src dest =>
    obtain ⟨⟨before, mo⟩, hsrc, hpart⟩ := bind_eq_ok.1 hpart
    obtain ⟨⟨between, mo'⟩, hdest, hpart⟩ := bind_eq_ok.1 hpart
    cases hpart
    exact harmless_of_append habi hsrc hdest
      (harmless_expandInto habi (fun _ => ⟨rfl, rfl⟩) (htarget rfl hdest))
  | idiv s divisor =>
    exact harmless_of_expandUnary habi hpart fun before mo _ => harmless_of_written rfl nofun
  | neg s dest | not s dest | shift op s dest | setcc cond dest =>
    refine harmless_of_expandUnary habi hpart fun before mo hresolve => ?_
    exact harmless_of_written rfl fun s o hw => by cases hw; exact htarget rfl hresolve
  | _ =>
    cases hpart
    exact hplain rfl rfl rfl

end

end Jil.Assembly
