/-
Jil.Proofs.Discipline — how streams use hardware registers and flags.

A stream may name hardware registers, but its instructions expand into code
that needs two of them for itself, calls change most, and nothing says what
they hold where control comes from elsewhere. The discipline is that a stream
reads a hardware register, or the flags, only where they are `Ready`: written
since the last label, and not spoiled since. `Admitted` is this property of a
list of instructions; it is checked from the front, and lists that begin with
nothing ready can be put behind each other (`Admitted.append`).

`Fits` lists the shapes of instructions that occur, with the sizes of their
operands. `Awaited` is the backward view of hardware registers, as `LiveIn` is
of pseudo-registers: what is awaited is ready (`ready_of_awaited`).
-/
import Jil.Proofs.Flow
import Jil.Proofs.StreamExecution

namespace Jil.Pseudo

open Jil.Machine (Abi AluOp Condition ShiftOp Size addressScratch)
open Jil.Machine.State (survives)

/-! ## What instructions do to hardware registers -/

namespace Operand

/-- The hardware registers that the address of an operand is made of. -/
def baseReads : Operand → List (Machine.Reg × Size)
  | .fixedIndirect r _ => [(r, .quad)]
  | _ => []

/-- The hardware registers that reading an operand reads, and how much of them. -/
def fixedReads (s : Size) : Operand → List (Machine.Reg × Size)
  | .fixed r => [(r, s)]
  | o => o.baseReads

def isFixed : Operand → Bool
  | .fixed _ => true
  | _ => false

def isIndirect : Operand → Bool
  | .indirect _ _ => true
  | _ => false

end Operand

namespace Instr

/-- The hardware registers that an instruction reads, and how much of them. -/
def fixedReads : Instr → List (Machine.Reg × Size)
  | .alu op s src dest =>
    src.fixedReads s ++ (if op.readsDestination then dest.fixedReads s else dest.baseReads)
  | .extend _ narrow _ src dest => src.fixedReads narrow ++ dest.baseReads
  | .lea src dest => src.baseReads ++ dest.baseReads
  | .neg s dest | .not s dest => dest.fixedReads s
  | .shift _ s dest => (.rcx, .byte) :: dest.fixedReads s
  | .idiv s divisor => (.rax, s) :: (.rdx, s) :: divisor.fixedReads s
  | .signExtendAccumulator s => [(.rax, s)]
  | .setcc _ dest => dest.baseReads
  | .callIndirect base _ => [(base, .quad)]
  | .jcc _ _ | .jmp _ | .label _ | .call _ => []

/-- How much of a hardware register an instruction writes that is no call. -/
def fixedWrite? (i : Instr) (r : Machine.Reg) : Option Size :=
  match i with
  | .alu op s _ (.fixed d) => if op.writesDestination ∧ d = r then some s else none
  | .extend _ _ s _ (.fixed d) => if d = r then some s else none
  | .lea _ (.fixed d) => if d = r then some .quad else none
  | .neg s (.fixed d) | .not s (.fixed d) | .shift _ s (.fixed d) =>
    if d = r then some s else none
  | .setcc _ (.fixed d) => if d = r then some .byte else none
  | .idiv s _ => if r = .rax ∨ r = .rdx then some s else none
  | .signExtendAccumulator s => if r = .rdx then some s else none
  | _ => none

/-- Whether an instruction writes a hardware register; calls write all that do not survive. -/
def WritesFixed (abi : Abi) (i : Instr) (r : Machine.Reg) : Prop :=
  (i.fixedWrite? r).isSome = true ∨ i.isCall = true ∧ survives abi r = false

/-- Whether the expansion of an instruction may need a hardware register for itself. -/
def spoils (i : Instr) (r : Machine.Reg) : Bool :=
  match i with
  | .alu _ _ src dest =>
    r = Machine.valueScratch && !src.isFixed && !dest.isFixed
      || r = addressScratch && (src.isIndirect || dest.isIndirect)
  | .extend _ _ _ src dest =>
    r = Machine.valueScratch && !dest.isFixed
      || r = addressScratch && (src.isIndirect || dest.isIndirect)
  | .lea src dest =>
    r = Machine.valueScratch && !dest.isFixed
      || r = addressScratch && (src.isIndirect || dest.isIndirect)
  | _ => false

/-- Whether an instruction reads the flags. -/
def readsFlags : Instr → Bool
  | .setcc _ _ | .jcc _ _ => true
  | _ => false

/-- Whether an instruction changes the flags. -/
def writesFlags : Instr → Bool
  | .alu op _ _ _ => op ≠ .mov
  | .neg _ _ | .shift _ _ _ | .idiv _ _ | .call _ | .callIndirect _ _ => true
  | _ => false

/-- Whether an instruction compares. -/
def compares : Instr → Bool
  | .alu .cmp _ _ _ => true
  | _ => false

/-- The hardware register that an instruction puts a value into, and how much of it. -/
def loads? : Instr → Option (Machine.Reg × Size)
  | .alu .mov s _ (.fixed r) => some (r, s)
  | .extend _ _ s _ (.fixed r) => some (r, s)
  | .lea _ (.fixed r) => some (r, .quad)
  | _ => none

/-- Whether control leaves the stream for the caller or a callee, or may do so. -/
def leaves : Instr → Bool
  | .jmp _ | .call _ | .callIndirect _ _ => true
  | _ => false

end Instr

/-! ## What is read next -/

/-- The instructions right in front of an index put values into hardware registers, the last
value for `r` at this size. -/
def Handed (code : List Instr) (r : Machine.Reg) (s : Size) (index : Nat) : Prop :=
  ∃ k, k < index ∧ code[k]?.bind Instr.loads? = some (r, s) ∧
    ∀ k', k < k' → k' < index → ∃ r' s', code[k']?.bind Instr.loads? = some (r', s') ∧ r' ≠ r

/-- The instruction at an index reads a hardware register at this size: it says so, or it hands
control over together with what the instructions in front of it have loaded. -/
def ReadsFixed (code : List Instr) (r : Machine.Reg) (s : Size) (index : Nat) (i : Instr) :
    Prop :=
  (r, s) ∈ i.fixedReads ∨ i.leaves = true ∧ Handed code r s index

/-- Some path from an index reads a hardware register at this size before it writes it. -/
def Awaited (abi : Abi) (code : List Instr) (r : Machine.Reg) (s : Size) : Nat → Prop :=
  Needed code (ReadsFixed code r s) fun _ i => i.WritesFixed abi r

/-- Some path from an index reads the flags before it changes them. -/
def FlagsAwaited (code : List Instr) : Nat → Prop :=
  Needed code (fun _ i => i.readsFlags = true) fun _ i => i.writesFlags = true

/-! ## What is ready -/

/-- What hardware registers and flags are known to hold. -/
structure Ready where
  regs : Machine.Reg → Option Size
  flags : Bool

namespace Ready

/-- Nothing is ready. -/
def nothing : Ready := ⟨fun _ => none, false⟩

/-- At the entry of a function the arguments are ready. -/
def arguments (abi : Abi) : Ready :=
  ⟨fun r => if r ∈ abi.arguments then some .quad else none, false⟩

/-- Whether all that an instruction reads is ready. -/
def Admits (ready : Ready) (i : Instr) : Prop :=
  (∀ r s, (r, s) ∈ i.fixedReads → ∃ t, ready.regs r = some t ∧ s.bytes ≤ t.bytes) ∧
    (i.readsFlags = true → ready.flags = true)

/-- What is ready behind an instruction. -/
def after (abi : Abi) (ready : Ready) (i : Instr) : Ready where
  regs r :=
    match i with
    | .label _ | .jmp _ => none
    | .call _ | .callIndirect _ _ => if survives abi r then none else some .quad
    | i =>
      match i.fixedWrite? r with
      | some s => some s
      | none => if i.spoils r then none else ready.regs r
  flags := i.compares

/-- More is ready. -/
structure Le (ready more : Ready) : Prop where
  regs : ∀ r s, ready.regs r = some s → more.regs r = some s
  flags : ready.flags = true → more.flags = true

theorem nothing_le (ready : Ready) : nothing.Le ready := ⟨nofun, nofun⟩

theorem Admits.mono {ready more : Ready} {i : Instr} (h : ready.Admits i)
    (hle : ready.Le more) :
    more.Admits i := by
  refine ⟨fun r s hr => ?_, fun hflags => hle.flags (h.2 hflags)⟩
  obtain ⟨t, ht, hsize⟩ := h.1 r s hr
  exact ⟨t, hle.regs r t ht, hsize⟩

theorem Le.after {ready more : Ready} (h : ready.Le more) (abi : Abi) (i : Instr) :
    (ready.after abi i).Le (more.after abi i) := by
  refine ⟨fun r s hr => ?_, fun hflags => hflags⟩
  unfold Ready.after at hr ⊢
  split at hr
  · exact hr
  · exact hr
  · exact hr
  · exact hr
  · simp only at hr ⊢
    split at hr
    · exact hr
    · split at hr
      · cases hr
      · next hspoils =>
        rw [if_neg hspoils]
        exact h.regs r s hr

end Ready

/-- All that is read in a list of instructions is ready there. -/
def Admitted (abi : Abi) (ready : Ready) : List Instr → Prop
  | [] => True
  | i :: rest => ready.Admits i ∧ Admitted abi (ready.after abi i) rest

namespace Admitted

variable {abi : Abi} {ready more : Ready} {code rest : List Instr}

theorem mono (h : Admitted abi ready code) (hle : ready.Le more) : Admitted abi more code := by
  induction code generalizing ready more with
  | nil => trivial
  | cons i code ih => exact ⟨h.1.mono hle, ih h.2 (hle.after abi i)⟩

/-- Code that needs nothing to be ready can follow any other. -/
theorem append (h : Admitted abi ready code) (hrest : Admitted abi .nothing rest) :
    Admitted abi ready (code ++ rest) := by
  induction code generalizing ready with
  | nil => exact hrest.mono (Ready.nothing_le ready)
  | cons i code ih => exact ⟨h.1, ih h.2⟩

end Admitted

/-- What is ready in front of the instruction at an index. -/
def Ready.before (abi : Abi) (ready : Ready) (code : List Instr) (index : Nat) : Ready :=
  (code.take index).foldl (Ready.after abi) ready

theorem Ready.before_succ {abi : Abi} {ready : Ready} {code : List Instr} {index : Nat}
    {i : Instr} (h : code[index]? = some i) :
    ready.before abi code (index + 1) = (ready.before abi code index).after abi i := by
  unfold Ready.before
  rw [List.take_add_one, h]
  simp [List.foldl_append]

theorem Admitted.admits {abi : Abi} {ready : Ready} {code : List Instr}
    (h : Admitted abi ready code) {index : Nat} {i : Instr} (hi : code[index]? = some i) :
    (ready.before abi code index).Admits i := by
  induction code generalizing ready index with
  | nil => cases hi
  | cons i' code ih =>
    cases index with
    | zero =>
      simp only [List.getElem?_cons_zero, Option.some.injEq] at hi
      subst hi
      exact h.1
    | succ index =>
      rw [List.getElem?_cons_succ] at hi
      exact ih h.2 hi

/-! ## Shapes of instructions -/

/-- The hardware registers that streams name. -/
def Named (abi : Abi) (r : Machine.Reg) : Prop :=
  r ∈ abi.arguments ∨ r = .rax ∨ r = addressScratch

namespace Operand

variable (K : Reg → Prop)

/-- A value that is read at a size: an immediate, or a pseudo-register that is at least as
wide. -/
def Plain (s : Size) : Operand → Prop
  | .pseudo p => K p ∧ s.bytes ≤ p.size.bytes
  | .imm _ => True
  | _ => False

/-- A place in memory that a program names. -/
def InMemory : Operand → Prop
  | .indirect base _ => K base ∧ base.size = .quad
  | .rip _ _ => True
  | _ => False

end Operand

/-- The shapes of instructions in the streams of functions, over the
pseudo-registers that `K` knows at their sizes. A pseudo-register is written at its
size, and read at most at its size. -/
inductive Instr.Fits (abi : Abi) (K : Reg → Prop) : Instr → Prop
  | receive {r p} : Named abi r → K p → Fits abi K (.mov p.size (.fixed r) (.pseudo p))
  | move {src p} : src.Plain K p.size → K p → Fits abi K (.mov p.size src (.pseudo p))
  | fetch {src p} : src.InMemory K → K p → Fits abi K (.mov p.size src (.pseudo p))
  | pass {s src r} : src.Plain K s → Named abi r → Fits abi K (.mov s src (.fixed r))
  | fetchAddress {base disp} : K base → base.size = .quad →
    Fits abi K (.mov .quad (.indirect base disp) (.fixed addressScratch))
  | put {p dest} : K p → dest.InMemory K → Fits abi K (.mov p.size (.pseudo p) dest)
  | operate {op src p} : op ≠ .mov → src.Plain K p.size → K p →
    Fits abi K (.alu op p.size src (.pseudo p))
  | extend {signed narrow q p} : K q → narrow.bytes ≤ q.size.bytes → K p →
    Fits abi K (.extend signed narrow p.size (.pseudo q) (.pseudo p))
  | extendInto {signed narrow q r} : K q → narrow.bytes ≤ q.size.bytes → Named abi r →
    Fits abi K (.extend signed narrow .quad (.pseudo q) (.fixed r))
  | address {src p} : src.InMemory K → K p → p.size = .quad → Fits abi K (.lea src (.pseudo p))
  | name {symbol disp r} : Named abi r → Fits abi K (.lea (.rip symbol disp) (.fixed r))
  | neg {p} : K p → Fits abi K (.neg p.size (.pseudo p))
  | not {p} : K p → Fits abi K (.not p.size (.pseudo p))
  | shift {op p} : K p → Fits abi K (.shift op p.size (.pseudo p))
  | setcc {cond p} : K p → p.size = .byte → Fits abi K (.setcc cond (.pseudo p))
  | idiv {s q} : K q → s.bytes ≤ q.size.bytes → s ≠ .byte → Fits abi K (.idiv s (.pseudo q))
  | signExtendAccumulator {s} : s ≠ .byte → Fits abi K (.signExtendAccumulator s)
  | jcc {cond target} : Fits abi K (.jcc cond target)
  | jmp {target} : Fits abi K (.jmp target)
  | label {name} : Fits abi K (.label name)
  | call {symbol} : Fits abi K (.call symbol)
  | callIndirect {disp} : Fits abi K (.callIndirect addressScratch disp)

section

variable {abi : Abi} {K K' : Reg → Prop}

theorem Operand.Plain.mono {s : Size} {o : Operand} (h : o.Plain K s) (hK : ∀ p, K p → K' p) :
    o.Plain K' s := by
  cases o with
  | pseudo p => exact ⟨hK p h.1, h.2⟩
  | imm v => trivial
  | _ => exact h

theorem Operand.InMemory.mono {o : Operand} (h : o.InMemory K) (hK : ∀ p, K p → K' p) :
    o.InMemory K' := by
  cases o with
  | indirect base disp => exact ⟨hK base h.1, h.2⟩
  | rip symbol disp => trivial
  | _ => exact h

theorem Instr.Fits.mono {i : Instr} (h : i.Fits abi K) (hK : ∀ p, K p → K' p) :
    i.Fits abi K' := by
  cases h with
  | receive hr hp => exact .receive hr (hK _ hp)
  | move hsrc hp => exact .move (hsrc.mono hK) (hK _ hp)
  | fetch hsrc hp => exact .fetch (hsrc.mono hK) (hK _ hp)
  | pass hsrc hr => exact .pass (hsrc.mono hK) hr
  | fetchAddress hbase hsize => exact .fetchAddress (hK _ hbase) hsize
  | put hp hdest => exact .put (hK _ hp) (hdest.mono hK)
  | operate hop hsrc hp => exact .operate hop (hsrc.mono hK) (hK _ hp)
  | extend hq hsize hp => exact .extend (hK _ hq) hsize (hK _ hp)
  | extendInto hq hsize hr => exact .extendInto (hK _ hq) hsize hr
  | address hsrc hp hsize => exact .address (hsrc.mono hK) (hK _ hp) hsize
  | name hr => exact .name hr
  | neg hp => exact .neg (hK _ hp)
  | not hp => exact .not (hK _ hp)
  | shift hp => exact .shift (hK _ hp)
  | setcc hp hsize => exact .setcc (hK _ hp) hsize
  | idiv hq hsize hbyte => exact .idiv (hK _ hq) hsize hbyte
  | signExtendAccumulator hbyte => exact .signExtendAccumulator hbyte
  | jcc => exact .jcc
  | jmp => exact .jmp
  | label => exact .label
  | call => exact .call
  | callIndirect => exact .callIndirect

/-- Loading one hardware register does not disturb another. -/
theorem Instr.Fits.regs_after_of_loads {i : Instr} (h : i.Fits abi K) {r r' : Machine.Reg}
    {s : Size} (hload : i.loads? = some (r', s)) (hne : r' ≠ r) (ready : Ready) :
    (ready.after abi i).regs r = ready.regs r := by
  have hscratch : addressScratch = r' → r ≠ addressScratch := fun heq => heq ▸ hne.symm
  cases h with
  | @pass s' src r'' hsrc hr =>
    cases hload
    cases src with
    | pseudo p =>
      simp [Ready.after, mov, fixedWrite?, spoils, Operand.isFixed, Operand.isIndirect, hne]
    | imm v =>
      simp [Ready.after, mov, fixedWrite?, spoils, Operand.isFixed, Operand.isIndirect, hne]
    | _ => exact hsrc.elim
  | fetchAddress hbase hsize =>
    cases hload
    simp [Ready.after, mov, fixedWrite?, spoils, Operand.isFixed, hne, hne.symm]
  | extendInto hq hsize hr | name hr =>
    cases hload
    simp [Ready.after, fixedWrite?, spoils, Operand.isFixed, Operand.isIndirect, hne]
  | @put p dest hp hdest =>
    cases dest with
    | fixed r => exact hdest.elim
    | _ => cases hload
  | @operate op src p hop hsrc hp => cases op <;> cases hload
  | _ => cases hload

/-- What is loaded is ready. -/
theorem regs_after_of_loads_self {i : Instr} {r : Machine.Reg} {s : Size}
    (hload : i.loads? = some (r, s)) (ready : Ready) :
    (ready.after abi i).regs r = some s := by
  unfold Instr.loads? at hload
  split at hload
  · cases hload
    simp [Ready.after, Instr.fixedWrite?, AluOp.writesDestination]
  · cases hload
    simp [Ready.after, Instr.fixedWrite?]
  · cases hload
    simp [Ready.after, Instr.fixedWrite?]
  · cases hload

/-- What is handed on is ready. -/
theorem ready_of_handed {code : List Instr} (hfits : ∀ i ∈ code, i.Fits abi K)
    {r : Machine.Reg} {s : Size} {index : Nat} (h : Handed code r s index) (ready : Ready) :
    (ready.before abi code index).regs r = some s := by
  obtain ⟨k, hk, hload, hbetween⟩ := h
  -- from the instruction that loads the register on, none up to the index disturbs it
  have hready : ∀ n, k + 1 + n ≤ index → (ready.before abi code (k + 1 + n)).regs r
      = some s := by
    intro n
    induction n with
    | zero =>
      intro _
      obtain ⟨i, hi, hload⟩ := Option.bind_eq_some_iff.1 hload
      rw [Nat.add_zero, Ready.before_succ hi]
      exact regs_after_of_loads_self hload _
    | succ n ih =>
      intro hn
      obtain ⟨r', s', hload', hne⟩ := hbetween (k + 1 + n) (by omega) (by omega)
      obtain ⟨i, hi, hload'⟩ := Option.bind_eq_some_iff.1 hload'
      rw [← Nat.add_assoc, Ready.before_succ hi,
        (hfits i (List.mem_of_getElem? hi)).regs_after_of_loads hload' hne]
      exact ih (by omega)
  have hindex : k + 1 + (index - (k + 1)) = index := by omega
  rw [← hindex]
  exact hready _ (by omega)

/-- What an instruction writes is ready behind it. -/
theorem Ready.regs_after_of_fixedWrite? {i : Instr} {ready : Ready} {r : Machine.Reg}
    {s : Size} (h : i.fixedWrite? r = some s) : (ready.after abi i).regs r = some s := by
  unfold Ready.after
  cases i <;> first | cases h | simp only [h]

/-- An instruction that leaves a register alone makes nothing ready. -/
theorem regs_of_regs_after {i : Instr} {ready : Ready} {r : Machine.Reg} {t : Size}
    (hwrites : ¬ i.WritesFixed abi r) (h : (ready.after abi i).regs r = some t) :
    ready.regs r = some t ∧ i.spoils r = false ∧ (∀ name, i ≠ .label name) := by
  unfold Ready.after at h
  split at h
  · cases h
  · cases h
  · simp only at h
    split at h
    · cases h
    · next hsurvives => exact absurd (.inr ⟨rfl, by simpa using hsurvives⟩) hwrites
  · simp only at h
    split at h
    · cases h
    · next hsurvives => exact absurd (.inr ⟨rfl, by simpa using hsurvives⟩) hwrites
  · next hlabel _ _ _ =>
    simp only at h
    split at h
    · next hwrite => exact absurd (.inl (by rw [hwrite]; rfl)) hwrites
    · split at h
      · cases h
      · next hspoils => exact ⟨h, by simpa using hspoils, hlabel⟩

variable {ready : Ready} {code : List Instr}

/-- What is awaited is ready, and nothing is awaited at a label. -/
theorem ready_of_awaited (h : Admitted abi ready code) (hfits : ∀ i ∈ code, i.Fits abi K)
    {r : Machine.Reg} {s : Size} {index : Nat} (haw : Awaited abi code r s index) :
    (∀ name, code[index]? ≠ some (.label name)) ∧
      ∃ t, (ready.before abi code index).regs r = some t ∧ s.bytes ≤ t.bytes := by
  induction haw with
  | @read index i hi hread =>
    refine ⟨fun name hlabel => ?_, ?_⟩
    · rw [hi, Option.some.injEq] at hlabel
      subst hlabel
      rcases hread with hread | ⟨hleaves, -⟩
      · exact absurd hread List.not_mem_nil
      · cases hleaves
    · rcases hread with hread | ⟨-, hhanded⟩
      · exact (h.admits hi).1 r s hread
      · exact ⟨s, ready_of_handed hfits hhanded ready, Nat.le_refl _⟩
  | @carried index j i hi hwrites hj _ ih =>
    obtain ⟨hlabel, t, ht, hsize⟩ := ih
    have hnext := eq_succ_of_mem_successors hj hlabel
    subst hnext
    rw [Ready.before_succ hi] at ht
    obtain ⟨hready, -, hnolabel⟩ := regs_of_regs_after hwrites ht
    refine ⟨fun name hname => ?_, t, hready, hsize⟩
    rw [hi, Option.some.injEq] at hname
    exact hnolabel name hname

/-- Flags that are awaited were set by the instruction in front. -/
theorem ready_of_flagsAwaited (h : Admitted abi ready code) {index : Nat}
    (haw : FlagsAwaited code index) :
    (∀ name, code[index]? ≠ some (.label name)) ∧ (ready.before abi code index).flags
      = true := by
  induction haw with
  | @read index i hi hread =>
    refine ⟨fun name hlabel => ?_, (h.admits hi).2 hread⟩
    rw [hi, Option.some.injEq] at hlabel
    subst hlabel
    cases hread
  | @carried index j i hi hwrites hj _ ih =>
    obtain ⟨hlabel, hflags⟩ := ih
    have hnext := eq_succ_of_mem_successors hj hlabel
    subst hnext
    rw [Ready.before_succ hi] at hflags
    refine absurd ?_ hwrites
    have hcompares : i.compares = true := hflags
    unfold Instr.compares at hcompares
    split at hcompares
    · rfl
    · cases hcompares

end

/-- A stream that keeps the discipline from the entry of a function on. Every number stands for
pseudo-registers of one size. -/
structure Orderly (abi : Abi) (code : List Instr) (size : Nat → Size) : Prop where
  fits : ∀ i ∈ code, i.Fits abi fun p => size p.id = p.size
  admitted : Admitted abi (.arguments abi) code
  /-- The first instruction reads no pseudo-register. -/
  entry : ∀ i, code[0]? = some i → ∀ id, ¬ i.Uses id

end Jil.Pseudo
