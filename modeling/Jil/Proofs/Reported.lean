/-
Jil.Proofs.Reported — expansions do what the effects of their instructions say.

Allocation trusts `Instr.effects`, and `Instr.expand` goes through the
instructions on its own, so the two have to agree. `Reports` says what the
effects answer for at one instruction of an expansion: what it reads
(`MayRead`), what it writes (`MayWrite`), and the registers in its addresses.
Behind the instructions in front of it this includes the scratch registers that
these have written, and memory at an address that they have loaded.

`expansion_keeps_to_effects` shows it for every instruction, whatever its operands
are and wherever values are kept. Two consequences are about runs of an
expansion: no other register changes (`regs_of_expansion`), and what other
registers hold makes no difference (`expansion_agrees`).
-/
import Jil.Proofs.Accesses
import Jil.Proofs.Allocated

namespace Jil.Pseudo

open Jil.Machine (AluOp Runtime SameOn Size addressScratch valueScratch)

/-! ## What effects answer for -/

/-- Loads an address from its slot. -/
abbrev loadAddress (offset : Int) : Machine.Instr :=
  .mov .quad (.mem .rbp offset) (.reg addressScratch)

namespace Instr

section

variable (i : Instr) (a : Assignment)

/-- Whether a location is that of a pseudo-register that the instruction reads. -/
def UsedAt (location : Location) : Prop := ∃ id, i.Uses id ∧ a id = some location

/-- Whether a location is that of a pseudo-register that the instruction writes. -/
def DefinedAt (location : Location) : Prop := ∃ id, i.Defines id ∧ a id = some location

/-- Behind some code the address scratch register holds what was loaded into it from the slot
of a pseudo-register that the instruction reads. -/
inductive Loaded : List Machine.Instr → Prop
  | load {front : List Machine.Instr} {offset : Int} :
      i.UsedAt a (.slot offset) → Loaded (front ++ [loadAddress offset])
  | keep {front : List Machine.Instr} {j : Machine.Instr} :
      Loaded front → (∀ s, (s, .reg addressScratch) ∉ j.writes) → Loaded (front ++ [j])

/-- Memory that is reached behind some code: relative to a symbol, or at an offset from a
register that the instruction touches, or from a pseudo-register that it reads. -/
inductive Reaches (front : List Machine.Instr) : Machine.Operand → Prop
  | symbol (name : String) (disp : Int) : Reaches front (.rip name disp)
  | touched {base : Machine.Reg} (disp : Int) :
      base ∈ i.touched → Reaches front (.mem base disp)
  | kept {base : Machine.Reg} (disp : Int) :
      i.UsedAt a (.reg base) → Reaches front (.mem base disp)
  | loaded (disp : Int) : i.Loaded a front → Reaches front (.mem addressScratch disp)

/-- Some code has written the low part of a register. -/
def HasWritten (front : List Machine.Instr) (s : Size) (r : Machine.Reg) : Prop :=
  ∃ w ∈ front, ∃ t, (t, .reg r) ∈ w.writes ∧ s.bytes ≤ t.bytes

/-- What may be read at a size behind some code. -/
inductive MayRead (front : List Machine.Instr) (s : Size) : Machine.Operand → Prop
  | imm (v : Int) : MayRead front s (.imm v)
  | used {location : Location} : i.UsedAt a location → MayRead front s location.operand
  | touched {r : Machine.Reg} : r ∈ i.touched → MayRead front s (.reg r)
  /-- A scratch register, of which no more is read than was written. -/
  | scratch {r : Machine.Reg} :
      r = valueScratch ∨ r = addressScratch → HasWritten front s r → MayRead front s (.reg r)
  | reached {o : Machine.Operand} : i.Reaches a front o → MayRead front s o

/-- What may be written behind some code. -/
inductive MayWrite (front : List Machine.Instr) : Machine.Operand → Prop
  | imm (v : Int) : MayWrite front (.imm v)
  | defined {location : Location} : i.DefinedAt a location → MayWrite front location.operand
  | touched {r : Machine.Reg} : r ∈ i.touched → MayWrite front (.reg r)
  | scratch {r : Machine.Reg} : r = valueScratch ∨ r = addressScratch → MayWrite front (.reg r)
  | reached {o : Machine.Operand} : i.Reaches a front o → MayWrite front o

/-- The effects of an instruction answer for what a machine instruction does behind some
code. -/
structure Reports (front : List Machine.Instr) (j : Machine.Instr) : Prop where
  reads : ∀ s o, (s, o) ∈ j.reads → i.MayRead a front s o
  writes : ∀ s o, (s, o) ∈ j.writes → i.MayWrite a front o
  /-- Addresses are made of the frame pointer, or of a register that may be read. -/
  bases : ∀ base disp, .mem base disp ∈ j.operands →
    base = .rbp ∨ i.MayRead a front .quad (.reg base)
  /-- Registers that do not survive calls are changed by calls only. -/
  calls : ∀ abi r, j.Clobbers abi r → i.isCall = true
  /-- The stack is left to the frame. -/
  body : j.isStack = false

/-- The effects of an instruction answer for all of some code. -/
def ReportsAll (front part : List Machine.Instr) : Prop :=
  ∀ earlier j later, part = earlier ++ j :: later → i.Reports a (front ++ earlier) j

end

variable {i : Instr} {a : Assignment} {front part rest : List Machine.Instr}
  {j : Machine.Instr} {s : Size} {o : Machine.Operand} {base : Machine.Reg} {disp : Int}

/-! ## Code in front -/

/-- What comes in front of an operand: nothing, or a load of an address. -/
def Prepares (i : Instr) (a : Assignment) (before : List Machine.Instr) : Prop :=
  before = [] ∨ ∃ offset, before = [loadAddress offset] ∧ i.UsedAt a (.slot offset)

theorem Loaded.append_prepares (h : i.Loaded a front) (hpart : i.Prepares a part) :
    i.Loaded a (front ++ part) := by
  rcases hpart with rfl | ⟨offset, rfl, hused⟩
  · rwa [List.append_nil]
  · exact .load hused

theorem HasWritten.append {r : Machine.Reg} (h : HasWritten front s r)
    (part : List Machine.Instr) : HasWritten (front ++ part) s r := by
  obtain ⟨w, hw, hwrites⟩ := h
  exact ⟨w, List.mem_append_left _ hw, hwrites⟩

theorem hasWritten_of_mem {r : Machine.Reg} (h : (s, .reg r) ∈ j.writes) :
    HasWritten (front ++ [j]) s r :=
  ⟨j, List.mem_append_right _ (List.mem_singleton.2 rfl), s, h, Nat.le_refl _⟩

theorem Reaches.mono {front' : List Machine.Instr} (h : i.Reaches a front o)
    (hloaded : i.Loaded a front → i.Loaded a front') : i.Reaches a front' o := by
  cases h with
  | symbol name disp => exact .symbol name disp
  | touched disp hbase => exact .touched disp hbase
  | kept disp hbase => exact .kept disp hbase
  | loaded disp h => exact .loaded disp (hloaded h)

theorem MayRead.append (h : i.MayRead a front s o)
    (hloaded : i.Loaded a front → i.Loaded a (front ++ part)) :
    i.MayRead a (front ++ part) s o := by
  cases h with
  | imm v => exact .imm v
  | used h => exact .used h
  | touched h => exact .touched h
  | scratch hr h => exact .scratch hr (h.append part)
  | reached h => exact .reached (h.mono hloaded)

theorem MayWrite.append (h : i.MayWrite a front o)
    (hloaded : i.Loaded a front → i.Loaded a (front ++ part)) :
    i.MayWrite a (front ++ part) o := by
  cases h with
  | imm v => exact .imm v
  | defined h => exact .defined h
  | touched h => exact .touched h
  | scratch hr => exact .scratch hr
  | reached h => exact .reached (h.mono hloaded)

/-! ## Registers -/

theorem operand_eq_reg {location : Location} {r : Machine.Reg}
    (h : location.operand = .reg r) :
    location = .reg r := by
  cases location with
  | reg x => cases h; rfl
  | slot offset => cases h

/-- The registers that may be read. -/
theorem mayRead_reg {r : Machine.Reg} : i.MayRead a front s (.reg r) ↔
    i.UsedAt a (.reg r) ∨ r ∈ i.touched
      ∨ (r = valueScratch ∨ r = addressScratch) ∧ HasWritten front s r := by
  constructor
  · intro h
    generalize ho : Machine.Operand.reg r = o at h
    cases h with
    | imm v => cases ho
    | used h => exact .inl (operand_eq_reg ho.symm ▸ h)
    | touched h => cases ho; exact .inr (.inl h)
    | scratch hr h => cases ho; exact .inr (.inr ⟨hr, h⟩)
    | reached h => subst ho; cases h
  · rintro (h | h | ⟨hr, h⟩)
    · show i.MayRead a front s (Location.reg r).operand
      exact .used h
    · exact .touched h
    · exact .scratch hr h

/-- The registers that may be written. -/
theorem mayWrite_reg {r : Machine.Reg} : i.MayWrite a front (.reg r) ↔
    i.DefinedAt a (.reg r) ∨ r ∈ i.touched ∨ r = valueScratch ∨ r = addressScratch := by
  constructor
  · intro h
    generalize ho : Machine.Operand.reg r = o at h
    cases h with
    | imm v => cases ho
    | defined h => exact .inl (operand_eq_reg ho.symm ▸ h)
    | touched h => cases ho; exact .inr (.inl h)
    | scratch hr => cases ho; exact .inr (.inr hr)
    | reached h => subst ho; cases h
  · rintro (h | h | hr)
    · show i.MayWrite a front (Location.reg r).operand
      exact .defined h
    · exact .touched h
    · exact .scratch hr

/-! ## Addresses -/

/-- The address scratch register may be read where an address was loaded into it. -/
theorem Loaded.mayRead (h : i.Loaded a front) :
    i.MayRead a front .quad (.reg addressScratch) := by
  refine .scratch (.inr rfl) ?_
  induction h with
  | load h => exact hasWritten_of_mem List.mem_cons_self
  | keep h hj ih => exact ih.append _

theorem Reaches.address (h : i.Reaches a front (.mem base disp)) :
    i.MayRead a front .quad (.reg base) := by
  cases h with
  | touched disp h => exact .touched h
  | kept disp h => exact mayRead_reg.2 (.inl h)
  | loaded disp h => exact h.mayRead

theorem base_of_location {location : Location} (h : location.operand = .mem base disp) :
    base = .rbp := by
  cases location with
  | reg r => cases h
  | slot offset => cases h; rfl

theorem MayRead.address (h : i.MayRead a front s (.mem base disp)) :
    base = .rbp ∨ i.MayRead a front .quad (.reg base) := by
  generalize ho : Machine.Operand.mem base disp = o at h
  cases h with
  | used h => exact .inl (base_of_location ho.symm)
  | reached h => subst ho; exact .inr h.address
  | _ => cases ho

theorem MayWrite.address (h : i.MayWrite a front (.mem base disp)) :
    base = .rbp ∨ i.MayRead a front .quad (.reg base) := by
  generalize ho : Machine.Operand.mem base disp = o at h
  cases h with
  | defined h => exact .inl (base_of_location ho.symm)
  | reached h => subst ho; exact .inr h.address
  | _ => cases ho

/-! ## Lists of instructions -/

theorem ReportsAll.nil : i.ReportsAll a front [] := fun earlier j later h => by
  simp at h

theorem reportsAll_cons :
    i.ReportsAll a front (j :: part) ↔ i.Reports a front j
    ∧ i.ReportsAll a (front ++ [j]) part := by
  constructor
  · intro h
    refine ⟨?_, fun earlier k later heq => ?_⟩
    · have := h [] j part rfl
      rwa [List.append_nil] at this
    · rw [List.append_assoc]
      exact h (j :: earlier) k later (by rw [heq]; rfl)
  · rintro ⟨hj, hpart⟩ (_ | ⟨j', earlier⟩) k later heq
    · cases heq
      rwa [List.append_nil]
    · cases heq
      rw [List.append_cons]
      exact hpart earlier k later rfl

theorem ReportsAll.cons (hj : i.Reports a front j) (h : i.ReportsAll a (front ++ [j]) part) :
    i.ReportsAll a front (j :: part) := reportsAll_cons.2 ⟨hj, h⟩

theorem ReportsAll.single (h : i.Reports a front j) : i.ReportsAll a front [j] := .cons h .nil

theorem ReportsAll.append (h : i.ReportsAll a front part)
    (hrest : i.ReportsAll a (front ++ part) rest) : i.ReportsAll a front (part ++ rest) := by
  induction part generalizing front with
  | nil => rwa [List.append_nil] at hrest
  | cons j part ih =>
    obtain ⟨hj, hpart⟩ := reportsAll_cons.1 h
    rw [List.append_cons] at hrest
    exact .cons hj (ih hpart hrest)

/-! ## Machine instructions -/

/-- The registers in addresses are accounted for with the operands. -/
theorem reports_of_accesses (hreads : ∀ p ∈ j.reads, i.MayRead a front p.1 p.2)
    (hwrites : ∀ p ∈ j.writes, i.MayWrite a front p.2)
    (hcalls : j.isCall = false ∨ i.isCall = true) (haddress : j.isAddress = false)
    (hstack : j.isStack = false) : i.Reports a front j where
  reads s o ho := hreads (s, o) ho
  writes s o ho := hwrites (s, o) ho
  bases base disp ho := by
    rcases Machine.Instr.accessed_of_mem_operands ho haddress hstack with ⟨s, hs⟩ | ⟨s, hs⟩
    · exact (hreads _ hs).address
    · exact (hwrites _ hs).address
  calls _ _ hr := hcalls.resolve_left fun hj => Bool.false_ne_true (hj.symm.trans hr.1)
  body := hstack

theorem reports_alu {op : AluOp} {src dest : Machine.Operand} (hsrc : i.MayRead a front s src)
    (hread : op.readsDestination = true → i.MayRead a front s dest)
    (hwrite : op.writesDestination = true → i.MayWrite a front dest) :
    i.Reports a front (.alu op s src dest) := by
  refine reports_of_accesses (List.forall_mem_cons.2 ⟨hsrc, fun p hp => ?_⟩) (fun p hp => ?_)
    (.inl rfl) rfl rfl
  · split at hp
    · next hop =>
      cases List.mem_singleton.1 hp
      exact hread hop
    · cases hp
  · cases hop : op.writesDestination with
    | true =>
      simp only [Machine.Instr.writes, Machine.Instr.written?, hop] at hp
      cases List.mem_singleton.1 hp
      exact hwrite hop
    | false => simp [Machine.Instr.writes, Machine.Instr.written?, hop] at hp

theorem reports_mov {src dest : Machine.Operand} (hsrc : i.MayRead a front s src)
    (hdest : i.MayWrite a front dest) : i.Reports a front (.mov s src dest) :=
  reports_alu hsrc nofun fun _ => hdest

/-! ## Staging -/

/-- The value scratch register may be read behind what wrote it. -/
theorem mayRead_scratch (h : (s, .reg valueScratch) ∈ j.writes) :
    i.MayRead a (front ++ [j]) s scratch :=
  .scratch (.inl rfl) (hasWritten_of_mem h)

/-- An instruction that only writes the value scratch register leaves a loaded address
alone. -/
theorem Loaded.keep_of_scratch (h : i.Loaded a front) (hj : j.writes = [(s, scratch)]) :
    i.Loaded a (front ++ [j]) := by
  refine .keep h fun t ht => ?_
  rw [hj] at ht
  cases List.mem_singleton.1 ht

/-- Operations between operands of the machine, staged or not. -/
theorem reportsAll_expandAlu {op : AluOp} {src dest : Machine.Operand}
    (hsrc : i.MayRead a front s src)
    (hread : op.readsDestination = true → i.MayRead a front s dest)
    (hwrite : op.writesDestination = true → i.MayWrite a front dest) :
    i.ReportsAll a front (expandAlu op s src dest) := by
  have hscratch : ∀ {front}, i.MayWrite a front scratch := .scratch (.inl rfl)
  unfold expandAlu
  split
  · next hstaged =>
    -- the destination passes through the scratch register, and back
    have hop : op = .imul := by
      cases op <;> first | rfl | cases (Bool.and_eq_true_iff.1 hstaged).1
    subst hop
    refine .cons (reports_mov (hread rfl) hscratch) ?_
    have hsrc : i.MayRead a (front ++ [.mov s dest scratch]) s src :=
      hsrc.append fun h => h.keep_of_scratch rfl
    have hdest : i.MayWrite a (front ++ [.mov s dest scratch]) dest :=
      (hwrite rfl).append fun h => h.keep_of_scratch rfl
    refine .cons (reports_alu hsrc (fun _ => mayRead_scratch List.mem_cons_self) fun _ =>
      hscratch) ?_
    exact .single (reports_mov (mayRead_scratch List.mem_cons_self)
      (hdest.append fun h => h.keep_of_scratch rfl))
  · next hdirect =>
    split
    · -- the source passes through the scratch register
      refine .cons (reports_mov hsrc hscratch) (.single (reports_alu
        (mayRead_scratch List.mem_cons_self) (fun hop => ?_) fun hop => ?_))
      · exact (hread hop).append fun h => h.keep_of_scratch rfl
      · exact (hwrite hop).append fun h => h.keep_of_scratch rfl
    · exact .single (reports_alu hsrc hread hwrite)

/-- Operations that need a register to write. -/
theorem reportsAll_expandInto {operation : Machine.Reg → Machine.Instr}
    {dest : Machine.Operand} (hwrites : ∀ r, (operation r).writes = [(s, .reg r)])
    (hoperation : ∀ r, i.MayWrite a front (.reg r) → i.Reports a front (operation r))
    (hdest : i.MayWrite a front dest) :
    i.ReportsAll a front (expandInto s operation dest) := by
  have hstaged : i.ReportsAll a front [operation valueScratch, .mov s scratch dest] := by
    refine .cons (hoperation _ (.scratch (.inl rfl))) (.single (reports_mov ?_ ?_))
    · exact mayRead_scratch (by rw [hwrites]; exact List.mem_cons_self)
    · exact hdest.append fun h => h.keep_of_scratch (hwrites _)
  cases dest with
  | reg r => exact .single (hoperation r hdest)
  | _ => exact hstaged

/-! ## Operands -/

/-- What becomes of an operand that is read or written: its location, itself, or memory, the
address of which may have to be loaded first. -/
inductive Resolved (i : Instr) (a : Assignment) :
    Operand → List Machine.Instr → Machine.Operand → Prop
  | pseudo {p : Reg} {location : Location} :
      a p.id = some location → Resolved i a (.pseudo p) [] location.operand
  | fixed (r : Machine.Reg) : Resolved i a (.fixed r) [] (.reg r)
  | imm (v : Int) : Resolved i a (.imm v) [] (.imm v)
  | address {operand : Operand} {before : List Machine.Instr} {o : Machine.Operand} :
      i.Prepares a before → (∀ front, i.Reaches a (front ++ before) o) →
      Resolved i a operand before o

section

variable {operand : Operand} {before : List Machine.Instr}

theorem resolved_of_resolve (h : operand.resolve a = .ok (before, o))
    (hi : i.Reads operand ∨ i.Writes operand) : Resolved i a operand before o := by
  cases operand with
  | pseudo p =>
    obtain ⟨location, hlocation, h⟩ := bind_eq_ok.1 h
    cases h
    exact .pseudo (eq_some_of_location hlocation)
  | fixed r =>
    cases h
    exact .fixed r
  | imm v =>
    cases h
    exact .imm v
  | indirect p disp =>
    have huses : i.Uses p.id :=
      ⟨p, hi.elim (· _ List.mem_cons_self) (· _ List.mem_cons_self), rfl⟩
    obtain ⟨location, hlocation, h⟩ := bind_eq_ok.1 h
    have hused : i.UsedAt a location := ⟨p.id, huses, eq_some_of_location hlocation⟩
    cases location with
    | reg r =>
      cases h
      exact .address (.inl rfl) fun front => .kept disp hused
    | slot offset =>
      cases h
      exact .address (.inr ⟨offset, rfl, hused⟩) fun front => .loaded disp (.load hused)
  | fixedIndirect r disp =>
    have htouched : r ∈ i.touched :=
      mem_touched.2 (hi.elim (· _ List.mem_cons_self) (· _ List.mem_cons_self))
    cases h
    exact .address (.inl rfl) fun front => .touched disp htouched
  | rip symbol disp =>
    cases h
    exact .address (.inl rfl) fun front => .symbol symbol disp

theorem Resolved.prepares (h : Resolved i a operand before o) : i.Prepares a before := by
  cases h with
  | address h _ => exact h
  | _ => exact .inl rfl

theorem Resolved.mayRead (h : Resolved i a operand before o) (hread : i.Reads operand) :
    i.MayRead a (front ++ before) s o := by
  cases h with
  | @pseudo p location ha => exact .used ⟨p.id, ⟨p, hread _ List.mem_cons_self, rfl⟩, ha⟩
  | fixed r => exact .touched (mem_touched.2 (hread _ List.mem_cons_self))
  | imm v => exact .imm v
  | address _ h => exact .reached (h front)

theorem Resolved.mayWrite (h : Resolved i a operand before o) (hwrite : i.Writes operand) :
    i.MayWrite a (front ++ before) o := by
  cases h with
  | @pseudo p location ha => exact .defined ⟨p.id, ⟨p, hwrite _ List.mem_cons_self, rfl⟩, ha⟩
  | fixed r => exact .touched (mem_touched.2 (hwrite _ List.mem_cons_self))
  | imm v => exact .imm v
  | address _ h => exact .reached (h front)

/-- The load of an address is accounted for. -/
theorem reportsAll_of_prepares (h : i.Prepares a before) : i.ReportsAll a front before := by
  rcases h with rfl | ⟨offset, rfl, hused⟩
  · exact .nil
  · exact .single (reports_mov (.used hused) (.scratch (.inr rfl)))

/-- Instructions with two operands. -/
theorem reportsAll_of_resolve {src dest : Operand} {between : List Machine.Instr}
    {mo mo' : Machine.Operand} (hsrc : src.resolve a = .ok (before, mo))
    (hdest : dest.resolve a = .ok (between, mo')) (hread : i.Reads src)
    (haccess : i.Reads dest ∨ i.Writes dest)
    (hrest : ∀ front, (∀ s, i.MayRead a front s mo) →
      (∀ s, i.Reads dest → i.MayRead a front s mo') →
      (i.Writes dest → i.MayWrite a front mo') → i.ReportsAll a front part) :
    i.ReportsAll a [] (before ++ between ++ part) := by
  have hs := resolved_of_resolve hsrc (.inl hread)
  have hd := resolved_of_resolve hdest haccess
  refine .append
    (.append (reportsAll_of_prepares hs.prepares) (reportsAll_of_prepares hd.prepares)) ?_
  refine hrest _ (fun s => ?_) (fun s h => hd.mayRead h) fun h => hd.mayWrite h
  have hmo : i.MayRead a ([] ++ before) s mo := hs.mayRead hread
  exact hmo.append fun h => h.append_prepares hd.prepares

/-- Instructions with one operand. -/
theorem reportsAll_of_expandUnary {operation : Machine.Operand → Machine.Instr}
    (h : expandUnary a operand operation = .ok part)
    (haccess : i.Reads operand ∨ i.Writes operand)
    (hoperation : ∀ front o, (∀ s, i.Reads operand → i.MayRead a front s o) →
      (i.Writes operand → i.MayWrite a front o) → i.Reports a front (operation o)) :
    i.ReportsAll a [] part := by
  obtain ⟨⟨before, o⟩, hresolve, h⟩ := bind_eq_ok.1 h
  cases h
  have ho := resolved_of_resolve hresolve haccess
  refine .append (reportsAll_of_prepares ho.prepares) (.single (hoperation _ o ?_ ?_))
  · exact fun s h => ho.mayRead h
  · exact fun h => ho.mayWrite h

end

/-! ## Instructions -/

/-- Extensions and addresses, which need a register to write. -/
theorem reportsAll_into {src dest : Operand} {before between : List Machine.Instr}
    {mo mo' : Machine.Operand} {operation : Machine.Reg → Machine.Instr}
    (heffects : i.effects = src.readEffects ++ dest.writeEffects)
    (hsrc : src.resolve a = .ok (before, mo)) (hdest : dest.resolve a = .ok (between, mo'))
    (hwrites : ∀ r, (operation r).writes = [(s, .reg r)])
    (hoperation : ∀ front r, (∀ s, i.MayRead a front s mo) → i.MayWrite a front (.reg r) →
      i.Reports a front (operation r)) :
    i.ReportsAll a [] (before ++ between ++ expandInto s operation mo') := by
  have hread : i.Reads src := fun e he => by
    rw [heffects]
    exact List.mem_append_left _ he
  have hwrite : i.Writes dest := fun e he => by
    rw [heffects]
    exact List.mem_append_right _ he
  refine reportsAll_of_resolve hsrc hdest hread (.inr hwrite) fun front hsrc _ hdest => ?_
  exact reportsAll_expandInto hwrites (fun r => hoperation front r hsrc) (hdest hwrite)

/-- The effects of an instruction answer for its expansion. -/
theorem reportsAll_of_expand (h : i.expand a = .ok part) : i.ReportsAll a [] part := by
  have haccess : ∀ operand ∈ i.operands, i.Reads operand
      ∨ i.Writes operand := fun operand ho =>
    reads_or_writes_of_mem_operands ho
  cases i with
  | alu op size src dest =>
    obtain ⟨⟨before, mo⟩, hsrc, h⟩ := bind_eq_ok.1 h
    obtain ⟨⟨between, mo'⟩, hdest, h⟩ := bind_eq_ok.1 h
    cases h
    refine reportsAll_of_resolve hsrc hdest ?_ (haccess dest (by simp [operands]))
      fun front h h' h'' => reportsAll_expandAlu (h _) (fun hop => h' _ fun e he => ?_)
        fun hop => h'' fun e he => ?_
    · exact fun e he => List.mem_append_left _ (List.mem_append_left _ he)
    · refine List.mem_append_left _ (List.mem_append_right _ ?_)
      rwa [if_pos hop]
    · refine List.mem_append_right _ ?_
      rwa [if_pos hop]
  | extend signed narrow wide src dest =>
    obtain ⟨⟨before, mo⟩, hsrc, h⟩ := bind_eq_ok.1 h
    obtain ⟨⟨between, mo'⟩, hdest, h⟩ := bind_eq_ok.1 h
    cases h
    refine reportsAll_into rfl hsrc hdest (fun _ => rfl) fun front r hread hwrite => ?_
    exact reports_of_accesses (List.forall_mem_singleton.2 (hread narrow))
      (List.forall_mem_singleton.2 hwrite) (.inl rfl) rfl rfl
  | lea src dest =>
    obtain ⟨⟨before, mo⟩, hsrc, h⟩ := bind_eq_ok.1 h
    obtain ⟨⟨between, mo'⟩, hdest, h⟩ := bind_eq_ok.1 h
    cases h
    refine reportsAll_into rfl hsrc hdest (fun _ => rfl) fun front r hread hwrite => ?_
    refine ⟨fun s o ho => ?_, fun s o ho => ?_, fun base disp ho => ?_, fun _ _ hr => ?_, rfl⟩
    · cases ho
    · cases List.mem_singleton.1 ho
      exact hwrite
    · rcases List.mem_cons.1 ho with rfl | ho
      · exact (hread .quad).address
      · cases List.mem_singleton.1 ho
    · cases hr.1
  | neg size dest | not size dest =>
    refine reportsAll_of_expandUnary h (haccess dest (by simp [operands])) fun front o hr hw =>
      ?_
    have hread := hr size fun e he => List.mem_append_left _ he
    have hwrite := hw fun e he => List.mem_append_right _ he
    exact reports_of_accesses (List.forall_mem_singleton.2 hread)
      (List.forall_mem_singleton.2 hwrite) (.inl rfl) rfl rfl
  | shift op size dest =>
    refine reportsAll_of_expandUnary h (haccess dest (by simp [operands])) fun front o hr hw =>
      ?_
    have hread := hr size fun e he => List.mem_append_left _ (List.mem_append_right _ he)
    have hwrite := hw fun e he => List.mem_append_right _ he
    have hcount : (Instr.shift op size dest).MayRead a front .byte (.reg .rcx) :=
      .touched
        (mem_touched.2 (List.mem_append_left _ (List.mem_append_left _ List.mem_cons_self)))
    exact reports_of_accesses
      (List.forall_mem_cons.2 ⟨hcount, List.forall_mem_singleton.2 hread⟩)
      (List.forall_mem_singleton.2 hwrite) (.inl rfl) rfl rfl
  | idiv size divisor =>
    refine reportsAll_of_expandUnary h (haccess divisor (by simp [operands])) fun front
      o hr hw => ?_
    have hread := hr size fun e he => List.mem_append_right _ he
    have hrax : .rax ∈ (Instr.idiv size divisor).touched := mem_touched.2 List.mem_cons_self
    have hrdx : .rdx ∈ (Instr.idiv size divisor).touched :=
      mem_touched.2 (List.mem_cons_of_mem _ List.mem_cons_self)
    refine reports_of_accesses ?_ ?_ (.inl rfl) rfl rfl
    · exact List.forall_mem_cons.2
        ⟨.touched hrax,
          List.forall_mem_cons.2 ⟨.touched hrdx, List.forall_mem_singleton.2 hread⟩⟩
    · exact List.forall_mem_cons.2 ⟨.touched hrax, List.forall_mem_singleton.2 (.touched hrdx)⟩
  | signExtendAccumulator size =>
    cases h
    refine .single (reports_of_accesses (List.forall_mem_singleton.2 (.touched (r := .rax) ?_))
      (List.forall_mem_singleton.2 (.touched (r := .rdx) ?_)) (.inl rfl) rfl rfl)
    · exact mem_touched.2 List.mem_cons_self
    · exact mem_touched.2 (List.mem_cons_of_mem _ List.mem_cons_self)
  | setcc cond dest =>
    refine reportsAll_of_expandUnary h (haccess dest (by simp [operands])) fun front o hr hw =>
      ?_
    exact reports_of_accesses (List.forall_mem_nil _)
      (List.forall_mem_singleton.2 (hw fun e he => he)) (.inl rfl) rfl rfl
  | callIndirect base disp =>
    cases h
    have hbase : base ∈ (Instr.callIndirect base disp).touched :=
      mem_touched.2 List.mem_cons_self
    exact .single
      (reports_of_accesses (List.forall_mem_singleton.2 (.reached (.touched disp hbase)))
      (List.forall_mem_nil _) (.inr rfl) rfl rfl)
  | call symbol =>
    cases h
    exact .single
      (reports_of_accesses (List.forall_mem_nil _) (List.forall_mem_nil _) (.inr rfl) rfl rfl)
  | _ =>
    cases h
    exact .single
      (reports_of_accesses (List.forall_mem_nil _) (List.forall_mem_nil _) (.inl rfl) rfl rfl)

/-! ## Runs -/

section

variable {rt : Runtime} {m m' after : Machine.State} {r : Machine.Reg}

/-- What code has to know of a register: the frame pointer, what may be read, and what has been
written. -/
def Known (i : Instr) (a : Assignment) (front : List Machine.Instr) (s : Size)
    (r : Machine.Reg) : Prop :=
  r = .rbp ∨ i.MayRead a front s (.reg r) ∨ HasWritten front s r

/-- What is known behind one more instruction was known, or has been written by it. -/
theorem Known.of_append (h : i.Known a (front ++ [j]) s r) :
    i.Known a front s r ∨ ∃ t, (t, .reg r) ∈ j.writes ∧ s.bytes ≤ t.bytes := by
  have hwritten : HasWritten (front ++ [j]) s r →
      HasWritten front s r ∨ ∃ t, (t, .reg r) ∈ j.writes ∧ s.bytes ≤ t.bytes := by
    rintro ⟨w, hw, hwrites⟩
    rcases List.mem_append.1 hw with hw | hw
    · exact .inl ⟨w, hw, hwrites⟩
    · rw [← List.mem_singleton.1 hw]
      exact .inr hwrites
  rcases h with h | h | h
  · exact .inl (.inl h)
  · rcases mayRead_reg.1 h with h | h | ⟨-, h⟩
    · exact .inl (.inr (.inl (mayRead_reg.2 (.inl h))))
    · exact .inl (.inr (.inl (.touched h)))
    · exact (hwritten h).imp_left fun h => .inr (.inr h)
  · exact (hwritten h).imp_left fun h => .inr (.inr h)

/-- States that agree on what is known agree on what may be read. -/
theorem MayRead.read_eq (ho : i.MayRead a front s o) (h : SameOn (i.Known a front) m m') :
    m'.read rt s o = m.read rt s o := by
  have hregs : ∀ {r}, i.Known a front .quad r → m'.regs r = m.regs r := fun hr => by
    rw [← Machine.State.reg_quad, ← Machine.State.reg_quad, h.regs _ _ hr]
  have hbase : ∀ {base disp}, i.MayRead a front .quad (.reg base) →
      m'.read rt s (.mem base disp) = m.read rt s (.mem base disp) := fun hbase => by
    simp only [Machine.State.read, h.memory, hregs (.inr (.inl hbase))]
  cases ho with
  | imm v => rfl
  | @used location hused =>
    cases location with
    | reg r => exact h.regs s r (.inr (.inl (mayRead_reg.2 (.inl hused))))
    | slot offset =>
      show m'.memory.load _ s = m.memory.load _ s
      rw [h.memory, hregs (.inl rfl)]
  | touched hr => exact h.regs s _ (.inr (.inl (.touched hr)))
  | scratch hr hw => exact h.regs s _ (.inr (.inl (.scratch hr hw)))
  | reached ho =>
    cases ho with
    | symbol name disp => simp only [Machine.State.read, h.memory]
    | touched disp hr => exact hbase (.touched hr)
    | kept disp hr => exact hbase (mayRead_reg.2 (.inl hr))
    | loaded disp hr => exact hbase hr.mayRead

/-- Code that is accounted for does the same in states that agree on what is known. -/
theorem execAll_sameOn (rt : Runtime) (hreports : i.ReportsAll a front part)
    (h : SameOn (i.Known a front) m m') :
    (∃ e, Machine.Instr.execAll rt m part = .error e ∧ Machine.Instr.execAll rt m' part
      = .error e) ∨
      ∃ after after', Machine.Instr.execAll rt m part = .ok after
        ∧ Machine.Instr.execAll rt m' part = .ok after'
        ∧ SameOn (i.Known a (front ++ part)) after after' := by
  induction part generalizing front m m' with
  | nil => exact .inr ⟨m, m', rfl, rfl, by rwa [List.append_nil]⟩
  | cons j part ih =>
    obtain ⟨hj, hpart⟩ := reportsAll_cons.1 hreports
    have hbase : ∀ {base}, base = .rbp ∨ i.MayRead a front .quad (.reg base) →
        i.Known a front .quad base := Or.imp_right .inl
    rw [Machine.Instr.execAll, Machine.Instr.execAll]
    rcases h.exec rt hj.body (fun s o ho => (hj.reads s o ho).read_eq h)
      (fun base disp ho => hbase (hj.bases base disp ho))
      (fun s base disp ho => hbase (hj.writes s _ ho).address) with
      ⟨e, hm, hm'⟩ | ⟨after, after', hm, hm', hafter⟩
    · exact .inl ⟨e, by rw [hm], by rw [hm']⟩
    · rw [hm, hm', List.append_cons]
      exact ih hpart ⟨fun s r hr => hafter.regs s r hr.of_append, hafter.memory, hafter.flags⟩

/-- Code that is accounted for leaves registers as they are that may not be written. -/
theorem regs_of_reportsAll (hreports : i.ReportsAll a front part)
    (hrun : Machine.Instr.execAll rt m part = .ok after)
    (hr : ∀ front, ¬ i.MayWrite a front (.reg r)) : after.regs r = m.regs r := by
  induction part generalizing front m with
  | nil => cases hrun; rfl
  | cons j part ih =>
    obtain ⟨hj, hpart⟩ := reportsAll_cons.1 hreports
    rw [Machine.Instr.execAll] at hrun
    split at hrun
    · next next hexec =>
      exact (ih hpart hrun).trans (Machine.regs_of_exec hexec hj.body fun s hs =>
        hr front (hj.writes s _ hs))
    · cases hrun

/-- An expansion leaves registers as they are that the effects do not name, and in which
nothing is kept that they define. -/
theorem regs_of_expansion (hpart : i.expand a = .ok part)
    (hrun : Machine.Instr.execAll rt m part = .ok after) (htouched : r ∉ i.touched)
    (hdefined : ¬ i.DefinedAt a (.reg r)) (hvalue : r ≠ valueScratch)
    (haddress : r ≠ addressScratch) : after.regs r = m.regs r := by
  refine regs_of_reportsAll (reportsAll_of_expand hpart) hrun fun front hwrite => ?_
  rcases mayWrite_reg.1 hwrite with h | h | h | h
  · exact hdefined h
  · exact htouched h
  · exact hvalue h
  · exact haddress h

/-- What is in other registers than those that the effects name as read makes no
difference to an expansion: in states that agree on these it stops alike, or leaves the
same behind wherever it writes. -/
theorem expansion_agrees (hpart : i.expand a = .ok part)
    (hregs : ∀ r, r = .rbp ∨ i.UsedAt a (.reg r) ∨ r ∈ i.touched → m'.regs r = m.regs r)
    (hmemory : m'.memory = m.memory) (hflags : m'.flags = m.flags) :
    (∃ e, Machine.Instr.execAll rt m part = .error e ∧ Machine.Instr.execAll rt m' part
      = .error e) ∨
      ∃ after after', Machine.Instr.execAll rt m part = .ok after
        ∧ Machine.Instr.execAll rt m' part = .ok after'
        ∧ after'.memory = after.memory ∧ after'.flags = after.flags
        ∧ ∀ s r, HasWritten part s r → after'.reg s r = after.reg s r := by
  have hstart : SameOn (i.Known a []) m m' := by
    refine ⟨fun s r hr => ?_, hmemory, hflags⟩
    have hregs : m'.regs r = m.regs r := by
      rcases hr with hr | hr | ⟨w, hw, -⟩
      · exact hregs r (.inl hr)
      · rcases mayRead_reg.1 hr with hr | hr | ⟨-, w, hw, -⟩
        · exact hregs r (.inr (.inl hr))
        · exact hregs r (.inr (.inr hr))
        · cases hw
      · cases hw
    rw [Machine.State.reg, Machine.State.reg, hregs]
  rcases execAll_sameOn rt (reportsAll_of_expand hpart) hstart with
    hstop | ⟨after, after', hm, hm', hafter⟩
  · exact .inl hstop
  · exact .inr ⟨after, after', hm, hm', hafter.memory, hafter.flags, fun s r hr =>
      hafter.regs s r (.inr (.inr hr))⟩

end

/-! ## Assignments that agree -/

theorem resolve_congr {a' : Assignment} {operand : Operand}
    (h : ∀ p, operand.pseudo? = some p → a' p.id = a p.id) :
    operand.resolve a' = operand.resolve a := by
  cases operand with
  | pseudo p | indirect p disp => simp only [Operand.resolve, Assignment.location, h p rfl]
  | _ => rfl

/-- An expansion depends on the locations of what the instruction reads and writes. -/
theorem expand_congr {a' : Assignment} (h : ∀ id, i.Touches id → a' id = a id) :
    i.expand a' = i.expand a := by
  have hresolve : ∀ operand ∈ i.operands, operand.resolve a' = operand.resolve a :=
    fun operand ho => resolve_congr fun p hp => h p.id (touches_of_pseudo? ho hp)
  cases i with
  | alu _ _ src dest | extend _ _ _ src dest | lea src dest =>
    simp only [expand, hresolve src (by simp [operands]), hresolve dest (by simp [operands])]
  | neg _ dest | not _ dest | shift _ _ dest | idiv _ dest | setcc _ dest =>
    simp only [expand, expandUnary, hresolve dest (by simp [operands])]
  | _ => rfl

/-- The effects of an instruction say all that its expansion depends on and does: assignments
that agree on what they name give one expansion, there is one when these have locations, and
the effects answer for every instruction in it. -/
theorem expansion_keeps_to_effects (i : Instr) (a : Assignment) :
    (∀ a' : Assignment, (∀ id, i.Touches id → a' id = a id) → i.expand a' = i.expand a) ∧
      ((∀ id, i.Touches id → ∃ location, a id = some location) →
        ∃ part, i.expand a = .ok part ∧ i.ReportsAll a [] part) := by
  refine ⟨fun a' => expand_congr, fun hlocated => ?_⟩
  obtain ⟨part, hpart⟩ := exists_expand hlocated
  exact ⟨part, hpart, reportsAll_of_expand hpart⟩

/-- A product of two values in the frame, one of them behind an address that is kept there
too. -/
def spilledProduct : Instr := .alu .imul .long (.indirect ⟨3, .quad⟩ 8) (.pseudo ⟨1, .long⟩)

/-- All pseudo-registers in slots. -/
def inSlots : Assignment := fun id => some (.slot (-8 * (id + 1)))

/-- Both scratch registers are used: the address goes through one, the product through the
other. -/
def spilledProductCode : List Machine.Instr :=
  [loadAddress (-32), .mov .long (.mem .rbp (-16)) scratch,
    .alu .imul .long (.mem addressScratch 8) scratch, .mov .long scratch (.mem .rbp (-16))]

theorem spilledProduct_is_reported :
    spilledProduct.expand (fun id => if id = 2 then none else inSlots id)
        = spilledProduct.expand inSlots
      ∧ spilledProduct.expand inSlots = .ok spilledProductCode
      ∧ spilledProduct.ReportsAll inSlots [] spilledProductCode := by
  obtain ⟨hagree, hlocated⟩ := expansion_keeps_to_effects spilledProduct inSlots
  have hcode : spilledProduct.expand inSlots = .ok spilledProductCode := rfl
  refine ⟨hagree _ fun id hid => if_neg ?_, hcode, ?_⟩
  · rintro rfl
    rcases hid.uses_or_defines with h | h
    · exact absurd h (by decide)
    · exact absurd h (by decide)
  · obtain ⟨part, hpart, hreports⟩ := hlocated fun id _ => ⟨_, rfl⟩
    cases hpart.symm.trans hcode
    exact hreports

end Instr

end Jil.Pseudo
