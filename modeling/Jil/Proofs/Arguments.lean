/-
Jil.Proofs.Arguments — calls receive their arguments.

Operands are moved into the argument registers one after the other. That is
safe because no pseudo-register is kept in an argument register that the
function touches anywhere: the registers that have been filled already hold
neither an operand that is still to be moved nor an address that is still
needed (`exists_loaded`).

`Received` is what the callee finds. `call_receives_arguments` shows it for
every stream with a call in it, in whatever state the call is reached.
-/
import Jil.Native.Call
import Jil.Proofs.Allocated

namespace Jil.Machine

/-! ## Argument registers -/

section

variable {abi : Abi} {position other : Nat} {r : Reg}

theorem mem_arguments_of_argument? (h : abi.argument? position = some r) :
    r ∈ abi.arguments := by
  unfold Abi.argument? at h
  split at h
  · cases h
  · exact List.mem_of_getElem? h

/-- Different positions have different registers. -/
theorem position_eq_of_argument? (habi : abi ∈ Abi.all) (h : abi.argument? position = some r)
    (h' : abi.argument? other = some r) : position = other := by
  have hnodup : ∀ abi ∈ Abi.all, abi.arguments.Nodup := by decide
  unfold Abi.argument? at h h'
  split at h
  · cases h
  · split at h'
    · cases h'
    · have hlt := (List.getElem?_eq_some_iff.1 h).1
      have := (List.getElem?_inj hlt (hnodup abi habi)).1 (h.trans h'.symm)
      omega

theorem ne_rbp_of_mem_arguments (habi : abi ∈ Abi.all) (h : r ∈ abi.arguments) : r ≠ .rbp := by
  have hall : ∀ abi ∈ Abi.all, Reg.rbp ∉ abi.arguments := by decide
  rintro rfl
  exact hall abi habi h

end

/-- The whole word of an operand. -/
def State.word (st : State) (rt : Runtime) (o : Operand) : Word := st.read rt .quad o

end Jil.Machine

namespace Jil.Native

open Jil.Machine (Abi Kept Runtime Size Value Word addressScratch execAll_append_of_ok
  execAll_cons_of_ok
  execAll_singleton)
open Jil.Pseudo (Assignment Instr Location Reg expandAll expandAll_append expandAll_cons)

/-! ## Values of operands -/

section

variable {rt : Runtime} {a : Assignment} {m m' : Machine.State} {spoiled : Machine.Reg → Prop}
  {location : Location} {origin : Origin} {dest : Machine.Reg} {arg : Argument} {i : Instr}

/-- A value of a type in a whole register: booleans and chars are filled up with zeros,
others with their sign. -/
def widened (type : Ty) {s : Size} (v : Value s) : Word :=
  if type = .boolean ∨ type = .char then v.setWidth 64 else v.signExtend 64

/-- What a callee receives for an operand: the address of a symbol, or a value. -/
def Argument.value? (rt : Runtime) (a : Assignment) (m : Machine.State) :
    Argument → Option Word
  | .address symbol => some (rt.symbol symbol)
  | .value p type =>
    (a p.id).map fun location => widened type (m.read rt p.size location.operand)

theorem extension_isSigned (type : Ty) {s : Size} (v : Value s) :
    Machine.extension (isSigned type) s .quad v = widened type v := by
  cases type <;> rfl

/-- A word is not changed. -/
theorem widened_word (type : Ty) (v : Word) : widened type (s := .quad) v = v := by
  unfold widened
  split
  · exact BitVec.setWidth_eq v
  · exact BitVec.signExtend_eq v

/-- What is at a location stays when neither its register nor the frame pointer is spoiled. -/
theorem read_location_of_kept (h : Kept spoiled m m') (hrbp : ¬ spoiled .rbp)
    (hlocation : ∀ r, location = .reg r → ¬ spoiled r) (rt : Runtime) (s : Size) :
    m'.read rt s location.operand = m.read rt s location.operand := by
  cases location with
  | reg r => exact h.reg (hlocation r rfl)
  | slot offset =>
    show m'.memory.load (m'.regs .rbp + _) s = m.memory.load (m.regs .rbp + _) s
    rw [h.memory, h.regs .rbp hrbp]

theorem value?_of_kept (h : Kept spoiled m m') (hrbp : ¬ spoiled .rbp)
    (hfree : ∀ id r, a id = some (.reg r) → ¬ spoiled r) (rt : Runtime) (arg : Argument) :
    arg.value? rt a m' = arg.value? rt a m := by
  cases arg with
  | address symbol => rfl
  | value p type =>
    refine Option.map_congr fun location ha => congrArg (widened type) ?_
    refine read_location_of_kept h hrbp (fun r hr => hfree p.id r ?_) rt p.size
    rw [ha, hr]

/-! ## Moving operands -/

/-- An operand is moved by one instruction of the machine. -/
theorem exists_expand_marshal (h : marshal origin dest arg = .ok i)
    (hlocated : ∀ id, i.Touches id → ∃ location, a id = some location) :
    dest ∈ i.touched ∧ ∃ j, i.expand a = .ok [j] ∧ ∀ rt m, ∃ v, arg.value? rt a m = some v
      ∧ j.exec rt m = .ok (m.setReg .quad dest v) := by
  unfold marshal at h
  split at h
  · next symbol =>
    cases h
    refine ⟨by simp [Instr.touched, Instr.effects, Pseudo.Operand.writeEffects,
      Pseudo.Operand.readEffects, Pseudo.Effect.touched?], _, rfl, fun rt m => ⟨_, rfl, ?_⟩⟩
    show Except.ok (m.setReg .quad dest (rt.symbol symbol + BitVec.ofInt 64 0)) = _
    simp
  · next p type =>
    split at h
    · cases h
    · split at h
      · next hquad =>
        cases h
        obtain ⟨location, ha⟩ := hlocated p.id
          ⟨.uses p,
            by simp [Instr.mov, Instr.effects, Pseudo.Operand.readEffects], p, rfl, rfl⟩
        refine ⟨by simp [Instr.touched, Instr.mov, Instr.effects, Pseudo.Operand.writeEffects,
            Pseudo.Operand.readEffects, Machine.AluOp.readsDestination,
            Machine.AluOp.writesDestination, Pseudo.Effect.touched?],
          .mov .quad location.operand (.reg dest), ?_, fun rt m => ?_⟩
        · simp only [Instr.mov, Instr.expand, Pseudo.resolve_pseudo ha]
          exact congrArg Except.ok (Pseudo.expandAlu_mov (.inr rfl))
        · refine ⟨m.word rt location.operand, ?_, Machine.exec_mov ?_ (.inl rfl)⟩
          · obtain ⟨id, size⟩ := p
            cases hquad
            refine (congrArg (Option.map _) ha).trans (congrArg some ?_)
            exact widened_word type (m.word rt location.operand)
          · exact Bool.and_false _
      · cases h
        obtain ⟨location, ha⟩ := hlocated p.id
          ⟨.uses p, by simp [Instr.effects, Pseudo.Operand.readEffects], p, rfl, rfl⟩
        refine ⟨by simp [Instr.touched, Instr.effects, Pseudo.Operand.writeEffects,
            Pseudo.Operand.readEffects, Pseudo.Effect.touched?],
          .extend (isSigned type) p.size .quad location.operand dest, ?_, fun rt m => ?_⟩
        · simp only [Instr.expand, Pseudo.resolve_pseudo ha]
          rfl
        · exact ⟨_, congrArg (Option.map _) ha,
            congrArg (fun v => Except.ok (m.setReg .quad dest v)) (extension_isSigned type _)⟩

end

/-! ## Code that is complete -/

namespace Sequence

variable {s rest : Sequence}

theorem outcome_andThen : (s.andThen rest).outcome = .ok () ↔
    s.outcome = .ok () ∧ rest.outcome = .ok () := by
  unfold andThen
  split
  · next h => simp [h]
  · next h => simp [h]

theorem code_andThen (h : s.outcome = .ok ()) :
    (s.andThen rest).code = s.code ++ rest.code := by
  unfold andThen
  rw [h]

end Sequence

section

variable {abi : Abi} {origin : Origin} {position n : Nat} {arg : Argument}
  {args : List Argument} {env : Reg} {callee : String}

theorem argumentRegister_eq_ok {r : Machine.Reg} :
    argumentRegister abi position = .ok r ↔ abi.argument? position = some r := by
  unfold argumentRegister
  split
  · next h => simp [h]
  · next h => simp [h]

/-- Operands that are moved completely. -/
theorem loadOperands_cons (h : (loadOperands abi origin n (arg :: args)).outcome = .ok ()) :
    ∃ r i, abi.argument? n = some r ∧ marshal origin r arg = .ok i
      ∧ (loadOperands abi origin (n + 1) args).outcome = .ok ()
      ∧ (loadOperands abi origin n (arg :: args)).code
        = i :: (loadOperands abi origin (n + 1) args).code := by
  rw [loadOperands] at h ⊢
  split at h
  · next i hi =>
    obtain ⟨r, hr, hmarshal⟩ := Pseudo.bind_eq_ok.1 hi
    obtain ⟨-, hrest⟩ := Sequence.outcome_andThen.1 h
    exact ⟨r, i, argumentRegister_eq_ok.1 hr, hmarshal, hrest, Sequence.code_andThen rfl⟩
  · cases h

/-- The environment is moved like an operand in front of the others. -/
theorem loadArguments_eq (henv : env.size = .quad)
    (h : (loadArguments abi env callee args origin).outcome = .ok ()) :
    loadArguments abi env callee args origin
      = loadOperands abi origin 1 (.value env .null :: args) := by
  unfold loadArguments at h ⊢
  split at h
  · cases h
  · next hcount =>
    rw [if_neg hcount]
    obtain ⟨id, size⟩ := env
    cases henv
    cases hr : argumentRegister abi 1 with
    | error e =>
      simp only [hr] at h
      cases h
    | ok r =>
      have hmarshal : argumentRegister abi 1 >>= (marshal origin · (.value ⟨id, .quad⟩ .null))
          = .ok (.mov .quad (.pseudo ⟨id, .quad⟩) (.fixed r)) := by
        rw [hr]
        rfl
      rw [loadOperands, hmarshal]

end

/-! ## Loading argument registers -/

/-- The argument registers from a position on have been filled, as many as there are
operands. -/
structure Loaded (rt : Runtime) (abi : Abi) (a : Assignment) (n : Nat) (args : List Argument)
    (m m' : Machine.State) : Prop where
  values : ∀ k arg, args[k]? = some arg → ∃ r v, abi.argument? (n + k) = some r
    ∧ arg.value? rt a m = some v ∧ m'.regs r = v
  kept : Kept (fun r => ∃ k < args.length, abi.argument? (n + k) = some r) m m'

section

variable {rt : Runtime} {abi : Abi} {origin : Origin} {a : Assignment} {n : Nat}
  {args : List Argument}

/-- The registers that are filled are touched. -/
theorem exists_touched_of_loadOperands (h : (loadOperands abi origin n args).outcome = .ok ())
    (hlocated : ∀ i ∈ (loadOperands abi origin n args).code, ∀ id, i.Touches id →
      ∃ location, a id = some location)
    {k : Nat} (hk : k < args.length) {r : Machine.Reg} (hr : abi.argument? (n + k) = some r) :
    ∃ i ∈ (loadOperands abi origin n args).code, r ∈ i.touched := by
  induction args generalizing n k with
  | nil => cases hk
  | cons arg args ih =>
    obtain ⟨r', i, hr', hmarshal, hrest, hcode⟩ := loadOperands_cons h
    rw [hcode] at hlocated ⊢
    cases k with
    | zero =>
      obtain rfl : r' = r := Option.some.inj (hr'.symm.trans hr)
      exact ⟨i, List.mem_cons_self,
        (exists_expand_marshal hmarshal (hlocated i List.mem_cons_self)).1⟩
    | succ k =>
      obtain ⟨j, hj, htouched⟩ := ih hrest (fun j hj => hlocated j (List.mem_cons_of_mem _ hj))
        (Nat.lt_of_succ_lt_succ hk) (by rw [← hr]; congr 1; omega)
      exact ⟨j, List.mem_cons_of_mem _ hj, htouched⟩

/-- Operands are moved into registers that hold none of them. -/
theorem exists_loaded (rt : Runtime) (habi : abi ∈ Abi.all)
    (h : (loadOperands abi origin n args).outcome = .ok ())
    (hlocated : ∀ i ∈ (loadOperands abi origin n args).code, ∀ id, i.Touches id →
      ∃ location, a id = some location)
    (hfree : ∀ k < args.length, ∀ r, abi.argument? (n + k) = some r →
      ∀ id, a id ≠ some (.reg r))
    (m : Machine.State) :
    ∃ part m', expandAll a (loadOperands abi origin n args).code = .ok part
      ∧ Machine.Instr.execAll rt m part = .ok m' ∧ Loaded rt abi a n args m m' := by
  induction args generalizing n m with
  | nil => exact ⟨[], m, rfl, rfl, nofun, .refl _ m⟩
  | cons arg args ih =>
    obtain ⟨r, i, hr, hmarshal, hrest, hcode⟩ := loadOperands_cons h
    rw [hcode] at hlocated ⊢
    obtain ⟨-, j, hpart, hexec⟩ :=
      exists_expand_marshal hmarshal (hlocated i List.mem_cons_self)
    obtain ⟨v, hv, hfirst⟩ := hexec rt m
    -- the next operands are not in the register that has just been filled
    have hkept : Kept (· = r) m (m.setReg .quad r v) := .setReg m .quad r v
    have hrbp : Machine.Reg.rbp ≠ r :=
      (Machine.ne_rbp_of_mem_arguments habi (Machine.mem_arguments_of_argument? hr)).symm
    have hvalue :
        ∀ arg : Argument, arg.value? rt a (m.setReg .quad r v) = arg.value? rt a m := by
      refine value?_of_kept hkept hrbp (fun id x ha => ?_) rt
      rintro rfl
      exact hfree 0 (Nat.succ_pos _) x hr id ha
    obtain ⟨rest, m', hexpand, hrun, hloaded⟩ := ih hrest
      (fun j hj => hlocated j (List.mem_cons_of_mem _ hj))
      (fun k hk x hx => hfree (k + 1) (Nat.succ_lt_succ hk) x (by rw [← hx]; congr 1; omega))
      (m.setReg .quad r v)
    have hstays : m'.regs r = v := by
      rw [hloaded.kept.regs r ?_, m.regs_setReg_quad r v]
      rintro ⟨k, -, hk⟩
      have := Machine.position_eq_of_argument? habi hr hk
      omega
    refine ⟨j :: rest, m', expandAll_cons.2 ⟨[j], rest, hpart, hexpand, rfl⟩,
      (execAll_cons_of_ok hfirst).trans hrun, fun k arg' hk => ?_, ?_⟩
    · cases k with
      | zero =>
        cases hk
        exact ⟨r, v, hr, hv, hstays⟩
      | succ k =>
        obtain ⟨x, w, hx, hw, hregs⟩ := hloaded.values k arg' hk
        exact ⟨x, w, by rw [← hx]; congr 1; omega, by rw [← hw, hvalue], hregs⟩
    · refine (hkept.mono ?_).trans (hloaded.kept.mono ?_)
      · rintro x rfl
        exact ⟨0, Nat.succ_pos _, hr⟩
      · rintro x ⟨k, hk, hx⟩
        exact ⟨k + 1, Nat.succ_lt_succ hk, by rw [← hx]; congr 1; omega⟩

end

/-! ## Calls -/

/-- What is called: a service of the host, or a function of the same unit. -/
inductive Callee where
  | service (s : Service)
  | function (symbol : String)

namespace Callee

/-- The code of a call. -/
def sequence (abi : Abi) (env : Reg) (args : List Argument) (result : Option Reg)
    (origin : Origin) :
    Callee → Sequence
  | .service s => serviceCall abi env s args result origin
  | .function symbol => directCall abi env symbol args result origin

/-- The code between the operands and the call. -/
def prepare (abi : Abi) (env : Reg) : Callee → List Instr
  | .service s => [.mov .quad (.indirect env 0) (.fixed addressScratch)]
    ++ (if s.isVariadic && abi.countsVectorArguments then [.mov .long (.imm 0) (.fixed .rax)]
      else [])
  | .function _ => []

/-- The call in a stream, -/
def call : Callee → Instr
  | .service s => .callIndirect addressScratch s.offset
  | .function symbol => .call symbol

/-- and in the code of the machine. -/
def instr : Callee → Machine.Instr
  | .service s => .callIndirect addressScratch s.offset
  | .function symbol => .call symbol

end Callee

/-- What a callee finds, in terms of the state in front of the code of the call. -/
structure Received (rt : Runtime) (abi : Abi) (a : Assignment) (callee : Callee) (env : Reg)
    (args : List Argument) (m m' : Machine.State) : Prop where
  environment : ∃ r location, abi.argument? 1 = some r ∧ a env.id = some location
    ∧ m'.regs r = m.word rt location.operand
  operands : ∀ k arg, args[k]? = some arg → ∃ r v, abi.argument? (k + 2) = some r
    ∧ arg.value? rt a m = some v ∧ m'.regs r = v
  /-- The first word of the environment, which is the address of the table of services. -/
  table : ∀ s, callee = .service s → ∃ location, a env.id = some location
    ∧ m'.regs addressScratch = m.memory.load (m.word rt location.operand) .quad
  /-- A variadic callee may look up the number of vector registers. -/
  vectors : ∀ s, callee = .service s → s.isVariadic = true → abi.family = .systemV →
    m'.reg .long .rax = 0
  memory : m'.memory = m.memory

section

variable {rt : Runtime} {abi : Abi} {origin : Origin} {a : Assignment} {env : Reg}
  {location : Location} {m : Machine.State}

/-- The address of the table of services is fetched through the environment. -/
theorem exists_fetched (hapart : Pseudo.Unscratched a) (henv : env.size = .quad)
    (ha : a env.id = some location) :
    ∃ part m', Instr.expand a (.mov .quad (.indirect env 0) (.fixed addressScratch)) = .ok part
      ∧ Machine.Instr.execAll rt m part = .ok m' ∧ Kept (· = addressScratch) m m'
      ∧ m'.regs addressScratch = m.memory.load (m.word rt location.operand) .quad := by
  -- a stream whose environment is what is at its location
  let σ : Pseudo.State := { m with pseudo := fun _ => m.word rt location.operand }
  have hholds : Pseudo.Holds rt a (fun _ => .quad) m σ env.id :=
    ⟨location, ha, (BitVec.setWidth_eq _).symm⟩
  obtain ⟨before, mo, m₁, address, hresolve, hbefore, hkept, hmemory, -, haddress,
    haddress'⟩ :=
    Pseudo.resolve_inMemory (o := .indirect env 0) (σ := σ)
      ⟨henv.symm, henv⟩ hapart fun base disp hbase => by cases hbase; exact hholds
  have hword : address = m.word rt location.operand := by
    have heq : σ.pseudo env.id + BitVec.ofInt 64 0 = address := Option.some.inj haddress'
    rw [← heq]
    exact BitVec.add_zero _
  refine ⟨before ++ [.mov .quad mo (.reg addressScratch)],
    m₁.setReg .quad addressScratch (m₁.word rt mo), ?_, ?_, ?_, ?_⟩
  · have hmov : Pseudo.expandAlu .mov .quad mo (.reg addressScratch)
        = [.mov .quad mo (.reg addressScratch)] := Pseudo.expandAlu_mov (.inr rfl)
    simp only [Instr.mov, Instr.expand, hresolve]
    exact congrArg Except.ok (by rw [List.append_nil, hmov])
  · exact (execAll_append_of_ok hbefore).trans
      (execAll_singleton (Machine.exec_mov (Bool.and_false _) (.inl rfl)))
  · exact (hkept.mono fun r hr => hr.1).trans (.setReg m₁ .quad addressScratch _)
  · rw [m₁.regs_setReg_quad, ← hword, ← hkept.memory]
    exact Pseudo.read_of_address haddress

/-- What comes between the operands and the call of a service is carried out without touching
anything but the scratch registers. -/
theorem exists_prepared (hapart : Pseudo.Unscratched a) (henv : env.size = .quad)
    (hlocated : ∃ location, a env.id = some location) (callee : Callee) :
    ∃ part m', expandAll a (callee.prepare abi env) = .ok part
      ∧ Machine.Instr.execAll rt m part = .ok m'
      ∧ Kept (fun r => r = .rax ∨ r = addressScratch) m m'
      ∧ (∀ s, callee = .service s → ∃ location, a env.id = some location
        ∧ m'.regs addressScratch = m.memory.load (m.word rt location.operand) .quad)
      ∧ ∀ s, callee = .service s → s.isVariadic = true → abi.family = .systemV →
        m'.reg .long .rax = 0 := by
  cases callee with
  | function symbol => exact ⟨[], m, rfl, rfl, .refl _ m, nofun, nofun⟩
  | service s =>
    obtain ⟨location, ha⟩ := hlocated
    obtain ⟨part, m₁, hexpand, hrun, hkept, hfetched⟩ := exists_fetched hapart henv ha
    have hkept₁ : Kept (fun r => r = .rax ∨ r = addressScratch) m m₁ :=
      hkept.mono fun r hr => .inr hr
    by_cases hvectors : s.isVariadic = true ∧ abi.countsVectorArguments = true
    · have hcode : (Callee.service s).prepare abi env
          = [.mov .quad (.indirect env 0) (.fixed addressScratch),
            .mov .long (.imm 0) (.fixed .rax)] := by
        simp [Callee.prepare, hvectors]
      have hzero : (Machine.Instr.mov .long (.imm 0) (.reg .rax)).exec rt m₁
          = .ok (m₁.setReg .long .rax 0) := Machine.exec_mov rfl (.inl rfl)
      refine ⟨part ++ [.mov .long (.imm 0) (.reg .rax)], m₁.setReg .long .rax 0, ?_,
        (execAll_append_of_ok hrun).trans (execAll_singleton hzero), ?_, ?_,
        fun s' _ _ _ => ?_⟩
      · rw [hcode]
        exact expandAll_cons.2 ⟨part, _, hexpand, rfl, rfl⟩
      · exact hkept₁.trans ((Kept.setReg m₁ .long .rax 0).mono fun r hr => .inl hr)
      · rintro s' -
        exact ⟨location, ha, hfetched⟩
      · exact (m₁.reg_setReg (Nat.le_refl _) .rax 0).trans (BitVec.setWidth_eq 0)
    · have hcode : (Callee.service s).prepare abi env
          = [.mov .quad (.indirect env 0) (.fixed addressScratch)] := by
        have hnone : (s.isVariadic && abi.countsVectorArguments) = false := by
          rwa [← Bool.and_eq_true, Bool.not_eq_true] at hvectors
        simp [Callee.prepare, hnone]
      refine ⟨part, m₁, ?_, hrun, hkept₁, ?_, fun s' hs hvariadic hfamily => ?_⟩
      · rw [hcode]
        exact expandAll_cons.2 ⟨part, [], hexpand, rfl, (List.append_nil part).symm⟩
      · rintro s' -
        exact ⟨location, ha, hfetched⟩
      · cases hs
        exact absurd ⟨hvariadic, decide_eq_true hfamily⟩ hvectors

end

section

variable {rt : Runtime} {abi : Abi} {origin : Origin} {env : Reg} {args : List Argument}
  {result : Option Reg} {callee : Callee} {a : Assignment}

/-- The parts of the code of a call. -/
theorem exists_code_of_sequence (henv : env.size = .quad)
    (h : (callee.sequence abi env args result origin).outcome = .ok ()) :
    (loadOperands abi origin 1 (.value env .null :: args)).outcome = .ok () ∧
      ∃ rest, (callee.sequence abi env args result origin).code
        = (loadOperands abi origin 1 (.value env .null :: args)).code
          ++ (callee.prepare abi env ++ callee.call :: rest) := by
  cases callee with
  | service s =>
    obtain ⟨hload, -⟩ := Sequence.outcome_andThen.1 h
    rw [← loadArguments_eq henv hload]
    refine ⟨hload, takeResult abi (if s.returnsValue then result else none),
      (Sequence.code_andThen hload).trans (congrArg (_ ++ ·) ?_)⟩
    simp [Sequence.complete, invoke, Callee.prepare, Callee.call]
  | function symbol =>
    obtain ⟨hload, -⟩ := Sequence.outcome_andThen.1 h
    rw [← loadArguments_eq henv hload]
    exact ⟨hload, _, Sequence.code_andThen hload⟩

/-- The expansion of the code in front of the call leaves what the callee is to find. -/
theorem exists_received (habi : abi ∈ Abi.all) (henv : env.size = .quad)
    (h : (loadOperands abi origin 1 (.value env .null :: args)).outcome = .ok ())
    (hapart : Pseudo.Unscratched a)
    (hlocated : ∀ i ∈ (loadOperands abi origin 1 (.value env .null :: args)).code, ∀ id,
      i.Touches id → ∃ location, a id = some location)
    (hfree : ∀ k < args.length + 1, ∀ r, abi.argument? (1 + k) = some r →
      ∀ id, a id ≠ some (.reg r))
    (callee : Callee) (m : Machine.State) :
    ∃ filling preparing m',
      expandAll a (loadOperands abi origin 1 (.value env .null :: args)).code = .ok filling
      ∧ expandAll a (callee.prepare abi env) = .ok preparing
      ∧ Machine.Instr.execAll rt m (filling ++ preparing) = .ok m'
      ∧ Received rt abi a callee env args m m' := by
  obtain ⟨filling, m₁, hfilling, hfilled, hloaded⟩ := exists_loaded rt habi h hlocated hfree m
  obtain ⟨r, v, hr, hv, hregs⟩ := hloaded.values 0 _ rfl
  obtain ⟨location, ha, hv⟩ := Option.map_eq_some_iff.1 hv
  rw [← hv] at hregs
  obtain ⟨preparing, m', hpreparing, hprepared, hkept, htable, hvectors⟩ :=
    exists_prepared (m := m₁) hapart henv ⟨location, ha⟩ callee
  -- the scratch registers pass no arguments
  have hall : ∀ abi ∈ Abi.all, ∀ r ∈ abi.arguments, ¬ (r = .rax ∨ r = addressScratch) := by
    decide
  have hstays : ∀ {position r}, abi.argument? position = some r → m'.regs r = m₁.regs r :=
    fun hr => hkept.regs _ (hall abi habi _ (Machine.mem_arguments_of_argument? hr))
  have hword : m₁.word rt location.operand = m.word rt location.operand := by
    refine read_location_of_kept hloaded.kept ?_ (fun x hx => ?_) rt .quad
    · rintro ⟨k, -, hk⟩
      exact Machine.ne_rbp_of_mem_arguments habi (Machine.mem_arguments_of_argument? hk) rfl
    · rintro ⟨k, hk, hk'⟩
      exact hfree k hk x hk' env.id (by rw [ha, hx])
  refine ⟨filling, preparing, m', hfilling, hpreparing,
    (execAll_append_of_ok hfilled).trans hprepared, ?_, fun k arg hk => ?_,
    fun s hs => ?_, hvectors, hkept.memory.trans hloaded.kept.memory⟩
  · refine ⟨r, location, hr, ha, (hstays hr).trans (hregs.trans ?_)⟩
    obtain ⟨id, size⟩ := env
    cases henv
    exact widened_word .null (m.word rt location.operand)
  · obtain ⟨x, w, hx, hw, hvalue⟩ := hloaded.values (k + 1) arg hk
    rw [show 1 + (k + 1) = k + 2 by omega] at hx
    exact ⟨x, w, hx, hw, (hstays hx).trans hvalue⟩
  · obtain ⟨location', ha', hfetched⟩ := htable s hs
    obtain rfl : location = location' := Option.some.inj (ha.symm.trans ha')
    refine ⟨location, ha, ?_⟩
    rw [hfetched, hloaded.kept.memory, hword]

end

section

variable {abi : Abi} {origin : Origin} {env : Reg} {args : List Argument} {result : Option Reg}
  {callee : Callee} {code pre post : List Instr} {a : Allocation}

/-- Wherever the code of a call stands in a stream with an allocation, and in whatever state it
is reached: the expansion comes to the call, and the callee finds the environment and the
operands as they were in front of that code. -/
theorem call_receives_arguments (habi : abi ∈ Abi.all) (henv : env.size = .quad)
    (hcomplete : (callee.sequence abi env args result origin).outcome = .ok ())
    (hcode : code = pre ++ (callee.sequence abi env args result origin).code ++ post)
    (halloc : Allocation.ofCode abi code = .ok a) :
    ∃ body, expandAll a.assignment code = .ok body ∧
      ∀ (rt : Runtime) (front back : List Machine.Instr) (m : Machine.State), ∃ k m',
        Machine.Reaches rt (front ++ body ++ back)
            (front.length + Pseudo.startOf a.assignment code pre.length, m) (k, m')
          ∧ (front ++ body ++ back)[k]? = some callee.instr
          ∧ Received rt abi a.assignment callee env args m m' := by
  obtain ⟨live, hlive, hspec⟩ := Allocation.spec_of_ofCode habi halloc
  obtain ⟨body, hbody⟩ := Pseudo.exists_expandAll_of_ofCode habi halloc
  obtain ⟨hload, rest, hsequence⟩ := exists_code_of_sequence henv hcomplete
  let loads := (loadOperands abi origin 1 (.value env .null :: args)).code
  have hsplit :
      code = pre ++ (loads ++ (callee.prepare abi env ++ callee.call :: (rest ++ post))) := by
    rw [hcode, hsequence]
    simp [loads]
  have hmem : ∀ i ∈ loads, i ∈ code := fun i hi => by
    rw [hsplit]
    exact List.mem_append_right _ (List.mem_append_left _ hi)
  have hlocated : ∀ i ∈ loads, ∀ id, i.Touches id →
      ∃ location, a.assignment id = some location :=
    fun i hi _ ht => Pseudo.exists_location habi halloc (hmem i hi) ht
  -- every register that is filled is touched, so none of them holds a pseudo-register
  have hfree : ∀ k < args.length + 1, ∀ r, abi.argument? (1 + k) = some r →
      ∀ id, a.assignment id ≠ some (.reg r) := by
    intro k hk r hr id
    obtain ⟨i, hi, htouched⟩ := exists_touched_of_loadOperands hload hlocated hk hr
    exact hspec.ne_reg_of_touched habi
      (((Pseudo.Liveness.spec_of_ofCode hlive).touched r).2 ⟨i, hmem i hi, htouched⟩)
      (.inl (Machine.mem_arguments_of_argument? hr))
  have hparts := hbody
  rw [hsplit] at hparts
  obtain ⟨before, tail, hbefore, hparts, hbody₀⟩ := expandAll_append.1 hparts
  obtain ⟨filling, tail₁, hfilling, hparts, htail⟩ := expandAll_append.1 hparts
  obtain ⟨preparing, tail₂, hpreparing, hparts, htail₁⟩ := expandAll_append.1 hparts
  obtain ⟨calling, after, hcalling, -, htail₂⟩ := expandAll_cons.1 hparts
  have hinstr : calling = [callee.instr] := by
    cases callee <;> cases hcalling <;> rfl
  have hstart : Pseudo.startOf a.assignment code pre.length = before.length := by
    unfold Pseudo.startOf
    rw [hsplit, List.take_left, hbefore]
  refine ⟨body, hbody, fun rt front back m => ?_⟩
  obtain ⟨part, part', m', hpart, hpart', hrun, hreceived⟩ :=
    exists_received habi henv hload (hspec.unscratched habi) hlocated hfree callee m
  obtain rfl : filling = part := Except.ok.inj (hfilling.symm.trans hpart)
  obtain rfl : preparing = part' := Except.ok.inj (hpreparing.symm.trans hpart')
  have hlisting : front ++ body ++ back
      = front ++ before ++ (filling ++ preparing) ++ (callee.instr :: (after ++ back)) := by
    simp [hbody₀, htail, htail₁, htail₂, hinstr]
  refine ⟨(front ++ before).length + (filling ++ preparing).length, m', ?_, ?_, hreceived⟩
  · rw [hlisting, hstart, ← List.length_append]
    exact Machine.reaches_of_execAll hrun
  · rw [hlisting, ← List.length_append]
    simp

end

/-- A variadic service receives a byte twice, once as a number and once as a truth value, and a
symbol in the last argument register. -/
theorem variadic_call_receives_arguments :
    let env : Reg := ⟨0, .quad⟩
    let p : Reg := ⟨1, .byte⟩
    let args : List Argument := [.value p .byte, .value p .boolean, .address "text"]
    let callee : Callee := .service (.callMethod .int)
    let pre : List Instr :=
      [.mov .quad (.fixed .rcx) (.pseudo env), .mov .byte (.imm (-7)) (.pseudo p)]
    let code :=
      pre ++ (callee.sequence .microsoft env args (some ⟨2, .long⟩) .generated).code ++ []
    let rt : Runtime :=
      ⟨.microsoft, fun _ => 64, fun _ => ⟨fun _ => 0, fun _ => 0⟩, fun _ => false⟩
    let m : Machine.State := ⟨fun _ => 249, fun _ => 1, none, 0⟩
    (callee.sequence .microsoft env args (some ⟨2, .long⟩) .generated).outcome = .ok ()
        ∧ ∃ a body, Allocation.ofCode .microsoft code = .ok a
        ∧ expandAll a.assignment code = .ok body
        ∧ ∃ k m', Machine.Reaches rt ([] ++ body ++ [])
              (0 + Pseudo.startOf a.assignment code pre.length, m) (k, m')
            ∧ ([] ++ body ++ [])[k]? = some callee.instr
            ∧ Received rt .microsoft a.assignment callee env args m m' := by
  intro env p args callee pre code rt m
  have habi : Abi.microsoft ∈ Abi.all := by decide
  have hcomplete :
      (callee.sequence .microsoft env args (some ⟨2, .long⟩) .generated).outcome = .ok () :=
      rfl
  obtain ⟨a, halloc⟩ : ∃ a, Allocation.ofCode .microsoft code = .ok a := ⟨_, rfl⟩
  obtain ⟨body, hbody, hcall⟩ :=
    call_receives_arguments habi rfl hcomplete rfl halloc
  exact ⟨hcomplete, a, body, halloc, hbody, hcall rt [] [] m⟩

end Jil.Native
