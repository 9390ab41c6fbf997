/-
Jil.Proofs.Failing — how compiling can fail.

`FailsOnly P x` says that whatever goes wrong in `x` is of the kind `P`. Each
way to build a computation has one lemma that says how it fails, for those that
give a result at once (`Jil.FailsOnly`) and for the selection of instructions
(`Selection.FailsOnly`). Code of calls, the merges of a function and its entry
fail only on constructs for which there is no code.
-/
import Jil.Proofs.Selecting

namespace Jil

/-- A construct for which there is no code is reported. -/
def Failure.IsUnsupported : Failure → Prop
  | .reported (.unsupported _ _) => True
  | _ => False

/-- Something is reported. -/
def Failure.IsReported : Failure → Prop
  | .reported _ => True
  | .fault _ => False

/-- When a list is not gone through, one of its members failed. -/
theorem exists_of_mapM_eq_error {ε α β : Type} {f : α → Except ε β} {l : List α} {e : ε}
    (h : l.mapM f = .error e) : ∃ a ∈ l, f a = .error e := by
  induction l with
  | nil => cases h
  | cons a l ih =>
    rw [List.mapM_cons] at h
    cases ha : f a with
    | error e' =>
      rw [ha] at h
      cases h
      exact ⟨a, List.mem_cons_self, ha⟩
    | ok b =>
      rw [ha] at h
      cases hl : l.mapM f with
      | error e' =>
        rw [hl] at h
        cases h
        obtain ⟨a', ha', he⟩ := ih hl
        exact ⟨a', List.mem_cons_of_mem _ ha', he⟩
      | ok bs =>
        rw [hl] at h
        cases h

/-- When every member of a list gives a result, the list is gone through. -/
theorem exists_mapM_eq_ok {ε α β : Type} {f : α → Except ε β} {l : List α}
    (h : ∀ a ∈ l, ∃ b, f a = .ok b) : ∃ results, l.mapM f = .ok results := by
  cases hl : l.mapM f with
  | ok results => exact ⟨results, rfl⟩
  | error e =>
    obtain ⟨a, ha, he⟩ := exists_of_mapM_eq_error hl
    obtain ⟨b, hb⟩ := h a ha
    cases hb.symm.trans he

/-- Whatever goes wrong is of a kind. -/
def FailsOnly {ε : Type} (P : ε → Prop) {α : Type} (x : Except ε α) : Prop :=
  ∀ e, x = .error e → P e

namespace FailsOnly

variable {ε α β : Type} {P Q : ε → Prop}

theorem ok (a : α) : FailsOnly P (.ok a) := nofun

theorem error {e : ε} (h : P e) : FailsOnly P (.error e : Except ε α) := by
  rintro _ ⟨⟩
  exact h

theorem mono {x : Except ε α} (h : FailsOnly P x) (hPQ : ∀ e, P e → Q e) : FailsOnly Q x :=
  fun e he => hPQ e (h e he)

theorem map {x : Except ε α} (f : α → β) (hx : FailsOnly P x) : FailsOnly P (x.map f) := by
  cases x with
  | ok a => exact .ok _
  | error e => exact .error (hx e rfl)

theorem bind {x : Except ε α} {f : α → Except ε β} (hx : FailsOnly P x)
    (hf : ∀ a, x = .ok a → FailsOnly P (f a)) : FailsOnly P (x >>= f) := by
  cases x with
  | ok a => exact hf a rfl
  | error e => exact .error (hx e rfl)

theorem ite {c : Prop} [Decidable c] {x y : Except ε α} (hx : c → FailsOnly P x)
    (hy : ¬ c → FailsOnly P y) : FailsOnly P (if c then x else y) := by
  by_cases h : c
  · rw [if_pos h]
    exact hx h
  · rw [if_neg h]
    exact hy h

theorem mapM {f : α → Except ε β} {l : List α} (h : ∀ a ∈ l, FailsOnly P (f a)) :
    FailsOnly P (l.mapM f) := by
  intro e he
  obtain ⟨a, ha, he⟩ := exists_of_mapM_eq_error he
  exact h a ha e he

/-- What can only be reported. -/
theorem liftReported {P : Failure → Prop} {x : Except CompileError α}
    (h : FailsOnly (fun e => P (.reported e)) x) :
    FailsOnly P (liftM x : Except Failure α) := by
  cases x with
  | ok a => exact .ok a
  | error e => exact .error (h e rfl)

end FailsOnly

/-! ## Calls -/

namespace Native

open Jil.Machine (Abi)
open Jil.Pseudo (Instr Reg)

variable {P : Failure → Prop} {abi : Abi} {origin : Origin} {args : List Argument} {env : Reg}

theorem Sequence.failsOnly_andThen {s rest : Sequence} (hs : FailsOnly P s.outcome)
    (hrest : FailsOnly P rest.outcome) : FailsOnly P (s.andThen rest).outcome := by
  unfold Sequence.andThen
  split
  · exact hrest
  · exact hs

/-- The register of an argument exists when there are enough of them. -/
theorem exists_argumentRegister {position : Nat} (hpos : 0 < position)
    (hle : position ≤ abi.argumentCount) : ∃ r, argumentRegister abi position = .ok r := by
  have hlt : position - 1 < abi.arguments.length := by
    unfold Abi.argumentCount at hle
    omega
  refine ⟨abi.arguments[position - 1], ?_⟩
  unfold argumentRegister Abi.argument?
  rw [if_neg (Nat.ne_of_gt hpos), List.getElem?_eq_getElem hlt]

theorem failsOnly_marshal (dest : Machine.Reg) (a : Argument) :
    FailsOnly Failure.IsUnsupported (marshal origin dest a) := by
  cases a with
  | address symbol => exact .ok _
  | value p type =>
    refine .ite (fun _ => .error trivial) fun _ => ?_
    exact .ite (fun _ => .ok _) fun _ => .ok _

/-- Operands for which there are registers. -/
theorem failsOnly_loadOperands {position : Nat} (hpos : 0 < position)
    (hle : position + args.length ≤ abi.argumentCount + 1) :
    FailsOnly Failure.IsUnsupported (loadOperands abi origin position args).outcome := by
  induction args generalizing position with
  | nil => exact .ok ()
  | cons a rest ih =>
    rw [List.length_cons] at hle
    obtain ⟨r, hr⟩ : ∃ r, argumentRegister abi position = .ok r :=
      exists_argumentRegister hpos (by omega)
    rw [loadOperands, hr]
    have hmarshal : FailsOnly Failure.IsUnsupported (marshal origin r a) :=
      failsOnly_marshal r a
    cases hi : marshal origin r a with
    | error e =>
      have hstop : (Except.ok r >>= (marshal origin · a)) = .error e := hi
      rw [hstop]
      exact .error (hmarshal e hi)
    | ok i =>
      have hnext : (Except.ok r >>= (marshal origin · a)) = .ok i := hi
      rw [hnext]
      exact Sequence.failsOnly_andThen (.ok ()) (ih (Nat.succ_pos _) (by omega))

theorem failsOnly_loadArguments (callee : String) :
    FailsOnly Failure.IsUnsupported (loadArguments abi env callee args origin).outcome := by
  unfold loadArguments
  split
  · exact .error trivial
  · next hcount =>
    obtain ⟨r, hr⟩ : ∃ r, argumentRegister abi 1 = .ok r :=
      exists_argumentRegister Nat.one_pos (by omega)
    rw [hr]
    exact Sequence.failsOnly_andThen (.ok ()) (failsOnly_loadOperands (by omega) (by omega))

end Native

/-! ## Activities -/

namespace Selection

open Jil.Machine (Abi)
open Jil.Pseudo (Instr Reg)

/-- Whatever goes wrong in an activity is of a kind. -/
def FailsOnly (scope : Scope) (st : State) (P : Failure → Prop) {α : Type} (x : Select α) :
    Prop :=
  ∀ e after, (x.run scope).run.run st = (.error e, after) → P e

variable {scope : Scope} {st : State} {P Q : Failure → Prop} {α β : Type} {origin : Origin}

namespace FailsOnly

theorem mono {x : Select α} (h : FailsOnly scope st P x) (hPQ : ∀ e, P e → Q e) :
    FailsOnly scope st Q x := fun e after hrun => hPQ e (h e after hrun)

/-- An activity in which nothing goes wrong gives a result. -/
theorem exists_yields {x : Select α} (h : FailsOnly scope st (fun _ => False) x) :
    ∃ a after, Yields scope x st a after := by
  cases hrun : (x.run scope).run.run st with
  | mk r after =>
    cases r with
    | ok a => exact ⟨a, after, hrun⟩
    | error e => exact (h e after hrun).elim

/-- Nothing goes wrong in an activity that gives a result. -/
theorem of_yields {x : Select α} {a : α} {after : State} (h : Yields scope x st a after) :
    FailsOnly scope st P x := by
  intro e after' he
  rw [h] at he
  cases he

theorem pure (a : α) : FailsOnly scope st P (Pure.pure a) :=
  of_yields (yields_pure.2 ⟨rfl, rfl⟩)

theorem bind {x : Select α} {f : α → Select β} (hx : FailsOnly scope st P x)
    (hf : ∀ a mid, Yields scope x st a mid → FailsOnly scope mid P (f a)) :
    FailsOnly scope st P (x >>= f) := by
  intro e after h
  simp only [ReaderT.run_bind, ExceptT.run_bind, StateT.run_bind] at h
  generalize hrun : (x.run scope).run.run st = result at h
  obtain ⟨r, mid⟩ := result
  cases r with
  | ok a => exact hf a mid hrun e after h
  | error e' =>
    cases h
    exact hx e mid hrun

/-- What goes wrong first goes wrong in the whole. -/
theorem of_bind {x : Select α} {f : α → Select β} (h : FailsOnly scope st P (x >>= f)) :
    FailsOnly scope st P x := by
  intro e after hrun
  refine h e after ?_
  simp only [ReaderT.run_bind, ExceptT.run_bind, StateT.run_bind, hrun]
  rfl

/-- What goes wrong after a result goes wrong in the whole. -/
theorem of_bind_yields {x : Select α} {f : α → Select β} (h : FailsOnly scope st P (x >>= f))
    {a : α} {mid : State} (hx : Yields scope x st a mid) : FailsOnly scope mid P (f a) := by
  intro e after hrun
  refine h e after ?_
  simp only [ReaderT.run_bind, ExceptT.run_bind, StateT.run_bind]
  rw [hx]
  exact hrun

/-- What follows an activity whose result is known. -/
theorem bind_of_yields {x : Select α} {f : α → Select β} {a : α} {mid : State}
    (hx : Yields scope x st a mid) (hf : FailsOnly scope mid P (f a)) :
    FailsOnly scope st P (x >>= f) := by
  refine .bind (.of_yields hx) fun a' mid' hx' => ?_
  rw [Yields, hx] at hx'
  cases hx'
  exact hf

theorem read_bind {f : Scope → Select β} (hf : FailsOnly scope st P (f scope)) :
    FailsOnly scope st P (read >>= f) :=
  .bind_of_yields (yields_read.2 ⟨rfl, rfl⟩) hf

theorem ite {c : Prop} [Decidable c] {x y : Select α} (hx : c → FailsOnly scope st P x)
    (hy : ¬ c → FailsOnly scope st P y) : FailsOnly scope st P (if c then x else y) := by
  by_cases h : c
  · rw [if_pos h]
    exact hx h
  · rw [if_neg h]
    exact hy h

theorem map {x : Select α} (f : α → β) (hx : FailsOnly scope st P x) :
    FailsOnly scope st P (f <$> x) := by
  rw [map_eq_pure_bind]
  exact hx.bind fun a _ _ => .pure (f a)

theorem throw {e : Failure} (h : P e) :
    FailsOnly scope st P (MonadExcept.throw e : Select α) := by
  intro e' after heq
  cases heq
  exact h

theorem lift {x : Except Failure α} (h : Jil.FailsOnly P x) :
    FailsOnly scope st P (liftM x : Select α) := by
  intro e after heq
  cases x with
  | ok a => cases heq
  | error e' =>
    cases heq
    exact h e rfl

theorem read : FailsOnly scope st P (MonadReader.read : Select Scope) :=
  of_yields (yields_read.2 ⟨rfl, rfl⟩)

theorem modifyGet (f : State → α × State) :
    FailsOnly scope st P (MonadState.modifyGet f : Select α) :=
    of_yields (yields_modifyGet.2 rfl)

theorem mapM {f : α → Select β} {l : List α} (h : ∀ a ∈ l, ∀ st, FailsOnly scope st P (f a)) :
    FailsOnly scope st P (l.mapM f) := by
  induction l generalizing st with
  | nil =>
    rw [List.mapM_nil]
    exact .pure []
  | cons a l ih =>
    rw [List.mapM_cons]
    exact .bind (h a List.mem_cons_self st) fun _ _ _ =>
      .bind (ih fun b hb => h b (List.mem_cons_of_mem _ hb)) fun _ _ _ => .pure _

end FailsOnly

/-! ## Lookups -/

theorem failsOnly_draw (size : Machine.Size) : FailsOnly scope st P (draw size) := .modifyGet _

theorem failsOnly_constant (text : String) : FailsOnly scope st P (constant text) :=
  .modifyGet _

/-- Registers of known type are found. -/
theorem failsOnly_typeOf {r : Register} (h : ∃ t, scope.types.get? r = some t) :
    FailsOnly scope st P (typeOf r origin) := by
  obtain ⟨t, ht⟩ := h
  refine .read_bind ?_
  rw [ht]
  exact .pure t

theorem failsOnly_pseudoOf {r : Register} (h : ∃ t, scope.types.get? r = some t) :
    FailsOnly scope st P (pseudoOf r origin) :=
  .bind (failsOnly_typeOf h) fun _ _ _ => .pure _

theorem failsOnly_localOf {name : String} (h : ∃ p, st.locals.get? name = some p) :
    FailsOnly scope st P (localOf name origin) := by
  obtain ⟨p, hp⟩ := h
  refine .bind_of_yields (yields_get.2 ⟨rfl, rfl⟩) ?_
  rw [hp]
  exact .pure p

theorem failsOnly_paramOf {name : String} (h : ∃ p, scope.params.get? name = some p) :
    FailsOnly scope st P (paramOf name origin) := by
  obtain ⟨p, hp⟩ := h
  refine .read_bind ?_
  rw [hp]
  exact .pure p

/-! ## Code of calls -/

theorem failsOnly_whole {s : Native.Sequence} (h : Jil.FailsOnly P s.outcome) :
    FailsOnly scope st P (whole s) :=
  .bind (.lift h) fun _ _ _ => .pure _

theorem failsOnly_service (svc : Native.Service) (args : List Native.Argument)
    (result : Option Reg) :
    FailsOnly scope st Failure.IsUnsupported (service svc args result origin) :=
  .bind .read fun _ _ _ =>
    .bind
      (failsOnly_whole (Native.Sequence.failsOnly_andThen (Native.failsOnly_loadArguments _)
      (.ok ()))) fun _ _ _ => .bind (.modifyGet _) fun _ _ _ => .pure _

theorem failsOnly_findClass (name : String) :
    FailsOnly scope st Failure.IsUnsupported (findClass name origin) :=
  .bind (failsOnly_draw _) fun _ _ _ => .bind (failsOnly_constant _) fun _ _ _ =>
    .bind (failsOnly_service _ _ _) fun _ _ _ => .pure _

theorem failsOnly_findClassOf (object : Reg) :
    FailsOnly scope st Failure.IsUnsupported (findClassOf object origin) :=
  .bind (failsOnly_draw _) fun _ _ _ => .bind (failsOnly_service _ _ _) fun _ _ _ => .pure _

theorem failsOnly_findMember (svc : Native.Service) (handle : Reg) (name descriptor : String) :
    FailsOnly scope st Failure.IsUnsupported (findMember svc handle name descriptor origin) :=
  .bind (failsOnly_draw _) fun _ _ _ => .bind (failsOnly_constant _) fun _ _ _ =>
    .bind (failsOnly_constant _) fun _ _ _ => .bind (failsOnly_service _ _ _) fun _ _ _ =>
      .pure _

/-! ## Copies along edges -/

theorem failsOnly_moveAll (moves : List (Reg × Reg)) :
    FailsOnly scope st P (moveAll moves) := by
  unfold moveAll
  split
  · exact .pure _
  · exact .bind (.mapM fun _ _ _ => .bind (failsOnly_draw _) fun _ _ _ => .pure _) fun _ _ _ =>
      .pure _

theorem failsOnly_edgeCode {edge : Nat}
    (h : ∀ c ∈ scope.copies, (∃ t, scope.types.get? c.src = some t)
      ∧ ∃ t, scope.types.get? c.dest = some t) :
    FailsOnly scope st P (edgeCode edge origin) := by
  refine .read_bind ?_
  refine .bind (.mapM fun c hc _ => ?_) fun moves _ _ => failsOnly_moveAll moves
  obtain ⟨hsrc, hdest⟩ := h c (List.mem_filter.1 hc).1
  exact .bind (failsOnly_pseudoOf hsrc) fun _ _ _ =>
    .bind (failsOnly_pseudoOf hdest) fun _ _ _ => .pure _

end Selection

end Jil
