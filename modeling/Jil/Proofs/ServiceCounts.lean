/-
Jil.Proofs.ServiceCounts — selection counts the services that its code calls.

The number of calls is kept in the state, away from the code: it goes up where a
service is selected, and the code of a service is one indirect call among moves.
That the two agree is proved along the activities of selection. `Tallies` says
what an activity adds to the number, and relates it to the result: to the
indirect calls of the code, or to nothing where a register is drawn or a text is
placed. The table of constants is carried along, since it lives in the same
state: no activity puts a text into it twice.
-/
import Jil.Proofs.References

namespace Jil

open Pseudo (Inner Instr Reg)

/-! ## Indirect calls -/

namespace Pseudo

/-- The number of calls of services in code. -/
def serviceCalls (code : List Instr) : Nat := (code.filterMap Instr.service?).length

@[simp] theorem serviceCalls_append (code rest : List Instr) :
    serviceCalls (code ++ rest) = serviceCalls code + serviceCalls rest := by
  simp [serviceCalls, List.filterMap_append]

theorem Inner.serviceCalls_eq_zero {code : List Instr} (h : Inner code) :
    serviceCalls code = 0 := by
  rw [serviceCalls, h.services, List.length_nil]

end Pseudo

open Pseudo (serviceCalls serviceCalls_append)

namespace Native

variable {abi : Machine.Abi} {env : Reg} {origin : Origin}

theorem service?_of_marshal {dest : Machine.Reg} {a : Argument} {i : Instr}
    (h : marshal origin dest a = .ok i) : i.service? = none := by
  unfold marshal at h
  split at h
  · cases h
    rfl
  · split at h
    · cases h
    · split at h <;> · cases h; rfl

theorem serviceCalls_andThen {s rest : Sequence} (hs : serviceCalls s.code = 0)
    (hrest : serviceCalls rest.code = 0) : serviceCalls (s.andThen rest).code = 0 := by
  unfold Sequence.andThen
  split
  · simp [hs, hrest]
  · exact hs

theorem serviceCalls_loadOperands (position : Nat) (args : List Argument) :
    serviceCalls (loadOperands abi origin position args).code = 0 := by
  induction args generalizing position with
  | nil => rfl
  | cons a args ih =>
    rw [loadOperands]
    cases hi : argumentRegister abi position >>= (marshal origin · a) with
    | error e => rfl
    | ok i =>
      obtain ⟨r, -, hmarshal⟩ := Pseudo.bind_eq_ok.1 hi
      have hfirst : serviceCalls [i] = 0 := by
        simp [serviceCalls, service?_of_marshal hmarshal]
      exact serviceCalls_andThen hfirst (ih _)

theorem serviceCalls_loadArguments (callee : String) (args : List Argument) :
    serviceCalls (loadArguments abi env callee args origin).code = 0 := by
  unfold loadArguments
  split
  · rfl
  · split
    · exact serviceCalls_andThen rfl (serviceCalls_loadOperands _ _)
    · rfl

theorem serviceCalls_takeResult (result : Option Reg) :
    serviceCalls (takeResult abi result) = 0 := by
  cases result <;> rfl

/-- A function of the class is called directly. -/
theorem serviceCalls_directCall (symbol : String) (args : List Argument)
    (result : Option Reg) :
    serviceCalls (directCall abi env symbol args result origin).code = 0 := by
  refine serviceCalls_andThen (serviceCalls_loadArguments _ _) ?_
  rw [Sequence.complete, serviceCalls_append, serviceCalls_takeResult]
  rfl

/-- A service is called once. -/
theorem serviceCalls_serviceCall {svc : Service} {args : List Argument} {result : Option Reg}
    (h : (serviceCall abi env svc args result origin).outcome = .ok ()) :
    serviceCalls (serviceCall abi env svc args result origin).code = 1 := by
  obtain ⟨-, -, hcode⟩ := Sequence.andThen_outcome h
  have hinvoke : serviceCalls (invoke abi env svc) = 1 := by
    unfold invoke
    split <;> rfl
  unfold serviceCall
  rw [hcode, serviceCalls_append, serviceCalls_loadArguments, Sequence.complete,
    serviceCalls_append, hinvoke, serviceCalls_takeResult]

end Native

/-! ## Constants -/

/-- A text that is asked for again keeps its place. -/
theorem Assembly.StringTable.nodup_place {t : StringTable} (h : t.texts.Nodup)
    (text : String) :
    (t.place text).2.texts.Nodup := by
  unfold place
  split
  · exact h
  · next hnone =>
    have hnew : text ∉ t.texts := fun hmem => by
      have := List.findIdx?_eq_none_iff.1 hnone text hmem
      simp at this
    exact List.nodup_append.2 ⟨h, by simp, fun a ha b hb heq =>
      hnew (List.mem_singleton.1 hb ▸ heq ▸ ha)⟩

namespace Selection

variable {scope : Scope} {origin : Origin}

/-! ## Activities -/

/-- An activity counts some calls, and every result satisfies `P` for their number; texts stay
apart in the table. -/
def Tallies (scope : Scope) {α : Type} (x : Select α) (P : Nat → α → Prop) : Prop :=
  ∀ st a after, Yields scope x st a after →
    (st.strings.texts.Nodup → after.strings.texts.Nodup) ∧
      ∃ calls, after.serviceCalls = st.serviceCalls + calls ∧ P calls a

/-- An activity that counts nothing. -/
abbrev Silent (scope : Scope) {α : Type} (x : Select α) : Prop :=
  Tallies scope x fun calls _ => calls = 0

/-- An activity that counts the calls in the code that it gives. -/
abbrev Counts (scope : Scope) (x : Select (List Instr)) : Prop :=
  Tallies scope x fun calls code => serviceCalls code = calls

namespace Tallies

variable {α β : Type} {P : Nat → α → Prop} {Q : Nat → β → Prop} {x : Select α}
  {f : α → Select β}

theorem result {st after : State} {a : α} (hx : Tallies scope x P)
    (h : Yields scope x st a after) :
    (st.strings.texts.Nodup → after.strings.texts.Nodup) ∧
      ∃ calls, after.serviceCalls = st.serviceCalls + calls ∧ P calls a := hx st a after h

theorem pure {a : α} (h : P 0 a) : Tallies scope (pure a : Select α) P := by
  intro st b after hb
  obtain ⟨rfl, rfl⟩ := yields_pure.1 hb
  exact ⟨id, 0, rfl, h⟩

theorem bind (hx : Tallies scope x P)
    (hf : ∀ calls a, P calls a → Tallies scope (f a) fun more b => Q (calls + more) b) :
    Tallies scope (x >>= f) Q := by
  intro st b after hb
  obtain ⟨a, mid, ha, hb⟩ := yields_bind.1 hb
  obtain ⟨hmid, calls, hcalls, hP⟩ := hx st a mid ha
  obtain ⟨hafter, more, hmore, hQ⟩ := hf calls a hP mid b after hb
  exact ⟨hafter ∘ hmid, calls + more, by omega, hQ⟩

/-- Nothing is counted in front of an activity. -/
theorem after (hx : Silent scope x) (hf : ∀ a, Tallies scope (f a) Q) :
    Tallies scope (x >>= f) Q :=
  hx.bind fun calls a hcalls => by
    subst hcalls
    simpa using hf a

end Tallies

/-! ## Draws and constants -/

theorem silent_draw (size : Machine.Size) : Silent scope (draw size) := by
  intro st p after h
  obtain ⟨-, rfl⟩ := yields_draw.1 h
  exact ⟨id, 0, rfl, rfl⟩

theorem silent_constant (text : String) : Silent scope (constant text) := by
  intro st a after h
  unfold constant at h
  rw [yields_modifyGet, Prod.mk.injEq] at h
  obtain ⟨-, rfl⟩ := h
  exact ⟨fun hnodup => Assembly.StringTable.nodup_place hnodup text, 0, rfl, rfl⟩

/-! ## Services -/

variable {svc : Native.Service}

/-- A service is counted once, for the one call in its code. -/
theorem counts_service (args : List Native.Argument) (result : Option Reg) :
    Counts scope (service svc args result origin) := by
  intro st code after h
  obtain ⟨hok, rfl, rfl⟩ := yields_service h
  exact ⟨id, 1, rfl, Native.serviceCalls_serviceCall hok⟩

/-- Code that is found together with a register. -/
abbrev CountsWith (scope : Scope) (x : Select (Reg × List Instr)) : Prop :=
  Tallies scope x fun calls r => serviceCalls r.2 = calls

theorem counts_findClass (name : String) : CountsWith scope (findClass name origin) :=
  (silent_draw _).after fun _ => (silent_constant name).after fun _ =>
    (counts_service _ _).bind fun _ _ hcode => .pure hcode

theorem counts_findClassOf (object : Reg) : CountsWith scope (findClassOf object origin) :=
  (silent_draw _).after fun _ => (counts_service _ _).bind fun _ _ hcode => .pure hcode

theorem counts_findMember (svc : Native.Service) (handle : Reg) (name descriptor : String) :
    CountsWith scope (findMember svc handle name descriptor origin) :=
  (silent_draw _).after fun _ => (silent_constant name).after fun _ =>
    (silent_constant descriptor).after fun _ =>
      (counts_service _ _).bind fun _ _ hcode => .pure hcode

/-- The code of a class, of a member of it and of what is done with the member. -/
theorem serviceCalls_parts {before between code : List Instr} {n m k : Nat}
    (hbefore : serviceCalls before = n) (hbetween : serviceCalls between = m)
    (hcode : serviceCalls code = k) :
    serviceCalls (before ++ between ++ code) = n + (m + (k + 0)) := by
  rw [serviceCalls_append, serviceCalls_append, hbefore, hbetween, hcode]
  omega

/-! ## Members and calls -/

/-- A member of another class. -/
theorem counts_remote {find : Select (Reg × List Instr)} {lookup : Native.Service}
    {name descriptor : String} {object result : Option Reg} {more : List Native.Argument}
    (hfind : CountsWith scope find) :
    Counts scope (remote find lookup name descriptor svc object more result origin) :=
  hfind.bind fun _ _ hfound => (counts_findMember _ _ _ _).bind fun _ _ hmember =>
    (counts_service _ _).bind fun _ _ hcode => .pure (serviceCalls_parts hfound hmember hcode)

/-- Code that calls no service. -/
theorem counts_still {st : State} {code : List Instr} (h : serviceCalls code = 0) :
    (st.strings.texts.Nodup → st.strings.texts.Nodup) ∧
      ∃ calls, st.serviceCalls = st.serviceCalls + calls ∧ serviceCalls code = calls :=
  ⟨id, 0, rfl, h⟩

theorem counts_getStatic (owner field : String) (result : Register) (address : Bool) :
    Counts scope (getStatic owner field result address origin) := by
  intro st code after h
  obtain ⟨t, -, ⟨place, -, rfl, rfl⟩ | ⟨-, -, type, -, h⟩⟩ := yields_getStatic h
  · exact counts_still (by cases address <;> rfl)
  · exact (counts_remote (counts_findClass _)).result h

theorem counts_putStatic (owner field : String) (src : Register) :
    Counts scope (putStatic owner field src origin) := by
  intro st code after h
  obtain ⟨t, -, ⟨place, -, rfl, rfl⟩ | ⟨-, type, -, h⟩⟩ := yields_putStatic h
  · exact counts_still rfl
  · exact (counts_remote (counts_findClass _)).result h

theorem counts_getField (object : Register) (field : String) (result : Register)
    (address : Bool) : Counts scope (getField object field result address origin) := by
  intro st code after h
  obtain ⟨owner, t, -, -, ⟨place, -, rfl, rfl⟩ | ⟨-, -, type, -, h⟩⟩ := yields_getField h
  · exact counts_still (by cases address <;> rfl)
  · exact (counts_remote (counts_findClassOf _)).result h

theorem counts_putField (object : Register) (field : String) (src : Register) :
    Counts scope (putField object field src origin) := by
  intro st code after h
  obtain ⟨owner, t, -, -, ⟨place, -, rfl, rfl⟩ | ⟨-, type, -, h⟩⟩ := yields_putField h
  · exact counts_still rfl
  · exact (counts_remote (counts_findClassOf _)).result h

theorem counts_callOwn (target : ResolvedMethod) (receiver : Option Reg)
    (owner method : String) (args : List Register) (types : List Ty) (result : Option Reg) :
    Counts scope (callOwn target receiver owner method args types result origin) := by
  intro st code after h
  obtain ⟨first, before, l, f, ⟨-, rfl, rfl⟩ | ⟨-, hclass⟩, -, -, -, rfl⟩ := yields_callOwn h
  · exact counts_still (Native.serviceCalls_directCall _ _ _)
  · obtain ⟨htexts, calls, hcalls, hbefore⟩ := (counts_findClass _).result hclass
    refine ⟨htexts, calls, hcalls, (serviceCalls_append _ _).trans ?_⟩
    rw [hbefore, Native.serviceCalls_directCall, Nat.add_zero]

theorem counts_callOther (target : ResolvedMethod) (receiver : Option Reg) (method : String)
    (args : List Register) (types : List Ty) (result : Option Reg) :
    Counts scope (callOther target receiver method args types result origin) := by
  intro st code after h
  obtain ⟨l, -, h⟩ := yields_callOther h
  exact (counts_remote (counts_findClass _)).result h

theorem counts_callActual (object : Option Register) (owner method : String)
    (args : List Register) (result : Option Register) :
    Counts scope (callActual object owner method args result origin) := by
  intro st code after h
  obtain ⟨types, target, r, receiver, -, -, -, -, -, ⟨-, h⟩ | ⟨-, h⟩⟩ := yields_callActual h
  · exact (counts_callOwn _ _ _ _ _ _ _).result h
  · exact (counts_callOther _ _ _ _ _ _).result h

theorem counts_callVirtual (object : Register) (method : String) (args : List Register)
    (result : Option Register) :
    Counts scope (callVirtual object method args result origin) := by
  intro st code after h
  obtain ⟨owner, types, target, r, l, -, -, -, -, -, -, h⟩ := yields_callVirtual h
  exact (counts_remote (counts_findClassOf _)).result h

/-! ## Statements -/

theorem counts_statementCode (index : Nat) (s : Statement) :
    Counts scope (statementCode index s origin) := by
  intro st code after h
  cases gives_of_yields h with
  | copy | choose | literal | getLocal | putLocal | getParam | compare | returnValue
    | returnVoid
  | startScope | endScope => exact counts_still rfl
  | string _ htext hcode =>
    obtain ⟨htexts, calls, hcalls, rfl⟩ := (silent_constant _).result htext
    obtain ⟨hcodes, more, hmore, hcount⟩ := (counts_service _ _).result hcode
    exact ⟨hcodes ∘ htexts, more, by rw [hmore, hcalls, Nat.add_zero], hcount⟩
  | getStatic hcode | getStaticAddress hcode => exact (counts_getStatic _ _ _ _).result hcode
  | putStatic hcode => exact (counts_putStatic _ _ _).result hcode
  | getField hcode | getFieldAddress hcode => exact (counts_getField _ _ _ _).result hcode
  | putField hcode => exact (counts_putField _ _ _).result hcode
  | binary _ _ _ _ hcode =>
    obtain ⟨count, rfl⟩ := draws_of_binaryCode hcode
    exact counts_still (inner_binaryCode hcode).serviceCalls_eq_zero
  | unary => exact counts_still (inner_unaryCode _ _ _).serviceCalls_eq_zero
  | convert => exact counts_still (inner_convertCode _ _ _).serviceCalls_eq_zero
  | branch _ hcopies =>
    obtain ⟨count, rfl⟩ := draws_of_edgeCode hcopies
    exact counts_still (inner_branchCode _ _ _ _ (inner_edgeCode hcopies)).serviceCalls_eq_zero
  | jump hcopies | label hcopies =>
    obtain ⟨count, rfl⟩ := draws_of_edgeCode hcopies
    exact counts_still ((inner_edgeCode hcopies).append ⟨rfl, rfl, rfl⟩).serviceCalls_eq_zero
  | callActual hcode => exact (counts_callActual _ _ _ _ _).result hcode
  | callVirtual hcode => exact (counts_callVirtual _ _ _ _).result hcode

theorem counts_bodyCode (index : Nat) (l : List Located) :
    Counts scope (bodyCode index l) := by
  induction l generalizing index with
  | nil => exact .pure rfl
  | cons s l ih =>
    refine (counts_statementCode index s.statement).bind fun n code hcode => (ih _).bind
      fun m following hfollowing => .pure ?_
    rw [serviceCalls_append, hcode, hfollowing, Nat.add_zero]

/-! ## Functions -/

/-- The number of calls that a stream comes with is that of the calls in its code, and its
constants are apart when those before it are. -/
theorem tallies_ofFunction {u : ClassUnit} {abi : Machine.Abi} {position : Nat} {f : Function}
    {strings interned : Assembly.StringTable} {p : Pseudo.Function}
    (h : ofFunction u abi position f strings = (.ok p, interned)) :
    p.serviceCalls = serviceCalls p.code ∧ (strings.texts.Nodup → interned.texts.Nodup) := by
  obtain ⟨scope, entry, body, state, hscope, hbody, rfl, rfl⟩ := ofFunction_eq_ok h
  obtain ⟨hnodup, calls, hcalls, hcode⟩ := (counts_bodyCode 0 f.body).result hbody
  obtain ⟨types, htypes⟩ := exists_types_of_scopeOf hscope
  obtain ⟨copies, -, -, hentry⟩ := scopeOf_eq_ok htypes hscope
  have hfront := (Entry.inner_ofFunction hentry).serviceCalls_eq_zero
  have hback : serviceCalls [.label (exitLabel position)] = 0 := rfl
  refine ⟨?_, hnodup⟩
  rw [serviceCalls_append, serviceCalls_append, hfront, hback, hcode, hcalls]
  simp

end Selection

end Jil
