/-
Jil.Proofs.WrittenNumbers — what the code of a statement reads, it finds written.

A number that code reads stands for the whole function, as those of typed
registers, of parameters and of the environment do (`Scope.Standing`), or has
been drawn since the statement began. What is drawn for a handle, an identifier
or a wide value is written where it is drawn: by the result of a service, by an
extension, or by a move. `Supplies` says both of code, together with what it
leaves of the state, and is put together piece by piece as the code is.

Numbers of local variables are the exception. They are drawn where a scope opens,
without code, and `getLocal` reads them whether or not anything was stored, so
nothing here speaks of statements that name a local variable.
-/
import Jil.Proofs.EdgeCopies
import Jil.Proofs.Refusals

namespace Jil

open Pseudo (Instr Operand Reg)

/-! ## Code -/

namespace Pseudo

/-- Some instruction writes the pseudo-register with this number. -/
def Writes (code : List Instr) (id : Nat) : Prop := ∃ i ∈ code, i.Defines id

/-- The labels that code jumps to satisfy `T`, and the numbers that it reads satisfy `K`. -/
def Within (T : String → Prop) (K : Nat → Prop) (code : List Instr) : Prop :=
  ∀ i ∈ code, (∀ name ∈ i.jumpTarget?, T name) ∧ ∀ p ∈ i.used, K p.id

variable {T : String → Prop} {K K' : Nat → Prop} {code rest : List Instr} {id : Nat}
  {i : Instr} {p : Reg}

theorem Writes.of_mem (hi : i ∈ code) (hp : p ∈ i.defined) : Writes code p.id :=
  ⟨i, hi, Instr.defines_iff.2 (List.mem_map_of_mem hp)⟩

theorem Writes.left (h : Writes code id) (rest : List Instr) : Writes (code ++ rest) id := by
  obtain ⟨i, hi, hid⟩ := h
  exact ⟨i, List.mem_append_left _ hi, hid⟩

theorem Writes.right (h : Writes rest id) (code : List Instr) : Writes (code ++ rest) id := by
  obtain ⟨i, hi, hid⟩ := h
  exact ⟨i, List.mem_append_right _ hi, hid⟩

/-- The last instruction of code writes. -/
theorem Writes.last (hp : p ∈ i.defined) (code : List Instr) : Writes (code ++ [i]) p.id :=
  (Writes.of_mem List.mem_cons_self hp).right code

namespace Within

theorem nil : Within T K [] := List.forall_mem_nil _

theorem append (h : Within T K code) (h' : Within T K rest) : Within T K (code ++ rest) :=
  List.forall_mem_append.2 ⟨h, h'⟩

theorem mono (h : Within T K code) (hK : ∀ id, K id → K' id) : Within T K' code :=
  fun i hi => ⟨(h i hi).1, fun p hp => hK p.id ((h i hi).2 p hp)⟩

/-- One instruction that is no jump. -/
theorem single (hjump : i.jumpTarget? = none) (hused : ∀ p ∈ i.used, K p.id) :
    Within T K [i] := by
  refine List.forall_mem_singleton.2 ⟨fun name hname => ?_, hused⟩
  rw [hjump] at hname
  cases hname

/-- One instruction that reads no pseudo-register. -/
theorem still (hjump : i.jumpTarget? = none) (hused : i.used = []) : Within T K [i] := by
  refine single hjump fun p hp => ?_
  rw [hused] at hp
  cases hp

/-- One instruction that reads one pseudo-register. -/
theorem reading (hjump : i.jumpTarget? = none) (hused : i.used = [p]) (hp : K p.id) :
    Within T K [i] := by
  refine single hjump fun q hq => ?_
  rw [hused, List.mem_singleton] at hq
  exact hq ▸ hp

/-- One jump. -/
theorem jump {name : String} (hjump : i.jumpTarget? = some name) (hused : i.used = [])
    (hname : T name) : Within T K [i] := by
  refine List.forall_mem_singleton.2 ⟨fun other hother => ?_, fun p hp => ?_⟩
  · rw [hjump] at hother
    cases hother
    exact hname
  · rw [hused] at hp
    cases hp

theorem cons (hi : Within T K [i]) (h : Within T K code) : Within T K (i :: code) :=
  hi.append h

end Within

end Pseudo

open Pseudo (Within Writes bind_eq_ok ite_eq_ok)

/-! ## Calls -/

namespace Native

variable {abi : Machine.Abi} {env : Reg} {origin : Origin} {T : String → Prop} {K : Nat → Prop}

/-- The number that an operand reads satisfies `K`. -/
def Argument.Within (K : Nat → Prop) : Argument → Prop
  | .value p _ => K p.id
  | .address _ => True

theorem within_marshal {dest : Machine.Reg} {a : Argument} {i : Instr} (ha : a.Within K)
    (h : marshal origin dest a = .ok i) : Within T K [i] := by
  cases a with
  | address symbol =>
    cases h
    exact .still rfl rfl
  | value p type =>
    unfold marshal at h
    rcases ite_eq_ok.1 h with ⟨-, h⟩ | ⟨-, h⟩
    · cases h
    · rcases ite_eq_ok.1 h with ⟨-, h⟩
        | ⟨-, h⟩ <;> cases h <;> exact .reading (p := p) rfl rfl ha

theorem within_andThen {s rest : Sequence} (hs : Within T K s.code)
    (hrest : Within T K rest.code) :
    Within T K (s.andThen rest).code := by
  unfold Sequence.andThen
  split
  · exact hs.append hrest
  · exact hs

theorem within_loadOperands {args : List Argument} (hargs : ∀ a ∈ args, a.Within K)
    (position : Nat) :
    Within T K (loadOperands abi origin position args).code := by
  induction args generalizing position with
  | nil => exact .nil
  | cons a args ih =>
    obtain ⟨ha, hargs⟩ := List.forall_mem_cons.1 hargs
    rw [loadOperands]
    split
    · next i hi =>
      obtain ⟨r, -, hi⟩ := bind_eq_ok.1 hi
      exact within_andThen (within_marshal ha hi) (ih hargs _)
    · exact .nil

theorem within_loadArguments {args : List Argument} (callee : String) (henv : K env.id)
    (hargs : ∀ a ∈ args, a.Within K) :
    Within T K (loadArguments abi env callee args origin).code := by
  unfold loadArguments
  split
  · exact .nil
  · split
    · exact within_andThen (.reading (p := env) rfl rfl henv) (within_loadOperands hargs _)
    · exact .nil

theorem within_takeResult (result : Option Reg) : Within T K (takeResult abi result) := by
  cases result with
  | none => exact .nil
  | some p => exact .still rfl rfl

theorem within_invoke (svc : Service) (henv : K env.id) : Within T K (invoke abi env svc) := by
  have hcount : Within T K (if svc.isVariadic && abi.countsVectorArguments then
      [Instr.mov .long (.imm 0) (.fixed .rax)] else []) := by
    split
    · exact .still rfl rfl
    · exact .nil
  exact (Within.append (.reading (p := env) rfl rfl henv) hcount).append (.still rfl rfl)

theorem within_serviceCall {svc : Service} {args : List Argument} (result : Option Reg)
    (henv : K env.id) (hargs : ∀ a ∈ args, a.Within K) :
    Within T K (serviceCall abi env svc args result origin).code :=
  within_andThen (within_loadArguments _ henv hargs)
    ((within_invoke svc henv).append (within_takeResult _))

theorem within_directCall {symbol : String} {args : List Argument} (result : Option Reg)
    (henv : K env.id) (hargs : ∀ a ∈ args, a.Within K) :
    Within T K (directCall abi env symbol args result origin).code :=
  within_andThen (within_loadArguments _ henv hargs)
    (.append (.still rfl rfl) (within_takeResult _))

/-- A service that returns a value writes the result. -/
theorem writes_serviceCall {svc : Service} {args : List Argument} {p : Reg}
    (h : (serviceCall abi env svc args (some p) origin).outcome = .ok ())
    (hreturns : svc.returnsValue = true) :
    Writes (serviceCall abi env svc args (some p) origin).code p.id := by
  obtain ⟨-, -, hcode⟩ := Sequence.andThen_outcome h
  unfold serviceCall
  rw [hcode, if_pos hreturns]
  exact (Writes.last (i := .mov p.size (.fixed abi.returnRegister) (.pseudo p))
    List.mem_cons_self _).right _

/-- A function of the same unit writes the result. -/
theorem writes_directCall {symbol : String} {args : List Argument} {p : Reg}
    (h : (directCall abi env symbol args (some p) origin).outcome = .ok ()) :
    Writes (directCall abi env symbol args (some p) origin).code p.id := by
  obtain ⟨-, -, hcode⟩ := Sequence.andThen_outcome h
  unfold directCall
  rw [hcode]
  exact (Writes.last (i := .mov p.size (.fixed abi.returnRegister) (.pseudo p))
    List.mem_cons_self _).right _

/-- A method that does not return `void` is called by a service that returns a value. -/
theorem returnsValue_of_not_isVoid {t : Ty} (h : t.isVoid = false) :
    (Service.callMethod (.ofTy t)).returnsValue = true
      ∧ (Service.callStaticMethod (.ofTy t)).returnsValue = true := by
  cases t with
  | void => cases h
  | _ => exact ⟨rfl, rfl⟩

end Native

namespace Selection

open Native (Argument)

/-! ## Numbers that may be read -/

/-- The numbers that stand for a whole function: those of the registers with a type, of the
environment and of the parameters. -/
def Scope.Standing (scope : Scope) (id : Nat) : Prop :=
  (∃ r t, scope.types.get? r = some t ∧ r.index = id)
    ∨ (environment scope.function).id = id
    ∨ ∃ name p, scope.params.get? name = some p ∧ p.id = id

/-- The numbers that stand for the whole function, and those drawn behind `first`. -/
def Scope.Known (scope : Scope) (first last id : Nat) : Prop :=
  scope.Standing id ∨ first < id ∧ id ≤ last

/-- The labels that code may jump to: those that the statements place, and the exit. -/
def Scope.Target (scope : Scope) (name : String) : Prop :=
  name ∈ bodyLabels scope 0 scope.function.statements ∨ name = exitLabel scope.position

/-- What an activity emits: the local variables are the same, the code reads numbers that stand
or were drawn behind `first`, and what is drawn is written. -/
structure Supplies (scope : Scope) (first : Nat) (st : State) (code : List Instr)
    (after : State) : Prop where
  locals : after.locals = st.locals
  drawn : st.drawn ≤ after.drawn
  within : Within scope.Target (scope.Known first after.drawn) code
  writes : ∀ id, st.drawn < id → id ≤ after.drawn → Writes code id

variable {scope : Scope} {first : Nat} {st mid after : State} {code rest : List Instr}
  {origin : Origin}

theorem Scope.Known.mono {last last' id : Nat} (h : scope.Known first last id)
    (hle : last ≤ last') :
    scope.Known first last' id :=
  h.imp_right fun ⟨hlt, hid⟩ => ⟨hlt, Nat.le_trans hid hle⟩

theorem argument_known_mono {a : Argument} {last last' : Nat}
    (h : a.Within (scope.Known first last)) (hle : last ≤ last') :
    a.Within (scope.Known first last') := by
  cases a with
  | address symbol => trivial
  | value p type => exact Scope.Known.mono h hle

theorem known_of_register {last : Nat} {r : Register} {t : Ty}
    (h : scope.types.get? r = some t) :
    scope.Known first last r.index :=
  .inl (.inl ⟨r, t, h, rfl⟩)

theorem known_environment {last : Nat} :
    scope.Known first last (environment scope.function).id :=
  .inl (.inr (.inl rfl))

theorem known_of_parameter {last : Nat} {name : String} {p : Reg}
    (h : scope.params.get? name = some p) : scope.Known first last p.id :=
  .inl (.inr (.inr ⟨name, p, h, rfl⟩))

namespace Supplies

theorem append (h : Supplies scope first st code mid)
    (h' : Supplies scope first mid rest after) :
    Supplies scope first st (code ++ rest) after where
  locals := h'.locals.trans h.locals
  drawn := Nat.le_trans h.drawn h'.drawn
  within := (h.within.mono fun _ hid => hid.mono h'.drawn).append h'.within
  writes id hlt hle := by
    by_cases hmid : id ≤ mid.drawn
    · exact (h.writes id hlt hmid).left rest
    · exact (h'.writes id (Nat.lt_of_not_le hmid) hle).right code

/-- Code for which nothing is drawn. -/
theorem of_within (h : Within scope.Target (scope.Known first st.drawn) code)
    (hdrawn : after.drawn = st.drawn) (hlocals : after.locals = st.locals) :
    Supplies scope first st code after where
  locals := hlocals
  drawn := Nat.le_of_eq hdrawn.symm
  within := by rwa [hdrawn]
  writes id hlt hle :=
  absurd (Nat.lt_of_lt_of_le hlt hle) (by rw [hdrawn]; exact Nat.lt_irrefl _)

/-- Code in the state that there is. -/
theorem still (h : Within scope.Target (scope.Known first st.drawn) code) :
    Supplies scope first st code st :=
  of_within h rfl rfl

theorem nil : Supplies scope first st [] st := still .nil

/-- Code behind the drawing of one number, which it writes. -/
theorem of_draw (h : Within scope.Target (scope.Known first (st.drawn + 1)) code)
    (hwrites : Writes code (st.drawn + 1)) (hdrawn : after.drawn = st.drawn + 1)
    (hlocals : after.locals = st.locals) : Supplies scope first st code after where
  locals := hlocals
  drawn := by omega
  within := by rwa [hdrawn]
  writes id hlt hle := by
    obtain rfl : id = st.drawn + 1 := by omega
    exact hwrites

end Supplies

/-! ## Services -/

theorem supplies_service {svc : Native.Service} {args : List Argument} {result : Option Reg}
    (h : Yields scope (service svc args result origin) st code after)
    (hargs : ∀ a ∈ args, a.Within (scope.Known first st.drawn)) :
    Supplies scope first st code after := by
  obtain ⟨-, rfl, rfl⟩ := yields_service h
  exact .of_within (Native.within_serviceCall _ known_environment hargs) rfl rfl

theorem writes_service {svc : Native.Service} {args : List Argument} {p : Reg}
    (h : Yields scope (service svc args (some p) origin) st code after)
    (hreturns : svc.returnsValue = true) : Writes code p.id := by
  obtain ⟨hok, rfl, -⟩ := yields_service h
  exact Native.writes_serviceCall hok hreturns

/-- A service of which the result is drawn for it. -/
theorem supplies_handle {svc : Native.Service} {args : List Argument}
    {strings : Assembly.StringTable}
    (h : Yields scope (service svc args (some ⟨st.drawn + 1, .quad⟩) origin)
      { st with drawn := st.drawn + 1, strings := strings } code after)
    (hreturns : svc.returnsValue = true) (hfirst : first ≤ st.drawn)
    (hargs : ∀ a ∈ args, a.Within (scope.Known first st.drawn)) :
    Supplies scope first st code after ∧ scope.Known first after.drawn (st.drawn + 1) := by
  have hwrites : Writes code (st.drawn + 1) := writes_service h hreturns
  obtain ⟨-, rfl, rfl⟩ := yields_service h
  have hmore : ∀ a ∈ args, a.Within (scope.Known first (st.drawn + 1)) :=
    fun a ha => argument_known_mono (hargs a ha) (Nat.le_succ _)
  exact ⟨.of_draw (Native.within_serviceCall _ known_environment hmore) hwrites rfl rfl,
    .inr ⟨Nat.lt_succ_of_le hfirst, Nat.le_refl _⟩⟩

/-- A handle of a class. -/
theorem supplies_findClass {name : String} {handle : Reg} (hfirst : first ≤ st.drawn)
    (h : Yields scope (findClass name origin) st (handle, code) after) :
    Supplies scope first st code after ∧ scope.Known first after.drawn handle.id := by
  obtain ⟨label, rfl, strings, hcode⟩ := yields_findClass h
  exact supplies_handle hcode rfl hfirst (by simp [Argument.Within])

/-- A handle of the class of an object. -/
theorem supplies_findClassOf {object handle : Reg} (hfirst : first ≤ st.drawn)
    (hobject : scope.Known first st.drawn object.id)
    (h : Yields scope (findClassOf object origin) st (handle, code) after) :
    Supplies scope first st code after ∧ scope.Known first after.drawn handle.id := by
  obtain ⟨rfl, strings, hcode⟩ := yields_findClassOf h
  exact supplies_handle hcode rfl hfirst (by simpa [Argument.Within] using hobject)

/-- An identifier of a member. -/
theorem supplies_findMember {svc : Native.Service} {name descriptor : String} {handle id : Reg}
    (hreturns : svc.returnsValue = true) (hfirst : first ≤ st.drawn)
    (hhandle : scope.Known first st.drawn handle.id)
    (h : Yields scope (findMember svc handle name descriptor origin) st (id, code) after) :
    Supplies scope first st code after ∧ scope.Known first after.drawn id.id := by
  obtain ⟨label, label', rfl, strings, hcode⟩ := yields_findMember h
  exact supplies_handle hcode hreturns hfirst (by simpa [Argument.Within] using hhandle)

/-! ## Members -/

/-- A member of another class. -/
theorem supplies_remote {find : Select (Reg × List Instr)} {lookup svc : Native.Service}
    {name descriptor : String} {object result : Option Reg} {more : List Argument}
    (h : Yields scope (remote find lookup name descriptor svc object more result origin)
      st code after) (hlookup : lookup.returnsValue = true)
    (hfind : ∀ {handle before mid}, Yields scope find st (handle, before) mid →
      Supplies scope st.drawn st before mid ∧ scope.Known st.drawn mid.drawn handle.id)
    (hobject : ∀ p, object = some p → ∀ last, scope.Known st.drawn last p.id)
    (hmore : ∀ a ∈ more, ∀ last, a.Within (scope.Known st.drawn last)) :
    Supplies scope st.drawn st code after
      ∧ ∀ p, result = some p → svc.returnsValue = true → Writes code p.id := by
  obtain ⟨handle, before, mid, id, between, mid', last, hclass, hid, hlast, rfl⟩ :=
    yields_remote.1 h
  obtain ⟨hclass, hhandle⟩ := hfind hclass
  obtain ⟨hmember, hid'⟩ := supplies_findMember hlookup hclass.drawn hhandle hid
  refine ⟨(hclass.append hmember).append (supplies_service hlast (List.forall_mem_cons.2
    ⟨?_, List.forall_mem_cons.2 ⟨hid', fun a ha => hmore a ha _⟩⟩)), ?_⟩
  · cases object with
    | some p => exact hobject p rfl _
    | none => exact hhandle.mono hmember.drawn
  · rintro p rfl hreturns
    exact (writes_service hlast hreturns).right _

/-- A place in memory that is read, or of which the address is taken. -/
theorem supplies_readPlace {place : Operand} {p : Reg} {address : Bool}
    (hplace : ∀ q ∈ place.readEffects.filterMap Pseudo.Effect.used?, scope.Known first
      st.drawn q.id) :
    Supplies scope first st [readPlace address place p] st
      ∧ Writes [readPlace address place p] p.id := by
  constructor
  · refine .still (.single (by cases address <;> rfl) fun q hq => hplace q ?_)
    cases address <;>
      simpa [readPlace, Instr.used, Instr.effects, Instr.mov, Operand.writeEffects,
        Pseudo.Effect.used?, Machine.AluOp.readsDestination,
        Machine.AluOp.writesDestination] using hq
  · refine .of_mem List.mem_cons_self ?_
    cases address <;>
      simp [readPlace, Instr.defined, Instr.effects, Instr.mov, Operand.writeEffects,
        Pseudo.Effect.defined?, Machine.AluOp.readsDestination,
        Machine.AluOp.writesDestination]

theorem supplies_getStatic {owner field : String} {result : Register} {address : Bool}
    (h : Yields scope (getStatic owner field result address origin) st code after) :
    Supplies scope st.drawn st code after ∧ Writes code result.index := by
  obtain ⟨t, ht, ⟨_, ⟨-, offset, -, rfl⟩, rfl, rfl⟩ | ⟨-, -, type, -, h⟩⟩ := yields_getStatic h
  · exact supplies_readPlace (by simp [Operand.readEffects])
  · obtain ⟨hall, hresult⟩ := supplies_remote h rfl (supplies_findClass (Nat.le_refl _))
      (by rintro p ⟨⟩) (List.forall_mem_nil _)
    exact ⟨hall, hresult _ rfl rfl⟩

theorem supplies_putStatic {owner field : String} {src : Register}
    (h : Yields scope (putStatic owner field src origin) st code after) :
    Supplies scope st.drawn st code after := by
  obtain ⟨t, ht, ⟨_, ⟨-, offset, -, rfl⟩, rfl, rfl⟩ | ⟨-, type, -, h⟩⟩ := yields_putStatic h
  · exact .still (.reading (p := ⟨src.index, sizeOf t⟩) rfl rfl (known_of_register ht))
  · exact (supplies_remote h rfl (supplies_findClass (Nat.le_refl _)) (by rintro p ⟨⟩)
      (List.forall_mem_singleton.2 fun _ => known_of_register ht)).1

theorem supplies_getField {object : Register} {field : String} {result : Register}
    {address : Bool}
    (h : Yields scope (getField object field result address origin) st code after) :
    Supplies scope st.drawn st code after ∧ Writes code result.index := by
  obtain ⟨owner, t, hobject, ht, hcode⟩ := yields_getField h
  have hknown : ∀ {first last}, scope.Known first last object.index :=
    known_of_register hobject
  obtain ⟨_, ⟨-, offset, -, rfl⟩, rfl, rfl⟩ | ⟨-, -, type, -, h⟩ := hcode
  · exact supplies_readPlace (by simpa [Operand.readEffects, Pseudo.Effect.used?] using hknown)
  · obtain ⟨hall, hresult⟩ :=
      supplies_remote h rfl (supplies_findClassOf (Nat.le_refl _) hknown)
      (by rintro p ⟨⟩ last; exact hknown) (List.forall_mem_nil _)
    exact ⟨hall, hresult _ rfl rfl⟩

theorem supplies_putField {object : Register} {field : String} {src : Register}
    (h : Yields scope (putField object field src origin) st code after) :
    Supplies scope st.drawn st code after := by
  obtain ⟨owner, t, hobject, ht, hcode⟩ := yields_putField h
  have hknown : ∀ {first last}, scope.Known first last object.index :=
    known_of_register hobject
  have hvalue : ∀ {first last}, scope.Known first last src.index := known_of_register ht
  obtain ⟨_, ⟨-, offset, -, rfl⟩, rfl, rfl⟩ | ⟨-, type, -, h⟩ := hcode
  · exact .still
      (.single rfl (List.forall_mem_cons.2 ⟨hvalue, List.forall_mem_singleton.2 hknown⟩))
  · exact (supplies_remote h rfl (supplies_findClassOf (Nat.le_refl _) hknown)
      (by rintro p ⟨⟩ last; exact hknown) (List.forall_mem_singleton.2 fun _ => hvalue)).1

/-! ## Methods -/

/-- Operands are registers. -/
theorem within_of_operands {args : List Register} {l : List Argument}
    (h : args.mapM scope.value? = some l) :
    ∀ a ∈ l, ∀ last, a.Within (scope.Known first last) := by
  intro a ha last
  obtain ⟨r, -, t, ht, rfl⟩ := exists_of_mem_operands h ha
  exact known_of_register ht

/-- A result has the number of its register. -/
theorem exists_of_results {result : Option Register} {r : Option Reg}
    (h : scope.Results result r) {x : Register} (hx : result = some x) :
    ∃ p, r = some p ∧ p.id = x.index := by
  cases h with
  | unwanted => cases hx
  | wanted ht =>
    cases hx
    exact ⟨_, rfl, rfl⟩

theorem known_of_receives {object : Option Register} {kind : MemberKind} {r : Option Reg}
    (h : scope.Receives kind object r) :
    ∀ p, r = some p → ∀ last, scope.Known first last p.id := by
  rintro p rfl last
  cases h with
  | written ht => exact known_of_register ht
  | own hp => exact known_of_parameter hp

theorem supplies_callOwn {target : ResolvedMethod} {receiver : Option Reg}
    {owner method : String} {args : List Register} {types : List Ty} {result : Option Reg}
    (h : Yields scope (callOwn target receiver owner method args types result origin)
      st code after)
    (hreceiver : ∀ p, receiver = some p → ∀ last, scope.Known st.drawn last p.id) :
    Supplies scope st.drawn st code after ∧ ∀ p, result = some p → Writes code p.id := by
  obtain ⟨operand, before, l, f, hfirst, hl, -, hok, rfl⟩ := yields_callOwn h
  have hbefore : Supplies scope st.drawn st before after
      ∧ scope.Known st.drawn after.drawn operand.id := by
    obtain ⟨rfl, rfl, rfl⟩ | ⟨-, hclass⟩ := hfirst
    · exact ⟨.nil, hreceiver operand rfl _⟩
    · exact supplies_findClass (Nat.le_refl _) hclass
  refine ⟨hbefore.1.append (.still (Native.within_directCall _ known_environment
    (List.forall_mem_cons.2 ⟨hbefore.2, fun a ha => within_of_operands hl a ha _⟩))), ?_⟩
  rintro p rfl
  exact (Native.writes_directCall hok).right _

theorem supplies_callOther {target : ResolvedMethod} {receiver : Option Reg} {method : String}
    {args : List Register} {types : List Ty} {result : Option Reg}
    (h : Yields scope (callOther target receiver method args types result origin)
      st code after)
    (hreceiver : ∀ p, receiver = some p → ∀ last, scope.Known st.drawn last p.id) :
    Supplies scope st.drawn st code after
      ∧ ∀ p, result = some p → target.info.returns.isVoid = false → Writes code p.id := by
  obtain ⟨l, hl, h⟩ := yields_callOther h
  obtain ⟨hall, hresult⟩ := supplies_remote h (by cases receiver <;> rfl)
    (supplies_findClass (Nat.le_refl _)) hreceiver (within_of_operands hl)
  refine ⟨hall, fun q hq hvoid => hresult q hq ?_⟩
  cases receiver with
  | some p => exact (Native.returnsValue_of_not_isVoid hvoid).1
  | none => exact (Native.returnsValue_of_not_isVoid hvoid).2

end Selection

/-- A call of which the result is wanted is one of a method that returns a value. -/
def Statement.Fruitful (u : ClassUnit) (types : Table Register Ty) (origin : Origin) :
    Statement → Prop
  | .callActual _ owner method args (some _) => ∀ argTypes target,
    args.mapM types.get? = some argTypes → u.resolveMethod owner method argTypes origin
      = .ok target →
      target.info.returns.isVoid = false
  | .callVirtual object method args (some _) => ∀ owner argTypes target,
    types.get? object = some (.classRef owner) → args.mapM types.get? = some argTypes →
      u.resolveMethod owner method argTypes origin = .ok target →
        target.info.returns.isVoid = false
  | _ => True

namespace Selection

variable {scope : Scope} {first : Nat} {st after : State} {code : List Instr}
  {origin : Origin}

theorem supplies_callActual {object : Option Register} {owner method : String}
    {args : List Register} {result : Option Register}
    (hfruitful : (Statement.callActual object owner method args result).Fruitful
      scope.unit scope.types
      origin)
    (h : Yields scope (callActual object owner method args result origin) st code after) :
    Supplies scope st.drawn st code after ∧ ∀ r, result = some r → Writes code r.index := by
  obtain ⟨types, target, r, receiver, htypes, htarget, -, hr, hreceiver, hcode⟩ :=
    yields_callActual h
  have hknown : ∀ p, receiver = some p → ∀ last, scope.Known st.drawn last p.id :=
    known_of_receives hreceiver
  obtain ⟨-, h⟩ | ⟨-, h⟩ := hcode
  · obtain ⟨hsupplies, hresult⟩ := supplies_callOwn h hknown
    refine ⟨hsupplies, fun q hq => ?_⟩
    obtain ⟨p, hp, hid⟩ := exists_of_results hr hq
    exact hid ▸ hresult p hp
  · obtain ⟨hsupplies, hresult⟩ := supplies_callOther h hknown
    refine ⟨hsupplies, ?_⟩
    rintro q rfl
    obtain ⟨p, hp, hid⟩ := exists_of_results hr rfl
    exact hid ▸ hresult p hp (hfruitful types target htypes htarget)

theorem supplies_callVirtual {object : Register} {method : String} {args : List Register}
    {result : Option Register}
    (hfruitful : (Statement.callVirtual object method args result).Fruitful
      scope.unit scope.types
      origin) (h : Yields scope (callVirtual object method args result origin) st code after) :
    Supplies scope st.drawn st code after ∧ ∀ r, result = some r → Writes code r.index := by
  obtain ⟨owner, types, target, r, l, hobject, htypes, htarget, -, hr, hl, h⟩ :=
    yields_callVirtual h
  have hknown : ∀ {first last}, scope.Known first last object.index :=
    known_of_register hobject
  obtain ⟨hall, hresult⟩ := supplies_remote h rfl (supplies_findClassOf (Nat.le_refl _) hknown)
    (by rintro p ⟨⟩ last; exact hknown) (within_of_operands hl)
  refine ⟨hall, ?_⟩
  rintro q rfl
  obtain ⟨p, hp, hid⟩ := exists_of_results hr rfl
  have hvoid := hfruitful owner types target hobject htypes htarget
  exact hid ▸ hresult p hp (Native.returnsValue_of_not_isVoid hvoid).1

/-! ## Values -/

theorem within_binaryForm {T : String → Prop} {K : Nat → Prop} {form : BinaryForm}
    {size : Machine.Size} {left right result : Reg} (hleft : K left.id) (hright : K right.id)
    (hresult : K result.id) : Within T K (form.code size left right result) := by
  have hmove : Within T K [move size left result] := .reading (p := left) rfl rfl hleft
  have hboth : ∀ p ∈ [right, result], K p.id := by simp [hright, hresult]
  cases form with
  | plain op =>
    refine hmove.append (.single rfl fun p hp => ?_)
    have hused :
        (Instr.alu op size (.pseudo right) (.pseudo result)).used ⊆ [right, result] := by
      cases op <;> simp [Instr.used, Instr.effects, Operand.readEffects, Operand.writeEffects,
        Pseudo.Effect.used?, Machine.AluOp.readsDestination, Machine.AluOp.writesDestination]
    exact hboth p (hused hp)
  | multiply => exact hmove.append (.single rfl hboth)
  | divide part =>
    exact .cons (.reading (p := left) rfl rfl hleft) (.cons (.still rfl rfl)
      (.cons (.reading (p := right) rfl rfl hright) (.still rfl rfl)))
  | shift op =>
    exact .cons (.reading (p := right) rfl rfl hright)
      (hmove.append (.reading (p := result) rfl rfl hresult))

theorem writes_binaryForm (form : BinaryForm) (size : Machine.Size) (left right result : Reg) :
    Writes (form.code size left right result) result.id := by
  have hmove : Writes [move size left result] result.id :=
    .of_mem List.mem_cons_self List.mem_cons_self
  cases form with
  | plain op | multiply => exact hmove.left [_]
  | divide part =>
    exact Writes.last (i := .mov size (.fixed part) (.pseudo result))
      List.mem_cons_self [_, _, _]
  | shift op => exact (hmove.left [_]).right [_]

theorem supplies_widen {value wide : Reg} {type : Ty} (hfirst : first ≤ st.drawn)
    (hvalue : ∀ last, st.drawn ≤ last → scope.Known first last value.id)
    (h : Yields scope (widen value type) st (wide, code) after) :
    Supplies scope first st code after
      ∧ ∀ last, after.drawn ≤ last → scope.Known first last wide.id := by
  obtain ⟨-, rfl, rfl, rfl⟩ | ⟨-, rfl, rfl, rfl⟩ := yields_widen.1 h
  · exact ⟨.nil, hvalue⟩
  · refine ⟨.of_draw (.reading (p := value) rfl rfl (hvalue _ (Nat.le_succ _)))
      (.of_mem (p := ⟨st.drawn + 1, .long⟩) List.mem_cons_self List.mem_cons_self) rfl rfl, ?_⟩
    exact fun last hlast => .inr ⟨Nat.lt_succ_of_le hfirst, hlast⟩

theorem supplies_binaryCode {op : BinaryOp} {type : Ty} {left right result : Reg}
    (hleft : scope.Standing left.id) (hright : scope.Standing right.id)
    (hresult : scope.Standing result.id)
    (h : Yields scope (binaryCode op type left right result) st code after) :
    Supplies scope st.drawn st code after ∧ Writes code result.id := by
  obtain ⟨-, rfl, rfl⟩ | ⟨-, -, wideLeft, before, mid, wideRight, between, last, hwide,
    hsecond, rfl,
    rfl⟩ := yields_binaryCode.1 h
  · exact ⟨.still (within_binaryForm (.inl hleft) (.inl hright) (.inl hresult)),
      writes_binaryForm _ _ _ _ _⟩
  obtain ⟨hbefore, hknown⟩ := supplies_widen (Nat.le_refl _) (fun _ _ => .inl hleft) hwide
  have hbetween : Supplies scope st.drawn mid between last
      ∧ ∀ number, last.drawn ≤ number → scope.Known st.drawn number wideRight.id := by
    obtain ⟨-, rfl, rfl, rfl⟩ | ⟨-, hsecond⟩ := hsecond
    · exact ⟨.nil, fun _ _ => .inl hright⟩
    · exact supplies_widen hbefore.drawn (fun _ _ => .inl hright) hsecond
  obtain ⟨hbetween, hknown'⟩ := hbetween
  have hoperands := hbefore.append hbetween
  have hdrawn : scope.Known st.drawn (last.drawn + 1) (last.drawn + 1) :=
    .inr ⟨Nat.lt_succ_of_le hoperands.drawn, Nat.le_refl _⟩
  have hform : Within scope.Target (scope.Known st.drawn (last.drawn + 1))
      ((formOf op).code .long wideLeft wideRight ⟨last.drawn + 1, .long⟩) :=
    within_binaryForm (hknown _ (Nat.le_succ_of_le hbetween.drawn))
      (hknown' _ (Nat.le_succ _)) hdrawn
  have hcut : Within scope.Target (scope.Known st.drawn (last.drawn + 1))
      [move result.size ⟨last.drawn + 1, .long⟩ result] :=
    .reading (p := ⟨last.drawn + 1, .long⟩) rfl rfl hdrawn
  refine ⟨?_, Writes.last (i := move result.size _ result) List.mem_cons_self _⟩
  rw [List.append_assoc]
  exact hoperands.append
    (.of_draw (hform.append hcut) ((writes_binaryForm _ _ _ _ _).left _) rfl rfl)

theorem within_unaryCode {T : String → Prop} {K : Nat → Prop} {op : UnaryOp} {src result : Reg}
    (hsrc : K src.id) (hresult : K result.id) : Within T K (unaryCode op src result) := by
  refine .cons (.reading (p := src) rfl rfl hsrc) ?_
  cases op <;> exact .reading (p := result) rfl rfl hresult

theorem writes_unaryCode (op : UnaryOp) (src result : Reg) :
    Writes (unaryCode op src result) result.id :=
  .of_mem (i := move result.size src result) List.mem_cons_self List.mem_cons_self

theorem within_convertCode {T : String → Prop} {K : Nat → Prop} {source : Ty}
    {src result : Reg} (hsrc : K src.id) : Within T K (convertCode source src result) := by
  unfold convertCode
  split <;> exact .reading (p := src) rfl rfl hsrc

theorem writes_convertCode (source : Ty) (src result : Reg) :
    Writes (convertCode source src result) result.id := by
  unfold convertCode
  split <;> exact .of_mem List.mem_cons_self List.mem_cons_self

/-! ## Merges -/

/-- Numbers are drawn for the moved values, and for nothing else. -/
theorem exists_mem_stage {moves : List (Reg × Reg)} {drawn id : Nat} (hlt : drawn < id)
    (hle : id ≤ drawn + moves.length) : ∃ m ∈ stage drawn moves, m.2.1.id = id := by
  induction moves generalizing drawn with
  | nil => exact absurd hlt (Nat.not_lt_of_le hle)
  | cons m moves ih =>
    rw [List.length_cons] at hle
    by_cases hid : id = drawn + 1
    · exact ⟨_, List.mem_cons_self, hid.symm⟩
    · obtain ⟨m', hm', heq⟩ := ih (Nat.lt_of_le_of_ne hlt (Ne.symm hid)) (by omega)
      exact ⟨m', List.mem_cons_of_mem _ hm', heq⟩

theorem supplies_moveAll {moves : List (Reg × Reg)}
    (hmoves : ∀ m ∈ moves, scope.Standing m.1.id)
    (h : Yields scope (moveAll moves) st code after) :
    Supplies scope st.drawn st code after ∧ ∀ m ∈ moves, Writes code m.2.id := by
  obtain ⟨src, dest, rfl, rfl, rfl⟩ | ⟨-, rfl, rfl⟩ := yields_moveAll.1 h
  · refine ⟨.still (.reading (p := src) rfl rfl (.inl (hmoves _ List.mem_cons_self))),
      fun m hm => ?_⟩
    obtain rfl := List.mem_singleton.1 hm
    exact .of_mem List.mem_cons_self List.mem_cons_self
  · have hpasses := passes_stage st.drawn moves
    refine ⟨⟨rfl, Nat.le_add_right _ _, .append ?_ ?_, fun id hlt hid => ?_⟩, fun m hm => ?_⟩
    · intro i hi
      obtain ⟨m, hm, rfl⟩ := List.mem_map.1 hi
      have hmem : (m.1, m.2.2) ∈ (stage st.drawn moves).map fun m => (m.1, m.2.2) :=
        List.mem_map.2 ⟨m, hm, rfl⟩
      rw [hpasses.ends] at hmem
      exact ⟨nofun, List.forall_mem_singleton.2 (.inl (hmoves _ hmem))⟩
    · intro i hi
      obtain ⟨m, hm, rfl⟩ := List.mem_map.1 hi
      exact ⟨nofun, List.forall_mem_singleton.2 (.inr (hpasses.drawn m hm))⟩
    · obtain ⟨m, hm, rfl⟩ := exists_mem_stage hlt hid
      exact (Writes.of_mem (List.mem_map.2 ⟨m, hm, rfl⟩) List.mem_cons_self).left _
    · rw [← hpasses.ends] at hm
      obtain ⟨m', hm', rfl⟩ := List.mem_map.1 hm
      exact (Writes.of_mem (List.mem_map.2 ⟨m', hm', rfl⟩) List.mem_cons_self).right _

/-- The copies of an edge write the results. -/
theorem supplies_edgeCode {edge : Nat}
    (h : Yields scope (edgeCode edge origin) st code after) :
    Supplies scope st.drawn st code after
    ∧ ∀ c ∈ scope.copiesAt edge, Writes code c.dest.index := by
  obtain ⟨moves, hmoves, h⟩ := yields_edgeCode.1 h
  obtain ⟨hforth, hback⟩ := Pseudo.exists_of_mapM_eq_some hmoves
  obtain ⟨hsupplies, hwrites⟩ := supplies_moveAll (fun m hm => by
    obtain ⟨c, -, hmove⟩ := hback m hm
    obtain ⟨t, u, ht, -, rfl⟩ := Scope.move?_eq_some.1 hmove
    exact .inl ⟨c.src, t, ht, rfl⟩) h
  refine ⟨hsupplies, fun c hc => ?_⟩
  obtain ⟨m, hm, hmove⟩ := hforth c hc
  obtain ⟨t, u, -, -, rfl⟩ := Scope.move?_eq_some.1 hmove
  exact hwrites _ hm

/-- A branch reads its condition, and jumps to its target or to the label behind its copies. -/
theorem supplies_branchCode {condition : Reg} {expected : Bool} {target skip : String}
    {copies : List Instr} (hcondition : scope.Standing condition.id)
    (htarget : scope.Target target) (hskip : copies ≠ [] → scope.Target skip)
    (h : Supplies scope first st copies after) :
    Supplies scope first st (branchCode condition expected target skip copies) after := by
  have htest : ∀ {K : Nat → Prop}, K condition.id →
      Within scope.Target K [.alu .cmp .byte (.imm 0) (.pseudo condition)] :=
    fun hK => .reading (p := condition) rfl rfl hK
  cases copies with
  | nil =>
    have hjump :
        Supplies scope first after (branchCode condition expected target skip []) after := by
      refine .still ?_
      cases expected <;> exact .cons (htest (.inl hcondition)) (.jump rfl rfl htarget)
    exact h.append hjump
  | cons i copies =>
    have hskip := hskip (List.cons_ne_nil _ _)
    have hend : Supplies scope first after [.jmp target, .label skip] after :=
      .still (.cons (.jump rfl rfl htarget) (.still rfl rfl))
    cases expected <;>
      exact (Supplies.append (.still (.cons (htest (.inl hcondition)) (.jump rfl rfl hskip)))
        h).append hend

theorem writes_branchCode {condition : Reg} {expected : Bool} {target skip : String}
    {copies : List Instr} {id : Nat} (h : Writes copies id) :
    Writes (branchCode condition expected target skip copies) id := by
  cases copies with
  | nil =>
    obtain ⟨i, hi, -⟩ := h
    cases hi
  | cons i copies => cases expected <;> exact (h.right [_, _]).left [_, _]

end Selection

end Jil
