/-
Jil.Proofs.MemberCode — what selecting gives for fields and calls.

Each activity that reaches a member has one lemma that says all that it can
give, so that no proof about its code takes it apart again. A member of the class
itself is reached by one instruction or by a direct call. A member of another
class is reached by `remote`: a handle of the class, an identifier that is
looked up in it, and the service that uses the two.
-/
import Jil.Proofs.Flow
import Jil.Proofs.Selecting

namespace Jil.Selection

open Jil.Native (Argument Service)
open Jil.Pseudo (Instr Reg)

variable {scope : Scope} {st after : State} {origin : Origin} {code : List Instr}

/-! ## Operands and results -/

/-- The types of operands. -/
theorem yields_typesOf {args : List Register} {types : List Ty} :
    Yields scope (args.mapM (typeOf · origin)) st types after ↔
      args.mapM scope.types.get? = some types ∧ after = st :=
  yields_mapM_of_lookup fun _ _ _ _ => yields_typeOf

/-- The value of a register as an operand of a call. -/
def Scope.value? (scope : Scope) (r : Register) : Option Argument :=
  (scope.types.get? r).map fun t => .value ⟨r.index, sizeOf t⟩ t

theorem Scope.value?_eq_some {r : Register} {a : Argument} :
    scope.value? r = some a ↔
      ∃ t, scope.types.get? r = some t ∧ a = .value ⟨r.index, sizeOf t⟩ t := by
  rw [Scope.value?, Option.map_eq_some_iff]
  exact exists_congr fun _ => and_congr_right fun _ => eq_comm

/-- The operands of a call are values of registers. -/
theorem yields_operands {args : List Register} {l : List Argument} :
    Yields scope (operands args origin) st l after ↔
      args.mapM scope.value? = some l ∧ after = st := by
  refine yields_mapM_of_lookup fun r st a after => ?_
  simp only [yields_bind, yields_pseudoOf, yields_typeOf, yields_pure, Scope.value?_eq_some]
  constructor
  · rintro ⟨p, _, ⟨⟨t, ht, rfl⟩, rfl⟩, t', _, ⟨ht', rfl⟩, rfl, rfl⟩
    obtain rfl : t = t' := Option.some.inj (ht.symm.trans ht')
    exact ⟨⟨t, ht, rfl⟩, rfl⟩
  · rintro ⟨⟨t, ht, rfl⟩, rfl⟩
    exact ⟨_, after, ⟨⟨t, ht, rfl⟩, rfl⟩, t, after, ⟨ht, rfl⟩, rfl, rfl⟩

/-- Each operand of a call is the value of one of its registers. -/
theorem exists_of_mem_operands {args : List Register} {l : List Argument}
    (h : args.mapM scope.value? = some l) {a : Argument} (ha : a ∈ l) :
    ∃ r ∈ args, ∃ t, scope.types.get? r = some t ∧ a = .value ⟨r.index, sizeOf t⟩ t := by
  obtain ⟨r, hr, hvalue⟩ := (Pseudo.exists_of_mapM_eq_some h).2 a ha
  exact ⟨r, hr, Scope.value?_eq_some.1 hvalue⟩

/-- The pseudo-register of a result that may be wanted. -/
inductive Scope.Results (scope : Scope) : Option Register → Option Reg → Prop
  | unwanted : scope.Results none none
  | wanted {x : Register} {t : Ty} (h : scope.types.get? x = some t) :
    scope.Results (some x) (some ⟨x.index, sizeOf t⟩)

theorem yields_resultOf {result : Option Register} {r : Option Reg} :
    Yields scope (resultOf result origin) st r after ↔ scope.Results result r
    ∧ after = st := by
  cases result with
  | none =>
    rw [resultOf, yields_pure]
    exact and_congr_left fun _ => ⟨fun h => h ▸ .unwanted, fun h => by cases h; rfl⟩
  | some x =>
    rw [resultOf, yields_map]
    constructor
    · rintro ⟨p, hp, rfl⟩
      obtain ⟨⟨t, ht, rfl⟩, rfl⟩ := yields_pseudoOf.1 hp
      exact ⟨.wanted ht, rfl⟩
    · rintro ⟨_ | ht, rfl⟩
      exact ⟨_, yields_pseudoOf.2 ⟨⟨_, ht, rfl⟩, rfl⟩, rfl⟩

/-- The receiver of a call: none for static methods, else the object that is written or the
caller's own. -/
inductive Scope.Receives (scope : Scope) : MemberKind → Option Register → Option Reg → Prop
  | static {object : Option Register} : scope.Receives .static object none
  | written {x : Register} {t : Ty} (h : scope.types.get? x = some t) :
    scope.Receives .perObject (some x) (some ⟨x.index, sizeOf t⟩)
  | own {p : Reg} (h : scope.params.get? "this" = some p) :
    scope.Receives .perObject none (some p)

theorem yields_receiverOf {object : Option Register} {kind : MemberKind}
    {owner method : String} {r : Option Reg} :
    Yields scope (receiverOf object kind owner method origin) st r after ↔
      scope.Receives kind object r ∧ after = st := by
  cases kind with
  | static =>
    rw [receiverOf, yields_pure]
    exact and_congr_left fun _ => ⟨fun h => h ▸ .static, fun h => by cases h; rfl⟩
  | perObject =>
    cases object with
    | some x =>
      rw [receiverOf, yields_map]
      constructor
      · rintro ⟨p, hp, rfl⟩
        obtain ⟨⟨t, ht, rfl⟩, rfl⟩ := yields_pseudoOf.1 hp
        exact ⟨.written ht, rfl⟩
      · rintro ⟨⟨⟩ | ⟨ht⟩ | ⟨⟩, rfl⟩
        exact ⟨_, yields_pseudoOf.2 ⟨⟨_, ht, rfl⟩, rfl⟩, rfl⟩
    | none =>
      rw [receiverOf, yields_bind]
      constructor
      · rintro ⟨_, _, hread, h⟩
        obtain ⟨rfl, rfl⟩ := yields_read.1 hread
        split at h
        · next p hp =>
          obtain ⟨rfl, rfl⟩ := yields_pure.1 h
          exact ⟨.own hp, rfl⟩
        · exact absurd h not_yields_throw
      · rintro ⟨⟨⟩ | ⟨⟩ | ⟨hp⟩, rfl⟩
        refine ⟨scope, after, yields_read.2 ⟨rfl, rfl⟩, ?_⟩
        rw [hp]
        exact yields_pure.2 ⟨rfl, rfl⟩

/-- The symbol of a method is that of the first function with its name and parameter types. -/
theorem yields_symbolOf {owner method symbol : String} {types : List Ty} :
    Yields scope (symbolOf owner method types origin) st symbol after ↔
      (∃ f, scope.unit.functions.find? (fun f => f.name = method && f.paramTypes = types)
        = some f
        ∧ symbol = scope.unit.functionSymbol scope.abi f) ∧ after = st := by
  simp only [symbolOf, yields_bind, yields_read]
  constructor
  · rintro ⟨_, _, ⟨rfl, rfl⟩, h⟩
    split at h
    · next f hf =>
      obtain ⟨rfl, rfl⟩ := yields_pure.1 h
      exact ⟨⟨f, hf, rfl⟩, rfl⟩
    · exact absurd h not_yields_throw
  · rintro ⟨⟨f, hf, rfl⟩, rfl⟩
    refine ⟨scope, after, ⟨rfl, rfl⟩, ?_⟩
    rw [hf]
    exact yields_pure.2 ⟨rfl, rfl⟩

/-- Calls pass a fixed number of operands, and take no floating-point result. -/
theorem yields_requireCallable {method : String} {info : MethodInfo} {u : Unit} :
    Yields scope (requireCallable method info origin) st u after ↔
      (info.varargs = false ∧ info.returns.isFloating = false) ∧ after = st := by
  unfold requireCallable
  cases hvarargs : info.varargs with
  | true =>
    constructor
    · intro h
      obtain ⟨_, _, h, -⟩ := yields_bind.1 h
      exact absurd h not_yields_throw
    · rintro ⟨⟨⟨⟩, -⟩, -⟩
  | false =>
    cases hreturns : info.returns.isFloating with
    | true => exact ⟨fun h => absurd h not_yields_throw, fun h => nomatch h.1.2⟩
    | false =>
      exact ⟨fun h => ⟨⟨rfl, rfl⟩, (yields_pure.1 h).2⟩, fun h => yields_pure.2 ⟨rfl, h.2⟩⟩

/-! ## Handles and identifiers -/

/-- The code of a service whose result is drawn for it. Constants may have been placed
before. -/
def Handled (scope : Scope) (svc : Service) (args : List Argument) (origin : Origin)
    (st : State) (handle : Reg) (code : List Instr) (after : State) : Prop :=
  handle = ⟨st.drawn + 1, .quad⟩
    ∧ ∃ strings, Yields scope (service svc args (some handle) origin)
    { st with drawn := st.drawn + 1, strings := strings } code after

/-- A handle of a class, which is looked up by its name. -/
theorem yields_findClass {name : String} {handle : Reg}
    (h : Yields scope (findClass name origin) st (handle, code) after) :
    ∃ label, Handled scope .findClass [.address label] origin st handle code after := by
  simp only [findClass, yields_bind, yields_draw, yields_pure, Prod.mk.injEq] at h
  obtain ⟨_, _, ⟨rfl, rfl⟩, text, mid, htext, _, _, hcode, ⟨rfl, rfl⟩, rfl⟩ := h
  obtain ⟨⟨label, rfl⟩, strings, rfl⟩ := yields_constant htext
  exact ⟨label, rfl, strings, hcode⟩

/-- A handle of the class of an object. -/
theorem yields_findClassOf {object handle : Reg}
    (h : Yields scope (findClassOf object origin) st (handle, code) after) :
    Handled scope .getObjectClass [.value object .object] origin st handle code after := by
  simp only [findClassOf, yields_bind, yields_draw, yields_pure, Prod.mk.injEq] at h
  obtain ⟨_, _, ⟨rfl, rfl⟩, _, _, hcode, ⟨rfl, rfl⟩, rfl⟩ := h
  exact ⟨rfl, st.strings, hcode⟩

/-- An identifier of a member, which is looked up in its class by name and descriptor. -/
theorem yields_findMember {svc : Service} {name descriptor : String} {handle id : Reg}
    (h : Yields scope (findMember svc handle name descriptor origin) st (id, code) after) :
    ∃ label label', Handled scope svc [.value handle .object, .address label,
      .address label'] origin
      st id code after := by
  simp only [findMember, yields_bind, yields_draw, yields_pure, Prod.mk.injEq] at h
  obtain ⟨_, _, ⟨rfl, rfl⟩, _, _, hname, _, _, hdescriptor, _, _, hcode, ⟨rfl, rfl⟩, rfl⟩ := h
  obtain ⟨⟨label, rfl⟩, strings, rfl⟩ := yields_constant hname
  obtain ⟨⟨label', rfl⟩, strings', rfl⟩ := yields_constant hdescriptor
  exact ⟨label, label', rfl, strings', hcode⟩

/-! ## Members of other classes -/

/-- Reaches a member of another class: `find` gives a handle of the class,
`lookup` an identifier of the member, and `svc` is called with the two, or with an
object in place of the handle. -/
def remote (find : Select (Reg × List Instr)) (lookup : Service) (name descriptor : String)
    (svc : Service) (object : Option Reg) (more : List Argument) (result : Option Reg)
    (origin : Origin) : Select (List Instr) := do
  let (handle, before) ← find
  let (id, between) ← findMember lookup handle name descriptor origin
  let code ← service svc (.value (object.getD handle) .object :: .value id .long :: more)
      result
    origin
  pure (before ++ between ++ code)

theorem yields_remote {find : Select (Reg × List Instr)} {lookup : Service}
    {name descriptor : String} {svc : Service} {object : Option Reg} {more : List Argument}
    {result : Option Reg} :
    Yields scope (remote find lookup name descriptor svc object more result origin) st
      code after ↔
      ∃ handle before mid id between mid' last, Yields scope find st (handle, before) mid
        ∧ Yields scope (findMember lookup handle name descriptor origin) mid (id, between) mid'
        ∧ Yields scope
          (service svc (.value (object.getD handle) .object :: .value id .long :: more)
          result origin) mid' last after
        ∧ code = before ++ between ++ last := by
  simp only [remote, yields_bind, yields_pure]
  constructor
  · rintro ⟨_, mid, hfind, _, mid', hid, last, _, hlast, rfl, rfl⟩
    exact ⟨_, _, mid, _, _, mid', last, hfind, hid, hlast, rfl⟩
  · rintro ⟨_, _, mid, _, _, mid', last, hfind, hid, hlast, rfl⟩
    exact ⟨_, mid, hfind, _, mid', hid, last, after, hlast, rfl, rfl⟩

/-! ## Fields -/

theorem yields_staticPlace {owner field : String} {o : Pseudo.Operand} :
    Yields scope (staticPlace owner field origin) st o after ↔
      (∃ offset, scope.unit.fieldOffset .static field origin = .ok offset
        ∧ o = .rip (Symbol.ofStatics scope.abi owner) offset) ∧ after = st := by
  simp only [staticPlace, yields_bind, yields_read, yields_liftReported, yields_pure]
  constructor
  · rintro ⟨_, _, ⟨rfl, rfl⟩, offset, _, ⟨hoffset, rfl⟩, rfl, rfl⟩
    exact ⟨⟨offset, hoffset, rfl⟩, rfl⟩
  · rintro ⟨⟨offset, hoffset, rfl⟩, rfl⟩
    exact ⟨scope, after, ⟨rfl, rfl⟩, offset, after, ⟨hoffset, rfl⟩, rfl, rfl⟩

theorem yields_fieldPlace {base : Pseudo.Reg} {field : String} {o : Pseudo.Operand} :
    Yields scope (fieldPlace base field origin) st o after ↔
      (∃ offset, scope.unit.fieldOffset .perObject field origin = .ok offset
        ∧ o = .indirect base offset) ∧ after = st := by
  simp only [fieldPlace, yields_bind, yields_read, yields_liftReported, yields_pure]
  constructor
  · rintro ⟨_, _, ⟨rfl, rfl⟩, offset, _, ⟨hoffset, rfl⟩, rfl, rfl⟩
    exact ⟨⟨offset, hoffset, rfl⟩, rfl⟩
  · rintro ⟨⟨offset, hoffset, rfl⟩, rfl⟩
    exact ⟨scope, after, ⟨rfl, rfl⟩, offset, after, ⟨hoffset, rfl⟩, rfl, rfl⟩

/-- The place of a static field of the class itself. -/
def Scope.StaticPlace (scope : Scope) (owner field : String) (origin : Origin)
    (place : Pseudo.Operand) : Prop :=
  owner = scope.unit.name ∧ ∃ offset, scope.unit.fieldOffset .static field origin = .ok offset
    ∧ place = .rip (Symbol.ofStatics scope.abi owner) offset

/-- The place of a field in an object of the class itself. -/
def Scope.FieldPlace (scope : Scope) (owner : String) (object : Register) (field : String)
    (origin : Origin) (place : Pseudo.Operand) : Prop :=
  owner = scope.unit.name ∧ ∃ offset, scope.unit.fieldOffset .perObject field origin
    = .ok offset
    ∧ place = .indirect ⟨object.index, .quad⟩ offset

/-- The instruction that reads a place, or computes its address. -/
def readPlace (address : Bool) (place : Pseudo.Operand) (p : Reg) : Instr :=
  if address then .lea place (.pseudo p) else .mov p.size place (.pseudo p)

/-- The instruction that writes a place. -/
def writePlace (place : Pseudo.Operand) (p : Reg) : Instr := .mov p.size (.pseudo p) place

/-- Reading a static field. -/
theorem yields_getStatic {owner field : String} {result : Register} {address : Bool}
    (h : Yields scope (getStatic owner field result address origin) st code after) :
    ∃ t, scope.types.get? result = some t
      ∧ ((∃ place, scope.StaticPlace owner field origin place
          ∧ code = [readPlace address place ⟨result.index, sizeOf t⟩] ∧ after = st)
        ∨ owner ≠ scope.unit.name ∧ address = false
          ∧ ∃ type, scope.unit.staticFieldType owner field origin = .ok type
          ∧ Yields scope
            (remote (findClass owner origin) .getStaticFieldId field type.descriptor
            (.getStaticField (.ofTy type)) none [] (some ⟨result.index, sizeOf t⟩)
              origin) st code
            after) := by
  simp only [getStatic, yields_bind, yields_read] at h
  obtain ⟨_, _, ⟨rfl, rfl⟩, _, _, hp, h⟩ := h
  obtain ⟨⟨t, ht, rfl⟩, rfl⟩ := yields_pseudoOf.1 hp
  refine ⟨t, ht, ?_⟩
  split at h
  · next hown =>
    simp only [yields_bind, yields_staticPlace, yields_pure] at h
    obtain ⟨_, _, ⟨⟨offset, hoffset, rfl⟩, rfl⟩, rfl, rfl⟩ := h
    exact .inl ⟨_, ⟨hown, offset, hoffset, rfl⟩, rfl, rfl⟩
  · next hother =>
    split at h
    · exact absurd h not_yields_throw
    · next haddress =>
      obtain ⟨type, _, hlift, hremote⟩ := yields_bind.1 h
      obtain ⟨htype, rfl⟩ := yields_liftReported.1 hlift
      exact .inr ⟨hother, Bool.eq_false_iff.2 haddress, type, htype, hremote⟩

/-- Writing a static field. -/
theorem yields_putStatic {owner field : String} {src : Register}
    (h : Yields scope (putStatic owner field src origin) st code after) :
    ∃ t, scope.types.get? src = some t
      ∧ ((∃ place, scope.StaticPlace owner field origin place
          ∧ code = [writePlace place ⟨src.index, sizeOf t⟩] ∧ after = st)
        ∨ owner ≠ scope.unit.name
          ∧ ∃ type, scope.unit.staticFieldType owner field origin = .ok type
          ∧ Yields scope
            (remote (findClass owner origin) .getStaticFieldId field type.descriptor
            (.setStaticField (.ofTy type)) none [.value ⟨src.index, sizeOf t⟩ t] none
              origin) st code
            after) := by
  simp only [putStatic, yields_bind, yields_read] at h
  obtain ⟨_, _, ⟨rfl, rfl⟩, _, _, hp, _, _, htype, h⟩ := h
  obtain ⟨ht, rfl⟩ := yields_typeOf.1 htype
  obtain ⟨rfl, rfl⟩ := (yields_pseudoOf_of_type ht).1 hp
  refine ⟨_, ht, ?_⟩
  split at h
  · next hown =>
    simp only [yields_bind, yields_staticPlace, yields_pure] at h
    obtain ⟨_, _, ⟨⟨offset, hoffset, rfl⟩, rfl⟩, rfl, rfl⟩ := h
    exact .inl ⟨_, ⟨hown, offset, hoffset, rfl⟩, rfl, rfl⟩
  · next hother =>
    obtain ⟨type, _, hlift, hremote⟩ := yields_bind.1 h
    obtain ⟨hdeclared, rfl⟩ := yields_liftReported.1 hlift
    exact .inr ⟨hother, type, hdeclared, hremote⟩

/-- Reading a field of an object, whose register is as wide as an address. -/
theorem yields_getField {object : Register} {field : String} {result : Register}
    {address : Bool}
    (h : Yields scope (getField object field result address origin) st code after) :
    ∃ owner t, scope.types.get? object = some (.classRef owner)
      ∧ scope.types.get? result = some t
      ∧ ((∃ place, scope.FieldPlace owner object field origin place
          ∧ code = [readPlace address place ⟨result.index, sizeOf t⟩] ∧ after = st)
        ∨ owner ≠ scope.unit.name ∧ address = false
          ∧ ∃ type, scope.unit.objectFieldType owner field origin = .ok type
          ∧ Yields scope (remote (findClassOf ⟨object.index, .quad⟩ origin) .getFieldId field
            type.descriptor (.getField (.ofTy type)) (some ⟨object.index, .quad⟩) []
            (some ⟨result.index, sizeOf t⟩) origin) st code after) := by
  simp only [getField, yields_bind, yields_read] at h
  obtain ⟨_, _, ⟨rfl, rfl⟩, owner, _, howner, _, _, hbase, _, _, hp, h⟩ := h
  obtain ⟨hobject, rfl⟩ := yields_classOf.1 howner
  obtain ⟨rfl, rfl⟩ := (yields_pseudoOf_of_type hobject).1 hbase
  obtain ⟨⟨t, ht, rfl⟩, rfl⟩ := yields_pseudoOf.1 hp
  refine ⟨owner, t, hobject, ht, ?_⟩
  split at h
  · next hown =>
    simp only [yields_bind, yields_fieldPlace, yields_pure] at h
    obtain ⟨_, _, ⟨⟨offset, hoffset, rfl⟩, rfl⟩, rfl, rfl⟩ := h
    exact .inl ⟨_, ⟨hown, offset, hoffset, rfl⟩, rfl, rfl⟩
  · next hother =>
    split at h
    · exact absurd h not_yields_throw
    · next haddress =>
      obtain ⟨type, _, hlift, hremote⟩ := yields_bind.1 h
      obtain ⟨htype, rfl⟩ := yields_liftReported.1 hlift
      exact .inr ⟨hother, Bool.eq_false_iff.2 haddress, type, htype, hremote⟩

/-- Writing a field of an object. -/
theorem yields_putField {object : Register} {field : String} {src : Register}
    (h : Yields scope (putField object field src origin) st code after) :
    ∃ owner t, scope.types.get? object = some (.classRef owner) ∧ scope.types.get? src = some t
      ∧ ((∃ place, scope.FieldPlace owner object field origin place
          ∧ code = [writePlace place ⟨src.index, sizeOf t⟩] ∧ after = st)
        ∨ owner ≠ scope.unit.name
          ∧ ∃ type, scope.unit.objectFieldType owner field origin = .ok type
          ∧ Yields scope (remote (findClassOf ⟨object.index, .quad⟩ origin) .getFieldId field
            type.descriptor (.setField (.ofTy type)) (some ⟨object.index, .quad⟩)
            [.value ⟨src.index, sizeOf t⟩ t] none origin) st code after) := by
  simp only [putField, yields_bind, yields_read] at h
  obtain ⟨_, _, ⟨rfl, rfl⟩, owner, _, howner, _, _, hbase, _, _, hp, _, _, htype, h⟩ := h
  obtain ⟨hobject, rfl⟩ := yields_classOf.1 howner
  obtain ⟨rfl, rfl⟩ := (yields_pseudoOf_of_type hobject).1 hbase
  obtain ⟨ht, rfl⟩ := yields_typeOf.1 htype
  obtain ⟨rfl, rfl⟩ := (yields_pseudoOf_of_type ht).1 hp
  refine ⟨owner, _, hobject, ht, ?_⟩
  split at h
  · next hown =>
    simp only [yields_bind, yields_fieldPlace, yields_pure] at h
    obtain ⟨_, _, ⟨⟨offset, hoffset, rfl⟩, rfl⟩, rfl, rfl⟩ := h
    exact .inl ⟨_, ⟨hown, offset, hoffset, rfl⟩, rfl, rfl⟩
  · next hother =>
    obtain ⟨type, _, hlift, hremote⟩ := yields_bind.1 h
    obtain ⟨hdeclared, rfl⟩ := yields_liftReported.1 hlift
    exact .inr ⟨hother, type, hdeclared, hremote⟩

/-! ## Calls -/

/-- Calling a method of the class itself: behind its receiver, or behind the code of
a handle of the class. -/
theorem yields_callOwn {target : ResolvedMethod} {receiver : Option Reg}
    {owner method : String} {args : List Register} {types : List Ty} {result : Option Reg}
    (h : Yields scope (callOwn target receiver owner method args types result origin) st code
      after) :
    ∃ first before l f,
      (receiver = some first ∧ before = [] ∧ after = st
        ∨ receiver = none
        ∧ Yields scope (findClass target.owner origin) st (first, before) after)
      ∧ args.mapM scope.value? = some l
      ∧ scope.unit.functions.find? (fun f => f.name = method && f.paramTypes = types) = some f
      ∧ (Native.directCall scope.abi (environment scope.function)
          (scope.unit.functionSymbol scope.abi f) (.value first .object :: l) result
          origin).outcome = .ok ()
      ∧ code = before ++ (Native.directCall scope.abi (environment scope.function)
          (scope.unit.functionSymbol scope.abi f) (.value first .object :: l) result
          origin).code := by
  unfold callOwn at h
  cases receiver with
  | some p =>
    simp only [yields_bind, yields_read, yields_pure, yields_operands, yields_symbolOf,
      yields_whole] at h
    obtain ⟨_, _, ⟨rfl, rfl⟩, l, _, ⟨hl, rfl⟩, _, _, ⟨⟨f, hf, rfl⟩, rfl⟩, _, _,
      ⟨rfl, rfl⟩, _, _, ⟨hok, rfl, rfl⟩, rfl, rfl⟩ := h
    exact ⟨p, [], l, f, .inl ⟨rfl, rfl, rfl⟩, hl, hf, hok, rfl⟩
  | none =>
    simp only [yields_bind, yields_read, yields_pure, yields_operands, yields_symbolOf,
      yields_whole] at h
    obtain ⟨⟨first, before⟩, _, hfind, l, _, ⟨hl, rfl⟩, _, _, ⟨⟨f, hf, rfl⟩, rfl⟩, _, _,
      ⟨rfl, rfl⟩, _, _, ⟨hok, rfl, rfl⟩, rfl, rfl⟩ := h
    exact ⟨first, before, l, f, .inr ⟨rfl, hfind⟩, hl, hf, hok, rfl⟩

/-- Calling a method of another class: on an object, or on the class. -/
theorem yields_callOther {target : ResolvedMethod} {receiver : Option Reg} {method : String}
    {args : List Register} {types : List Ty} {result : Option Reg}
    (h : Yields scope (callOther target receiver method args types result origin) st
      code after) :
    ∃ l, args.mapM scope.value? = some l
      ∧ Yields scope (remote (findClass target.owner origin)
        (if receiver.isSome then .getMethodId else .getStaticMethodId) method
        (methodDescriptor types target.info.returns)
        (if receiver.isSome then .callMethod (.ofTy target.info.returns)
          else .callStaticMethod (.ofTy target.info.returns))
        receiver l result origin) st code after := by
  unfold callOther at h
  cases receiver <;>
  · simp only [yields_bind, yields_pure, yields_operands] at h
    obtain ⟨_, mid, hfind, _, mid', hid, l, _, ⟨hl, rfl⟩, last, _, hlast, rfl, rfl⟩ := h
    exact ⟨l, hl, yields_remote.2 ⟨_, _, mid, _, _, _, last, hfind, hid, hlast, rfl⟩⟩

/-- Calling the method that a class names. -/
theorem yields_callActual {object : Option Register} {owner method : String}
    {args : List Register} {result : Option Register}
    (h : Yields scope (callActual object owner method args result origin) st code after) :
    ∃ types target r receiver, args.mapM scope.types.get? = some types
      ∧ scope.unit.resolveMethod owner method types origin = .ok target
      ∧ target.info.returns.isFloating = false
      ∧ scope.Results result r ∧ scope.Receives target.info.kind object receiver
      ∧ (target.isLocal = true
          ∧ Yields scope (callOwn target receiver owner method args types r origin)
            st code after
        ∨ target.isLocal = false
          ∧ Yields scope (callOther target receiver method args types r origin) st code
            after) := by
  simp only [callActual, yields_bind, yields_read, yields_lift, yields_typesOf,
    yields_requireCallable, yields_resultOf, yields_receiverOf] at h
  obtain ⟨types, _, ⟨htypes, rfl⟩, _, _, ⟨rfl, rfl⟩, target, _, ⟨htarget, rfl⟩, _, _,
    ⟨⟨-, hreturns⟩, rfl⟩, r, _, ⟨hr, rfl⟩, receiver, _, ⟨hreceiver, rfl⟩, h⟩ := h
  refine ⟨types, target, r, receiver, htypes, htarget, hreturns, hr, hreceiver, ?_⟩
  split at h
  · next hlocal => exact .inl ⟨hlocal, h⟩
  · next hother => exact .inr ⟨Bool.eq_false_iff.2 hother, h⟩

/-- Calling the method that the class of an object provides. -/
theorem yields_callVirtual {object : Register} {method : String} {args : List Register}
    {result : Option Register}
    (h : Yields scope (callVirtual object method args result origin) st code after) :
    ∃ owner types target r l, scope.types.get? object = some (.classRef owner)
      ∧ args.mapM scope.types.get? = some types
      ∧ scope.unit.resolveMethod owner method types origin = .ok target
      ∧ target.info.returns.isFloating = false
      ∧ scope.Results result r ∧ args.mapM scope.value? = some l
      ∧ Yields scope (remote (findClassOf ⟨object.index, .quad⟩ origin) .getMethodId method
        (methodDescriptor types target.info.returns) (.callMethod (.ofTy target.info.returns))
        (some ⟨object.index, .quad⟩) l r origin) st code after := by
  simp only [callVirtual, yields_bind, yields_read, yields_lift, yields_typesOf,
    yields_requireCallable, yields_resultOf, yields_operands, yields_pure] at h
  obtain ⟨owner, _, howner, types, _, ⟨htypes, rfl⟩, _, _, ⟨rfl, rfl⟩, target, _,
    ⟨htarget, rfl⟩, _,
    _, ⟨⟨-, hreturns⟩, rfl⟩, _, _, hbase, r, _, ⟨hr, rfl⟩, _, mid, hfind, _, mid', hid, l, _,
    ⟨hl, rfl⟩, last, _, hlast, rfl, rfl⟩ := h
  obtain ⟨hobject, rfl⟩ := yields_classOf.1 howner
  obtain ⟨rfl, rfl⟩ := (yields_pseudoOf_of_type hobject).1 hbase
  exact ⟨owner, types, target, r, l, hobject, htypes, htarget, hreturns, hr, hl,
    yields_remote.2 ⟨_, _, mid, _, _, _, last, hfind, hid, hlast, rfl⟩⟩

end Jil.Selection
