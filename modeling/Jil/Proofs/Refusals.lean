/-
Jil.Proofs.Refusals — how the selection of a checked function can fail.

A function that passed its check may still hold constructs for which there is
no code. One more thing is left to selection: a call of a method of an object
that names no object is a call on the caller's own, and only selection finds out
that the caller has none (`Statement.lacksReceiver`). `Refusal` lists both, and
nothing else goes wrong: every other lookup was made by the check before
(`failsOnly_statementCode`, `failsOnly_ofFunction`). A function with such a call
is never selected (`lacksReceiver_of_ofFunction`).
-/
import Jil.Proofs.Failing
import Jil.Proofs.Lowered
import Jil.Proofs.MemberCode
import Jil.Proofs.Resolved

namespace Jil

/-- Whether a function has an object to call methods on: its own, or a
parameter of that name. -/
def Function.knowsReceiver (f : Function) : Bool :=
  f.isPerObject || f.params.any (·.name = "this")

/-- Whether the method that a call reaches belongs to the class or to an object. -/
def ClassUnit.targetKind? (u : ClassUnit) (owner method : String) (types : List Ty) :
    Option MemberKind :=
  match u.findMethod? ⟨method, types⟩ (u.hierarchy.lineage owner) with
  | .ok (some m) => some m.info.kind
  | _ => none

/-- Whether a statement calls a method of an object and names none, in a
function that has none. -/
def Statement.lacksReceiver (u : ClassUnit) (f : Function) : Statement → Bool
  | .callActual none owner method args _ =>
    !f.knowsReceiver
      && (args.mapM f.registerType?).bind (u.targetKind? owner method) = some .perObject
  | _ => false

theorem ClassUnit.targetKind?_of_resolveMethod {u : ClassUnit} {owner method : String}
    {types : List Ty} {origin : Origin} {m : ResolvedMethod}
    (h : u.resolveMethod owner method types origin = .ok m) :
    u.targetKind? owner method types = some m.info.kind := by
  unfold targetKind?
  rw [ClassUnit.resolveMethod_eq_ok.1 h]

namespace Selection

open Jil.Machine (Abi Size)
open Jil.Pseudo (Instr Reg bind_eq_ok ite_eq_ok)

/-- How the selection of a statement may fail. -/
inductive Refusal (u : ClassUnit) (f : Function) (s : Located) : Failure → Prop
  | unsupported {e : Failure} (h : e.IsUnsupported) : Refusal u f s e
  | receiver {owner method : String} {args : List Register} {result : Option Register}
      (hs : s.statement = .callActual none owner method args result)
      (h : s.statement.lacksReceiver u f = true) :
      Refusal u f s (.undefined (.receiver owner method) s.origin)

variable {scope : Scope} {st : State} {origin : Origin}

/-! ## Members -/

/-- What selection may rely on in a function that passed its check. -/
structure Settled (scope : Scope) : Prop where
  copies : CopiesFit scope
  indexed : scope.unit.rebuildIndex = scope.unit
  recorded : scope.function.registerTypes = some scope.types
  receiver : (∃ p, scope.params.get? "this" = some p) ↔ scope.function.knowsReceiver = true

theorem Settled.registerType?_eq (h : Settled scope) :
    scope.function.registerType? = scope.types.get? :=
  funext fun _ => congrArg (Option.bind · _) h.recorded

section Members

variable {owner field : String} {object src result : Register}

/-- Static fields of the class itself have places. -/
theorem failsOnly_staticPlace {P : Failure → Prop} {t : Ty}
    (hfield : scope.unit.staticFieldType scope.unit.name field origin = .ok t) :
    FailsOnly scope st P (staticPlace scope.unit.name field origin) := by
  obtain ⟨offset, hoffset⟩ := ClassUnit.exists_staticOffset hfield
  exact .read_bind (.bind_of_yields (yields_liftReported.2 ⟨hoffset, rfl⟩) (.pure _))

/-- Fields of objects of the class itself have places. -/
theorem failsOnly_fieldPlace {P : Failure → Prop} {t : Ty} (base : Reg)
    (hfield : scope.unit.objectFieldType scope.unit.name field origin = .ok t) :
    FailsOnly scope st P (fieldPlace base field origin) := by
  obtain ⟨offset, hoffset⟩ := ClassUnit.exists_objectOffset hfield
  exact .read_bind (.bind_of_yields (yields_liftReported.2 ⟨hoffset, rfl⟩) (.pure _))

theorem failsOnly_getStatic (address : Bool) (hresult : ∃ t, scope.types.get? result = some t)
    (hfield : ∃ t, scope.unit.staticFieldType owner field origin = .ok t) :
    FailsOnly scope st Failure.IsUnsupported
      (getStatic owner field result address origin) := by
  obtain ⟨t, ht⟩ := hfield
  refine .read_bind (.bind (failsOnly_pseudoOf hresult) fun p _ _ => ?_)
  refine .ite (fun howner => ?_) fun _ => ?_
  · subst howner
    exact .bind (failsOnly_staticPlace ht) fun _ _ _ => .pure _
  · refine .ite (fun _ => .throw trivial) fun _ => ?_
    refine .bind_of_yields (yields_liftReported.2 ⟨ht, rfl⟩) ?_
    refine .bind (failsOnly_findClass _) fun _ _ _ => ?_
    refine .bind (failsOnly_findMember _ _ _ _) fun _ _ _ => ?_
    exact .bind (failsOnly_service _ _ _) fun _ _ _ => .pure _

theorem failsOnly_putStatic (hsrc : ∃ t, scope.types.get? src = some t)
    (hfield : ∃ t, scope.unit.staticFieldType owner field origin = .ok t) :
    FailsOnly scope st Failure.IsUnsupported (putStatic owner field src origin) := by
  obtain ⟨t, ht⟩ := hfield
  refine .read_bind (.bind (failsOnly_pseudoOf hsrc) fun p _ _ => ?_)
  refine .bind (failsOnly_typeOf hsrc) fun type _ _ => .ite (fun howner => ?_) fun _ => ?_
  · subst howner
    exact .bind (failsOnly_staticPlace ht) fun _ _ _ => .pure _
  · refine .bind_of_yields (yields_liftReported.2 ⟨ht, rfl⟩) ?_
    refine .bind (failsOnly_findClass _) fun _ _ _ => ?_
    refine .bind (failsOnly_findMember _ _ _ _) fun _ _ _ => ?_
    exact .bind (failsOnly_service _ _ _) fun _ _ _ => .pure _

variable (hobject : scope.types.get? object = some (.classRef owner))
  (hfield : ∃ t, scope.unit.objectFieldType owner field origin = .ok t)

include hobject hfield

theorem failsOnly_getField (address : Bool) (hresult : ∃ t, scope.types.get? result = some t) :
    FailsOnly scope st Failure.IsUnsupported
      (getField object field result address origin) := by
  obtain ⟨t, ht⟩ := hfield
  refine .read_bind (.bind_of_yields (yields_classOf.2 ⟨hobject, rfl⟩) ?_)
  refine .bind (failsOnly_pseudoOf ⟨_, hobject⟩) fun base _ _ => ?_
  refine .bind (failsOnly_pseudoOf hresult) fun p _ _ => .ite (fun howner => ?_) fun _ => ?_
  · subst howner
    exact .bind (failsOnly_fieldPlace base ht) fun _ _ _ => .pure _
  · refine .ite (fun _ => .throw trivial) fun _ => ?_
    refine .bind_of_yields (yields_liftReported.2 ⟨ht, rfl⟩) ?_
    refine .bind (failsOnly_findClassOf _) fun _ _ _ => ?_
    refine .bind (failsOnly_findMember _ _ _ _) fun _ _ _ => ?_
    exact .bind (failsOnly_service _ _ _) fun _ _ _ => .pure _

theorem failsOnly_putField (hsrc : ∃ t, scope.types.get? src = some t) :
    FailsOnly scope st Failure.IsUnsupported (putField object field src origin) := by
  obtain ⟨t, ht⟩ := hfield
  refine .read_bind (.bind_of_yields (yields_classOf.2 ⟨hobject, rfl⟩) ?_)
  refine .bind (failsOnly_pseudoOf ⟨_, hobject⟩) fun base _ _ => ?_
  refine .bind (failsOnly_pseudoOf hsrc) fun p _ _ => ?_
  refine .bind (failsOnly_typeOf hsrc) fun type _ _ => .ite (fun howner => ?_) fun _ => ?_
  · subst howner
    exact .bind (failsOnly_fieldPlace base ht) fun _ _ _ => .pure _
  · refine .bind_of_yields (yields_liftReported.2 ⟨ht, rfl⟩) ?_
    refine .bind (failsOnly_findClassOf _) fun _ _ _ => ?_
    refine .bind (failsOnly_findMember _ _ _ _) fun _ _ _ => ?_
    exact .bind (failsOnly_service _ _ _) fun _ _ _ => .pure _

end Members

/-! ## Calls -/

section Calls

variable {owner method : String} {args : List Register} {types : List Ty}
  {result : Option Register}

theorem failsOnly_requireCallable (info : MethodInfo) :
    FailsOnly scope st Failure.IsUnsupported (requireCallable method info origin) := by
  unfold requireCallable
  refine .ite (fun _ => .bind (.throw trivial) fun _ _ h => absurd h not_yields_throw) fun _ =>
    ?_
  exact .ite (fun _ => .throw trivial) fun _ => .pure _

theorem failsOnly_operands {P : Failure → Prop}
    (h : ∀ r ∈ args, ∃ t, scope.types.get? r = some t) :
    FailsOnly scope st P (operands args origin) :=
  .mapM fun r hr _ => .bind (failsOnly_pseudoOf (h r hr)) fun _ _ _ =>
    .bind (failsOnly_typeOf (h r hr)) fun _ _ _ => .pure _

theorem failsOnly_resultOf {P : Failure → Prop}
    (h : ∀ r, result = some r → ∃ t, scope.types.get? r = some t) :
    FailsOnly scope st P (resultOf result origin) := by
  unfold resultOf
  split
  · next r => exact .map _ (failsOnly_pseudoOf (h r rfl))
  · exact .pure _

/-- Methods of the class itself have symbols. -/
theorem failsOnly_symbolOf {P : Failure → Prop}
    (h : ∃ f ∈ scope.unit.functions, f.key = ⟨method, types⟩) :
    FailsOnly scope st P (symbolOf owner method types origin) := by
  refine .read_bind ?_
  split
  · exact .pure _
  · next hnone =>
    obtain ⟨f, hf, hkey⟩ := h
    rw [List.find?_eq_none] at hnone
    exact absurd (hnone f hf) (by cases hkey; simp)

theorem failsOnly_callOwn {target : ResolvedMethod} (receiver : Option Reg)
    {result : Option Reg} (hargs : ∀ r ∈ args, ∃ t, scope.types.get? r = some t)
    (hmethod : ∃ f ∈ scope.unit.functions, f.key = ⟨method, types⟩) :
    FailsOnly scope st Failure.IsUnsupported
      (callOwn target receiver owner method args types result origin) := by
  have hrest : ∀ {st : State} (first : Reg) (before : List Instr),
      FailsOnly scope st Failure.IsUnsupported (do
        let args ← operands args origin
        let symbol ← symbolOf owner method types origin
        let scope ← read
        let code ← whole (Native.directCall scope.abi (environment scope.function) symbol
          (.value first .object :: args) result origin)
        pure (before ++ code)) := fun first before =>
    .bind (failsOnly_operands hargs) fun _ _ _ =>
      .bind (failsOnly_symbolOf hmethod) fun _ _ _ =>
      .bind .read fun _ _ _ => .bind (failsOnly_whole (Native.Sequence.failsOnly_andThen
        (Native.failsOnly_loadArguments _) (.ok ()))) fun _ _ _ => .pure _
  unfold callOwn
  cases receiver with
  | some p => exact .bind (.pure _) fun _ _ _ => hrest _ _
  | none => exact .bind (failsOnly_findClass _) fun _ _ _ => hrest _ _

theorem failsOnly_callOther {target : ResolvedMethod} (receiver : Option Reg)
    {result : Option Reg} (hargs : ∀ r ∈ args, ∃ t, scope.types.get? r = some t) :
    FailsOnly scope st Failure.IsUnsupported
      (callOther target receiver method args types result origin) := by
  refine .bind (failsOnly_findClass _) fun _ _ _ => ?_
  cases receiver <;>
    exact .bind (failsOnly_findMember _ _ _ _) fun _ _ _ =>
      .bind (failsOnly_operands hargs) fun _ _ _ =>
        .bind (failsOnly_service _ _ _) fun _ _ _ => .pure _

/-- The object of a call is missing only when it is the caller's own, and there is none. -/
theorem failsOnly_receiverOf {object : Option Register} {kind : MemberKind}
    (hobject : ∀ r, object = some r → ∃ t, scope.types.get? r = some t) :
    FailsOnly scope st (fun e => object = none ∧ kind = .perObject
        ∧ scope.params.get? "this" = none ∧ e = .undefined (.receiver owner method) origin)
      (receiverOf object kind owner method origin) := by
  unfold receiverOf
  split
  · exact .pure _
  · next r => exact .map _ (failsOnly_pseudoOf (hobject r rfl))
  · refine .read_bind ?_
    split
    · exact .pure _
    · next hnone => exact .throw ⟨rfl, rfl, hnone, rfl⟩

/-- The types of operands that are known. -/
theorem failsOnly_bind_typesOf {P : Failure → Prop} {α : Type} {x : List Ty → Select α}
    (htypes : args.mapM scope.types.get? = some types) (h : FailsOnly scope st P (x types)) :
    FailsOnly scope st P (args.mapM (typeOf · origin) >>= x) := by
  refine .bind (.mapM fun r hr _ => failsOnly_typeOf (Typing.exists_of_mapM_get? htypes r hr))
    fun found _ hyields => ?_
  obtain ⟨hfound, rfl⟩ := yields_typesOf.1 hyields
  obtain rfl : types = found := Option.some.inj (htypes.symm.trans hfound)
  exact h

variable {target : ResolvedMethod} (hsettled : Settled scope)
  (hresult : ∀ r, result = some r → ∃ t, scope.types.get? r = some t)
  (htypes : args.mapM scope.types.get? = some types)
  (htarget : scope.unit.resolveMethod owner method types origin = .ok target)

include hsettled hresult htypes htarget

theorem failsOnly_callActual {object : Option Register}
    (hobject : ∀ r, object = some r → ∃ t, scope.types.get? r = some t) :
    FailsOnly scope st (fun e => e.IsUnsupported ∨ object = none
      ∧ target.info.kind = .perObject
        ∧ scope.params.get? "this" = none ∧ e = .undefined (.receiver owner method) origin)
      (callActual object owner method args result origin) := by
  have hargs := Typing.exists_of_mapM_get? htypes
  refine failsOnly_bind_typesOf htypes (.read_bind ?_)
  refine .bind_of_yields (yields_lift.2 ⟨htarget, rfl⟩) ?_
  refine .bind ((failsOnly_requireCallable _).mono fun _ => .inl) fun _ _ _ => ?_
  refine .bind (failsOnly_resultOf hresult) fun p _ _ => ?_
  refine .bind ((failsOnly_receiverOf hobject).mono fun _ => .inr) fun receiver _ _ => ?_
  refine FailsOnly.mono (.ite (fun hlocal => ?_) fun _ => ?_) fun _ => .inl
  · obtain ⟨f, hf, hkey, -⟩ := ClassUnit.exists_function_of_findMethod? hsettled.indexed
      (ClassUnit.resolveMethod_eq_ok.1 htarget) hlocal
    exact failsOnly_callOwn receiver hargs ⟨f, hf, hkey⟩
  · exact failsOnly_callOther receiver hargs

omit hsettled in
theorem failsOnly_callVirtual {object : Register}
    (hobject : scope.types.get? object = some (.classRef owner)) :
    FailsOnly scope st Failure.IsUnsupported
      (callVirtual object method args result origin) := by
  have hargs := Typing.exists_of_mapM_get? htypes
  refine .bind_of_yields (yields_classOf.2 ⟨hobject, rfl⟩) ?_
  refine failsOnly_bind_typesOf htypes (.read_bind ?_)
  refine .bind_of_yields (yields_lift.2 ⟨htarget, rfl⟩) ?_
  refine .bind (failsOnly_requireCallable _) fun _ _ _ => ?_
  refine .bind (failsOnly_pseudoOf ⟨_, hobject⟩) fun receiver _ _ => ?_
  refine .bind (failsOnly_resultOf hresult) fun p _ _ => ?_
  refine .bind (failsOnly_findClassOf _) fun _ _ _ => ?_
  refine .bind (failsOnly_findMember _ _ _ _) fun _ _ _ => ?_
  refine .bind (failsOnly_operands hargs) fun _ _ _ => ?_
  exact .bind (failsOnly_service _ _ _) fun _ _ _ => .pure _

end Calls

/-! ## Statements -/

theorem failsOnly_requireIntegral (type : Ty) (what : Construct) :
    FailsOnly scope st Failure.IsUnsupported (requireIntegral type what origin) := by
  unfold requireIntegral
  exact .ite (fun _ => .throw trivial) fun _ => .pure _

theorem failsOnly_binaryCode {P : Failure → Prop} (op : BinaryOp) (type : Ty)
    (left right result : Reg) :
    FailsOnly scope st P (binaryCode op type left right result) := by
  have hwiden : ∀ {st : State} (value : Reg), FailsOnly scope st P (widen value type) := by
    intro st value
    unfold widen
    exact .ite (fun _ => .pure _) fun _ => .bind (failsOnly_draw _) fun _ _ _ => .pure _
  unfold binaryCode
  refine .ite (fun _ => .pure _) fun _ => .bind (hwiden left) fun _ _ _ => ?_
  have hwide : ∀ {st : State} {code : Reg → List Instr},
      FailsOnly scope st P (do
        let wide ← draw .long
        pure (code wide)) := .bind (failsOnly_draw _) fun _ _ _ => .pure _
  exact .ite (fun _ => .bind (.pure _) fun _ _ _ => hwide) fun _ =>
    .bind (hwiden right) fun _ _ _ => hwide

/-- The first operand of an operator: only that it is a floating-point number is refused. -/
theorem failsOnly_operand {P : Failure → Prop} (hP : ∀ e, Failure.IsUnsupported e → P e)
    {r : Register} (hr : ∃ t, scope.types.get? r = some t) {what : Construct} {α : Type}
    {next : Ty → Reg → Select α}
    (hnext : ∀ {st : State} t p, FailsOnly scope st P (next t p)) :
    FailsOnly scope st P (do
      let type ← typeOf r origin
      requireIntegral type what origin
      let p ← pseudoOf r origin
      next type p) :=
  .bind (failsOnly_typeOf hr) fun _ _ _ =>
    .bind ((failsOnly_requireIntegral _ _).mono hP) fun _ _ _ =>
      .bind (failsOnly_pseudoOf hr) fun _ _ _ => hnext _ _

/-- A conversion: only that it is of floating-point numbers is refused. -/
theorem failsOnly_conversion {P : Failure → Prop} (hP : ∀ e, Failure.IsUnsupported e → P e)
    {src result : Register} (hsrc : ∃ t, scope.types.get? src = some t)
    (hresult : ∃ t, scope.types.get? result = some t) (index : Nat) (target : Ty) :
    FailsOnly scope st P (statementCode index (.convert src target result) origin) := by
  refine .bind (failsOnly_typeOf hsrc) fun _ _ _ => ?_
  have hcode : ∀ {st : State} {code : Reg → Reg → List Instr},
      FailsOnly scope st P (do
        let src ← pseudoOf src origin
        let result ← pseudoOf result origin
        pure (code src result)) :=
    .bind (failsOnly_pseudoOf hsrc) fun _ _ _ =>
      .bind (failsOnly_pseudoOf hresult) fun _ _ _ => .pure _
  exact .ite (fun _ => .bind (.throw (hP _ trivial)) fun _ _ _ => hcode) fun _ => hcode

/-- A call that was resolved is refused for want of code, or of an object that the
function itself has none of. -/
theorem failsOnly_resolvedCall (hsettled : Settled scope) {object : Option Register}
    {owner method : String} {args : List Register} {result : Option Register}
    (hknown : (Statement.callActual object owner method args result).Known scope.types)
    (hresolved : (Statement.callActual object owner method args result).Resolved scope.unit
      scope.types origin) :
    FailsOnly scope st
      (Refusal scope.unit scope.function ⟨.callActual object owner method args result, origin⟩)
      (callActual object owner method args result origin) := by
  obtain ⟨types, target, htypes, htarget⟩ := hresolved
  refine (failsOnly_callActual hsettled hknown.defined htypes htarget fun r hr =>
    hknown.used r (by simp [Statement.usedRegisters, hr])).mono fun e he => ?_
  rcases he with he | ⟨rfl, hkind, hparam, rfl⟩
  · exact .unsupported he
  · -- the function has no object, since none was received
    refine .receiver rfl ?_
    have hnone : scope.function.knowsReceiver = false := by
      rw [← Bool.not_eq_true, ← hsettled.receiver, hparam]
      simp
    simp [Statement.lacksReceiver, hnone, hsettled.registerType?_eq, htypes,
      ClassUnit.targetKind?_of_resolveMethod htarget, hkind]

/-- A statement that was judged is refused for want of code or of an object only. -/
theorem failsOnly_statementCode {locals : Table String Ty} {w : Supply}
    (hsettled : Settled scope) (hlaid : Arranged scope locals st w) (index : Nat) {s : Located}
    (hjudged : s.statement.Judged scope.types locals
      (scope.function.paramTable scope.unit.name))
    (hknown : s.statement.Known scope.types)
    (hresolved : s.statement.Resolved scope.unit scope.types s.origin) :
    FailsOnly scope st (Refusal scope.unit scope.function s)
      (statementCode index s.statement s.origin) := by
  obtain ⟨s, origin⟩ := s
  have hedge :
      ∀ {st : State}, FailsOnly scope st (Refusal scope.unit scope.function ⟨s, origin⟩)
      (edgeCode index origin) := failsOnly_edgeCode fun c hc => by
    obtain ⟨t, u, ht, hu, -⟩ := hsettled.copies c hc
    exact ⟨⟨t, ht⟩, u, hu⟩
  have hreg :
      ∀ {st : State} {r : Register}, (r ∈ s.usedRegisters ∨ s.definedRegister? = some r) →
      FailsOnly scope st (Refusal scope.unit scope.function ⟨s, origin⟩) (pseudoOf r origin) :=
    fun h => failsOnly_pseudoOf (h.elim (hknown.used _) (hknown.defined _))
  have hunsupported : ∀ {st : State} {α : Type} {x : Select α},
      FailsOnly scope st Failure.IsUnsupported x →
      FailsOnly scope st (Refusal scope.unit scope.function ⟨s, origin⟩) x :=
    fun h => h.mono fun _ => .unsupported
  cases s with
  | copy src dest =>
    exact .bind (hreg (.inl List.mem_cons_self)) fun _ _ _ =>
      .bind (hreg (.inr rfl)) fun _ _ _ => .pure _
  | choose first second result => exact .pure _
  | literal type value result =>
    obtain ⟨-, bits, hbits⟩ := hjudged
    simp only [statementCode, hbits]
    exact .bind (hreg (.inr rfl)) fun _ _ _ => .pure _
  | string value result =>
    exact .bind (hreg (.inr rfl)) fun _ _ _ => .bind (failsOnly_constant _) fun _ _ _ =>
      hunsupported (failsOnly_service _ _ _)
  | getLocal name result =>
    obtain ⟨t, hlocal, -⟩ := hjudged
    obtain ⟨p, hp, -⟩ := hlaid.located (.localVariable name) hlocal
    exact .bind (failsOnly_localOf ⟨p, hp⟩) fun _ _ _ =>
      .bind (hreg (.inr rfl)) fun _ _ _ => .pure _
  | putLocal name src =>
    obtain ⟨-, t, -, hlocal, -⟩ := hjudged
    obtain ⟨p, hp, -⟩ := hlaid.located (.localVariable name) hlocal
    exact .bind (failsOnly_localOf ⟨p, hp⟩) fun _ _ _ =>
      .bind (hreg (.inl List.mem_cons_self)) fun _ _ _ => .pure _
  | getParam name result =>
    obtain ⟨t, hparam, -⟩ := hjudged
    obtain ⟨p, hp, -⟩ := hlaid.located (.parameter name) hparam
    exact .bind (failsOnly_paramOf ⟨p, hp⟩) fun _ _ _ =>
      .bind (hreg (.inr rfl)) fun _ _ _ => .pure _
  | getStatic owner field result | getStaticAddress owner field result =>
    exact hunsupported (failsOnly_getStatic _ (hknown.defined _ rfl) hresolved)
  | putStatic owner field src =>
    exact hunsupported (failsOnly_putStatic (hknown.used _ List.mem_cons_self) hresolved)
  | getField object field result | getFieldAddress object field result =>
    obtain ⟨owner, t, hobject, ht⟩ := hresolved
    exact hunsupported (failsOnly_getField hobject ⟨t, ht⟩ _ (hknown.defined _ rfl))
  | putField object field src =>
    obtain ⟨owner, t, hobject, ht⟩ := hresolved
    exact hunsupported (failsOnly_putField hobject ⟨t, ht⟩
      (hknown.used _ (List.mem_cons_of_mem _ List.mem_cons_self)))
  | compare op left right result =>
    exact failsOnly_operand (fun _ => .unsupported) (hknown.used _ List.mem_cons_self) fun _
      _ =>
      .bind (hreg (.inl (List.mem_cons_of_mem _ List.mem_cons_self))) fun _ _ _ =>
        .bind (hreg (.inr rfl)) fun _ _ _ => .pure _
  | binary op left right result =>
    exact failsOnly_operand (fun _ => .unsupported) (hknown.used _ List.mem_cons_self) fun _
      _ =>
      .bind (hreg (.inl (List.mem_cons_of_mem _ List.mem_cons_self))) fun _ _ _ =>
        .bind (hreg (.inr rfl)) fun _ _ _ => failsOnly_binaryCode _ _ _ _ _
  | unary op src result =>
    exact failsOnly_operand (fun _ => .unsupported) (hknown.used _ List.mem_cons_self) fun _
      _ =>
      .bind (hreg (.inr rfl)) fun _ _ _ => .pure _
  | convert src target result =>
    exact failsOnly_conversion (fun _ => .unsupported) (hknown.used _ List.mem_cons_self)
      (hknown.defined _ rfl) index target
  | branch condition expected target =>
    exact .bind .read fun _ _ _ => .bind (hreg (.inl List.mem_cons_self)) fun _ _ _ =>
      .bind hedge fun _ _ _ => .pure _
  | jump target | label name => exact .bind hedge fun _ _ _ => .bind .read fun _ _ _ => .pure _
  | callActual object owner method args result =>
    exact failsOnly_resolvedCall hsettled hknown hresolved
  | callVirtual object method args result =>
    obtain ⟨owner, types, target, hobject, htypes, htarget⟩ := hresolved
    exact hunsupported (failsOnly_callVirtual hknown.defined htypes htarget hobject)
  | returnValue src =>
    exact .bind .read fun _ _ _ => .bind (hreg (.inl List.mem_cons_self)) fun _ _ _ => .pure _
  | returnVoid => exact .bind .read fun _ _ _ => .pure _
  | startScope name type =>
    exact .bind (failsOnly_draw _) fun _ _ _ => .bind (.modifyGet _) fun _ _ _ => .pure _
  | endScope name => exact .bind (.modifyGet _) fun _ _ _ => .pure _

/-- Statements are refused one by one. -/
theorem failsOnly_bodyCode (habi : scope.abi ∈ Abi.all) (hsettled : Settled scope)
    {locals : Table String Ty} {w : Supply} (hlaid : Arranged scope locals st w) (index : Nat)
    {l : List Located}
    (hjudged : ∀ pre s post, l = pre ++ s :: post → s.statement.Judged scope.types
      (openLocals locals pre) (scope.function.paramTable scope.unit.name))
    (hresolved : ∀ s ∈ l, s.statement.Known scope.types
      ∧ s.statement.Resolved scope.unit scope.types s.origin) :
    FailsOnly scope st (fun e => ∃ s ∈ l, Refusal scope.unit scope.function s e)
      (bodyCode index l) := by
  induction l generalizing locals st w index with
  | nil => exact .pure []
  | cons s l ih =>
    obtain ⟨hknown, hnames⟩ := hresolved s List.mem_cons_self
    have hfirst := hjudged [] s l rfl
    refine .bind ((failsOnly_statementCode hsettled hlaid index hfirst hknown hnames).mono
      fun e he => ⟨s, List.mem_cons_self, he⟩) fun code mid hcode => ?_
    obtain ⟨w', hadvances⟩ := advances_statementCode habi hsettled.copies hlaid hfirst hcode
    refine .bind ((ih hadvances.arranged (index + 1)
      (fun pre s' post heq => hjudged (s :: pre) s' post (by rw [heq]; rfl))
      fun s' hs' => hresolved s' (List.mem_cons_of_mem _ hs')).mono ?_) fun _ _ _ => .pure _
    rintro e ⟨s', hs', he⟩
    exact ⟨s', List.mem_cons_of_mem _ hs', he⟩

/-- Code is selected only for calls that have an object. -/
theorem lacksReceiver_of_statementCode (hsettled : Settled scope) {index : Nat} {s : Statement}
    {code : List Instr} {after : State}
    (h : Yields scope (statementCode index s origin) st code after) :
    s.lacksReceiver scope.unit scope.function = false := by
  cases hlacks : s.lacksReceiver scope.unit scope.function with
  | false => rfl
  | true =>
    exfalso
    cases s with
    | callActual object owner method args result =>
      cases object with
      | some r => cases hlacks
      | none =>
        simp only [Statement.lacksReceiver, Bool.and_eq_true, Bool.not_eq_true',
          decide_eq_true_eq]
          at hlacks
        obtain ⟨hnone, hkind⟩ := hlacks
        obtain ⟨types, target, _, _, htypes, htarget, -, -, hreceiver, -⟩ :=
          yields_callActual h
        rw [hsettled.registerType?_eq, htypes, Option.bind_some,
          ClassUnit.targetKind?_of_resolveMethod htarget, Option.some.injEq] at hkind
        rw [hkind] at hreceiver
        cases hreceiver with
        | own hp =>
          rw [hsettled.receiver.1 ⟨_, hp⟩] at hnone
          cases hnone
    | _ => cases hlacks

theorem lacksReceiver_of_bodyCode (hsettled : Settled scope) {index : Nat} {l : List Located}
    {code : List Instr} {after : State} (h : Yields scope (bodyCode index l) st code after) :
    ∀ s ∈ l, s.statement.lacksReceiver scope.unit scope.function = false := by
  induction l generalizing index st code after with
  | nil => nofun
  | cons s l ih =>
    obtain ⟨first, mid, rest, hfirst, hrest, -⟩ := yields_bodyCode_cons.1 h
    intro s' hs'
    rcases List.mem_cons.1 hs' with rfl | hs'
    · exact lacksReceiver_of_statementCode hsettled hfirst
    · exact ih hrest s' hs'

/-! ## Functions -/

section Entering

variable {abi : Abi} {f : Function} {e after : Entry}

theorem Entry.failsOnly_argument (position : Nat) (name : String) :
    Jil.FailsOnly Failure.IsUnsupported (Entry.argument abi position name origin) := by
  unfold argument
  split
  · exact .ok _
  · exact .error trivial

theorem Entry.failsOnly_receive (position : Nat) (p : Param) :
    Jil.FailsOnly Failure.IsUnsupported (e.receive abi position p origin) := by
  unfold receive
  exact .ite (fun _ => .bind (.error trivial) nofun) fun _ =>
    .bind (failsOnly_argument _ _) fun _ _ => .ok _

theorem Entry.failsOnly_receiveAll (position : Nat) (params : List Param) :
    Jil.FailsOnly Failure.IsUnsupported (e.receiveAll abi position origin params) := by
  induction params generalizing e position with
  | nil => exact .ok e
  | cons p params ih => exact .bind (failsOnly_receive _ _) fun _ _ => ih _

theorem Entry.failsOnly_ofFunction :
    Jil.FailsOnly Failure.IsUnsupported (Entry.ofFunction abi f origin) := by
  refine .bind (failsOnly_argument _ _) fun _ _ => ?_
  exact .ite (fun _ => .bind (failsOnly_receive _ _) fun _ _ =>
    failsOnly_receiveAll _ _) fun _ =>
    .bind (.ok _) fun _ _ => failsOnly_receiveAll _ _

/-- Parameters are received under their names. -/
theorem Entry.exists_get?_of_mem {position : Nat} {params : List Param} {p : Param}
    (hok : e.receiveAll abi position origin params = .ok after) (hp : p ∈ params) :
    ∃ q, after.params.get? p.name = some q := by
  induction params generalizing e position with
  | nil => cases hp
  | cons p' params ih =>
    obtain ⟨mid, hmid, hrest⟩ := bind_eq_ok.1 hok
    rcases List.mem_cons.1 hp with rfl | hp
    · obtain ⟨r, -, -, hparams, -⟩ := receive_eq_ok hmid
      exact exists_get?_receiveAll hrest
        ⟨_, (congrArg (Table.get? · p.name) hparams).trans (Table.get?_insert_self _ _ _)⟩
    · exact ih hrest hp

/-- An object is received by functions that know one. -/
theorem Entry.exists_receiver_iff (h : Entry.ofFunction abi f origin = .ok after) :
    (∃ p, after.params.get? "this" = some p) ↔ f.knowsReceiver = true := by
  obtain ⟨r, -, h⟩ := bind_eq_ok.1 h
  unfold Function.knowsReceiver
  rw [Bool.or_eq_true, List.any_eq_true]
  rcases ite_eq_ok.1 h with ⟨hkind, h⟩ | ⟨hkind, h⟩
  · obtain ⟨received, hreceived, h⟩ := bind_eq_ok.1 h
    obtain ⟨_, -, -, hparams, -⟩ := receive_eq_ok hreceived
    exact ⟨fun _ => .inl hkind, fun _ => exists_get?_receiveAll h
      ⟨_, (congrArg (Table.get? · "this") hparams).trans (Table.get?_insert_self _ _ _)⟩⟩
  · constructor
    · rintro ⟨p, hp⟩
      right
      by_cases hany : ∃ q ∈ f.params, q.name = "this"
      · obtain ⟨q, hq, hname⟩ := hany
        exact ⟨q, hq, decide_eq_true hname⟩
      · rw [get?_receiveAll h fun q hq hname => hany ⟨q, hq, hname⟩] at hp
        cases hp
    · rintro (hper | ⟨p, hp, hname⟩)
      · exact absurd hper hkind
      · rw [← of_decide_eq_true hname]
        exact exists_get?_of_mem h hp

end Entering

theorem failsOnly_copiesOf (body : List Statement) (index : Nat)
    (first second result : Register) :
    Jil.FailsOnly (fun e => Failure.IsUnsupported (.reported e))
      (copiesOf body index first second result origin) := by
  unfold copiesOf
  split
  · exact .error trivial
  · exact .ite (fun _ => .error trivial) fun _ => .ite (fun _ => .error trivial) fun _ => .ok _

theorem failsOnly_mergeCopies (f : Function) :
    Jil.FailsOnly (fun e => Failure.IsUnsupported (.reported e)) (mergeCopies f) := by
  refine .bind (.mapM fun s _ => ?_) fun _ _ => .ok _
  obtain ⟨s, index⟩ := s
  simp only
  split
  · exact failsOnly_copiesOf _ _ _ _ _
  · exact .ok _

section

variable {u : ClassUnit} {abi : Abi} {position : Nat} {f : Function}
  {types : Table Register Ty} {entry : Entry}

/-- A function that passed its check begins, or has a signature that is not compiled. -/
theorem failsOnly_scopeOf (hrecorded : f.registerTypes = some types) :
    Jil.FailsOnly Failure.IsUnsupported (scopeOf u abi position f) := by
  unfold scopeOf
  rw [hrecorded]
  refine .bind ?_ fun _ _ => .bind (.liftReported (failsOnly_mergeCopies f)) fun _ _ =>
    .bind Entry.failsOnly_ofFunction fun _ _ => .ok _
  unfold requireSignature
  exact .ite (fun _ => .bind (.error trivial) nofun) fun _ =>
    .ite (fun _ => .error trivial) fun _ => .ok ()

theorem settled_of_scopeOf (hf : Checked u position f) (ht : f.Typed u.name types)
    (h : scopeOf u abi position f = .ok (scope, entry)) : Settled scope := by
  obtain ⟨source, hcheck, -, -⟩ := hf
  obtain ⟨-, -, hindexed, -⟩ := ClassUnit.check_eq_ok hcheck
  have hcopies := copiesFit_of_scopeOf ht h
  obtain ⟨copies, -, rfl, hentry⟩ := scopeOf_eq_ok ht.recorded h
  exact ⟨hcopies, hindexed, ht.recorded, Entry.exists_receiver_iff hentry⟩

/-- How the statements at the beginning of a function are refused. -/
theorem failsOnly_bodyCode_start (habi : abi ∈ Abi.all) (hf : Checked u position f)
    (ht : f.Typed u.name types) (h : scopeOf u abi position f = .ok (scope, entry))
    {l rest : List Located} (hl : f.body = l ++ rest) (strings : Assembly.StringTable) :
    FailsOnly scope { strings := strings, drawn := entry.drawn }
      (fun e => ∃ s ∈ l, Refusal u f s e) (bodyCode 0 l) := by
  obtain ⟨w, -, harranged, -⟩ := arranged_start ht h strings
  have hsettled := settled_of_scopeOf hf ht h
  obtain ⟨copies, -, rfl, -⟩ := scopeOf_eq_ok ht.recorded h
  refine failsOnly_bodyCode habi hsettled harranged 0 (fun pre s post heq => ?_) fun s hs => ?_
  · exact ht.judged pre s (post ++ rest) (by rw [hl, heq]; simp)
  · exact hf.resolved ht.recorded (by rw [hl]; exact List.mem_append_left _ hs)

/-- A function fails as its statements do, or has a signature that is not compiled. -/
theorem failsOnly_ofFunction_of_bodyCode {P : Failure → Prop}
    (hrecorded : f.registerTypes = some types) (strings : Assembly.StringTable)
    (h : ∀ scope entry, scopeOf u abi position f = .ok (scope, entry) →
      FailsOnly scope { strings := strings, drawn := entry.drawn } P (bodyCode 0 f.body)) :
    Jil.FailsOnly (fun e => e.IsUnsupported ∨ P e)
      (ofFunction u abi position f strings).1 := by
  unfold ofFunction
  cases hscope : scopeOf u abi position f with
  | error e => exact .error (.inl (failsOnly_scopeOf hrecorded e hscope))
  | ok entered =>
    simp only
    split
    · next e state hrun => exact .error (.inr (h _ _ hscope e state hrun))
    · exact .ok _

/-- What goes wrong in the selection of a function that passed its check. -/
theorem failsOnly_ofFunction (habi : abi ∈ Abi.all) (hf : Checked u position f)
    (strings : Assembly.StringTable) :
    Jil.FailsOnly (fun e => e.IsUnsupported ∨ ∃ s ∈ f.body, Refusal u f s e)
      (ofFunction u abi position f strings).1 := by
  obtain ⟨types, ht⟩ := hf.typed
  exact failsOnly_ofFunction_of_bodyCode ht.recorded strings fun scope entry hscope =>
    failsOnly_bodyCode_start habi hf ht hscope (List.append_nil _).symm strings

/-- Statements behind one that never has code are not looked at. -/
theorem failsOnly_bodyCode_of_blocked {P : Failure → Prop} {index : Nat}
    {pre post : List Located} {s : Located}
    (hblocked : ∀ index st code after,
      ¬ Yields scope (statementCode index s.statement s.origin) st code after)
    (h : FailsOnly scope st P (bodyCode index (pre ++ [s]))) :
    FailsOnly scope st P (bodyCode index (pre ++ s :: post)) := by
  induction pre generalizing index st with
  | nil => exact .bind h.of_bind fun code mid hcode => absurd hcode (hblocked _ _ _ _)
  | cons first pre ih =>
    exact .bind h.of_bind fun code mid hcode =>
      .bind (ih (h.of_bind_yields hcode).of_bind) fun _ _ _ => .pure _

/-- What goes wrong in a function with a statement that never has code: that statement is
refused, or one in front of it. -/
theorem failsOnly_ofFunction_of_blocked (habi : abi ∈ Abi.all) (hf : Checked u position f)
    {pre post : List Located} {s : Located} (hs : f.body = pre ++ s :: post)
    (hblocked : ∀ scope entry, scopeOf u abi position f = .ok (scope, entry) →
      ∀ index st code after, ¬ Yields scope (statementCode index s.statement s.origin)
        st code after)
    (strings : Assembly.StringTable) :
    Jil.FailsOnly (fun e => e.IsUnsupported ∨ ∃ s' ∈ pre ++ [s], Refusal u f s' e)
      (ofFunction u abi position f strings).1 := by
  obtain ⟨types, ht⟩ := hf.typed
  refine failsOnly_ofFunction_of_bodyCode ht.recorded strings fun scope entry hscope => ?_
  rw [hs]
  refine failsOnly_bodyCode_of_blocked (hblocked scope entry hscope) ?_
  exact failsOnly_bodyCode_start habi hf ht hscope
    (hs.trans (List.append_assoc pre [s] post).symm) strings

/-- In a function that is selected no call lacks an object. -/
theorem lacksReceiver_of_ofFunction (hf : Checked u position f)
    {strings interned : Assembly.StringTable} {p : Pseudo.Function}
    (h : ofFunction u abi position f strings = (.ok p, interned)) :
    ∀ s ∈ f.body, s.statement.lacksReceiver u f = false := by
  obtain ⟨types, ht⟩ := hf.typed
  obtain ⟨scope, entry, body, state, hscope, hbody, -, -⟩ := ofFunction_eq_ok h
  have hsettled := settled_of_scopeOf hf ht hscope
  obtain ⟨copies, -, rfl, -⟩ := scopeOf_eq_ok ht.recorded hscope
  exact lacksReceiver_of_bodyCode hsettled hbody

end

end Selection

end Jil
