/-
Jil.Proofs.FloatingCalls — floating-point numbers and calls.

Operands and results of calls travel in general registers, where other code
neither looks for floating-point numbers nor leaves any. Selection refuses them
wherever a call passes one (`Passes.integral`), where a method returns one, and in
the signature of the function itself. It does not look at what a field of another
class holds when the field is read, and of two functions with one key it asks the
last for its result and calls the first. These two are what
`Statement.overlooked` lists; every other statement that needs such a call is
refused.
-/
import Jil.Proofs.References

namespace Jil

open Native (Service ValueKind)
open Pseudo (Instr bind_eq_ok ite_eq_ok)
open Selection (Integral Refers Scope UsesAll UsesField UsesStatic)

/-! ## Services for floating-point numbers -/

namespace Native

namespace ValueKind

def isFloating : ValueKind → Bool
  | .float | .double => true
  | _ => false

@[simp] theorem isFloating_ofTy (t : Ty) : (ofTy t).isFloating = t.isFloating := by
  cases t <;> rfl

theorem index_le (k : ValueKind) : k.index ≤ 9 := by
  cases k <;> decide

theorem index_inj {k l : ValueKind} (h : k.index = l.index) : k = l := by
  cases k <;> cases l <;> first | rfl | cases h

theorem index_of_isFloating {k : ValueKind} (h : k.isFloating = true) :
    k.index = 7 ∨ k.index = 8 := by
  cases k <;> first | exact .inl rfl | exact .inr rfl | cases h

end ValueKind

namespace Service

/-- Kind of the value that a service moves. -/
def kind? : Service → Option ValueKind
  | .callMethod k | .getField k | .setField k | .callStaticMethod k | .getStaticField k
  | .setStaticField k => some k
  | _ => none

/-- Whether a service moves floating-point numbers. -/
def isFloating (s : Service) : Bool := s.kind?.any ValueKind.isFloating

theorem isFloating_of_kind? {s : Service} {k : ValueKind} (h : s.kind? = some k) :
    s.isFloating = k.isFloating := by
  rw [isFloating, h]
  rfl

/-- A service for floating-point numbers shares its place in the table with no other, not even
with one for `void`, whose place belongs to another family. -/
theorem eq_of_offset_eq {s t : Service} (hs : s.isFloating = true) (h : s.offset = t.offset) :
    s = t := by
  have hindex : s.index = t.index := by
    unfold offset at h
    omega
  have hkind : ∀ k, s.kind? = some k → k.index = 7 ∨ k.index = 8 := fun k hk =>
    ValueKind.index_of_isFloating (isFloating_of_kind? hk ▸ hs)
  cases s <;> first | cases hs | skip
  -- what is left moves a value of kind `k`: a service of the same family has the same kind,
  -- and the places of the other families lie apart from the seventh and the eighth of this one
  all_goals
    next k =>
      have hk := hkind k rfl
      cases t <;> simp only [index] at hindex <;> first
        | exact congrArg _ (ValueKind.index_inj (by omega))
        | (exfalso; omega)
        | (next l => have := l.index_le; exfalso; omega)

end Service

end Native

/-! ## What a statement needs of other code -/

namespace ClassUnit

variable {u : ClassUnit} {owner field : String} {t : Ty} {origin : Origin}

/-- Type of a field that another class declares. -/
def otherField? (u : ClassUnit) (kind : MemberKind) (owner field : String) : Option Ty :=
  if owner = u.name then none else (u.externalField? kind owner field).map ExternalField.type

theorem otherField?_static : u.otherField? .static owner field = some t ↔
    owner ≠ u.name ∧ u.staticFieldType owner field origin = .ok t := by
  unfold otherField? staticFieldType
  by_cases howner : owner = u.name
  · simp [howner]
  · simp only [if_neg howner]
    cases u.externalField? .static owner field <;> simp [howner]

theorem otherField?_perObject : u.otherField? .perObject owner field = some t ↔
    owner ≠ u.name ∧ u.objectFieldType owner field origin = .ok t := by
  unfold otherField? objectFieldType
  by_cases howner : owner = u.name
  · simp [howner]
  · simp only [if_neg howner]
    cases u.externalField? .perObject owner field <;> simp [howner]

/-- The method that a call reaches. -/
def method? (u : ClassUnit) (owner : String) (key : MethodKey) : Option ResolvedMethod :=
  match u.findMethod? key (u.hierarchy.lineage owner) with
  | .ok found => found
  | .error _ => none

theorem method?_of_resolveMethod {method : String} {types : List Ty} {m : ResolvedMethod}
    (h : u.resolveMethod owner method types origin = .ok m) :
    u.method? owner ⟨method, types⟩ = some m := by
  unfold method?
  rw [resolveMethod_eq_ok.1 h]

end ClassUnit

/-- A method is found under its key. -/
theorem ClassUnit.key_of_findMethod? {u : ClassUnit} {key : MethodKey} {owners : List String}
    {m : ResolvedMethod} (h : u.findMethod? key owners = .ok (some m)) : m.key = key := by
  induction owners with
  | nil => cases h
  | cons owner owners ih =>
    rw [findMethod?] at h
    obtain ⟨found, hfound, h⟩ := bind_eq_ok.1 h
    split at h
    · next m' =>
      cases h
      unfold methodIn? at hfound
      split at hfound
      · obtain ⟨index, -, hfound⟩ := bind_eq_ok.1 hfound
        obtain ⟨info, -, rfl⟩ := Option.map_eq_some_iff.1 (Except.ok.inj hfound)
        rfl
      · obtain ⟨e, -, rfl⟩ := Option.map_eq_some_iff.1 (Except.ok.inj hfound)
        rfl
    · exact ih h

/-- The class of the object in a register. -/
def Function.classOf? (f : Function) (object : Register) : Option String :=
  (f.registerType? object).bind Ty.className?

/-- Whether the function passes or returns floating-point numbers. -/
def Function.passesFloating (f : Function) : Bool :=
  f.returns.isFloating || f.paramTypes.any Ty.isFloating

/-- The service that brings a method of another class its operands and takes its result
back. -/
def ResolvedMethod.exchange? (m : ResolvedMethod) : Option Service :=
  if m.isLocal then none
  else match m.info.kind with
    | .static => some (.callStaticMethod (.ofTy m.info.returns))
    | .perObject => some (.callMethod (.ofTy m.info.returns))

theorem ResolvedMethod.isFloating_of_exchange? {m : ResolvedMethod} {svc : Service}
    (h : m.exchange? = some svc) : svc.isFloating = m.info.returns.isFloating := by
  unfold exchange? at h
  split at h
  · cases h
  · split at h <;>
    · cases h
      rw [Service.isFloating_of_kind? rfl, ValueKind.isFloating_ofTy]

namespace Statement

/-- The method that a statement calls. -/
def target? (u : ClassUnit) (f : Function) : Statement → Option ResolvedMethod
  | .callActual _ owner method args _ =>
    (args.mapM f.registerType?).bind fun types => u.method? owner ⟨method, types⟩
  | .callVirtual object method args _ => (f.classOf? object).bind fun owner =>
    (args.mapM f.registerType?).bind fun types => u.method? owner ⟨method, types⟩
  | _ => none

/-- The service with which a statement moves a value to another class or from there. -/
def exchange? (u : ClassUnit) (f : Function) (s : Statement) : Option Service :=
  match s with
  | .getStatic owner field _ =>
    (u.otherField? .static owner field).map fun t => .getStaticField (.ofTy t)
  | .putStatic owner field _ =>
    (u.otherField? .static owner field).map fun t => .setStaticField (.ofTy t)
  | .getField object field _ => (f.classOf? object).bind fun owner =>
    (u.otherField? .perObject owner field).map fun t => .getField (.ofTy t)
  | .putField object field _ => (f.classOf? object).bind fun owner =>
    (u.otherField? .perObject owner field).map fun t => .setField (.ofTy t)
  | .callActual _ _ _ _ _ => (s.target? u f).bind ResolvedMethod.exchange?
  | .callVirtual _ _ _ _ => (s.target? u f).map fun m => .callMethod (.ofTy m.info.returns)
  | _ => none

/-- The function of the class that a statement calls by its symbol. -/
def ownCallee? (u : ClassUnit) (f : Function) (s : Statement) : Option Function :=
  match s with
  | .callActual _ _ _ _ _ =>
    (s.target? u f).bind fun m => if m.isLocal then u.functionOf? m.key else none
  | _ => none

/-- The registers whose values a statement hands to other code. -/
def handsOver (u : ClassUnit) (f : Function) : Statement → List Register
  | .putStatic owner _ src => if owner = u.name then [] else [src]
  | .putField object _ src => if f.classOf? object = some u.name then [] else [src]
  | .callActual _ _ _ args _ | .callVirtual _ _ args _ => args
  | _ => []

/-- Whether a statement needs a call that moves floating-point numbers. -/
def needsFloating (u : ClassUnit) (f : Function) (s : Statement) : Bool :=
  (s.exchange? u f).any Service.isFloating || (s.ownCallee? u f).any Function.passesFloating

/-- Whether selection does not see that a statement needs a call that moves floating-point
numbers: it reads a field of another class, or the method that it names returns none, but a
function in front of that one with the same key does. -/
def overlooked (u : ClassUnit) (f : Function) (s : Statement) : Bool :=
  match s with
  | .getStatic _ _ _ | .getField _ _ _ => s.needsFloating u f
  | .callActual _ _ _ _ _ => (s.ownCallee? u f).any (·.returns.isFloating)
    && (s.target? u f).all (!·.info.returns.isFloating)
  | _ => false

theorem needsFloating_eq_true {u : ClassUnit} {f : Function} {s : Statement} :
    s.needsFloating u f = true ↔
      (∃ svc, s.exchange? u f = some svc ∧ svc.isFloating = true)
        ∨ ∃ g, s.ownCallee? u f = some g ∧ g.passesFloating = true := by
  rw [needsFloating, Bool.or_eq_true, Option.any_eq_true, Option.any_eq_true]

theorem needsFloating_of_overlooked {u : ClassUnit} {f : Function} {s : Statement}
    (h : s.overlooked u f = true) : s.needsFloating u f = true := by
  cases s with
  | getStatic owner field result | getField object field result => exact h
  | callActual object owner method args result =>
    obtain ⟨hcallee, -⟩ := Bool.and_eq_true_iff.1 h
    obtain ⟨g, hg, hreturns⟩ := (Option.any_eq_true _ _).1 hcallee
    exact needsFloating_eq_true.2 (.inr ⟨g, hg, by simp [Function.passesFloating, hreturns]⟩)
  | _ => cases h

end Statement

theorem Function.classOf?_eq_some {f : Function} {object : Register} {owner : String} :
    f.classOf? object = some owner ↔ f.registerType? object = some (.classRef owner) := by
  unfold classOf?
  cases f.registerType? object with
  | none => exact ⟨nofun, nofun⟩
  | some t => cases t <;> simp [Ty.className?]

/-! ## Values that are written -/

/-- What a statement writes to a field fits the field. -/
def Statement.Deposits (u : ClassUnit) (types : Table Register Ty) (origin : Origin) :
    Statement → Prop
  | .putStatic owner field src =>
    ∃ declared value, u.staticFieldType owner field origin = .ok declared
      ∧ types.get? src = some value ∧ Typing.Stores declared value
  | .putField object field src =>
    ∃ owner declared value, types.get? object = some (.classRef owner)
      ∧ u.objectFieldType owner field origin = .ok declared
      ∧ types.get? src = some value ∧ Typing.Stores declared value
  | _ => True

namespace Typing

theorem deposits_of_effect {scope : Scope} {ctx : Context} {types : Table Register Ty}
    {origin : Origin} {s : Statement} {e : Effect} (h : effect scope ctx s origin = .ok e)
    (hknown : ∀ r t, ctx.registers.get? r = some t → types.get? r = some t) :
    s.Deposits scope.unit types origin := by
  cases judges_of_effect h with
  | putStatic hsrc hfield hassign =>
    exact ⟨_, _, hfield, hknown _ _ hsrc, stores_of_canAssign hassign⟩
  | putField hobject hsrc hfield hassign =>
    exact ⟨_, _, _, hknown _ _ hobject, hfield, hknown _ _ hsrc, stores_of_canAssign hassign⟩
  | _ => trivial

/-- A number fits only where a number of its type is declared. -/
theorem isFloating_of_stores {declared value : Ty} (h : Stores declared value)
    (hfloating : declared.isFloating = true) : value.isFloating = true := by
  rcases h with rfl | ⟨hreference, -⟩
  · exact hfloating
  · cases declared <;> simp [Ty.isFloating, Ty.isReference] at hfloating hreference

end Typing

/-- What the statements of a checked function write to fields. -/
theorem Checked.deposits {u : ClassUnit} {position : Nat} {f : Function}
    (h : Checked u position f) {types : Table Register Ty}
    (hrecorded : f.registerTypes = some types) {s : Located} (hs : s ∈ f.body) :
    s.statement.Deposits u types s.origin := by
  obtain ⟨scope, functions, ctx, e, hunit, -, heffect, hknown, -⟩ :=
    h.exists_effect hrecorded hs
  have hdeposits := Typing.deposits_of_effect heffect hknown
  rw [← hunit] at hdeposits
  obtain ⟨s, origin⟩ := s
  cases s <;> exact hdeposits

/-! ## Calls in code -/

namespace Selection

/-- Of the services for floating-point numbers a list holds at most a given one. -/
def Moves (services : List Service) (e : Option Service) : Prop :=
  ∀ svc, svc.isFloating = true → (svc ∈ services ↔ e = some svc)

theorem moves_none {services : List Service} (h : ∀ svc ∈ services, svc.isFloating = false) :
    Moves services none := by
  refine fun svc hsvc => ⟨fun hmem => ?_, nofun⟩
  rw [h svc hmem] at hsvc
  cases hsvc

/-- Services that move no values, and then one that does. -/
theorem moves_some {before : List Service} (h : ∀ svc ∈ before, svc.isFloating = false)
    (last : Service) : Moves (before ++ [last]) (some last) := by
  intro svc hsvc
  rw [List.mem_append, List.mem_singleton, moves_none h svc hsvc, Option.some.injEq]
  exact ⟨fun hsvc => (hsvc.resolve_left nofun).symm, fun hsvc => .inr hsvc.symm⟩

section Statements

variable {scope : Scope} {origin : Origin} {s : Statement} {services : List Service}
  {callees : List String} {access : ValueKind → Service}

theorem moves_of_usesStatic {owner field : String}
    (h : UsesStatic scope origin owner field access services) :
    Moves services
      ((scope.unit.otherField? .static owner field).map fun t => access (.ofTy t)) := by
  cases h with
  | own howner =>
    rw [ClassUnit.otherField?, if_pos howner]
    exact moves_none (List.forall_mem_nil _)
  | other howner ht =>
    rw [ClassUnit.otherField?_static.2 ⟨howner, ht⟩]
    exact @moves_some [.findClass, .getStaticFieldId] (by decide) _

variable (hregisters : scope.function.registerType? = scope.types.get?)

include hregisters

theorem moves_of_usesField {object : Register} {field : String}
    (h : UsesField scope origin object field access services) :
    Moves services ((scope.function.classOf? object).bind fun owner =>
      (scope.unit.otherField? .perObject owner field).map fun t => access (.ofTy t)) := by
  cases h with
  | own hobject =>
    rw [← hregisters, ← Function.classOf?_eq_some] at hobject
    rw [hobject, Option.bind_some, ClassUnit.otherField?, if_pos rfl]
    exact moves_none (List.forall_mem_nil _)
  | other howner hobject ht =>
    rw [← hregisters, ← Function.classOf?_eq_some] at hobject
    rw [hobject, Option.bind_some, ClassUnit.otherField?_perObject.2 ⟨howner, ht⟩]
    exact @moves_some [.getObjectClass, .getFieldId] (by decide) _

theorem target?_callActual {object : Option Register} {owner method : String}
    {args : List Register} {result : Option Register} {types : List Ty}
    {target : ResolvedMethod} (htypes : args.mapM scope.types.get? = some types)
    (htarget : scope.unit.resolveMethod owner method types origin = .ok target) :
    (Statement.callActual object owner method args result).target? scope.unit scope.function
      = some target := by
  simp only [Statement.target?, hregisters, htypes, Option.bind_some]
  exact ClassUnit.method?_of_resolveMethod htarget

theorem target?_callVirtual {object : Register} {owner method : String} {args : List Register}
    {result : Option Register} {types : List Ty} {target : ResolvedMethod}
    (hobject : scope.types.get? object = some (.classRef owner))
    (htypes : args.mapM scope.types.get? = some types)
    (htarget : scope.unit.resolveMethod owner method types origin = .ok target) :
    (Statement.callVirtual object method args result).target? scope.unit scope.function
      = some target := by
  rw [← hregisters, ← Function.classOf?_eq_some] at hobject
  simp only [Statement.target?, hregisters, hobject, htypes, Option.bind_some]
  exact ClassUnit.method?_of_resolveMethod htarget

/-- The services and functions that the code of an accepted statement calls, as far as they
could move floating-point numbers. -/
theorem moves_of_uses (h : s.Uses scope origin services callees)
    (haccepted : s.Accepted scope origin) :
    Moves services (s.exchange? scope.unit scope.function)
      ∧ callees = (s.ownCallee? scope.unit scope.function).toList.map
          (scope.unit.functionSymbol scope.abi) := by
  cases s with
  | getStatic owner field result | putStatic owner field src =>
    exact ⟨moves_of_usesStatic h.1, h.2⟩
  | getField object field result | putField object field src =>
    exact ⟨moves_of_usesField hregisters h.1, h.2⟩
  | getStaticAddress owner field result =>
    obtain ⟨huses, rfl⟩ := h
    cases huses with
    | own _ => exact ⟨moves_none (List.forall_mem_nil _), rfl⟩
    | other howner _ => exact absurd haccepted howner
  | getFieldAddress object field result =>
    obtain ⟨huses, rfl⟩ := h
    cases huses with
    | own _ => exact ⟨moves_none (List.forall_mem_nil _), rfl⟩
    | other howner hobject _ =>
      obtain rfl := Ty.classRef.inj (Option.some.inj (hobject.symm.trans haccepted))
      exact absurd rfl howner
  | callActual object owner method args result =>
    obtain ⟨types, target, htypes, htarget, rfl, rfl⟩ := h
    have hmethod :=
      @target?_callActual scope origin hregisters object _ _ _ result _ _ htypes htarget
    have hkey := ClassUnit.key_of_findMethod? (ClassUnit.resolveMethod_eq_ok.1 htarget)
    simp only [Statement.exchange?, Statement.ownCallee?, hmethod, Option.bind_some, hkey]
    unfold ResolvedMethod.services ResolvedMethod.exchange? ClassUnit.callees
    cases hlocal : target.isLocal with
    | true =>
      cases target.info.kind with
      | static => exact ⟨@moves_none [.findClass] (by decide), rfl⟩
      | perObject => exact ⟨moves_none (List.forall_mem_nil _), rfl⟩
    | false =>
      cases target.info.kind with
      | static => exact ⟨@moves_some [.findClass, .getStaticMethodId] (by decide) _, rfl⟩
      | perObject => exact ⟨@moves_some [.findClass, .getMethodId] (by decide) _, rfl⟩
  | callVirtual object method args result =>
    obtain ⟨owner, types, target, hobject, htypes, htarget, rfl, rfl⟩ := h
    have hmethod :=
      @target?_callVirtual scope origin hregisters object _ _ _ result _ _ hobject
        htypes htarget
    simp only [Statement.exchange?, hmethod, Option.map_some]
    exact ⟨@moves_some [.getObjectClass, .getMethodId] (by decide) _, rfl⟩
  | string value result =>
    obtain ⟨rfl, rfl⟩ := h
    exact ⟨moves_none (by decide), rfl⟩
  | _ =>
    obtain ⟨rfl, rfl⟩ := h
    exact ⟨moves_none (List.forall_mem_nil _), rfl⟩

/-- No accepted statement hands over a floating-point number. -/
theorem integral_of_accepted (haccepted : s.Accepted scope origin) :
    ∀ r ∈ s.handsOver scope.unit scope.function, Integral scope r := by
  cases s with
  | putStatic owner field src =>
    simp only [Statement.handsOver]
    split
    · exact List.forall_mem_nil _
    · next howner => exact List.forall_mem_singleton.2 (haccepted howner)
  | putField object field src =>
    simp only [Statement.handsOver]
    split
    · exact List.forall_mem_nil _
    · next howner =>
      rw [Function.classOf?_eq_some, hregisters] at howner
      exact List.forall_mem_singleton.2 (haccepted howner)
  | callActual object owner method args result | callVirtual object method args result =>
    exact haccepted.1
  | _ => exact List.forall_mem_nil _

/-- A function that is called has parameters of the types of the operands. -/
theorem paramTypes_of_ownCallee? {object : Option Register} {owner method : String}
    {args : List Register} {result : Option Register} {types : List Ty}
    {target : ResolvedMethod} {g : Function} (htypes : args.mapM scope.types.get? = some types)
    (htarget : scope.unit.resolveMethod owner method types origin = .ok target)
    (hg : (Statement.callActual object owner method args result).ownCallee? scope.unit
      scope.function
      = some g) : g.paramTypes = types := by
  have hkey := ClassUnit.key_of_findMethod? (ClassUnit.resolveMethod_eq_ok.1 htarget)
  rw [Statement.ownCallee?, target?_callActual hregisters htypes htarget,
    Option.bind_some, hkey] at hg
  obtain ⟨-, hfound⟩ := Option.ite_none_right_eq_some.1 hg
  have hsame := List.find?_some hfound
  simp only [Bool.and_eq_true, decide_eq_true_eq] at hsame
  exact hsame.2

/-- An accepted statement that needs a call for floating-point numbers is overlooked. -/
theorem overlooked_of_needsFloating (h : s.Uses scope origin services callees)
    (haccepted : s.Accepted scope origin)
    (hdeposits : s.Deposits scope.unit scope.types origin)
    (hneeds : s.needsFloating scope.unit scope.function = true) :
    s.overlooked scope.unit scope.function = true := by
  have hintegral := integral_of_accepted hregisters haccepted
  have hrefused : ∀ {r : Register} {t : Ty}, r ∈ s.handsOver scope.unit scope.function →
      scope.types.get? r = some t → t.isFloating = true →
      False := fun {r t} hr ht hfloating => by
    rw [hintegral r hr t ht] at hfloating
    cases hfloating
  cases s with
  | getStatic owner field result | getField object field result => exact hneeds
  | putStatic owner field src =>
    obtain ⟨svc, hsvc, hfloating⟩ :=
      (Statement.needsFloating_eq_true.1 hneeds).resolve_right nofun
    obtain ⟨t, ht, rfl⟩ := Option.map_eq_some_iff.1 hsvc
    obtain ⟨declared, value, hdeclared, hvalue, hstores⟩ := hdeposits
    obtain ⟨howner, hfield⟩ := (@ClassUnit.otherField?_static _ _ _ _ origin).1 ht
    obtain rfl := Except.ok.inj (hfield.symm.trans hdeclared)
    rw [Service.isFloating_of_kind? rfl, ValueKind.isFloating_ofTy] at hfloating
    exact (hrefused (by simp [Statement.handsOver, howner]) hvalue
      (Typing.isFloating_of_stores hstores hfloating)).elim
  | putField object field src =>
    obtain ⟨svc, hsvc, hfloating⟩ :=
      (Statement.needsFloating_eq_true.1 hneeds).resolve_right nofun
    obtain ⟨owner, hclass, hsvc⟩ := Option.bind_eq_some_iff.1 hsvc
    obtain ⟨t, ht, rfl⟩ := Option.map_eq_some_iff.1 hsvc
    obtain ⟨owner', declared, value, hobject, hdeclared, hvalue, hstores⟩ := hdeposits
    rw [← hregisters, ← Function.classOf?_eq_some] at hobject
    obtain rfl := Option.some.inj (hclass.symm.trans hobject)
    obtain ⟨howner, hfield⟩ := (@ClassUnit.otherField?_perObject _ _ _ _ origin).1 ht
    obtain rfl := Except.ok.inj (hfield.symm.trans hdeclared)
    rw [Service.isFloating_of_kind? rfl, ValueKind.isFloating_ofTy] at hfloating
    exact (hrefused (by simp [Statement.handsOver, hclass, howner]) hvalue
      (Typing.isFloating_of_stores hstores hfloating)).elim
  | callActual object owner method args result =>
    obtain ⟨types, target, htypes, htarget, -, -⟩ := h
    have hreturns := haccepted.2 types target htypes htarget
    have hmethod :=
      @target?_callActual scope origin hregisters object _ _ _ result _ _ htypes htarget
    rcases Statement.needsFloating_eq_true.1 hneeds with ⟨svc, hsvc, hfloating⟩
      | ⟨g, hg, hfloating⟩
    · rw [Statement.exchange?, hmethod, Option.bind_some] at hsvc
      rw [ResolvedMethod.isFloating_of_exchange? hsvc, hreturns] at hfloating
      cases hfloating
    · rw [Function.passesFloating, Bool.or_eq_true, List.any_eq_true] at hfloating
      rcases hfloating with hfloating | ⟨t, ht, hfloating⟩
      · simp [Statement.overlooked, hg, hmethod, hfloating, hreturns]
      · rw [paramTypes_of_ownCallee? hregisters htypes htarget hg] at ht
        obtain ⟨r, hr, hget⟩ := (Pseudo.exists_of_mapM_eq_some htypes).2 t ht
        exact (hrefused hr hget hfloating).elim
  | callVirtual object method args result =>
    obtain ⟨owner, types, target, hobject, htypes, htarget, -, -⟩ := h
    have hreturns := haccepted.2 owner types target hobject htypes htarget
    have hmethod :=
      @target?_callVirtual scope origin hregisters object _ _ _ result _ _ hobject
        htypes htarget
    obtain ⟨svc, hsvc, hfloating⟩ :=
      (Statement.needsFloating_eq_true.1 hneeds).resolve_right nofun
    rw [Statement.exchange?, hmethod] at hsvc
    cases hsvc
    rw [Service.isFloating_of_kind? rfl, ValueKind.isFloating_ofTy, hreturns] at hfloating
    cases hfloating
  | _ => cases hneeds

/-- The calls of statements, one statement after the other. -/
theorem moves_of_usesAll {l : List Located} (h : UsesAll scope l services callees)
    (haccepted : ∀ s ∈ l, s.statement.Accepted scope s.origin) :
    (∀ svc, svc.isFloating = true →
      (svc ∈ services ↔ ∃ s ∈ l, s.statement.exchange? scope.unit scope.function = some svc))
    ∧ callees = (l.filterMap fun s => s.statement.ownCallee? scope.unit scope.function).map
        (scope.unit.functionSymbol scope.abi) := by
  induction h with
  | nil => exact ⟨fun svc _ => by simp, rfl⟩
  | @cons s l services more callees others hs hl ih =>
    obtain ⟨hfirst, hrest⟩ := List.forall_mem_cons.1 haccepted
    obtain ⟨hmoves, hcallees⟩ := moves_of_uses hregisters hs hfirst
    obtain ⟨hall, hothers⟩ := ih hrest
    refine ⟨fun svc hsvc => ?_, ?_⟩
    · simp only [List.mem_append, hmoves svc hsvc, hall svc hsvc, List.mem_cons,
        exists_eq_or_imp]
    · rw [hcallees, hothers, List.filterMap_cons, ← List.map_append]
      cases s.statement.ownCallee? scope.unit scope.function <;> rfl

end Statements

end Selection

/-! ## Functions -/

/-- The functions of the class that a function calls by their symbols. -/
def Function.ownCallees (u : ClassUnit) (f : Function) : List Function :=
  f.body.filterMap fun s => s.statement.ownCallee? u f

namespace Selection

open Machine (Abi)

/-- Code whose calls move no floating-point numbers: no service for them is called, and no
function that takes or returns one. -/
structure Confined (u : ClassUnit) (f : Function) (code : List Instr) : Prop where
  services : ∀ svc : Service, svc.isFloating = true →
    (svc.offset : Int) ∉ code.filterMap Instr.service?
  callees : ∀ g ∈ f.ownCallees u, g.passesFloating = false

/-- What the code of a function has to do with floating-point numbers outside of it. -/
structure Exchanges (u : ClassUnit) (abi : Abi) (f : Function) (code : List Instr) : Prop where
  /-- Its callers hand over none and get none back. -/
  signature : f.passesFloating = false
  /-- Its statements hand over none. -/
  operands : ∀ s ∈ f.body, ∀ r ∈ s.statement.handsOver u f, ∀ t, f.registerType? r = some t →
    t.isFloating = false
  /-- Services for them are called for the statements that need one. -/
  services : ∀ svc : Service, svc.isFloating = true →
    ((svc.offset : Int) ∈ code.filterMap Instr.service?
      ↔ ∃ s ∈ f.body, s.statement.exchange? u f = some svc)
  /-- The functions that are called by their symbols, in order. -/
  callees : code.filterMap Instr.callee? = (f.ownCallees u).map (u.functionSymbol abi)

section

variable {u : ClassUnit} {abi : Abi} {position : Nat} {f : Function} {scope : Scope}
  {entry : Entry} {strings interned : Assembly.StringTable} {p : Pseudo.Function}

theorem Entry.isFloating_of_receiveAll {e after : Entry} {place : Nat} {origin : Origin}
    {params : List Param} (h : e.receiveAll abi place origin params = .ok after) :
    ∀ q ∈ params, q.type.isFloating = false := by
  induction params generalizing e place with
  | nil => exact List.forall_mem_nil _
  | cons q params ih =>
    obtain ⟨mid, hmid, h⟩ := bind_eq_ok.1 h
    refine List.forall_mem_cons.2 ⟨?_, ih h⟩
    unfold receive at hmid
    rcases ite_eq_ok.1 hmid with ⟨-, hmid⟩ | ⟨hintegral, -⟩
    · cases hmid
    · exact Bool.eq_false_iff.2 hintegral

/-- Functions that begin take and return no floating-point numbers. -/
theorem passesFloating_of_scopeOf (h : scopeOf u abi position f = .ok (scope, entry)) :
    f.passesFloating = false := by
  obtain ⟨types, htypes⟩ := exists_types_of_scopeOf h
  obtain ⟨-, -, -, hentry⟩ := scopeOf_eq_ok htypes h
  have hparams : ∀ q ∈ f.params, q.type.isFloating = false := by
    obtain ⟨r, -, hentry⟩ := bind_eq_ok.1 hentry
    rcases ite_eq_ok.1 hentry with ⟨-, hentry⟩ | ⟨-, hentry⟩
    · obtain ⟨received, -, hentry⟩ := bind_eq_ok.1 hentry
      exact Entry.isFloating_of_receiveAll hentry
    · exact Entry.isFloating_of_receiveAll hentry
  have hreturns : f.returns.isFloating = false := by
    unfold scopeOf at h
    rw [htypes] at h
    obtain ⟨⟨⟩, hsignature, -⟩ := bind_eq_ok.1 h
    unfold requireSignature at hsignature
    rcases ite_eq_ok.1 hsignature with ⟨-, hsignature⟩ | ⟨-, hsignature⟩
    · obtain ⟨_, hsignature, -⟩ := bind_eq_ok.1 hsignature
      cases hsignature
    · rcases ite_eq_ok.1 hsignature with ⟨-, hsignature⟩ | ⟨hintegral, -⟩
      · cases hsignature
      · exact Bool.eq_false_iff.2 hintegral
  rw [Function.passesFloating, hreturns, Bool.false_or, List.any_eq_false]
  intro t ht
  obtain ⟨q, hq, rfl⟩ := List.mem_map.1 ht
  rw [hparams q hq]
  exact Bool.false_ne_true

/-- The calls of a stream, and what its statements need. -/
theorem exchanges_of_ofFunction (hf : Checked u position f)
    (h : ofFunction u abi position f strings = (.ok p, interned)) :
    Exchanges u abi f p.code
      ∧ ∀ s ∈ f.body, s.statement.needsFloating u f = true →
        s.statement.overlooked u f = true := by
  obtain ⟨types, ht⟩ := hf.typed
  obtain ⟨scope, entry, hscope, -, haccounts⟩ := accounted_of_ofFunction h
  have hregisters := (settled_of_scopeOf hf ht hscope).registerType?_eq
  obtain ⟨copies, -, hsame, -⟩ := scopeOf_eq_ok ht.recorded hscope
  have hsignature := passesFloating_of_scopeOf hscope
  obtain ⟨⟨services, callees, huses, hrefers⟩, haccepted⟩ := haccounts _ (Nat.le_refl _)
  obtain ⟨hmoves, hcallees⟩ := moves_of_usesAll hregisters huses haccepted
  subst hsame
  refine ⟨⟨hsignature, fun s hs r hr t hrt => ?_, fun svc hsvc => ?_, ?_⟩,
    fun s hs hneeds => ?_⟩
  · exact integral_of_accepted hregisters (haccepted s hs) r hr t (hregisters ▸ hrt)
  · rw [hrefers.services, ← hmoves svc hsvc, List.mem_map]
    constructor
    · rintro ⟨other, hother, heq⟩
      rwa [Service.eq_of_offset_eq hsvc (Int.ofNat.inj heq.symm)]
    · exact fun hmem => ⟨svc, hmem, rfl⟩
  · rw [hrefers.callees, hcallees]
    rfl
  · obtain ⟨own, called, hs'⟩ := huses.of_mem s hs
    exact overlooked_of_needsFloating hregisters hs' (haccepted s hs)
      (hf.deposits ht.recorded hs) hneeds

/-- A stream moves no floating-point numbers exactly when none of its statements
needs a call that does. -/
theorem confined_iff_needsFloating {code : List Instr} (h : Exchanges u abi f code) :
    Confined u f code ↔ ∀ s ∈ f.body, s.statement.needsFloating u f = false := by
  constructor
  · intro hconfined s hs
    refine Bool.eq_false_iff.2 fun hneeds => ?_
    rcases Statement.needsFloating_eq_true.1 hneeds with ⟨svc, hsvc, hfloating⟩
      | ⟨g, hg, hfloating⟩
    · exact hconfined.services svc hfloating ((h.services svc hfloating).2 ⟨s, hs, hsvc⟩)
    · rw [hconfined.callees g (List.mem_filterMap.2 ⟨s, hs, hg⟩)] at hfloating
      cases hfloating
  · intro hnone
    have hneeds : ∀ s ∈ f.body, ¬ s.statement.needsFloating u f = true := fun s hs =>
      Bool.eq_false_iff.1 (hnone s hs)
    refine ⟨fun svc hfloating hmem => ?_, fun g hg => Bool.eq_false_iff.2 fun hfloating => ?_⟩
    · obtain ⟨s, hs, hsvc⟩ := (h.services svc hfloating).1 hmem
      exact hneeds s hs (Statement.needsFloating_eq_true.2 (.inl ⟨svc, hsvc, hfloating⟩))
    · obtain ⟨s, hs, hg⟩ := List.mem_filterMap.1 hg
      exact hneeds s hs (Statement.needsFloating_eq_true.2 (.inr ⟨g, hg, hfloating⟩))

/-- A statement that needs a call for floating-point numbers and is not
overlooked has no code. -/
theorem not_yields_of_needsFloating (hf : Checked u position f)
    (hscope : scopeOf u abi position f = .ok (scope, entry)) {s : Located} (hs : s ∈ f.body)
    (hneeds : s.statement.needsFloating u f = true)
    (hseen : s.statement.overlooked u f = false) (index : Nat) (st : State) (code : List Instr)
    (after : State) :
    ¬ Yields scope (statementCode index s.statement s.origin) st code after := by
  intro h
  obtain ⟨types, ht⟩ := hf.typed
  have hregisters := (settled_of_scopeOf hf ht hscope).registerType?_eq
  obtain ⟨copies, -, rfl, -⟩ := scopeOf_eq_ok ht.recorded hscope
  obtain ⟨-, haccounts⟩ := links_statementCode index s.statement st code after h
  obtain ⟨⟨services, callees, huses, -⟩, haccepted⟩ := haccounts _ (Nat.le_refl _)
  have hoverlooked := overlooked_of_needsFloating hregisters huses haccepted
    (hf.deposits ht.recorded hs) hneeds
  rw [hseen] at hoverlooked
  cases hoverlooked

/-- The calls of a function that is selected move floating-point numbers only for the
statements that are overlooked: they move none exactly when there is no such statement. With
any other statement that needs a call for floating-point numbers a function is not selected,
and it is unsupported unless a call at or in front of that statement lacks an object. -/
theorem confined_iff_and_unsupported (habi : abi ∈ Abi.all) (hf : Checked u position f)
    (strings : Assembly.StringTable) :
    (∀ p interned, ofFunction u abi position f strings = (.ok p, interned) →
      Exchanges u abi f p.code
        ∧ (Confined u f p.code ↔ ∀ s ∈ f.body, s.statement.overlooked u f = false))
    ∧ ∀ pre s post, f.body = pre ++ s :: post → s.statement.needsFloating u f = true →
      s.statement.overlooked u f = false →
      ∃ e interned, ofFunction u abi position f strings = (.error e, interned)
        ∧ ((∀ s' ∈ pre ++ [s], s'.statement.lacksReceiver u f = false) → e.IsUnsupported) := by
  refine ⟨fun p interned h => ?_, fun pre s post hbody hneeds hseen => ?_⟩
  · obtain ⟨hexchanges, hoverlooked⟩ := exchanges_of_ofFunction hf h
    refine ⟨hexchanges, (confined_iff_needsFloating hexchanges).trans ?_⟩
    refine forall₂_congr fun s hs => ?_
    rw [Bool.eq_false_iff, Bool.eq_false_iff]
    exact not_congr ⟨hoverlooked s hs, Statement.needsFloating_of_overlooked⟩
  · have hs : s ∈ f.body := hbody ▸ List.mem_append_right _ List.mem_cons_self
    have hfails := failsOnly_ofFunction_of_blocked habi hf hbody
      (fun scope entry hscope => not_yields_of_needsFloating hf hscope hs hneeds hseen) strings
    cases hrun : ofFunction u abi position f strings with
    | mk outcome interned =>
      cases outcome with
      | ok p =>
        have hoverlooked := (exchanges_of_ofFunction hf hrun).2 s hs hneeds
        rw [hseen] at hoverlooked
        cases hoverlooked
      | error e =>
        refine ⟨e, interned, rfl, fun hobjects => ?_⟩
        rcases hfails e (by rw [hrun]) with h | ⟨s', hs', h⟩
        · exact h
        · cases h with
          | unsupported h => exact h
          | receiver _ hlacks =>
            rw [hobjects s' hs'] at hlacks
            cases hlacks

end

/-- A function that reads a number of another class. -/
def tally : Function :=
  ((do
      let _ ← .getStatic "pkg/Other" "count"
      .returnVoid : Function.Build Unit).run
    { name := "tally", kind := .static, params := [], returns := .void }).2

/-- A function that writes a floating-point number of another class. -/
def publish : Function :=
  ((do
      let half ← .literal .double "0.5"
      .putStatic "pkg/Other" "ratio" half
      .returnVoid : Function.Build Unit).run
    { name := "publish", kind := .static, params := [], returns := .void }).2

/-- A function that reads a floating-point number of another class. -/
def observe : Function :=
  ((do
      let _ ← .getStatic "pkg/Other" "ratio"
      .returnVoid : Function.Build Unit).run
    { name := "observe", kind := .static, params := [], returns := .void }).2

/-- The class of the three functions, with the two fields that they use. -/
def ledgerSource : ClassUnit :=
  (((((ClassUnit.create "pkg/Ledger").declareField ⟨"pkg/Other", "count", .int,
    .static⟩).declareField
    ⟨"pkg/Other", "ratio", .double, .static⟩).addFunction tally).addFunction
      publish).addFunction
    observe

/-- The class after its check. -/
def ledgerUnit : ClassUnit := ledgerSource.check.1

/-- A function with the types that its check finds. -/
def withTypes (f : Function) (types : List (Register × Ty)) : Function :=
  { f with registerTypes := some ⟨types⟩ }

theorem checked_ledger {position : Nat} {f : Function}
    (h : ledgerUnit.functions[position]? = some f) :
    Checked ledgerUnit position f := by
  refine ⟨ledgerSource, rfl, ?_, h⟩
  have hfunctions : ledgerSource.functions = [tally, publish, observe] := rfl
  have hdrawn : ∀ g ∈ [tally, publish, observe], g.Drawn := by
    unfold Function.Drawn
    decide
  rwa [hfunctions]

/-- A function that reads an integer of another class moves no floating-point number, and one
that writes a floating-point number there is unsupported. -/
theorem tally_confined_publish_unsupported :
    Abi.systemV ∈ Abi.all
    ∧ Checked ledgerUnit 0 (withTypes tally [(⟨0⟩, .int)])
    ∧ Checked ledgerUnit 1 (withTypes publish [(⟨0⟩, .double)])
    ∧ (∃ p interned, ofFunction ledgerUnit .systemV 0 (withTypes tally [(⟨0⟩, .int)]) {}
        = (.ok p, interned) ∧ Confined ledgerUnit (withTypes tally [(⟨0⟩, .int)]) p.code)
    ∧ ∃ e interned, ofFunction ledgerUnit .systemV 1 (withTypes publish [(⟨0⟩, .double)]) {}
        = (.error e, interned) ∧ e.IsUnsupported := by
  have habi : Abi.systemV ∈ Abi.all := by decide
  have htally : Checked ledgerUnit 0 (withTypes tally [(⟨0⟩, .int)]) := checked_ledger rfl
  have hpublish : Checked ledgerUnit 1 (withTypes publish [(⟨0⟩, .double)]) :=
    checked_ledger rfl
  refine ⟨habi, htally, hpublish, ?_, ?_⟩
  · obtain ⟨p, interned, hp⟩ : ∃ p interned,
        ofFunction ledgerUnit .systemV 0 (withTypes tally [(⟨0⟩, .int)]) {}
          = (.ok p, interned) :=
      ⟨_, _, rfl⟩
    obtain ⟨-, hconfined⟩ := (confined_iff_and_unsupported habi htally {}).1 p interned hp
    exact ⟨p, interned, hp, hconfined.2 (by decide)⟩
  · obtain ⟨e, interned, he, hunsupported⟩ := (confined_iff_and_unsupported habi hpublish {}).2
      [⟨.literal .double "0.5" ⟨0⟩, .generated⟩] ⟨.putStatic "pkg/Other" "ratio" ⟨0⟩,
        .generated⟩
      [⟨.returnVoid, .generated⟩] rfl (by decide) rfl
    exact ⟨e, interned, he, hunsupported (by decide)⟩

/-- Reading a floating-point number of another class calls the service for it, and takes what
the service leaves in a general register. -/
theorem observe_reads_general_register :
    Checked ledgerUnit 2 (withTypes observe [(⟨0⟩, .double)])
    ∧ ∃ p interned, ofFunction ledgerUnit .systemV 2 (withTypes observe [(⟨0⟩, .double)]) {}
        = (.ok p, interned)
      ∧ ((Service.getStaticField .double).offset : Int) ∈ p.code.filterMap Instr.service?
      ∧ .mov .double (.fixed .rax) (.pseudo ⟨0, .double⟩) ∈ p.code
      ∧ ¬ Confined ledgerUnit (withTypes observe [(⟨0⟩, .double)]) p.code := by
  have hchecked : Checked ledgerUnit 2 (withTypes observe [(⟨0⟩, .double)]) :=
    checked_ledger rfl
  obtain ⟨p, interned, hp, hservice, hresult⟩ : ∃ p interned,
      ofFunction ledgerUnit .systemV 2 (withTypes observe [(⟨0⟩, .double)]) {}
        = (.ok p, interned)
      ∧ ((Service.getStaticField .double).offset : Int) ∈ p.code.filterMap Instr.service?
      ∧ .mov .double (.fixed .rax) (.pseudo ⟨0, .double⟩) ∈ p.code :=
    ⟨_, _, rfl, by decide, by decide⟩
  exact ⟨hchecked, p, interned, hp, hservice, hresult, fun h => h.services _ rfl hservice⟩

end Selection

end Jil
