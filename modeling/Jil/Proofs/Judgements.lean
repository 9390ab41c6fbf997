/-
Jil.Proofs.Judgements — what a judgement on a statement rests on.

`Judges` has one case for each kind of statement: its effect, and what had to be
known of its registers, names and labels for the statement to pass. What is
shown of statements that pass is shown by cases of `Judges`, so that a judgement
is taken apart here only (`judges_of_effect`).
-/
import Jil.Proofs.Flow
import Jil.Typing.Check

namespace Jil

open Pseudo (bind_eq_ok ite_eq_ok)

/-- What can only be reported, among computations that can also fault. -/
theorem liftReported_eq_ok {α : Type} {x : Except CompileError α} {a : α} :
    (liftM x : Except Failure α) = .ok a ↔ x = .ok a := by
  cases x with
  | ok b =>
    constructor <;>
      · intro h
        cases h
        rfl
  | error e => exact ⟨nofun, nofun⟩

namespace Typing

/-! ## Looking up -/

namespace Context

variable {ctx : Context} {r : Register} {name owner : String} {origin : Origin} {t : Ty}

theorem register_eq_ok : ctx.register r origin = .ok t ↔ ctx.registers.get? r = some t := by
  unfold register
  cases ctx.registers.get? r <;> simp

theorem localType_eq_ok :
    ctx.localType name origin = .ok t ↔ ctx.locals.get? name = some t := by
  unfold localType
  cases ctx.locals.get? name <;> simp

theorem param_eq_ok : ctx.param name origin = .ok t ↔ ctx.params.get? name = some t := by
  unfold param
  cases ctx.params.get? name <;> simp

theorem objectClass_eq_ok :
    ctx.objectClass r origin = .ok owner ↔ ctx.registers.get? r = some (.classRef owner) := by
  rw [← @register_eq_ok ctx r origin]
  unfold objectClass
  cases ctx.register r origin with
  | error e => exact ⟨nofun, nofun⟩
  | ok t =>
    cases t with
    | classRef name =>
      constructor <;>
        · intro h
          cases h
          rfl
    | _ => exact ⟨nofun, nofun⟩

/-- Operands are looked up one after the other. -/
theorem mapM_get?_of_mapM_register {args : List Register} {argTypes : List Ty}
    (h : args.mapM (ctx.register · origin) = .ok argTypes) :
    args.mapM ctx.registers.get? = some argTypes := by
  induction args generalizing argTypes with
  | nil =>
    cases h
    rfl
  | cons a args ih =>
    rw [List.mapM_cons] at h
    obtain ⟨t, ht, h⟩ := bind_eq_ok.1 h
    obtain ⟨rest, hrest, h⟩ := bind_eq_ok.1 h
    cases h
    rw [List.mapM_cons, register_eq_ok.1 ht, ih hrest]
    rfl

end Context

theorem exists_of_mapM_get? {types : Table Register Ty} {args : List Register}
    {argTypes : List Ty} (h : args.mapM types.get? = some argTypes) :
    ∀ r ∈ args, ∃ t, types.get? r = some t := by
  intro r hr
  obtain ⟨t, -, ht⟩ := (Pseudo.exists_of_mapM_eq_some h).1 r hr
  exact ⟨t, ht⟩

section

variable {scope : Scope} {ctx : Context} {origin : Origin} {e : Effect}

theorem canAssign_of_requireAssignable {declared value : Ty} {store : Store}
    (h : scope.requireAssignable declared value store origin = .ok ()) :
    scope.unit.hierarchy.canAssign declared value = true := by
  unfold Scope.requireAssignable at h
  split at h
  · next hok => exact hok
  · cases h

theorem mem_labels_of_requireLabel {l : Label} (h : scope.requireLabel l origin = .ok ()) :
    l ∈ scope.function.labels := by
  unfold Scope.requireLabel at h
  split at h
  · next hmem => exact hmem
  · cases h

theorem reference_of_requireReceiver {object : Option Register} {owner method : String}
    (h : requireReceiver ctx object owner method origin = .ok ()) :
    ∀ r, object = some r → ∃ t, ctx.registers.get? r = some t ∧ t.isReference = true := by
  rintro r rfl
  obtain ⟨t, ht, h⟩ := bind_eq_ok.1 h
  rcases ite_eq_ok.1 h with ⟨hreference, -⟩ | ⟨-, h⟩
  · exact ⟨t, Context.register_eq_ok.1 ht, hreference⟩
  · cases h

/-! ## Judgements -/

/-- The register that an effect gives a type. -/
def Effect.defined? : Effect → Option Register
  | .define r _ => some r
  | _ => Option.none

/-- The effect of a call whose result is wanted, or not. -/
def Effect.ofResult : Option Register → Ty → Effect
  | .none, _ => .none
  | .some r, returns => .define r returns

/-- The effect of a statement that passes. -/
inductive Judges (scope : Scope) (ctx : Context) (origin : Origin) : Statement → Effect → Prop
  | copy {src dest : Register} {t : Ty} (hsrc : ctx.registers.get? src = some t) :
    Judges scope ctx origin (.copy src dest) (.define dest t)
  | choose {first second result : Register} {a b t : Ty}
      (hfirst : ctx.registers.get? first = some a)
      (hsecond : ctx.registers.get? second = some b)
      (hmerged : scope.merged first second a b origin = .ok t) :
    Judges scope ctx origin (.choose first second result) (.define result t)
  | literal {type : Ty} {value : String} {result : Register} {bits : Int}
      (hbits : Literal.bits? type value.toList = some bits) :
    Judges scope ctx origin (.literal type value result) (.define result type)
  | string {value : String} {result : Register} :
    Judges scope ctx origin (.string value result) (.define result .string)
  | getLocal {name : String} {result : Register} {t : Ty}
      (hlocal : ctx.locals.get? name = some t) :
    Judges scope ctx origin (.getLocal name result) (.define result t)
  | putLocal {name : String} {src : Register} {value declared : Ty}
      (hsrc : ctx.registers.get? src = some value)
      (hlocal : ctx.locals.get? name = some declared)
      (hassign : scope.unit.hierarchy.canAssign declared value = true) :
    Judges scope ctx origin (.putLocal name src) .none
  | getParam {name : String} {result : Register} {t : Ty}
      (hparam : ctx.params.get? name = some t) :
    Judges scope ctx origin (.getParam name result) (.define result t)
  | getStatic {owner field : String} {result : Register} {t : Ty}
      (hfield : scope.unit.staticFieldType owner field origin = .ok t) :
    Judges scope ctx origin (.getStatic owner field result) (.define result t)
  | getStaticAddress {owner field : String} {result : Register} {t : Ty}
      (hfield : scope.unit.staticFieldType owner field origin = .ok t) :
    Judges scope ctx origin (.getStaticAddress owner field result) (.define result .long)
  | putStatic {owner field : String} {src : Register} {value declared : Ty}
      (hsrc : ctx.registers.get? src = some value)
      (hfield : scope.unit.staticFieldType owner field origin = .ok declared)
      (hassign : scope.unit.hierarchy.canAssign declared value = true) :
    Judges scope ctx origin (.putStatic owner field src) .none
  | getField {object : Register} {owner field : String} {result : Register} {t : Ty}
      (hobject : ctx.registers.get? object = some (.classRef owner))
      (hfield : scope.unit.objectFieldType owner field origin = .ok t) :
    Judges scope ctx origin (.getField object field result) (.define result t)
  | getFieldAddress {object : Register} {owner field : String} {result : Register} {t : Ty}
      (hobject : ctx.registers.get? object = some (.classRef owner))
      (hfield : scope.unit.objectFieldType owner field origin = .ok t) :
    Judges scope ctx origin (.getFieldAddress object field result) (.define result .long)
  | putField {object src : Register} {owner field : String} {value declared : Ty}
      (hobject : ctx.registers.get? object = some (.classRef owner))
      (hsrc : ctx.registers.get? src = some value)
      (hfield : scope.unit.objectFieldType owner field origin = .ok declared)
      (hassign : scope.unit.hierarchy.canAssign declared value = true) :
    Judges scope ctx origin (.putField object field src) .none
  | compare {op : Comparison} {left right result : Register} {a b : Ty}
      (hleft : ctx.registers.get? left = some a) (hright : ctx.registers.get? right = some b)
      (hoperands : comparable op a b = true) :
    Judges scope ctx origin (.compare op left right result) (.define result .boolean)
  | binary {op : BinaryOp} {left right result : Register} {a b : Ty}
      (hleft : ctx.registers.get? left = some a) (hright : ctx.registers.get? right = some b)
      (hoperands : binaryOperands op a b = true) :
    Judges scope ctx origin (.binary op left right result) (.define result a)
  | unary {op : UnaryOp} {src result : Register} {t : Ty}
      (hsrc : ctx.registers.get? src = some t) (hoperand : unaryOperand op t = true) :
    Judges scope ctx origin (.unary op src result) (.define result t)
  | convert {src result : Register} {t target : Ty} (hsrc : ctx.registers.get? src = some t)
      (hnumeric : t.isNumeric = true) (htarget : target.isNumeric = true) :
    Judges scope ctx origin (.convert src target result) (.define result target)
  | branch {condition : Register} {expected : Bool} {target : Label}
      (hcondition : ctx.registers.get? condition = some .boolean)
      (htarget : target ∈ scope.function.labels) :
    Judges scope ctx origin (.branch condition expected target) .none
  | jump {target : Label} (htarget : target ∈ scope.function.labels) :
    Judges scope ctx origin (.jump target) .none
  | label {name : Label} : Judges scope ctx origin (.label name) .none
  | callActual {object : Option Register} {owner method : String} {args : List Register}
      {result : Option Register} {argTypes : List Ty} {target : ResolvedMethod}
      (hobject : ∀ r, object = some r → ∃ t, ctx.registers.get? r = some t
        ∧ t.isReference = true)
      (hargs : args.mapM ctx.registers.get? = some argTypes)
      (hmethod : scope.unit.resolveMethod owner method argTypes origin = .ok target)
      (hresult : ∀ r, result = some r → target.info.returns.isVoid = false) :
    Judges scope ctx origin (.callActual object owner method args result)
      (.ofResult result target.info.returns)
  | callVirtual {object : Register} {owner method : String} {args : List Register}
      {result : Option Register} {argTypes : List Ty} {target : ResolvedMethod}
      (hobject : ctx.registers.get? object = some (.classRef owner))
      (hargs : args.mapM ctx.registers.get? = some argTypes)
      (hmethod : scope.unit.resolveMethod owner method argTypes origin = .ok target)
      (hresult : ∀ r, result = some r → target.info.returns.isVoid = false) :
    Judges scope ctx origin (.callVirtual object method args result)
      (.ofResult result target.info.returns)
  | returnValue {src : Register} {value : Ty} (hsrc : ctx.registers.get? src = some value)
      (hreturns : scope.function.returns.isVoid = false)
      (hassign : scope.unit.hierarchy.canAssign scope.function.returns value = true) :
    Judges scope ctx origin (.returnValue src) .none
  | returnVoid (hreturns : scope.function.returns.isVoid = true) :
    Judges scope ctx origin .returnVoid .none
  | startScope {name : String} {type : Ty} :
    Judges scope ctx origin (.startScope name type) (.openScope name type)
  | endScope {name : String} : Judges scope ctx origin (.endScope name) (.closeScope name)

/-! ## Taking judgements apart -/

/-! Stores. -/

theorem judges_putLocal {name : String} {src : Register}
    (h : effect scope ctx (.putLocal name src) origin = .ok e) :
    Judges scope ctx origin (.putLocal name src) e := by
  obtain ⟨value, hvalue, h⟩ := bind_eq_ok.1 h
  obtain ⟨declared, hdeclared, h⟩ := bind_eq_ok.1 h
  obtain ⟨⟨⟩, hassign, h⟩ := bind_eq_ok.1 h
  cases h
  exact .putLocal (Context.register_eq_ok.1 hvalue) (Context.localType_eq_ok.1 hdeclared)
    (canAssign_of_requireAssignable hassign)

theorem judges_putStatic {owner field : String} {src : Register}
    (h : effect scope ctx (.putStatic owner field src) origin = .ok e) :
    Judges scope ctx origin (.putStatic owner field src) e := by
  obtain ⟨value, hvalue, h⟩ := bind_eq_ok.1 h
  obtain ⟨declared, hdeclared, h⟩ := bind_eq_ok.1 h
  obtain ⟨⟨⟩, hassign, h⟩ := bind_eq_ok.1 h
  cases h
  exact .putStatic (Context.register_eq_ok.1 hvalue) (liftReported_eq_ok.1 hdeclared)
    (canAssign_of_requireAssignable hassign)

theorem judges_putField {object src : Register} {field : String}
    (h : effect scope ctx (.putField object field src) origin = .ok e) :
    Judges scope ctx origin (.putField object field src) e := by
  obtain ⟨owner, howner, h⟩ := bind_eq_ok.1 h
  obtain ⟨value, hvalue, h⟩ := bind_eq_ok.1 h
  obtain ⟨declared, hdeclared, h⟩ := bind_eq_ok.1 h
  obtain ⟨⟨⟩, hassign, h⟩ := bind_eq_ok.1 h
  cases h
  exact .putField (Context.objectClass_eq_ok.1 howner) (Context.register_eq_ok.1 hvalue)
    (liftReported_eq_ok.1 hdeclared) (canAssign_of_requireAssignable hassign)

theorem judges_returnValue {src : Register}
    (h : effect scope ctx (.returnValue src) origin = .ok e) :
    Judges scope ctx origin (.returnValue src) e := by
  obtain ⟨value, hvalue, h⟩ := bind_eq_ok.1 h
  rcases ite_eq_ok.1 h with ⟨-, h⟩ | ⟨hreturns, h⟩
  · cases h
  · obtain ⟨⟨⟩, hassign, h⟩ := bind_eq_ok.1 h
    cases h
    exact .returnValue (Context.register_eq_ok.1 hvalue) (eq_false_of_ne_true hreturns)
      (canAssign_of_requireAssignable hassign)

/-! Calls. -/

/-- A result that is wanted is not `void`. -/
theorem callEffect_eq_ok {method : String} {returns : Ty} {result : Option Register}
    (h : callEffect method returns result origin = .ok e) :
    e = .ofResult result returns ∧ ∀ r, result = some r → returns.isVoid = false := by
  unfold callEffect at h
  split at h
  · cases h
    exact ⟨rfl, nofun⟩
  · rcases ite_eq_ok.1 h with ⟨-, h⟩ | ⟨hvoid, h⟩ <;> cases h
    exact ⟨rfl, fun _ _ => eq_false_of_ne_true hvoid⟩

/-- What a call reaches, and what it leaves. -/
theorem exists_target {owner method : String} {argTypes : List Ty} {result : Option Register}
    (h : (scope.unit.returnType owner method argTypes origin >>= fun returns =>
      callEffect method returns result origin) = .ok e) :
    ∃ target, scope.unit.resolveMethod owner method argTypes origin = .ok target
      ∧ e = .ofResult result target.info.returns
      ∧ ∀ r, result = some r → target.info.returns.isVoid = false := by
  obtain ⟨returns, hreturns, h⟩ := bind_eq_ok.1 h
  obtain ⟨target, htarget, hreturns⟩ := bind_eq_ok.1 hreturns
  cases hreturns
  exact ⟨target, htarget, callEffect_eq_ok h⟩

theorem judges_callActual {object : Option Register} {owner method : String}
    {args : List Register} {result : Option Register}
    (h : effect scope ctx (.callActual object owner method args result) origin = .ok e) :
    Judges scope ctx origin (.callActual object owner method args result) e := by
  obtain ⟨⟨⟩, hreceiver, h⟩ := bind_eq_ok.1 h
  obtain ⟨argTypes, hargs, h⟩ := bind_eq_ok.1 h
  obtain ⟨target, htarget, rfl, hresult⟩ := exists_target h
  exact .callActual (reference_of_requireReceiver hreceiver)
    (Context.mapM_get?_of_mapM_register hargs) htarget hresult

theorem judges_callVirtual {object : Register} {method : String} {args : List Register}
    {result : Option Register}
    (h : effect scope ctx (.callVirtual object method args result) origin = .ok e) :
    Judges scope ctx origin (.callVirtual object method args result) e := by
  obtain ⟨owner, howner, h⟩ := bind_eq_ok.1 h
  obtain ⟨argTypes, hargs, h⟩ := bind_eq_ok.1 h
  obtain ⟨target, htarget, rfl, hresult⟩ := exists_target h
  exact .callVirtual (Context.objectClass_eq_ok.1 howner)
    (Context.mapM_get?_of_mapM_register hargs) htarget hresult

/-- A statement that passes has the effect of its kind, and what it names is there. -/
theorem judges_of_effect {s : Statement} (h : effect scope ctx s origin = .ok e) :
    Judges scope ctx origin s e := by
  -- operands are looked up in the order of `effect`
  cases s with
  | copy src dest =>
    obtain ⟨t, ht, h⟩ := bind_eq_ok.1 h
    cases h
    exact .copy (Context.register_eq_ok.1 ht)
  | choose first second result =>
    obtain ⟨a, ha, h⟩ := bind_eq_ok.1 h
    obtain ⟨b, hb, h⟩ := bind_eq_ok.1 h
    obtain ⟨t, ht, h⟩ := bind_eq_ok.1 h
    cases h
    exact .choose (Context.register_eq_ok.1 ha) (Context.register_eq_ok.1 hb) ht
  | literal type value result =>
    simp only [effect] at h
    split at h
    · next bits hbits =>
      cases h
      exact .literal hbits
    · cases h
  | getLocal name result =>
    obtain ⟨t, ht, h⟩ := bind_eq_ok.1 h
    cases h
    exact .getLocal (Context.localType_eq_ok.1 ht)
  | getParam name result =>
    obtain ⟨t, ht, h⟩ := bind_eq_ok.1 h
    cases h
    exact .getParam (Context.param_eq_ok.1 ht)
  | getStatic owner field result =>
    obtain ⟨t, ht, h⟩ := bind_eq_ok.1 h
    cases h
    exact .getStatic (liftReported_eq_ok.1 ht)
  | getStaticAddress owner field result =>
    obtain ⟨t, ht, h⟩ := bind_eq_ok.1 h
    cases h
    exact .getStaticAddress (liftReported_eq_ok.1 ht)
  | getField object field result =>
    obtain ⟨owner, howner, h⟩ := bind_eq_ok.1 h
    obtain ⟨t, ht, h⟩ := bind_eq_ok.1 h
    cases h
    exact .getField (Context.objectClass_eq_ok.1 howner) (liftReported_eq_ok.1 ht)
  | getFieldAddress object field result =>
    obtain ⟨owner, howner, h⟩ := bind_eq_ok.1 h
    obtain ⟨t, ht, h⟩ := bind_eq_ok.1 h
    cases h
    exact .getFieldAddress (Context.objectClass_eq_ok.1 howner) (liftReported_eq_ok.1 ht)
  | compare op left right result =>
    obtain ⟨a, ha, h⟩ := bind_eq_ok.1 h
    obtain ⟨b, hb, h⟩ := bind_eq_ok.1 h
    rcases ite_eq_ok.1 h with ⟨hok, h⟩ | ⟨-, h⟩ <;> cases h
    exact .compare (Context.register_eq_ok.1 ha) (Context.register_eq_ok.1 hb) hok
  | binary op left right result =>
    obtain ⟨a, ha, h⟩ := bind_eq_ok.1 h
    obtain ⟨b, hb, h⟩ := bind_eq_ok.1 h
    rcases ite_eq_ok.1 h with ⟨hok, h⟩ | ⟨-, h⟩ <;> cases h
    exact .binary (Context.register_eq_ok.1 ha) (Context.register_eq_ok.1 hb) hok
  | unary op src result =>
    obtain ⟨t, ht, h⟩ := bind_eq_ok.1 h
    rcases ite_eq_ok.1 h with ⟨hok, h⟩ | ⟨-, h⟩ <;> cases h
    exact .unary (Context.register_eq_ok.1 ht) hok
  | convert src target result =>
    obtain ⟨t, ht, h⟩ := bind_eq_ok.1 h
    rcases ite_eq_ok.1 h with ⟨hok, h⟩ | ⟨-, h⟩ <;> cases h
    obtain ⟨hnumeric, htarget⟩ := Bool.and_eq_true_iff.1 hok
    exact .convert (Context.register_eq_ok.1 ht) hnumeric htarget
  | branch condition expected target =>
    obtain ⟨t, ht, h⟩ := bind_eq_ok.1 h
    rcases ite_eq_ok.1 h with ⟨rfl, h⟩ | ⟨-, h⟩
    · obtain ⟨⟨⟩, htarget, h⟩ := bind_eq_ok.1 h
      cases h
      exact .branch (Context.register_eq_ok.1 ht) (mem_labels_of_requireLabel htarget)
    · cases h
  | jump target =>
    obtain ⟨⟨⟩, htarget, h⟩ := bind_eq_ok.1 h
    cases h
    exact .jump (mem_labels_of_requireLabel htarget)
  | returnVoid =>
    rcases ite_eq_ok.1 h with ⟨hreturns, h⟩ | ⟨-, h⟩ <;> cases h
    exact .returnVoid hreturns
  | putLocal name src => exact judges_putLocal h
  | putStatic owner field src => exact judges_putStatic h
  | putField object field src => exact judges_putField h
  | returnValue src => exact judges_returnValue h
  | callActual object owner method args result => exact judges_callActual h
  | callVirtual object method args result => exact judges_callVirtual h
  | string | label | startScope | endScope =>
    cases h
    constructor

/-! ## What is read and written -/

/-- The effect of a statement that passes gives a type to the register that it defines. -/
theorem Judges.defined? {s : Statement} (h : Judges scope ctx origin s e) :
    e.defined? = s.definedRegister? := by
  cases h with
  | @callActual _ _ _ _ result | @callVirtual _ _ _ _ result => cases result <;> rfl
  | _ => rfl

/-- The registers that a statement reads have types where it passes. -/
theorem Judges.used {s : Statement} (h : Judges scope ctx origin s e) :
    ∀ r ∈ s.usedRegisters, ∃ t, ctx.registers.get? r = some t := by
  cases h with
  | copy hsrc | unary hsrc | convert hsrc | getField hsrc | getFieldAddress hsrc
    | putLocal hsrc
  | putStatic hsrc | branch hsrc | returnValue hsrc =>
    exact List.forall_mem_singleton.2 ⟨_, hsrc⟩
  | choose hleft hright | compare hleft hright | binary hleft hright | putField hleft hright =>
    exact List.forall_mem_cons.2 ⟨⟨_, hleft⟩, List.forall_mem_singleton.2 ⟨_, hright⟩⟩
  | callActual hobject hargs =>
    refine List.forall_mem_append.2 ⟨fun r hr => ?_, exists_of_mapM_get? hargs⟩
    exact (hobject r (Option.mem_toList.1 hr)).imp fun _ => And.left
  | callVirtual hobject hargs =>
    exact List.forall_mem_cons.2 ⟨⟨_, hobject⟩, exists_of_mapM_get? hargs⟩
  | _ => exact List.forall_mem_nil _

end

end Typing

end Jil
