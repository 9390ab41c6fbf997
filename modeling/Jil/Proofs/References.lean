/-
Jil.Proofs.References — what the code of a statement refers to.

Code reaches outside of its function in three ways: it calls services at offsets
of the table, it calls functions of the class by symbol, and it uses the
addresses of symbols. The calls are those that the kind of the statement and the
members it names ask for, one after the other (`Statement.Uses`); the addresses
are those of the static members or of string constants (`Named`). A constant is
known by a number below the size of the table, which only grows, so `Links`
speaks of every table that is at least as large as the one an activity leaves.
-/
import Jil.Proofs.Refusals
import Jil.Proofs.StatementCode

namespace Jil

open Jil.Native (Service)
open Jil.Pseudo (Instr Operand Reg)

/-! ## References of instructions -/

namespace Pseudo

/-- The symbol that an operand is relative to. -/
def Operand.symbol? : Operand → Option String
  | .rip symbol _ => some symbol
  | _ => none

namespace Instr

/-- The symbols whose data an instruction uses. -/
def data (i : Instr) : List String := i.operands.filterMap Operand.symbol?

/-- The function that an instruction calls. -/
def callee? : Instr → Option String
  | .call symbol => some symbol
  | _ => none

/-- The offset of the service that an instruction calls. -/
def service? : Instr → Option Int
  | .callIndirect _ disp => some disp
  | _ => none

end Instr

/-- Code that refers to nothing outside of its function. -/
structure Inner (code : List Instr) : Prop where
  services : code.filterMap Instr.service? = []
  callees : code.filterMap Instr.callee? = []
  data : code.flatMap Instr.data = []

namespace Inner

variable {code rest : List Instr}

theorem nil : Inner [] := ⟨rfl, rfl, rfl⟩

theorem append (h : Inner code) (h' : Inner rest) : Inner (code ++ rest) where
  services := by rw [List.filterMap_append, h.services, h'.services]; rfl
  callees := by rw [List.filterMap_append, h.callees, h'.callees]; rfl
  data := by rw [List.flatMap_append, h.data, h'.data]; rfl

/-- Instructions that each refer to nothing. -/
theorem of_forall (h : ∀ i ∈ code, Inner [i]) : Inner code := by
  induction code with
  | nil => exact .nil
  | cons i code ih =>
    obtain ⟨hi, hcode⟩ := List.forall_mem_cons.1 h
    exact hi.append (ih hcode)

end Inner

end Pseudo

open Pseudo (Inner)

namespace Selection

/-- Symbols of data: the static members, and string constants of a table of `n`. -/
def Named (scope : Scope) (n : Nat) (name : String) : Prop :=
  name = Symbol.ofStatics scope.abi scope.unit.name
    ∨ ∃ k < n, name = Assembly.StringTable.labelAt k

/-- The references of code: services and functions called in order, and the symbols of data. -/
structure Refers (scope : Scope) (services : List Service) (callees : List String) (n : Nat)
    (code : List Instr) : Prop where
  services : code.filterMap Instr.service? = services.map fun s => (s.offset : Int)
  callees : code.filterMap Instr.callee? = callees
  data : ∀ name ∈ code.flatMap Instr.data, Named scope n name

namespace Refers

variable {scope : Scope} {n : Nat} {services more : List Service}
  {callees others : List String} {code rest : List Instr}

theorem append (h : Refers scope services callees n code)
    (h' : Refers scope more others n rest) :
    Refers scope (services ++ more) (callees ++ others) n (code ++ rest) where
  services := by rw [List.filterMap_append, h.services, h'.services, List.map_append]
  callees := by rw [List.filterMap_append, h.callees, h'.callees]
  data := by
    rw [List.flatMap_append]
    exact List.forall_mem_append.2 ⟨h.data, h'.data⟩

theorem of_inner (h : Inner code) : Refers scope [] [] n code where
  services := h.services
  callees := h.callees
  data name hname := by
    rw [h.data] at hname
    cases hname

theorem nil : Refers scope [] [] n [] := of_inner .nil

/-- One instruction that calls nothing. -/
theorem single {i : Instr} (hservice : i.service? = none) (hcallee : i.callee? = none)
    (hdata : ∀ name ∈ i.data, Named scope n name) : Refers scope [] [] n [i] where
  services := by rw [List.filterMap_cons, hservice]; rfl
  callees := by rw [List.filterMap_cons, hcallee]; rfl
  data := by simpa using hdata

end Refers

/-! ## Activities -/

/-- An activity keeps the constants, and every result of it satisfies `P` for tables that hold
them. -/
def Links (scope : Scope) {α : Type} (x : Select α) (P : Nat → α → Prop) : Prop :=
  ∀ st a after, Yields scope x st a after →
    st.strings.size ≤ after.strings.size ∧ ∀ n, after.strings.size ≤ n → P n a

namespace Links

variable {scope : Scope} {α β : Type} {P : Nat → α → Prop} {Q : Nat → β → Prop} {x : Select α}
  {f : α → Select β}

theorem result {st after : State} {a : α} (hx : Links scope x P)
    (h : Yields scope x st a after) :
    st.strings.size ≤ after.strings.size ∧ ∀ n, after.strings.size ≤ n → P n a :=
    hx st a after h

theorem pure {a : α} (h : ∀ n, P n a) : Links scope (pure a : Select α) P := by
  intro st b after hb
  obtain ⟨rfl, rfl⟩ := yields_pure.1 hb
  exact ⟨Nat.le_refl _, fun n _ => h n⟩

theorem bind (hx : Links scope x P) (hf : ∀ a, Links scope (f a) fun n b => P n a → Q n b) :
    Links scope (x >>= f) Q := by
  intro st b after hb
  obtain ⟨a, mid, ha, hb⟩ := yields_bind.1 hb
  obtain ⟨hmid, hP⟩ := hx st a mid ha
  obtain ⟨hafter, hQ⟩ := hf a mid b after hb
  exact ⟨Nat.le_trans hmid hafter, fun n hn => hQ n hn (hP n (Nat.le_trans hafter hn))⟩

theorem mono {Q : Nat → α → Prop} (hx : Links scope x P) (h : ∀ n a, P n a → Q n a) :
    Links scope x Q :=
  fun st a after ha => (hx st a after ha).imp_right fun hP n hn => h n a (hP n hn)

/-- What the first activity gives is used, but nothing is known of it. -/
theorem after (hx : Links scope x fun _ _ => True) (hf : ∀ a, Links scope (f a) Q) :
    Links scope (x >>= f) Q :=
  hx.bind fun a => (hf a).mono fun _ _ h _ => h

end Links

end Selection

/-! ## Calls -/

namespace Native

open Selection (Named Refers Scope)

variable {scope : Scope} {n : Nat} {abi : Machine.Abi} {env : Reg} {origin : Origin}

/-- An operand that is a value, or the address of data. -/
def Argument.Linked (scope : Scope) (n : Nat) : Argument → Prop
  | .value _ _ => True
  | .address symbol => Named scope n symbol

/-- An operand that a general register does not hold. -/
def Argument.isFloating : Argument → Bool
  | .value _ type => type.isFloating
  | .address _ => false

theorem refers_marshal {dest : Machine.Reg} {a : Argument} {i : Instr} (ha : a.Linked scope n)
    (h : marshal origin dest a = .ok i) : Refers scope [] [] n [i] ∧ a.isFloating = false := by
  cases a with
  | address symbol =>
    cases h
    have hsymbol : Named scope n symbol := ha
    refine ⟨.single rfl rfl ?_, rfl⟩
    simpa [Instr.data, Instr.operands, Operand.symbol?] using hsymbol
  | value p type =>
    unfold marshal at h
    rcases Pseudo.ite_eq_ok.1 h with ⟨-, h⟩ | ⟨hintegral, h⟩
    · cases h
    have hvalue := Bool.eq_false_iff.2 hintegral
    rcases Pseudo.ite_eq_ok.1 h with ⟨-, h⟩ | ⟨-, h⟩ <;>
      · cases h
        exact ⟨.of_inner ⟨rfl, rfl, rfl⟩, hvalue⟩

/-- Code that passes operands: it refers to nothing else than they do, and none of them is a
floating-point number. -/
structure Passes (scope : Scope) (services : List Service) (callees : List String)
    (args : List Argument) (n : Nat) (code : List Instr) : Prop where
  refers : Refers scope services callees n code
  integral : ∀ a ∈ args, a.isFloating = false

theorem passes_loadOperands {args : List Argument} (hargs : ∀ a ∈ args, a.Linked scope n)
    {position : Nat} (h : (loadOperands abi origin position args).outcome = .ok ()) :
    Passes scope [] [] args n (loadOperands abi origin position args).code := by
  induction args generalizing position with
  | nil => exact ⟨.nil, List.forall_mem_nil _⟩
  | cons a args ih =>
    obtain ⟨ha, hargs⟩ := List.forall_mem_cons.1 hargs
    rw [loadOperands] at h ⊢
    cases hi : argumentRegister abi position >>= (marshal origin · a) with
    | error e =>
      rw [hi] at h
      cases h
    | ok i =>
      rw [hi] at h
      obtain ⟨r, -, hmarshal⟩ := Pseudo.bind_eq_ok.1 hi
      obtain ⟨-, hrest, hcode⟩ := Sequence.andThen_outcome h
      obtain ⟨hfirst, hvalue⟩ := refers_marshal ha hmarshal
      obtain ⟨hfollowing, hvalues⟩ := ih hargs hrest
      simp only [hcode]
      exact ⟨hfirst.append hfollowing, List.forall_mem_cons.2 ⟨hvalue, hvalues⟩⟩

theorem passes_loadArguments {callee : String} {args : List Argument}
    (hargs : ∀ a ∈ args, a.Linked scope n)
    (h : (loadArguments abi env callee args origin).outcome = .ok ()) :
    Passes scope [] [] args n (loadArguments abi env callee args origin).code := by
  unfold loadArguments at h ⊢
  split at h
  · cases h
  · next hcount =>
    rw [if_neg hcount]
    cases hr : argumentRegister abi 1 with
    | error e =>
      rw [hr] at h
      cases h
    | ok r =>
      rw [hr] at h
      obtain ⟨-, hrest, hcode⟩ := Sequence.andThen_outcome h
      obtain ⟨hrefers, hvalues⟩ := passes_loadOperands hargs hrest
      simp only [hcode]
      exact ⟨Refers.append (.of_inner ⟨rfl, rfl, rfl⟩) hrefers, hvalues⟩

theorem refers_takeResult (result : Option Reg) :
    Refers scope [] [] n (takeResult abi result) := by
  cases result with
  | none => exact .nil
  | some p => exact .of_inner ⟨rfl, rfl, rfl⟩

theorem refers_invoke (svc : Service) : Refers scope [svc] [] n (invoke abi env svc) := by
  have hcall : Refers scope [svc] [] n [.callIndirect Machine.addressScratch svc.offset] :=
    ⟨rfl, rfl, by simp [Instr.data, Instr.operands]⟩
  unfold invoke
  have hbefore : Inner ([.mov .quad (.indirect env 0) (.fixed Machine.addressScratch)]
      ++ (if svc.isVariadic && abi.countsVectorArguments then
            [.mov .long (.imm 0) (.fixed .rax)] else [])) := by
    split <;> exact ⟨rfl, rfl, rfl⟩
  exact (Refers.of_inner hbefore).append hcall

theorem passes_serviceCall {svc : Service} {args : List Argument} {result : Option Reg}
    (hargs : ∀ a ∈ args, a.Linked scope n)
    (h : (serviceCall abi env svc args result origin).outcome = .ok ()) :
    Passes scope [svc] [] args n (serviceCall abi env svc args result origin).code := by
  obtain ⟨hload, -, hcode⟩ := Sequence.andThen_outcome h
  obtain ⟨hrefers, hvalues⟩ := passes_loadArguments hargs hload
  unfold serviceCall
  rw [hcode]
  exact ⟨hrefers.append ((refers_invoke svc).append (refers_takeResult _)), hvalues⟩

theorem passes_directCall {symbol : String} {args : List Argument} {result : Option Reg}
    (hargs : ∀ a ∈ args, a.Linked scope n)
    (h : (directCall abi env symbol args result origin).outcome = .ok ()) :
    Passes scope [] [symbol] args n (directCall abi env symbol args result origin).code := by
  obtain ⟨hload, -, hcode⟩ := Sequence.andThen_outcome h
  obtain ⟨hrefers, hvalues⟩ := passes_loadArguments hargs hload
  have hcall : Refers scope [] [symbol] n [.call symbol] :=
    ⟨rfl, rfl, by simp [Instr.data, Instr.operands]⟩
  unfold directCall
  rw [hcode]
  exact ⟨hrefers.append (hcall.append (refers_takeResult _)), hvalues⟩

end Native

namespace Selection

open Native (Argument Passes)

variable {scope : Scope} {origin : Origin}

/-! ## Draws and constants -/

theorem links_draw (size : Machine.Size) : Links scope (draw size) fun _ _ => True := by
  intro st p after h
  obtain ⟨-, rfl⟩ := yields_draw.1 h
  exact ⟨Nat.le_refl _, fun _ _ => trivial⟩

/-- The place of a text lies in the table that contains it, and no place is lost. -/
theorem size_place (t : Assembly.StringTable) (text : String) :
    t.size ≤ (t.place text).2.size ∧ (t.place text).1 < (t.place text).2.size := by
  refine ⟨?_, (List.getElem?_eq_some_iff.1 (t.getElem?_place text)).1⟩
  unfold Assembly.StringTable.place
  split
  · exact Nat.le_refl _
  · simp [Assembly.StringTable.size]

/-- Constants are added to the table. -/
theorem links_constant (text : String) :
    Links scope (constant text) fun n a => a.Linked scope n := by
  intro st a after h
  unfold constant at h
  rw [yields_modifyGet, Prod.mk.injEq] at h
  obtain ⟨rfl, rfl⟩ := h
  obtain ⟨hsize, hplace⟩ := size_place st.strings text
  exact ⟨hsize, fun n hn => .inr ⟨_, Nat.lt_of_lt_of_le hplace hn, rfl⟩⟩

/-! ## Services and methods -/

theorem links_service (svc : Service) (args : List Argument) (result : Option Reg) :
    Links scope (service svc args result origin) fun n code =>
      (∀ a ∈ args, a.Linked scope n) → Passes scope [svc] [] args n code := by
  intro st code after h
  obtain ⟨hok, rfl, rfl⟩ := yields_service h
  exact ⟨Nat.le_refl _, fun n _ hargs => Native.passes_serviceCall hargs hok⟩

theorem links_findClass (name : String) :
    Links scope (findClass name origin) fun n r => Refers scope [.findClass] [] n r.2 :=
  (links_draw _).after fun _ => (links_constant name).bind fun text =>
    (links_service _ [text] _).bind fun _ => .pure fun _ hcode htext =>
      (hcode (List.forall_mem_singleton.2 htext)).refers

theorem links_findClassOf (object : Reg) :
    Links scope (findClassOf object origin) fun n r =>
    Refers scope [.getObjectClass] [] n r.2 :=
  (links_draw _).after fun _ => (links_service _ [_] _).bind fun _ => .pure fun _ hcode =>
    (hcode (List.forall_mem_singleton.2 trivial)).refers

theorem links_findMember (svc : Service) (handle : Reg) (name descriptor : String) :
    Links scope (findMember svc handle name descriptor origin) fun n r =>
      Refers scope [svc] [] n r.2 :=
  (links_draw _).after fun _ => (links_constant name).bind fun text =>
    (links_constant descriptor).bind fun signature =>
      (links_service _ [_, text, signature] _).bind
      fun _ => .pure fun _ hcode hsignature htext =>
        (hcode (by simpa using ⟨trivial, htext, hsignature⟩)).refers

/-! ## Members -/

/-- The services for a static field. -/
inductive UsesStatic (scope : Scope) (origin : Origin) (owner field : String)
    (access : Native.ValueKind → Service) : List Service → Prop
  /-- Fields of the class itself need none. -/
  | own (h : owner = scope.unit.name) : UsesStatic scope origin owner field access []
  | other {t : Ty} (h : owner ≠ scope.unit.name)
      (ht : scope.unit.staticFieldType owner field origin = .ok t) :
      UsesStatic scope origin owner field access
        [.findClass, .getStaticFieldId, access (.ofTy t)]

/-- The services for a field of an object. -/
inductive UsesField (scope : Scope) (origin : Origin) (object : Register) (field : String)
    (access : Native.ValueKind → Service) : List Service → Prop
  /-- Objects of the class itself need none. -/
  | own (h : scope.types.get? object = some (.classRef scope.unit.name)) :
      UsesField scope origin object field access []
  | other {owner : String} {t : Ty} (h : owner ≠ scope.unit.name)
      (hobject : scope.types.get? object = some (.classRef owner))
      (ht : scope.unit.objectFieldType owner field origin = .ok t) :
      UsesField scope origin object field access
        [.getObjectClass, .getFieldId, access (.ofTy t)]

/-- A member of another class. -/
theorem links_remote {find : Select (Reg × List Instr)} {first lookup svc : Service}
    {name descriptor : String} {object result : Option Reg} {more : List Argument}
    {st after : State} {code : List Instr}
    (h : Yields scope (remote find lookup name descriptor svc object more result origin)
      st code after) (hfind : Links scope find fun n r => Refers scope [first] [] n r.2)
    (hmore : ∀ a ∈ more, ∀ n, a.Linked scope n) :
    st.strings.size ≤ after.strings.size ∧ ∀ n, after.strings.size ≤ n →
      Refers scope [first, lookup, svc] [] n code ∧ ∀ a ∈ more, a.isFloating = false := by
  have hlinks : Links scope (remote find lookup name descriptor svc object more result origin)
      fun n code => Refers scope [first, lookup, svc] [] n code
        ∧ ∀ a ∈ more, a.isFloating = false := by
    refine hfind.bind fun found => (links_findMember _ _ _ _).bind fun member =>
      (links_service _ _ _).bind fun code => .pure fun n hcode hmember hfound => ?_
    obtain ⟨hrefers, hvalues⟩ := hcode (List.forall_mem_cons.2
      ⟨trivial, List.forall_mem_cons.2 ⟨trivial, fun a ha => hmore a ha n⟩⟩)
    exact ⟨(hfound.append hmember).append hrefers, fun a ha =>
      hvalues a (List.mem_cons_of_mem _ (List.mem_cons_of_mem _ ha))⟩
  exact hlinks.result h

/-- Reading or writing a place, or taking its address. -/
theorem refers_place {n : Nat} {place : Operand} {i : Instr}
    (hplace : ∀ name ∈ place.symbol?, Named scope n name) (hservice : i.service? = none)
    (hcallee : i.callee? = none) (hdata : ∀ name ∈ i.data, place.symbol? = some name) :
    Refers scope [] [] n [i] :=
  .single hservice hcallee fun name hname => hplace name (hdata name hname)

/-- The data of the instructions that access a place. -/
theorem symbol_of_access (place : Operand) (size : Machine.Size) (p : Reg) :
    (∀ name ∈ (Instr.mov size place (.pseudo p)).data, place.symbol? = some name)
    ∧ (∀ name ∈ (Instr.mov size (.pseudo p) place).data, place.symbol? = some name)
    ∧ ∀ name ∈ (Instr.lea place (.pseudo p)).data, place.symbol? = some name := by
  cases place <;> simp [Instr.data, Instr.operands, Instr.mov, Operand.symbol?]

/-- A place that is read, or of which the address is taken. -/
theorem refers_readPlace {n : Nat} {place : Operand} {p : Reg} (address : Bool)
    (hplace : ∀ name ∈ place.symbol?, Named scope n name) :
    Refers scope [] [] n [readPlace address place p] := by
  obtain ⟨hload, -, hlea⟩ := symbol_of_access place p.size p
  cases address with
  | true => exact refers_place hplace rfl rfl hlea
  | false => exact refers_place hplace rfl rfl hload

theorem refers_writePlace {n : Nat} {place : Operand} {p : Reg}
    (hplace : ∀ name ∈ place.symbol?, Named scope n name) :
    Refers scope [] [] n [writePlace place p] :=
  refers_place hplace rfl rfl (symbol_of_access place p.size p).2.1

/-- The place of a static field is named after the static members. -/
theorem named_of_staticPlace {owner field : String} {place : Operand}
    (h : scope.StaticPlace owner field origin place) (n : Nat) :
    ∀ name ∈ place.symbol?, Named scope n name := by
  obtain ⟨rfl, offset, -, rfl⟩ := h
  rintro _ ⟨⟩
  exact .inl rfl

/-- The place of a field in an object has no name. -/
theorem named_of_fieldPlace {owner : String} {object : Register} {field : String}
    {place : Operand} (h : scope.FieldPlace owner object field origin place) (n : Nat) :
    ∀ name ∈ place.symbol?, Named scope n name := by
  obtain ⟨-, offset, -, rfl⟩ := h
  exact nofun

/-- The value of a register, as it is moved. -/
def Integral (scope : Scope) (r : Register) : Prop :=
  ∀ t, scope.types.get? r = some t → t.isFloating = false

theorem Integral.of_value {r : Register} {t : Ty} (ht : scope.types.get? r = some t)
    (h : (Argument.value ⟨r.index, sizeOf t⟩ t).isFloating = false) : Integral scope r := by
  intro u hu
  obtain rfl : t = u := Option.some.inj (ht.symm.trans hu)
  exact h

theorem links_getStatic (owner field : String) (result : Register) (address : Bool) :
    Links scope (getStatic owner field result address origin) fun n code =>
      (∃ services, UsesStatic scope origin owner field .getStaticField services
        ∧ Refers scope services [] n code)
      ∧ (address = true → owner = scope.unit.name) := by
  intro st code after h
  obtain ⟨t, -, ⟨place, hplace, rfl, rfl⟩ | ⟨hother, rfl, type, htype, h⟩⟩ :=
    yields_getStatic h
  · exact ⟨Nat.le_refl _, fun n _ => ⟨⟨[], .own hplace.1,
      refers_readPlace address (named_of_staticPlace hplace n)⟩, fun _ => hplace.1⟩⟩
  · obtain ⟨hsize, hcode⟩ := links_remote h (links_findClass owner) (List.forall_mem_nil _)
    exact ⟨hsize, fun n hn => ⟨⟨_, .other hother htype, (hcode n hn).1⟩, nofun⟩⟩

theorem links_putStatic (owner field : String) (src : Register) :
    Links scope (putStatic owner field src origin) fun n code =>
      (∃ services, UsesStatic scope origin owner field .setStaticField services
        ∧ Refers scope services [] n code)
      ∧ (owner ≠ scope.unit.name → Integral scope src) := by
  intro st code after h
  obtain ⟨t, ht, ⟨place, hplace, rfl, rfl⟩ | ⟨hother, type, htype, h⟩⟩ := yields_putStatic h
  · exact ⟨Nat.le_refl _, fun n _ => ⟨⟨[], .own hplace.1,
      refers_writePlace (named_of_staticPlace hplace n)⟩, fun h => absurd hplace.1 h⟩⟩
  · obtain ⟨hsize, hcode⟩ := links_remote h (links_findClass owner)
      (List.forall_mem_singleton.2 fun _ => trivial)
    exact ⟨hsize, fun n hn => ⟨⟨_, .other hother htype, (hcode n hn).1⟩,
      fun _ => .of_value ht ((hcode n hn).2 _ List.mem_cons_self)⟩⟩

theorem links_getField (object : Register) (field : String) (result : Register)
    (address : Bool) :
    Links scope (getField object field result address origin) fun n code =>
      (∃ services, UsesField scope origin object field .getField services
        ∧ Refers scope services [] n code)
      ∧ (address = true → scope.types.get? object = some (.classRef scope.unit.name)) := by
  intro st code after h
  obtain ⟨owner, t, hobject, -, ⟨place, hplace, rfl, rfl⟩ | ⟨hother, rfl, type, htype, h⟩⟩ :=
    yields_getField h
  · have hown : scope.types.get? object = some (.classRef scope.unit.name) :=
      hplace.1 ▸ hobject
    exact ⟨Nat.le_refl _, fun n _ => ⟨⟨[], .own hown,
      refers_readPlace address (named_of_fieldPlace hplace n)⟩, fun _ => hown⟩⟩
  · obtain ⟨hsize, hcode⟩ := links_remote h (links_findClassOf _) (List.forall_mem_nil _)
    exact ⟨hsize, fun n hn => ⟨⟨_, .other hother hobject htype, (hcode n hn).1⟩, nofun⟩⟩

theorem links_putField (object : Register) (field : String) (src : Register) :
    Links scope (putField object field src origin) fun n code =>
      (∃ services, UsesField scope origin object field .setField services
        ∧ Refers scope services [] n code)
      ∧ (scope.types.get? object ≠ some (.classRef scope.unit.name) → Integral scope src) := by
  intro st code after h
  obtain ⟨owner, t, hobject, ht, ⟨place, hplace, rfl, rfl⟩ | ⟨hother, type, htype, h⟩⟩ :=
    yields_putField h
  · have hown : scope.types.get? object = some (.classRef scope.unit.name) :=
      hplace.1 ▸ hobject
    exact ⟨Nat.le_refl _, fun n _ => ⟨⟨[], .own hown,
      refers_writePlace (named_of_fieldPlace hplace n)⟩, fun h => absurd hown h⟩⟩
  · obtain ⟨hsize, hcode⟩ := links_remote h (links_findClassOf _)
      (List.forall_mem_singleton.2 fun _ => trivial)
    exact ⟨hsize, fun n hn => ⟨⟨_, .other hother hobject htype, (hcode n hn).1⟩,
      fun _ => .of_value ht ((hcode n hn).2 _ List.mem_cons_self)⟩⟩

/-! ## Methods -/

end Selection

/-- The services with which a method is called that a class names. A method of the class itself
takes the class as its first operand when there is no object. -/
def ResolvedMethod.services (m : ResolvedMethod) : List Service :=
  match m.isLocal, m.info.kind with
  | true, .static => [.findClass]
  | true, .perObject => []
  | false, .static =>
    [.findClass, .getStaticMethodId, .callStaticMethod (.ofTy m.info.returns)]
  | false, .perObject => [.findClass, .getMethodId, .callMethod (.ofTy m.info.returns)]

/-- The services with which a method of an object is called. -/
def ResolvedMethod.virtualServices (m : ResolvedMethod) : List Service :=
  [.getObjectClass, .getMethodId, .callMethod (.ofTy m.info.returns)]

/-- The first function of a class with a given key. -/
def ClassUnit.functionOf? (u : ClassUnit) (key : MethodKey) : Option Function :=
  u.functions.find? fun f => f.name = key.name && f.paramTypes = key.params

/-- The function that is called for a method: one of the class itself, or none. -/
def ClassUnit.callees (u : ClassUnit) (abi : Machine.Abi) (m : ResolvedMethod)
    (key : MethodKey) :
    List String :=
  if m.isLocal then (u.functionOf? key).toList.map (u.functionSymbol abi) else []

namespace Selection

open Native (Argument Passes)

variable {scope : Scope} {origin : Origin}

/-- There is an object exactly for methods of objects. -/
theorem eq_none_of_receives {object : Option Register} {kind : MemberKind}
    {receiver : Option Reg} (h : scope.Receives kind object receiver) :
    receiver = none ↔ kind = .static := by
  cases h with
  | static => exact ⟨fun _ => rfl, fun _ => rfl⟩
  | written | own => exact ⟨nofun, nofun⟩

theorem linked_of_operands {args : List Register} {l : List Argument}
    (h : args.mapM scope.value? = some l) (n : Nat) : ∀ a ∈ l, a.Linked scope n := by
  intro a ha
  obtain ⟨r, -, t, -, rfl⟩ := exists_of_mem_operands h ha
  trivial

/-- Operands that are no floating-point numbers are the values of such registers. -/
theorem integral_of_operands {args : List Register} {l : List Argument}
    (h : args.mapM scope.value? = some l) (hvalues : ∀ a ∈ l, a.isFloating = false) :
    ∀ r ∈ args, Integral scope r := by
  intro r hr
  obtain ⟨a, ha, hvalue⟩ := (Pseudo.exists_of_mapM_eq_some h).1 r hr
  obtain ⟨t, ht, rfl⟩ := Scope.value?_eq_some.1 hvalue
  exact .of_value ht (hvalues _ ha)

theorem perObject_of_receiver {p : Reg} {kind : MemberKind}
    (h : some p = none ↔ kind = .static) :
    kind = .perObject := by
  cases kind with
  | static => cases h.2 rfl
  | perObject => rfl

/-- The code of a call of a method that a class names: what it refers to, and its operands. -/
structure Calls (scope : Scope) (target : ResolvedMethod) (key : MethodKey)
    (args : List Register) (n : Nat) (code : List Instr) : Prop where
  refers : Refers scope target.services (scope.unit.callees scope.abi target key) n code
  integral : ∀ r ∈ args, Integral scope r

theorem links_callOwn {target : ResolvedMethod} (hlocal : target.isLocal = true)
    {receiver : Option Reg} (hkind : receiver = none ↔ target.info.kind = .static)
    (owner method : String) (args : List Register) (types : List Ty) (result : Option Reg) :
    Links scope (callOwn target receiver owner method args types result origin) fun n code =>
      Calls scope target ⟨method, types⟩ args n code := by
  intro st code after h
  obtain ⟨first, before, l, f, hfirst, hl, hf, hok, rfl⟩ := yields_callOwn h
  have hcallees : scope.unit.callees scope.abi target ⟨method, types⟩
      = [scope.unit.functionSymbol scope.abi f] := by
    rw [ClassUnit.callees, if_pos hlocal, ClassUnit.functionOf?, hf]
    rfl
  have hbefore : st.strings.size ≤ after.strings.size ∧ ∀ n, after.strings.size ≤ n →
      Refers scope target.services [] n before := by
    obtain ⟨rfl, rfl, rfl⟩ | ⟨rfl, hclass⟩ := hfirst
    · have hservices : target.services = [] := by
        simp [ResolvedMethod.services, hlocal, perObject_of_receiver hkind]
      exact ⟨Nat.le_refl _, fun n _ => hservices ▸ .nil⟩
    · have hservices : target.services = [.findClass] := by
        simp [ResolvedMethod.services, hlocal, hkind.1 rfl]
      exact hservices ▸ links_findClass target.owner _ _ _ hclass
  refine ⟨hbefore.1, fun n hn => ?_⟩
  have hlinked : ∀ a ∈ Argument.value first .object :: l, a.Linked scope n :=
    List.forall_mem_cons.2 ⟨trivial, linked_of_operands hl n⟩
  have hpasses := Native.passes_directCall hlinked hok
  refine ⟨?_, integral_of_operands hl (List.forall_mem_cons.1 hpasses.integral).2⟩
  rw [hcallees]
  simpa using (hbefore.2 n hn).append hpasses.refers

theorem links_callOther {target : ResolvedMethod} (hother : target.isLocal = false)
    {receiver : Option Reg} (hkind : receiver = none ↔ target.info.kind = .static)
    (method : String) (args : List Register) (types : List Ty) (result : Option Reg) :
    Links scope (callOther target receiver method args types result origin) fun n code =>
      Calls scope target ⟨method, types⟩ args n code := by
  intro st code after h
  obtain ⟨l, hl, h⟩ := yields_callOther h
  obtain ⟨hsize, hcode⟩ := links_remote h (links_findClass target.owner)
    fun a ha n => linked_of_operands hl n a ha
  refine ⟨hsize, fun n hn => ?_⟩
  obtain ⟨hrefers, hvalues⟩ := hcode n hn
  refine ⟨?_, integral_of_operands hl hvalues⟩
  have hcallees : scope.unit.callees scope.abi target ⟨method, types⟩ = [] := by
    simp [ClassUnit.callees, hother]
  rw [hcallees]
  cases receiver with
  | none =>
    have hservices : target.services = [.findClass, .getStaticMethodId,
        .callStaticMethod (.ofTy target.info.returns)] := by
      simp [ResolvedMethod.services, hother, hkind.1 rfl]
    exact hservices ▸ hrefers
  | some p =>
    have hservices : target.services = [.findClass, .getMethodId,
        .callMethod (.ofTy target.info.returns)] := by
      simp [ResolvedMethod.services, hother, perObject_of_receiver hkind]
    exact hservices ▸ hrefers

theorem links_callActual (object : Option Register) (owner method : String)
    (args : List Register) (result : Option Register) :
    Links scope (callActual object owner method args result origin) fun n code =>
      ∃ types target, args.mapM scope.types.get? = some types
        ∧ scope.unit.resolveMethod owner method types origin = .ok target
          ∧ target.info.returns.isFloating = false
          ∧ Calls scope target ⟨method, types⟩ args n code := by
  intro st code after h
  obtain ⟨types, target, r, receiver, htypes, htarget, hreturns, -, hreceiver, hcode⟩ :=
    yields_callActual h
  have hkind := eq_none_of_receives hreceiver
  have hcalls : ∀ n code, Calls scope target ⟨method, types⟩ args n code → ∃ types target,
      args.mapM scope.types.get? = some types
        ∧ scope.unit.resolveMethod owner method types origin = .ok target
          ∧ target.info.returns.isFloating = false
          ∧ Calls scope target ⟨method, types⟩ args n code :=
    fun n code h => ⟨types, target, htypes, htarget, hreturns, h⟩
  obtain ⟨hlocal, h⟩ | ⟨hother, h⟩ := hcode
  · exact (links_callOwn hlocal hkind _ _ _ _ _).mono hcalls _ _ _ h
  · exact (links_callOther hother hkind _ _ _ _).mono hcalls _ _ _ h

theorem links_callVirtual (object : Register) (method : String) (args : List Register)
    (result : Option Register) :
    Links scope (callVirtual object method args result origin) fun n code =>
      ∃ owner types target, scope.types.get? object = some (.classRef owner)
        ∧ args.mapM scope.types.get? = some types
        ∧ scope.unit.resolveMethod owner method types origin = .ok target
        ∧ target.info.returns.isFloating = false
        ∧ Refers scope target.virtualServices [] n code ∧ ∀ r ∈ args, Integral scope r := by
  intro st code after h
  obtain ⟨owner, types, target, r, l, hobject, htypes, htarget, hreturns, -, hl, h⟩ :=
    yields_callVirtual h
  obtain ⟨hsize, hcode⟩ := links_remote h (links_findClassOf _)
    fun a ha n => linked_of_operands hl n a ha
  refine ⟨hsize, fun n hn => ?_⟩
  obtain ⟨hrefers, hvalues⟩ := hcode n hn
  exact ⟨owner, types, target, hobject, htypes, htarget, hreturns, hrefers,
    integral_of_operands hl hvalues⟩

end Selection

/-! ## Statements -/

open Selection (Integral Links Named Refers Scope UsesField UsesStatic Yields)

/-- The services and the functions of the class that a statement calls, in order. -/
def Statement.Uses (scope : Scope) (origin : Origin) (services : List Service)
    (callees : List String) : Statement → Prop
  | .string _ _ => services = [.newStringUtf] ∧ callees = []
  | .getStatic owner field _ | .getStaticAddress owner field _ =>
    UsesStatic scope origin owner field .getStaticField services ∧ callees = []
  | .putStatic owner field _ =>
    UsesStatic scope origin owner field .setStaticField services ∧ callees = []
  | .getField object field _ | .getFieldAddress object field _ =>
    UsesField scope origin object field .getField services ∧ callees = []
  | .putField object field _ =>
    UsesField scope origin object field .setField services ∧ callees = []
  | .callActual _ owner method args _ =>
    ∃ types target, args.mapM scope.types.get? = some types
      ∧ scope.unit.resolveMethod owner method types origin = .ok target
        ∧ services = target.services
        ∧ callees = scope.unit.callees scope.abi target ⟨method, types⟩
  | .callVirtual object method args _ =>
    ∃ owner types target, scope.types.get? object = some (.classRef owner)
      ∧ args.mapM scope.types.get? = some types
      ∧ scope.unit.resolveMethod owner method types origin = .ok target
      ∧ services = target.virtualServices ∧ callees = []
  | _ => services = [] ∧ callees = []

/-- What a statement passes to other code and takes back from methods is no floating-point
number, and it takes addresses of members of the class itself only. -/
def Statement.Accepted (scope : Scope) (origin : Origin) : Statement → Prop
  | .getStaticAddress owner _ _ => owner = scope.unit.name
  | .getFieldAddress object _ _ => scope.types.get? object = some (.classRef scope.unit.name)
  | .putStatic owner _ src => owner ≠ scope.unit.name → Integral scope src
  | .putField object _ src =>
    scope.types.get? object ≠ some (.classRef scope.unit.name) → Integral scope src
  | .callActual _ owner method args _ => (∀ r ∈ args, Integral scope r) ∧
    ∀ types target, args.mapM scope.types.get? = some types →
      scope.unit.resolveMethod owner method types origin = .ok target →
      target.info.returns.isFloating = false
  | .callVirtual object method args _ => (∀ r ∈ args, Integral scope r) ∧
    ∀ owner types target, scope.types.get? object = some (.classRef owner) →
      args.mapM scope.types.get? = some types →
      scope.unit.resolveMethod owner method types origin = .ok target →
      target.info.returns.isFloating = false
  | _ => True

namespace Selection

variable {scope : Scope} {origin : Origin}

theorem inner_edgeCode {edge : Nat} {st after : State} {code : List Instr}
    (h : Yields scope (edgeCode edge origin) st code after) : Inner code := by
  obtain ⟨moves, -, h⟩ := yields_edgeCode.1 h
  obtain ⟨src, dest, -, rfl, -⟩ | ⟨-, rfl, -⟩ := yields_moveAll.1 h
  · exact ⟨rfl, rfl, rfl⟩
  · refine .append (.of_forall ?_) (.of_forall ?_) <;>
    · intro i hi
      obtain ⟨m, -, rfl⟩ := List.mem_map.1 hi
      exact ⟨rfl, rfl, rfl⟩

theorem inner_binaryForm (form : BinaryForm) (size : Machine.Size) (left right result : Reg) :
    Inner (form.code size left right result) := by
  cases form <;> exact ⟨rfl, rfl, rfl⟩

theorem inner_of_widen {value wide : Reg} {type : Ty} {st after : State} {code : List Instr}
    (h : Yields scope (widen value type) st (wide, code) after) : Inner code := by
  obtain ⟨-, -, rfl, -⟩ | ⟨-, -, rfl, -⟩ := yields_widen.1 h
  · exact .nil
  · exact ⟨rfl, rfl, rfl⟩

theorem inner_binaryCode {op : BinaryOp} {type : Ty} {left right result : Reg}
    {st after : State} {code : List Instr}
    (h : Yields scope (binaryCode op type left right result) st code after) :
    Inner code := by
  obtain ⟨-, rfl, -⟩
      | ⟨-, -, first, before, mid, second, between, last, hfirst, hsecond, rfl, -⟩ :=
    yields_binaryCode.1 h
  · exact inner_binaryForm _ _ _ _ _
  · have hbetween : Inner between := by
      obtain ⟨-, -, rfl, -⟩ | ⟨-, hsecond⟩ := hsecond
      · exact .nil
      · exact inner_of_widen hsecond
    exact (((inner_of_widen hfirst).append hbetween).append
      (inner_binaryForm _ _ _ _ _)).append
      ⟨rfl, rfl, rfl⟩

theorem inner_unaryCode (op : UnaryOp) (src result : Reg) :
    Inner (unaryCode op src result) := by
  cases op <;> exact ⟨rfl, rfl, rfl⟩

theorem inner_convertCode (source : Ty) (src result : Reg) :
    Inner (convertCode source src result) := by
  unfold convertCode
  split <;> exact ⟨rfl, rfl, rfl⟩

theorem inner_branchCode (condition : Reg) (expected : Bool) (target skip : String)
    {copies : List Instr} (h : Inner copies) :
    Inner (branchCode condition expected target skip copies) := by
  cases copies with
  | nil => cases expected <;> exact ⟨rfl, rfl, rfl⟩
  | cons i copies =>
    cases expected <;>
    · show Inner ([_, _] ++ (i :: copies) ++ [_, _])
      exact (Inner.append ⟨rfl, rfl, rfl⟩ h).append ⟨rfl, rfl, rfl⟩

/-! ### One statement -/

/-- The code of a statement refers to what the statement uses, and a statement that has code is
accepted. -/
theorem links_statementCode (index : Nat) (s : Statement) :
    Links scope (statementCode index s origin) fun n code =>
      (∃ services callees, s.Uses scope origin services callees
        ∧ Refers scope services callees n code) ∧ s.Accepted scope origin := by
  intro st code after h
  -- code that calls nothing and names no data
  have hinner : ∀ {s : Statement} {code : List Instr} {after : State}, Inner code →
      after.strings = st.strings → s.Uses scope origin [] [] → s.Accepted scope origin →
      st.strings.size ≤ after.strings.size ∧ ∀ n, after.strings.size ≤ n →
        (∃ services callees, s.Uses scope origin services callees
          ∧ Refers scope services callees n code) ∧ s.Accepted scope origin :=
    fun hcode hstrings huses haccepted =>
      ⟨hstrings ▸ Nat.le_refl _, fun n _ => ⟨⟨[], [], huses, .of_inner hcode⟩, haccepted⟩⟩
  cases gives_of_yields h with
  | string _ htext hcode =>
    obtain ⟨htexts, hlinked⟩ := (links_constant _).result htext
    obtain ⟨hcodes, hpasses⟩ := (links_service _ _ _).result hcode
    refine ⟨Nat.le_trans htexts hcodes, fun n hn => ⟨⟨_, _, ⟨rfl, rfl⟩, ?_⟩, trivial⟩⟩
    have htext := hlinked n (Nat.le_trans hcodes hn)
    exact (hpasses n hn (List.forall_mem_singleton.2 htext)).refers
  | getStatic hcode =>
    refine ((links_getStatic _ _ _ false).result hcode).imp_right fun hlinks n hn => ?_
    obtain ⟨⟨services, huses, hrefers⟩, -⟩ := hlinks n hn
    exact ⟨⟨services, [], ⟨huses, rfl⟩, hrefers⟩, trivial⟩
  | getStaticAddress hcode =>
    refine ((links_getStatic _ _ _ true).result hcode).imp_right fun hlinks n hn => ?_
    obtain ⟨⟨services, huses, hrefers⟩, hown⟩ := hlinks n hn
    exact ⟨⟨services, [], ⟨huses, rfl⟩, hrefers⟩, hown rfl⟩
  | putStatic hcode =>
    refine ((links_putStatic _ _ _).result hcode).imp_right fun hlinks n hn => ?_
    obtain ⟨⟨services, huses, hrefers⟩, hvalue⟩ := hlinks n hn
    exact ⟨⟨services, [], ⟨huses, rfl⟩, hrefers⟩, hvalue⟩
  | getField hcode =>
    refine ((links_getField _ _ _ false).result hcode).imp_right fun hlinks n hn => ?_
    obtain ⟨⟨services, huses, hrefers⟩, -⟩ := hlinks n hn
    exact ⟨⟨services, [], ⟨huses, rfl⟩, hrefers⟩, trivial⟩
  | getFieldAddress hcode =>
    refine ((links_getField _ _ _ true).result hcode).imp_right fun hlinks n hn => ?_
    obtain ⟨⟨services, huses, hrefers⟩, hown⟩ := hlinks n hn
    exact ⟨⟨services, [], ⟨huses, rfl⟩, hrefers⟩, hown rfl⟩
  | putField hcode =>
    refine ((links_putField _ _ _).result hcode).imp_right fun hlinks n hn => ?_
    obtain ⟨⟨services, huses, hrefers⟩, hvalue⟩ := hlinks n hn
    exact ⟨⟨services, [], ⟨huses, rfl⟩, hrefers⟩, hvalue⟩
  | callActual hcode =>
    refine ((links_callActual _ _ _ _ _).result hcode).imp_right fun hlinks n hn => ?_
    obtain ⟨types, target, htypes, htarget, hreturns, hrefers, hargs⟩ := hlinks n hn
    refine ⟨⟨_, _, ⟨types, target, htypes, htarget, rfl, rfl⟩, hrefers⟩, hargs, ?_⟩
    intro types' target' htypes' htarget'
    obtain rfl : types = types' := Option.some.inj (htypes.symm.trans htypes')
    obtain rfl : target = target' := Except.ok.inj (htarget.symm.trans htarget')
    exact hreturns
  | callVirtual hcode =>
    refine ((links_callVirtual _ _ _ _).result hcode).imp_right fun hlinks n hn => ?_
    obtain ⟨owner, types, target, hobject, htypes, htarget, hreturns, hrefers, hargs⟩ :=
      hlinks n hn
    refine ⟨⟨_, _, ⟨owner, types, target, hobject, htypes, htarget, rfl, rfl⟩, hrefers⟩, hargs,
      ?_⟩
    intro owner' types' target' hobject' htypes' htarget'
    obtain rfl : owner = owner' :=
      Ty.classRef.inj (Option.some.inj (hobject.symm.trans hobject'))
    obtain rfl : types = types' := Option.some.inj (htypes.symm.trans htypes')
    obtain rfl : target = target' := Except.ok.inj (htarget.symm.trans htarget')
    exact hreturns
  | copy | literal | getLocal | putLocal | getParam | compare | returnValue | returnVoid =>
    exact hinner ⟨rfl, rfl, rfl⟩ rfl ⟨rfl, rfl⟩ trivial
  | choose | startScope | endScope => exact hinner .nil rfl ⟨rfl, rfl⟩ trivial
  | binary _ _ _ _ hcode =>
    obtain ⟨count, rfl⟩ := draws_of_binaryCode hcode
    exact hinner (inner_binaryCode hcode) rfl ⟨rfl, rfl⟩ trivial
  | unary => exact hinner (inner_unaryCode _ _ _) rfl ⟨rfl, rfl⟩ trivial
  | convert => exact hinner (inner_convertCode _ _ _) rfl ⟨rfl, rfl⟩ trivial
  | branch _ hcopies =>
    obtain ⟨count, rfl⟩ := draws_of_edgeCode hcopies
    exact hinner (inner_branchCode _ _ _ _ (inner_edgeCode hcopies)) rfl ⟨rfl, rfl⟩ trivial
  | jump hcopies | label hcopies =>
    obtain ⟨count, rfl⟩ := draws_of_edgeCode hcopies
    exact hinner ((inner_edgeCode hcopies).append ⟨rfl, rfl, rfl⟩) rfl ⟨rfl, rfl⟩ trivial

/-! ### Bodies and functions -/

/-- The services and the functions that statements call, one statement after the other. -/
inductive UsesAll (scope : Scope) : List Located → List Service → List String → Prop
  | nil : UsesAll scope [] [] []
  | cons {s : Located} {l : List Located} {services more : List Service}
      {callees others : List String} (hs : s.statement.Uses scope s.origin services callees)
      (hl : UsesAll scope l more others) :
      UsesAll scope (s :: l) (services ++ more) (callees ++ others)

theorem UsesAll.of_mem {l : List Located} {services : List Service} {callees : List String}
    (h : UsesAll scope l services callees) :
    ∀ s ∈ l, ∃ own called, s.statement.Uses scope s.origin own called := by
  induction h with
  | nil => exact List.forall_mem_nil _
  | cons hs _ ih => exact List.forall_mem_cons.2 ⟨⟨_, _, hs⟩, ih⟩

/-- What is known of the code of statements: its references, and that each
statement is accepted. -/
structure Accounted (scope : Scope) (l : List Located) (n : Nat) (code : List Instr) :
    Prop where
  refers : ∃ services callees, UsesAll scope l services callees
    ∧ Refers scope services callees n code
  accepted : ∀ s ∈ l, s.statement.Accepted scope s.origin

theorem links_bodyCode (index : Nat) (l : List Located) :
    Links scope (bodyCode index l) (Accounted scope l) := by
  induction l generalizing index with
  | nil => exact .pure fun _ => ⟨⟨[], [], .nil, .nil⟩, List.forall_mem_nil _⟩
  | cons s l ih =>
    refine (links_statementCode index s.statement).bind fun code =>
      (ih _).bind fun following =>
      .pure fun n hrest hcode => ?_
    obtain ⟨⟨services, callees, huses, hrefers⟩, haccepted⟩ := hcode
    obtain ⟨⟨more, others, hall, hmore⟩, hothers⟩ := hrest
    exact ⟨⟨_, _, .cons huses hall, hrefers.append hmore⟩,
      List.forall_mem_cons.2 ⟨haccepted, hothers⟩⟩

/-- The code in front of the statements refers to nothing. -/
theorem Entry.inner_ofFunction {abi : Machine.Abi} {f : Function} {entry : Entry}
    (h : Entry.ofFunction abi f origin = .ok entry) : Inner entry.code := by
  obtain ⟨w, hsound, -⟩ := @sound_of_ofFunction abi f .empty entry origin h
  refine .of_forall fun i hi => ?_
  obtain ⟨r, p, -, -, rfl⟩ := hsound.receives i hi
  exact ⟨rfl, rfl, rfl⟩

variable {u : ClassUnit} {abi : Machine.Abi} {position : Nat} {f : Function}
  {strings interned : Assembly.StringTable} {p : Pseudo.Function}

/-- A stream refers to what the statements of its function use. -/
theorem accounted_of_ofFunction (h : ofFunction u abi position f strings = (.ok p, interned)) :
    ∃ scope entry, scopeOf u abi position f = .ok (scope, entry)
      ∧ strings.size ≤ interned.size
      ∧ ∀ n, interned.size ≤ n → Accounted scope f.body n p.code := by
  obtain ⟨scope, entry, body, state, hscope, hbody, rfl, rfl⟩ := ofFunction_eq_ok h
  obtain ⟨hsize, haccounts⟩ := links_bodyCode 0 f.body _ body state hbody
  refine ⟨scope, entry, hscope, hsize, fun n hn => ?_⟩
  obtain ⟨⟨services, callees, huses, hrefers⟩, haccepted⟩ := haccounts n hn
  obtain ⟨types, htypes⟩ := exists_types_of_scopeOf hscope
  obtain ⟨copies, -, -, hentry⟩ := scopeOf_eq_ok htypes hscope
  have hfront : Refers scope [] [] n entry.code := .of_inner (Entry.inner_ofFunction hentry)
  have hback : Refers scope [] [] n [.label (exitLabel position)] := .of_inner ⟨rfl, rfl, rfl⟩
  have hcode := (hfront.append hrefers).append hback
  simp only [List.nil_append, List.append_nil] at hcode
  exact ⟨⟨services, callees, huses, hcode⟩, haccepted⟩

end Selection

end Jil
