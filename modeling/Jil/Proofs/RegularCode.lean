/-
Jil.Proofs.RegularCode — statements become regular instructions.

Every part of selection gives `Regular` code, of which the expansion can be
encoded. Values of types without a fraction are never of the size `double`, so
an operand of a call that has to be widened is narrower than a register; the
receiver of a call is a reference, or a parameter, and floating-point
parameters are refused. The move of a literal is regular unless the literal is a
`float` with a minus sign, which is a wide immediate for half a register.
-/
import Jil.Proofs.Encoding
import Jil.Proofs.Labels
import Jil.Proofs.Numbers

namespace Jil

open Machine (Abi fitsLong)
open Pseudo (Instr Reg bind_eq_ok ite_eq_ok)

/-! ## Regular code -/

namespace Pseudo

variable {code rest : List Instr}

/-- Code of regular instructions. -/
abbrev Regular (code : List Instr) : Prop := code.all Instr.regular = true

theorem Regular.append (h : Regular code) (h' : Regular rest) : Regular (code ++ rest) := by
  rw [Regular, List.all_append, h, h']
  rfl

end Pseudo

open Pseudo (Regular)

/-! ## Calls -/

namespace Native

variable {abi : Abi} {env : Reg} {origin : Origin}

/-- An operand that is narrower than a register when it has to be widened. -/
def Argument.Widens : Argument → Prop
  | .value p type => type.isFloating = true ∨ p.size ≠ .double
  | .address _ => True

theorem regular_marshal {dest : Machine.Reg} {a : Argument} {i : Instr} (ha : a.Widens)
    (h : marshal origin dest a = .ok i) : i.regular = true := by
  cases a with
  | address symbol =>
    cases h
    rfl
  | value p type =>
    unfold marshal at h
    rcases ite_eq_ok.1 h with ⟨-, h⟩ | ⟨hintegral, h⟩
    · cases h
    rcases ite_eq_ok.1 h with ⟨-, h⟩ | ⟨hnarrow, h⟩
    · cases h
      rfl
    · cases h
      have hbytes : p.size.bytes < Machine.Size.quad.bytes := by
        have hdouble := ha.resolve_left hintegral
        cases hsize : p.size <;> simp_all [Machine.Size.bytes]
      simp [Instr.regular, hbytes, Pseudo.Operand.immediate?]

theorem Sequence.regular_andThen {s rest : Sequence} (hs : Regular s.code)
    (hrest : Regular rest.code) : Regular (s.andThen rest).code := by
  unfold Sequence.andThen
  split
  · exact hs.append hrest
  · exact hs

theorem regular_loadOperands {args : List Argument} (hargs : ∀ a ∈ args, a.Widens)
    (position : Nat) : Regular (loadOperands abi origin position args).code := by
  induction args generalizing position with
  | nil => rfl
  | cons a rest ih =>
    rw [loadOperands]
    split
    · next i hi =>
      obtain ⟨r, -, hi⟩ := bind_eq_ok.1 hi
      have hfirst := regular_marshal (hargs a List.mem_cons_self) hi
      exact Sequence.regular_andThen (by simp [Sequence.complete, hfirst])
        (ih (fun a ha => hargs a (List.mem_cons_of_mem _ ha)) _)
    · rfl

theorem regular_loadArguments {callee : String} {args : List Argument}
    (hargs : ∀ a ∈ args, a.Widens) :
    Regular (loadArguments abi env callee args origin).code := by
  unfold loadArguments
  split
  · rfl
  · split
    · exact Sequence.regular_andThen rfl (regular_loadOperands hargs _)
    · rfl

theorem regular_takeResult (result : Option Reg) : Regular (takeResult abi result) := by
  cases result <;> rfl

theorem regular_serviceCall {svc : Service} {args : List Argument} {result : Option Reg}
    (hargs : ∀ a ∈ args, a.Widens) :
    Regular (serviceCall abi env svc args result origin).code := by
  refine Sequence.regular_andThen (regular_loadArguments hargs)
    (.append ?_ (regular_takeResult _))
  unfold invoke
  split <;> rfl

theorem regular_directCall {symbol : String} {args : List Argument} {result : Option Reg}
    (hargs : ∀ a ∈ args, a.Widens) :
    Regular (directCall abi env symbol args result origin).code :=
  Sequence.regular_andThen (regular_loadArguments hargs) (.append rfl (regular_takeResult _))

end Native

namespace Selection

open Native (Argument)

variable {scope : Scope} {st after : State} {index : Nat} {origin : Origin} {code : List Instr}

/-- Only values of type `double` have that size. -/
theorem sizeOf_eq_double_iff {t : Ty} : sizeOf t = .double ↔ t = .double := by
  cases t <;> simp [sizeOf, Machine.Size.ofTy?]

/-- The value of a register. -/
theorem widens_value {id : Nat} {t : Ty} : (Argument.value ⟨id, sizeOf t⟩ t).Widens := by
  by_cases h : t = .double
  · exact .inl (by rw [h]; rfl)
  · exact .inr (mt sizeOf_eq_double_iff.1 h)

theorem regular_service {svc : Native.Service} {args : List Argument} {result : Option Reg}
    (hargs : ∀ a ∈ args, a.Widens) : Ensures (service svc args result origin) Regular := by
  intro scope st code after h
  rw [(yields_service h).2.1]
  exact Native.regular_serviceCall hargs

theorem ensures_draw (size : Machine.Size) : Ensures (draw size) (·.size = size) := by
  intro scope st p after h
  rw [(yields_draw.1 h).1]

theorem widens_constant (text : String) : Ensures (constant text) Argument.Widens := by
  intro scope st a after h
  obtain ⟨⟨label, rfl⟩, -⟩ := yields_constant h
  trivial

/-- A value that a service or a method of an object takes first. -/
theorem widens_handle {p : Reg} {size : Machine.Size} (h : p.size = size)
    (hsize : size ≠ .double) (t : Ty) : (Argument.value p t).Widens := .inr (h ▸ hsize)

/-- What is looked up is an address. -/
abbrev Found (r : Reg × List Instr) : Prop := r.1.size = .quad ∧ Regular r.2

theorem regular_findClass (name : String) (origin : Origin) :
    Ensures (findClass name origin) Found := by
  refine (ensures_draw .quad).bind fun handle hhandle => ?_
  refine (widens_constant name).bind fun text htext => ?_
  exact (regular_service (List.forall_mem_singleton.2 htext)).bind fun code hcode =>
    .pure ⟨hhandle, hcode⟩

theorem regular_findClassOf {object : Reg} (hobject : object.size = .quad) (origin : Origin) :
    Ensures (findClassOf object origin) Found := by
  refine (ensures_draw .quad).bind fun handle hhandle => ?_
  exact (regular_service (List.forall_mem_singleton.2 (widens_handle hobject nofun _))).bind
    fun code hcode => .pure ⟨hhandle, hcode⟩

theorem regular_findMember {handle : Reg} (hhandle : handle.size = .quad)
    (svc : Native.Service) (name descriptor : String) (origin : Origin) :
    Ensures (findMember svc handle name descriptor origin) Found := by
  refine (ensures_draw .quad).bind fun id hid => ?_
  refine (widens_constant name).bind fun text htext => ?_
  refine (widens_constant descriptor).bind fun signature hsignature => ?_
  refine (regular_service ?_).bind fun code hcode => .pure ⟨hid, hcode⟩
  simp [widens_handle hhandle, htext, hsignature]

/-! ## Members -/

/-- A member of another class. -/
theorem regular_remote {find : Select (Reg × List Instr)} {lookup svc : Native.Service}
    {name descriptor : String} {object result : Option Reg} {more : List Argument}
    (h : Yields scope (remote find lookup name descriptor svc object more result origin)
      st code after) (hfind : Ensures find Found)
    (hobject : ∀ p, object = some p → p.size ≠ .double)
    (hmore : ∀ a ∈ more, a.Widens) : Regular code := by
  refine (hfind.bind fun found hfound => (regular_findMember hfound.1 _ _ _ _).bind
    fun member hmember => (regular_service ?_).bind fun code hcode =>
      .pure ((hfound.2.append hmember.2).append hcode)) _ _ _ _ h
  refine List.forall_mem_cons.2 ⟨?_,
    List.forall_mem_cons.2 ⟨widens_handle hmember.1 nofun _, hmore⟩⟩
  cases object with
  | some p => exact .inr (hobject p rfl)
  | none => exact widens_handle hfound.1 nofun _

/-- Reading a place in memory, or computing its address. -/
theorem regular_readPlace {place : Pseudo.Operand} (h : place.immediate? = none)
    (address : Bool) (p : Reg) : Regular [readPlace address place p] := by
  cases address <;> simp [readPlace, Instr.regular, Instr.mov, h]

/-- Writing a place in memory. -/
theorem regular_writePlace {place : Pseudo.Operand} (h : place.immediate? = none) (p : Reg) :
    Regular [writePlace place p] := by
  simp [writePlace, Instr.regular, Instr.mov, h]

theorem regular_getStatic (owner field : String) (result : Register) (address : Bool)
    (origin : Origin) : Ensures (getStatic owner field result address origin) Regular := by
  intro scope st code after h
  obtain ⟨t, -, ⟨_, ⟨-, offset, -, rfl⟩, rfl, rfl⟩ | ⟨-, -, type, -, h⟩⟩ := yields_getStatic h
  · exact regular_readPlace rfl _ _
  · exact regular_remote h (regular_findClass _ _) nofun (List.forall_mem_nil _)

theorem regular_putStatic (owner field : String) (src : Register) (origin : Origin) :
    Ensures (putStatic owner field src origin) Regular := by
  intro scope st code after h
  obtain ⟨t, -, ⟨_, ⟨-, offset, -, rfl⟩, rfl, rfl⟩ | ⟨-, type, -, h⟩⟩ := yields_putStatic h
  · exact regular_writePlace rfl _
  · exact regular_remote h (regular_findClass _ _) nofun
      (List.forall_mem_singleton.2 widens_value)

/-- The register of an object is as wide as an address. -/
theorem size_of_object (id : Nat) :
    ∀ p, some (⟨id, .quad⟩ : Reg) = some p → p.size ≠ .double := by
  rintro p ⟨⟩
  exact nofun

theorem regular_getField (object : Register) (field : String) (result : Register)
    (address : Bool) (origin : Origin) :
    Ensures (getField object field result address origin) Regular := by
  intro scope st code after h
  obtain ⟨owner, t, -, -, ⟨_, ⟨-, offset, -, rfl⟩, rfl, rfl⟩ | ⟨-, -, type, -, h⟩⟩ :=
    yields_getField h
  · exact regular_readPlace rfl _ _
  · exact regular_remote h (regular_findClassOf rfl _) (size_of_object _)
      (List.forall_mem_nil _)

theorem regular_putField (object : Register) (field : String) (src : Register)
    (origin : Origin) : Ensures (putField object field src origin) Regular := by
  intro scope st code after h
  obtain ⟨owner, t, -, -, ⟨_, ⟨-, offset, -, rfl⟩, rfl, rfl⟩ | ⟨-, type, -, h⟩⟩ :=
    yields_putField h
  · exact regular_writePlace rfl _
  · exact regular_remote h (regular_findClassOf rfl _) (size_of_object _)
      (List.forall_mem_singleton.2 widens_value)

/-! ## Methods -/

theorem widens_operands {args : List Register} {l : List Argument}
    (h : args.mapM scope.value? = some l) : ∀ a ∈ l, a.Widens := by
  intro a ha
  obtain ⟨r, -, t, -, rfl⟩ := exists_of_mem_operands h ha
  exact widens_value

theorem regular_callOwn {receiver : Option Reg}
    (hreceiver : ∀ p, receiver = some p → p.size ≠ .double) (target : ResolvedMethod)
    (owner method : String) (args : List Register) (types : List Ty) (result : Option Reg)
    (origin : Origin) :
    Ensures (callOwn target receiver owner method args types result origin) Regular := by
  intro scope st code after h
  obtain ⟨first, before, l, f, hfirst, hl, -, -, rfl⟩ := yields_callOwn h
  have hbefore : first.size ≠ .double ∧ Regular before := by
    obtain ⟨rfl, rfl, -⟩ | ⟨-, hclass⟩ := hfirst
    · exact ⟨hreceiver first rfl, rfl⟩
    · obtain ⟨hsize, hbefore⟩ := (regular_findClass _ _).result hclass
      exact ⟨hsize ▸ nofun, hbefore⟩
  exact hbefore.2.append (Native.regular_directCall
    (List.forall_mem_cons.2 ⟨.inr hbefore.1, widens_operands hl⟩))

theorem regular_callOther {receiver : Option Reg} (hreceiver : ∀ p, receiver = some p →
      p.size ≠ .double) (target : ResolvedMethod) (method : String) (args : List Register)
    (types : List Ty) (result : Option Reg) (origin : Origin) :
    Ensures (callOther target receiver method args types result origin) Regular := by
  intro scope st code after h
  obtain ⟨l, hl, h⟩ := yields_callOther h
  exact regular_remote h (regular_findClass _ _) hreceiver (widens_operands hl)

/-- The receiver of a call is a reference or a parameter. -/
theorem size_of_receives {object : Option Register} {kind : MemberKind} {receiver : Option Reg}
    (hobject : ∀ r t, object = some r → scope.types.get? r = some t → t ≠ .double)
    (hparams : ∀ name p, scope.params.get? name = some p → p.size ≠ .double)
    (h : scope.Receives kind object receiver) : ∀ p, receiver = some p → p.size ≠ .double := by
  rintro p rfl
  cases h with
  | written ht => exact mt sizeOf_eq_double_iff.1 (hobject _ _ rfl ht)
  | own hp => exact hparams "this" p hp

theorem regular_callActual {object : Option Register} {owner method : String}
    {args : List Register} {result : Option Register}
    (hobject : ∀ r t, object = some r → scope.types.get? r = some t → t ≠ .double)
    (hparams : ∀ name p, scope.params.get? name = some p → p.size ≠ .double)
    (h : Yields scope (callActual object owner method args result origin) st code after) :
    Regular code := by
  obtain ⟨types, target, r, receiver, -, -, -, -, hreceiver, hcode⟩ := yields_callActual h
  have hsize := size_of_receives hobject hparams hreceiver
  obtain ⟨-, h⟩ | ⟨-, h⟩ := hcode
  · exact (regular_callOwn hsize _ _ _ _ _ _ _).result h
  · exact (regular_callOther hsize _ _ _ _ _ _).result h

theorem regular_callVirtual (object : Register) (method : String) (args : List Register)
    (result : Option Register) (origin : Origin) :
    Ensures (callVirtual object method args result origin) Regular := by
  intro scope st code after h
  obtain ⟨owner, types, target, r, l, -, -, -, -, -, hl, h⟩ := yields_callVirtual h
  exact regular_remote h (regular_findClassOf rfl _) (size_of_object _) (widens_operands hl)

/-! ## Values and merges -/

theorem regular_widen {value wide : Reg} {type : Ty}
    (h : Yields scope (widen value type) st (wide, code) after) : Regular code := by
  obtain ⟨-, -, rfl, -⟩ | ⟨hnarrow, rfl, rfl, -⟩ := yields_widen.1 h
  · rfl
  · have hbytes : value.size.bytes < Machine.Size.long.bytes := Nat.not_le.1 hnarrow
    simp [Instr.regular, hbytes]

theorem regular_binaryForm (form : BinaryForm) (size : Machine.Size)
    (left right result : Reg) :
    Regular (form.code size left right result) := by
  cases form <;> rfl

theorem regular_binaryCode (op : BinaryOp) (type : Ty) (left right result : Reg) :
    Ensures (binaryCode op type left right result) Regular := by
  intro scope st code after h
  obtain ⟨-, rfl, -⟩
      | ⟨-, -, first, before, mid, second, between, last, hfirst, hsecond, rfl, -⟩ :=
    yields_binaryCode.1 h
  · exact regular_binaryForm _ _ _ _ _
  · have hbetween : Regular between := by
      obtain ⟨-, -, rfl, -⟩ | ⟨-, hsecond⟩ := hsecond
      · rfl
      · exact regular_widen hsecond
    exact (((regular_widen hfirst).append hbetween).append
      (regular_binaryForm _ _ _ _ _)).append rfl

theorem regular_unaryCode (op : UnaryOp) (src result : Reg) :
    Regular (unaryCode op src result) := by
  cases op <;> rfl

theorem regular_convertCode (source : Ty) (src result : Reg) :
    Regular (convertCode source src result) := by
  unfold convertCode
  split
  · next hwider => simp [Instr.regular, hwider]
  · rfl

theorem regular_edgeCode (edge : Nat) (origin : Origin) :
    Ensures (edgeCode edge origin) Regular := by
  intro scope st code after h
  obtain ⟨moves, -, h⟩ := yields_edgeCode.1 h
  obtain ⟨src, dest, -, rfl, -⟩ | ⟨-, rfl, -⟩ := yields_moveAll.1 h
  · rfl
  · simp [Regular, move, Instr.mov, Instr.regular]

theorem regular_branchCode {condition : Reg} {expected : Bool} {target skip : String}
    {copies : List Instr} (h : Regular copies) :
    Regular (branchCode condition expected target skip copies) := by
  have htest : ∀ cond label, Regular
      [.alu .cmp .byte (.imm 0) (.pseudo condition), .jcc cond label] := fun _ _ => rfl
  have hcode : ∀ taken skipped, Regular
      (if copies.isEmpty then
        [.alu .cmp .byte (.imm 0) (.pseudo condition), .jcc taken target]
      else
        [.alu .cmp .byte (.imm 0) (.pseudo condition), .jcc skipped skip] ++ copies
          ++ [.jmp target, .label skip]) := by
    intro taken skipped
    split
    · exact htest taken target
    · exact ((htest skipped skip).append h).append rfl
  cases expected <;> exact hcode _ _

/-! ## Statements -/

end Selection

/-- What the sizes in the code of a statement rest on: the result of a literal has its type,
and the receiver of a call is a reference. -/
def Statement.Sized (types : Table Register Ty) : Statement → Prop
  | .literal type _ result => types.get? result = some type
  | .callActual (some object) _ _ _ _ => ∃ t, types.get? object = some t ∧ t.isReference = true
  | _ => True

/-- A literal of type `float` with a minus sign. -/
def Statement.isNegativeFloat : Statement → Bool
  | .literal .float value _ => value.toList.head? = some '-'
  | _ => false

namespace Typing

theorem sized_of_effect {scope : Scope} {ctx : Context} {s : Statement} {origin : Origin}
    {e : Effect} {types : Table Register Ty} (h : effect scope ctx s origin = .ok e)
    (hknown : ∀ r t, ctx.registers.get? r = some t → types.get? r = some t)
    (hnew : ∀ r t, e = .define r t → types.get? r = some t) : s.Sized types := by
  cases judges_of_effect h with
  | literal => exact hnew _ _ rfl
  | @callActual object _ _ _ _ _ _ hobject =>
    cases object with
    | none => trivial
    | some r => exact (hobject r rfl).imp fun t ht => ⟨hknown _ _ ht.1, ht.2⟩
  | _ => trivial

end Typing

/-- The statements of a function that passed its check. -/
theorem Checked.sized {u : ClassUnit} {position : Nat} {f : Function}
    (h : Checked u position f) {types : Table Register Ty}
    (hrecorded : f.registerTypes = some types) {s : Located} (hs : s ∈ f.body) :
    s.statement.Sized types := by
  obtain ⟨scope, -, ctx, e, -, -, heffect, hknown, hnew⟩ := h.exists_effect hrecorded hs
  exact Typing.sized_of_effect heffect hknown hnew

namespace Selection

variable {scope : Scope} {st after : State} {index : Nat} {origin : Origin} {code : List Instr}

/-- A literal is moved to its register, and only one of type `float` with a
minus sign cannot be. -/
theorem regular_literal {type : Ty} {value : String} {result : Register}
    (hresult : scope.types.get? result = some type)
    (hpositive : (Statement.literal type value result).isNegativeFloat = false)
    (h : Yields scope (statementCode index (.literal type value result) origin) st
      code after) :
    Regular code := by
  obtain ⟨bits, hbits, rfl⟩ := code_of_literal hresult h
  have hfits : fitsLong bits = true ∨ (sizeOf type).bytes = 8 := by
    by_cases hfloat : type = .float
    · subst hfloat
      refine .inl ((Literal.fitsLong_float_iff hbits).2 ?_)
      simpa [Statement.isNegativeFloat] using hpositive
    · by_cases hwhole : (sizeOf type).bytes = 8
      · exact .inr hwhole
      · exact .inl (Literal.fitsLong_of_bits? hbits hwhole hfloat)
  rcases hfits with hfits | hfits <;>
    simp [Instr.mov, Instr.regular, Pseudo.Operand.immediate?, hfits]

/-- Statements become regular code. -/
theorem regular_statementCode {s : Statement} (hsized : s.Sized scope.types)
    (hparams : ∀ name p, scope.params.get? name = some p → p.size ≠ .double)
    (hpositive : s.isNegativeFloat = false)
    (h : Yields scope (statementCode index s origin) st code after) : Regular code := by
  cases gives_of_yields h with
  | copy | choose | getLocal | putLocal | getParam | compare | returnValue | returnVoid
    | startScope
  | endScope => rfl
  | literal => exact regular_literal hsized hpositive h
  | string _ htext hcode =>
    have hwidens := (widens_constant _).result htext
    exact (regular_service (List.forall_mem_singleton.2 hwidens)).result hcode
  | getStatic hcode | getStaticAddress hcode =>
    exact (regular_getStatic _ _ _ _ _).result hcode
  | putStatic hcode => exact (regular_putStatic _ _ _ _).result hcode
  | getField hcode | getFieldAddress hcode => exact (regular_getField _ _ _ _ _).result hcode
  | putField hcode => exact (regular_putField _ _ _ _).result hcode
  | binary _ _ _ _ hcode => exact (regular_binaryCode _ _ _ _ _).result hcode
  | unary => exact regular_unaryCode _ _ _
  | convert => exact regular_convertCode _ _ _
  | branch _ hcopies => exact regular_branchCode ((regular_edgeCode _ _).result hcopies)
  | jump hcopies | label hcopies => exact ((regular_edgeCode _ _).result hcopies).append rfl
  | callActual hcode =>
    refine regular_callActual ?_ hparams hcode
    rintro r t rfl ht rfl
    obtain ⟨t, ht', hreference⟩ := hsized
    rw [ht, Option.some.injEq] at ht'
    subst ht'
    cases hreference
  | callVirtual hcode => exact (regular_callVirtual _ _ _ _ _).result hcode

theorem regular_bodyCode {l : List Located} (hsized : ∀ s ∈ l, s.statement.Sized scope.types)
    (hparams : ∀ name p, scope.params.get? name = some p → p.size ≠ .double)
    (hpositive : ∀ s ∈ l, s.statement.isNegativeFloat = false)
    (h : Yields scope (bodyCode index l) st code after) : Regular code := by
  induction l generalizing index st code with
  | nil =>
    rw [(yields_pure.1 h).1]
    rfl
  | cons s l ih =>
    obtain ⟨first, mid, rest, hfirst, hrest, rfl⟩ := yields_bodyCode_cons.1 h
    rw [List.forall_mem_cons] at hsized hpositive
    exact (regular_statementCode hsized.1 hparams hpositive.1 hfirst).append
      (ih hsized.2 hpositive.2 hrest)

/-! ## Parameters -/

namespace Entry

variable {abi : Abi} {e entry : Entry} {position : Nat}

/-- Floating-point parameters are refused, so no parameter is of the size `double`. -/
theorem size_of_receive {q : Param}
    (he : ∀ name p, e.params.get? name = some p → p.size ≠ .double)
    (h : e.receive abi position q origin = .ok entry) :
    ∀ name p, entry.params.get? name = some p → p.size ≠ .double := by
  obtain ⟨r, -, -, hparams, -⟩ := receive_eq_ok h
  unfold receive at h
  rcases ite_eq_ok.1 h with ⟨-, h⟩ | ⟨hintegral, -⟩
  · cases h
  · intro name p hp
    rw [hparams, Table.get?_insert] at hp
    split at hp
    · cases hp
      exact mt sizeOf_eq_double_iff.1 fun hdouble => hintegral (by rw [hdouble]; rfl)
    · exact he name p hp

theorem size_of_receiveAll {params : List Param}
    (he : ∀ name p, e.params.get? name = some p → p.size ≠ .double)
    (h : e.receiveAll abi position origin params = .ok entry) :
    ∀ name p, entry.params.get? name = some p → p.size ≠ .double := by
  induction params generalizing e position with
  | nil =>
    cases h
    exact he
  | cons q params ih =>
    obtain ⟨mid, hmid, h⟩ := bind_eq_ok.1 h
    exact ih (size_of_receive he hmid) h

theorem size_of_ofFunction {f : Function} (h : ofFunction abi f origin = .ok entry) :
    ∀ name p, entry.params.get? name = some p → p.size ≠ .double := by
  obtain ⟨r, -, h⟩ := bind_eq_ok.1 h
  have hnone :
      ∀ (name : String) (p : Reg), (Table.empty : Table String Reg).get? name = some p →
      p.size ≠ .double := fun name p hp => by cases hp
  rcases ite_eq_ok.1 h with ⟨-, h⟩ | ⟨-, h⟩
  · obtain ⟨received, hreceived, h⟩ := bind_eq_ok.1 h
    exact size_of_receiveAll (size_of_receive hnone hreceived) h
  · exact size_of_receiveAll hnone h

/-- Arguments are moved out of their registers. -/
theorem regular_ofFunction {f : Function} (h : ofFunction abi f origin = .ok entry) :
    Regular entry.code := by
  obtain ⟨w, hsound, -⟩ := @sound_of_ofFunction abi f .empty entry origin h
  refine List.all_eq_true.2 fun i hi => ?_
  obtain ⟨r, p, -, -, rfl⟩ := hsound.receives i hi
  rfl

end Entry

end Selection

end Jil
