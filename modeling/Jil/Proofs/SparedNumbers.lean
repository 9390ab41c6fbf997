/-
Jil.Proofs.SparedNumbers — which pseudo-registers the code of statements writes.

The numbers of pseudo-registers lie in three ranges: those of registers, below
`low`; those of the environment and the parameters, up to `high`; and those that
are drawn for local variables and temporaries. The code of statements writes to
the first and the last of them only (`spares_bodyCode`), so that what was moved
out of the argument registers stays where it is.
-/
import Jil.Proofs.Segments
import Jil.Proofs.StatementCode

namespace Jil

open Pseudo (Instr Reg)

/-! ## Code -/

namespace Pseudo

/-- A number below `low` or above `high`. -/
def Outside (low high : Nat) (p : Reg) : Prop := p.id < low ∨ high < p.id

/-- Code that writes outside a range of numbers only. -/
def Spares (low high : Nat) (code : List Instr) : Prop :=
  ∀ i ∈ code, ∀ p ∈ i.defined, Outside low high p

variable {low high : Nat} {code rest : List Instr} {p : Reg}

theorem Spares.nil : Spares low high [] := List.forall_mem_nil _

theorem Spares.append (h : Spares low high code) (h' : Spares low high rest) :
    Spares low high (code ++ rest) :=
  List.forall_mem_append.2 ⟨h, h'⟩

/-- Instructions that write nothing. -/
theorem Spares.of_forall (h : ∀ i ∈ code, i.defined = []) : Spares low high code := by
  intro i hi p hp
  rw [h i hi] at hp
  cases hp

/-- One instruction that writes one pseudo-register. -/
theorem Spares.single {i : Instr} (hi : i.defined = [p]) (hp : Outside low high p) :
    Spares low high [i] := by
  refine List.forall_mem_singleton.2 ?_
  rw [hi]
  exact List.forall_mem_singleton.2 hp

theorem Spares.cons {i : Instr} (hi : Spares low high [i]) (h : Spares low high code) :
    Spares low high (i :: code) :=
  hi.append h

end Pseudo

open Pseudo (Outside Spares)

namespace Native

variable {abi : Machine.Abi} {env : Reg} {origin : Origin} {low high : Nat}

theorem defined_marshal {dest : Machine.Reg} {a : Argument} {i : Instr}
    (h : marshal origin dest a = .ok i) : i.defined = [] := by
  fun_cases marshal origin dest a <;> simp_all only [marshal] <;> cases h <;> rfl

theorem spares_andThen {s rest : Sequence} (hs : Spares low high s.code)
    (hrest : Spares low high rest.code) : Spares low high (s.andThen rest).code := by
  unfold Sequence.andThen
  split
  · exact hs.append hrest
  · exact hs

theorem spares_loadOperands (args : List Argument) (position : Nat) :
    Spares low high (loadOperands abi origin position args).code := by
  induction args generalizing position with
  | nil => exact .nil
  | cons a args ih =>
    rw [loadOperands]
    split
    · next i hi =>
      obtain ⟨r, -, hi⟩ := Pseudo.bind_eq_ok.1 hi
      exact spares_andThen (.of_forall (List.forall_mem_singleton.2 (defined_marshal hi)))
        (ih _)
    · exact .nil

theorem spares_loadArguments (callee : String) (args : List Argument) :
    Spares low high (loadArguments abi env callee args origin).code := by
  unfold loadArguments
  split
  · exact .nil
  · split
    · exact spares_andThen (.of_forall (List.forall_mem_singleton.2 rfl))
        (spares_loadOperands _ _)
    · exact .nil

theorem spares_takeResult {result : Option Reg} (h : ∀ p ∈ result, Outside low high p) :
    Spares low high (takeResult abi result) := by
  cases result with
  | none => exact .nil
  | some p => exact .single rfl (h p rfl)

theorem spares_serviceCall {service : Service} {args : List Argument} {result : Option Reg}
    (h : ∀ p ∈ result, Outside low high p) :
    Spares low high (serviceCall abi env service args result origin).code := by
  refine spares_andThen (spares_loadArguments _ _)
    (.append (.of_forall ?_) (spares_takeResult ?_))
  · unfold invoke
    split <;> simp [Instr.defined, Instr.effects, Instr.mov, Pseudo.Operand.readEffects,
      Pseudo.Operand.writeEffects, Pseudo.Effect.defined?, Machine.AluOp.readsDestination,
      Machine.AluOp.writesDestination]
  · split
    · exact h
    · exact fun q hq => absurd hq (Option.not_mem_none q)

theorem spares_directCall {symbol : String} {args : List Argument} {result : Option Reg}
    (h : ∀ p ∈ result, Outside low high p) :
    Spares low high (directCall abi env symbol args result origin).code :=
  spares_andThen (spares_loadArguments _ _)
    (.append (.of_forall (List.forall_mem_singleton.2 rfl)) (spares_takeResult h))

end Native

namespace Selection

variable {scope : Scope} {low high : Nat} {origin : Origin}

/-! ## Activities -/

/-- What is drawn next lies above `high`, and so do the local variables. -/
structure State.Above (high : Nat) (st : State) : Prop where
  drawn : high ≤ st.drawn
  locals : ∀ name p, st.locals.get? name = some p → high < p.id

/-- An activity leaves the range up to `high` alone, and every result satisfies `P`. -/
def Leaves (scope : Scope) (high : Nat) {α : Type} (x : Select α) (P : α → Prop) : Prop :=
  ∀ st a after, Yields scope x st a after → st.Above high → after.Above high ∧ P a

namespace Leaves

variable {α β : Type} {P : α → Prop} {Q : β → Prop} {x : Select α} {f : α → Select β}

theorem result {st after : State} {a : α} (hx : Leaves scope high x P)
    (h : Yields scope x st a after) (hst : st.Above high) : after.Above high ∧ P a :=
  hx st a after h hst

theorem pure {a : α} (h : P a) : Leaves scope high (pure a : Select α) P := by
  intro st b after hb hst
  obtain ⟨rfl, rfl⟩ := yields_pure.1 hb
  exact ⟨hst, h⟩

theorem bind (hx : Leaves scope high x P) (hf : ∀ a, P a → Leaves scope high (f a) Q) :
    Leaves scope high (x >>= f) Q := by
  intro st b after hb hst
  obtain ⟨a, mid, ha, hb⟩ := yields_bind.1 hb
  obtain ⟨hmid, hP⟩ := hx st a mid ha hst
  exact hf a hP mid b after hb hmid

/-- The first activity leaves the range alone; nothing is known of its result. -/
theorem after (hx : Leaves scope high x fun _ => True) (hf : ∀ a, Leaves scope high (f a) Q) :
    Leaves scope high (x >>= f) Q :=
  hx.bind fun a _ => hf a

end Leaves

theorem leaves_draw (size : Machine.Size) :
    Leaves scope high (draw size) fun p => high < p.id := by
  intro st p after h hst
  obtain ⟨rfl, rfl⟩ := yields_draw.1 h
  exact ⟨⟨Nat.le_succ_of_le hst.drawn, hst.locals⟩, Nat.lt_succ_of_le hst.drawn⟩

theorem leaves_constant (text : String) : Leaves scope high (constant text) fun _ => True := by
  intro st a after h hst
  obtain ⟨-, strings, rfl⟩ := yields_constant h
  exact ⟨⟨hst.drawn, hst.locals⟩, trivial⟩

theorem leaves_service {svc : Native.Service} {args : List Native.Argument}
    {result : Option Reg} (h : ∀ p ∈ result, Outside low high p) :
    Leaves scope high (service svc args result origin) (Spares low high) := by
  intro st code after hcode hst
  obtain ⟨-, rfl, rfl⟩ := yields_service hcode
  exact ⟨⟨hst.drawn, hst.locals⟩, Native.spares_serviceCall h⟩

/-! ## Members and calls -/

theorem outside_of_mem_some {p : Reg} (h : Outside low high p) :
    ∀ q ∈ some p, Outside low high q := by
  rintro _ ⟨⟩
  exact h

theorem outside_of_mem_none : ∀ q ∈ (none : Option Reg), Outside low high q := nofun

theorem leaves_findClass (name : String) :
    Leaves scope high (findClass name origin) fun r => Spares low high r.2 :=
  (leaves_draw _).bind fun _ hp => (leaves_constant name).after fun _ =>
    (leaves_service (outside_of_mem_some (.inr hp))).bind fun _ hcode => .pure hcode

theorem leaves_findClassOf (object : Reg) :
    Leaves scope high (findClassOf object origin) fun r => Spares low high r.2 :=
  (leaves_draw _).bind fun _ hp =>
    (leaves_service (outside_of_mem_some (.inr hp))).bind fun _ hcode => .pure hcode

theorem leaves_findMember (svc : Native.Service) (handle : Reg) (name descriptor : String) :
    Leaves scope high (findMember svc handle name descriptor origin) fun r =>
    Spares low high r.2 :=
  (leaves_draw _).bind fun _ hp => (leaves_constant name).after fun _ =>
    (leaves_constant descriptor).after fun _ =>
      (leaves_service (outside_of_mem_some (.inr hp))).bind fun _ hcode => .pure hcode

/-- A member of another class. -/
theorem leaves_remote {find : Select (Reg × List Instr)} {lookup svc : Native.Service}
    {name descriptor : String} {object result : Option Reg} {more : List Native.Argument}
    (hfind : Leaves scope high find fun r => Spares low high r.2)
    (hresult : ∀ p ∈ result, Outside low high p) :
    Leaves scope high (remote find lookup name descriptor svc object more result origin)
      (Spares low high) :=
  hfind.bind fun _ hfound => (leaves_findMember _ _ _ _).bind fun _ hmember =>
    (leaves_service hresult).bind fun _ hcode => .pure ((hfound.append hmember).append hcode)

/-- Reading a place writes the result. -/
theorem spares_readPlace (address : Bool) (place : Pseudo.Operand) {p : Reg}
    (hp : Outside low high p) : Spares low high [readPlace address place p] := by
  have hreads : place.readEffects.filterMap Pseudo.Effect.defined? = [] := by
    cases place <;> rfl
  refine .single ?_ hp
  cases address <;>
    simp [readPlace, Instr.defined, Instr.effects, Instr.mov, hreads,
      Pseudo.Operand.writeEffects,
      Pseudo.Effect.defined?, Machine.AluOp.readsDestination, Machine.AluOp.writesDestination]

/-- Writing a place writes no pseudo-register. -/
theorem spares_writePlace {place : Pseudo.Operand}
    (hplace : ∀ e ∈ place.writeEffects, e.defined? = none) (p : Reg) :
    Spares low high [writePlace place p] := by
  have hwrites : place.writeEffects.filterMap Pseudo.Effect.defined? = [] :=
    List.filterMap_eq_nil_iff.2 hplace
  refine .of_forall (List.forall_mem_singleton.2 ?_)
  have heffects : (writePlace place p).effects = [.uses p] ++ place.writeEffects := rfl
  rw [Instr.defined, heffects, List.filterMap_append, hwrites]
  rfl

theorem leaves_putStatic (owner field : String) (src : Register) :
    Leaves scope high (putStatic owner field src origin) (Spares low high) := by
  intro st code after h hst
  obtain ⟨t, ht, ⟨_, ⟨-, offset, -, rfl⟩, rfl, rfl⟩ | ⟨-, type, -, h⟩⟩ := yields_putStatic h
  · exact ⟨hst, spares_writePlace (List.forall_mem_nil _) _⟩
  · exact (leaves_remote (leaves_findClass owner) outside_of_mem_none).result h hst

theorem leaves_putField (object : Register) (field : String) (src : Register) :
    Leaves scope high (putField object field src origin) (Spares low high) := by
  intro st code after h hst
  obtain ⟨owner, t, -, ht, ⟨_, ⟨-, offset, -, rfl⟩, rfl, rfl⟩ | ⟨-, type, -, h⟩⟩ :=
    yields_putField h
  · exact ⟨hst,
      spares_writePlace (by simp [Pseudo.Operand.writeEffects, Pseudo.Effect.defined?]) _⟩
  · exact (leaves_remote (leaves_findClassOf _) outside_of_mem_none).result h hst

theorem leaves_callOwn (target : ResolvedMethod) (receiver : Option Reg)
    (owner method : String) (args : List Register) (types : List Ty) {result : Option Reg}
    (hresult : ∀ p ∈ result, Outside low high p) :
    Leaves scope high (callOwn target receiver owner method args types result origin)
      (Spares low high) := by
  intro st code after h hst
  obtain ⟨first, before, l, f, hfirst, -, -, -, rfl⟩ := yields_callOwn h
  have hbefore : after.Above high ∧ Spares low high before := by
    obtain ⟨-, rfl, rfl⟩ | ⟨-, hclass⟩ := hfirst
    · exact ⟨hst, .nil⟩
    · exact (leaves_findClass _).result hclass hst
  exact ⟨hbefore.1, hbefore.2.append (Native.spares_directCall hresult)⟩

theorem leaves_callOther (target : ResolvedMethod) (receiver : Option Reg) (method : String)
    (args : List Register) (types : List Ty) {result : Option Reg}
    (hresult : ∀ p ∈ result, Outside low high p) :
    Leaves scope high (callOther target receiver method args types result origin)
      (Spares low high) := by
  intro st code after h
  obtain ⟨l, -, h⟩ := yields_callOther h
  exact leaves_remote (leaves_findClass _) hresult _ _ _ h

section

-- registers have their numbers below `low`
variable (hlow : ∀ r t, scope.types.get? r = some t → r.index < low)

include hlow

/-- A register stays below the range. -/
theorem outside_of_register {r : Register} {t : Ty} (h : scope.types.get? r = some t) :
    Outside low high (⟨r.index, sizeOf t⟩ : Reg) :=
  .inl (hlow r t h)

theorem leaves_getStatic (owner field : String) (result : Register) (address : Bool) :
    Leaves scope high (getStatic owner field result address origin) (Spares low high) := by
  intro st code after h hst
  obtain ⟨t, ht, hcode⟩ := yields_getStatic h
  have hresult : Outside low high (⟨result.index, sizeOf t⟩ : Reg) :=
    outside_of_register hlow ht
  obtain ⟨place, -, rfl, rfl⟩ | ⟨-, -, type, -, h⟩ := hcode
  · exact ⟨hst, spares_readPlace address place hresult⟩
  · exact (leaves_remote (leaves_findClass owner) (outside_of_mem_some hresult)).result h hst

theorem leaves_getField (object : Register) (field : String) (result : Register)
    (address : Bool) :
    Leaves scope high (getField object field result address origin) (Spares low high) := by
  intro st code after h hst
  obtain ⟨owner, t, -, ht, hcode⟩ := yields_getField h
  have hresult : Outside low high (⟨result.index, sizeOf t⟩ : Reg) :=
    outside_of_register hlow ht
  obtain ⟨place, -, rfl, rfl⟩ | ⟨-, -, type, -, h⟩ := hcode
  · exact ⟨hst, spares_readPlace address place hresult⟩
  · exact (leaves_remote (leaves_findClassOf _) (outside_of_mem_some hresult)).result h hst

theorem outside_of_results {result : Option Register} {r : Option Reg}
    (h : scope.Results result r) : ∀ p ∈ r, Outside low high p := by
  rintro p hp
  cases h with
  | unwanted => cases hp
  | wanted ht =>
    cases hp
    exact outside_of_register hlow ht

theorem leaves_callActual (object : Option Register) (owner method : String)
    (args : List Register) (result : Option Register) :
    Leaves scope high (callActual object owner method args result origin)
      (Spares low high) := by
  intro st code after h
  obtain ⟨types, target, r, receiver, -, -, -, hr, -, ⟨-, h⟩ | ⟨-, h⟩⟩ := yields_callActual h
  · exact leaves_callOwn _ _ _ _ _ _ (outside_of_results hlow hr) _ _ _ h
  · exact leaves_callOther _ _ _ _ _ (outside_of_results hlow hr) _ _ _ h

theorem leaves_callVirtual (object : Register) (method : String) (args : List Register)
    (result : Option Register) :
    Leaves scope high (callVirtual object method args result origin) (Spares low high) := by
  intro st code after h
  obtain ⟨owner, types, target, r, l, -, -, -, -, hr, -, h⟩ := yields_callVirtual h
  exact leaves_remote (leaves_findClassOf _) (outside_of_results hlow hr) _ _ _ h

/-! ## Values and merges -/

omit hlow in
theorem spares_stage {moves : List (Reg × Reg)} (h : ∀ m ∈ moves, Outside low high m.2)
    {drawn : Nat} (hdrawn : high ≤ drawn) :
    ∀ m ∈ stage drawn moves, Outside low high m.2.1 ∧ Outside low high m.2.2 := by
  induction moves generalizing drawn with
  | nil => exact List.forall_mem_nil _
  | cons m moves ih =>
    obtain ⟨hm, hmoves⟩ := List.forall_mem_cons.1 h
    exact List.forall_mem_cons.2 ⟨⟨.inr (Nat.lt_succ_of_le hdrawn), hm⟩,
      ih hmoves (Nat.le_succ_of_le hdrawn)⟩

omit hlow in
theorem leaves_moveAll {moves : List (Reg × Reg)} (h : ∀ m ∈ moves, Outside low high m.2) :
    Leaves scope high (moveAll moves) (Spares low high) := by
  intro st code after hcode hst
  obtain ⟨src, dest, rfl, rfl, rfl⟩ | ⟨-, rfl, rfl⟩ := yields_moveAll.1 hcode
  · exact ⟨hst, .single rfl (h _ List.mem_cons_self)⟩
  · have hstaged := spares_stage h hst.drawn
    refine ⟨⟨Nat.le_add_right_of_le hst.drawn, hst.locals⟩, .append ?_ ?_⟩
    · intro i hi
      obtain ⟨m, hm, rfl⟩ := List.mem_map.1 hi
      exact List.forall_mem_singleton.2 (hstaged m hm).1
    · intro i hi
      obtain ⟨m, hm, rfl⟩ := List.mem_map.1 hi
      exact List.forall_mem_singleton.2 (hstaged m hm).2

theorem leaves_edgeCode (edge : Nat) :
    Leaves scope high (edgeCode edge origin) (Spares low high) := by
  intro st code after h
  obtain ⟨moves, hmoves, h⟩ := yields_edgeCode.1 h
  refine leaves_moveAll (fun m hm => ?_) st code after h
  obtain ⟨c, -, hmove⟩ := (Pseudo.exists_of_mapM_eq_some hmoves).2 m hm
  obtain ⟨t, u, -, hu, rfl⟩ := Scope.move?_eq_some.1 hmove
  exact outside_of_register hlow hu

omit hlow in
theorem spares_binaryForm {form : BinaryForm} {size : Machine.Size} {left right result : Reg}
    (h : Outside low high result) : Spares low high (form.code size left right result) := by
  have hnone : ∀ {i : Instr}, i.defined = [] → Spares low high [i] := fun hi =>
    .of_forall (List.forall_mem_singleton.2 hi)
  have hmove : Spares low high [move size left result] := .single rfl h
  cases form with
  | plain op =>
    refine hmove.append ?_
    cases op with
    | cmp => exact hnone rfl
    | _ => exact .single rfl h
  | multiply => exact hmove.append (.single rfl h)
  | divide part =>
    exact .cons (hnone rfl) (.cons (hnone rfl) (.cons (hnone rfl) (.single rfl h)))
  | shift op => exact .cons (hnone rfl) (hmove.append (.single rfl h))

omit hlow in
theorem leaves_widen (value : Reg) (type : Ty) :
    Leaves scope high (widen value type) fun r => Spares low high r.2 := by
  rintro st ⟨wide, code⟩ after h hst
  obtain ⟨-, -, rfl, rfl⟩ | ⟨-, rfl, rfl, rfl⟩ := yields_widen.1 h
  · exact ⟨hst, .nil⟩
  · exact ⟨⟨Nat.le_succ_of_le hst.drawn, hst.locals⟩,
      .single rfl (.inr (Nat.lt_succ_of_le hst.drawn))⟩

omit hlow in
theorem leaves_binaryCode (op : BinaryOp) (type : Ty) (left right : Reg) {result : Reg}
    (hresult : Outside low high result) :
    Leaves scope high (binaryCode op type left right result) (Spares low high) := by
  intro st code after h hst
  obtain ⟨-, rfl, rfl⟩ | ⟨-, -, first, before, mid, second, between, last, hfirst, hsecond,
    rfl, rfl⟩ :=
    yields_binaryCode.1 h
  · exact ⟨hst, spares_binaryForm hresult⟩
  · obtain ⟨hmid, hbefore⟩ := (leaves_widen left type).result hfirst hst
    have hbetween : last.Above high ∧ Spares low high between := by
      obtain ⟨-, -, rfl, rfl⟩ | ⟨-, hsecond⟩ := hsecond
      · exact ⟨hmid, .nil⟩
      · exact (leaves_widen right type).result hsecond hmid
    obtain ⟨hlast, hbetween⟩ := hbetween
    have hwide : Outside low high (⟨last.drawn + 1, .long⟩ : Reg) :=
      .inr (Nat.lt_succ_of_le hlast.drawn)
    exact ⟨⟨Nat.le_succ_of_le hlast.drawn, hlast.locals⟩, ((hbefore.append hbetween).append
      (spares_binaryForm hwide)).append (.single rfl hresult)⟩

omit hlow in
theorem spares_unaryCode {op : UnaryOp} {src result : Reg} (h : Outside low high result) :
    Spares low high (unaryCode op src result) := by
  cases op <;> exact .cons (.single rfl h) (.single rfl h)

omit hlow in
theorem spares_convertCode {source : Ty} {src result : Reg} (h : Outside low high result) :
    Spares low high (convertCode source src result) := by
  unfold convertCode
  split <;> exact .single rfl h

omit hlow in
theorem spares_branchCode {condition : Reg} {expected : Bool} {target skip : String}
    {copies : List Instr} (h : Spares low high copies) :
    Spares low high (branchCode condition expected target skip copies) := by
  have hnone : ∀ {i : Instr}, i.defined = [] → Spares low high [i] := fun hi =>
    .of_forall (List.forall_mem_singleton.2 hi)
  cases copies with
  | nil => cases expected <;> exact .cons (hnone rfl) (hnone rfl)
  | cons i copies =>
    cases expected <;>
    · show Spares low high ([_, _] ++ (i :: copies) ++ [_, _])
      exact (Spares.append (.cons (hnone rfl) (hnone rfl)) h).append
        (.cons (hnone rfl) (hnone rfl))

/-! ## Statements and bodies -/

/-- The code of a statement writes outside the range. -/
theorem leaves_statementCode (index : Nat) (s : Statement) :
    Leaves scope high (statementCode index s origin) (Spares low high) := by
  intro st code after h hst
  have hnone : ∀ {i : Instr}, i.defined = [] → Spares low high [i] := fun hi =>
    .of_forall (List.forall_mem_singleton.2 hi)
  cases gives_of_yields h with
  | copy _ ht | getLocal _ ht | getParam _ ht | literal _ ht =>
    exact ⟨hst, .single rfl (outside_of_register hlow ht)⟩
  | choose => exact ⟨hst, .nil⟩
  | string ht htext hcode =>
    obtain ⟨hmid, -⟩ := (leaves_constant _).result htext hst
    exact (leaves_service (outside_of_mem_some (outside_of_register hlow ht))).result
      hcode hmid
  | putLocal hlocal _ => exact ⟨hst, .single rfl (.inr (hst.locals _ _ hlocal))⟩
  | getStatic hcode | getStaticAddress hcode =>
    exact (leaves_getStatic hlow _ _ _ _).result hcode hst
  | putStatic hcode => exact (leaves_putStatic _ _ _).result hcode hst
  | getField hcode | getFieldAddress hcode =>
    exact (leaves_getField hlow _ _ _ _).result hcode hst
  | putField hcode => exact (leaves_putField _ _ _).result hcode hst
  | compare _ _ ht _ =>
    exact ⟨hst, .cons (hnone rfl) (.single rfl (outside_of_register hlow ht))⟩
  | binary _ _ ht _ hcode =>
    exact (leaves_binaryCode _ _ _ _ (outside_of_register hlow ht)).result hcode hst
  | unary _ ht _ => exact ⟨hst, spares_unaryCode (outside_of_register hlow ht)⟩
  | convert _ ht _ => exact ⟨hst, spares_convertCode (outside_of_register hlow ht)⟩
  | branch _ hcopies =>
    exact ((leaves_edgeCode hlow _).result hcopies hst).imp_right spares_branchCode
  | jump hcopies | label hcopies =>
    exact ((leaves_edgeCode hlow _).result hcopies hst).imp_right fun h => h.append (hnone rfl)
  | callActual hcode => exact (leaves_callActual hlow _ _ _ _ _).result hcode hst
  | callVirtual hcode => exact (leaves_callVirtual hlow _ _ _ _).result hcode hst
  | returnValue => exact ⟨hst, .cons (hnone rfl) (hnone rfl)⟩
  | returnVoid => exact ⟨hst, hnone rfl⟩
  | startScope =>
    refine ⟨⟨Nat.le_succ_of_le hst.drawn, fun other q hq => ?_⟩, .nil⟩
    rw [Table.get?_insert] at hq
    split at hq
    · cases hq
      exact Nat.lt_succ_of_le hst.drawn
    · exact hst.locals other q hq
  | endScope =>
    refine ⟨⟨hst.drawn, fun other q hq => ?_⟩, .nil⟩
    rw [Table.get?_erase] at hq
    split at hq
    · cases hq
    · exact hst.locals other q hq

theorem leaves_bodyCode (index : Nat) (l : List Located) :
    Leaves scope high (bodyCode index l) (Spares low high) := by
  induction l generalizing index with
  | nil => exact .pure .nil
  | cons s l ih =>
    exact (leaves_statementCode hlow index s.statement).bind fun _ hcode => (ih _).bind
      fun _ hrest => .pure (hcode.append hrest)

end

/-- Behind an entry no code writes to what the entry has received. -/
theorem spares_bodyCode {l : List Located} {strings : Assembly.StringTable} {after : State}
    {code : List Instr} (hlow : ∀ r t, scope.types.get? r = some t → r.index < low)
    (h : Yields scope (bodyCode 0 l) { strings := strings, drawn := high } code after) :
    Spares low high code :=
  ((leaves_bodyCode hlow 0 l).result h ⟨Nat.le_refl _, nofun⟩).2

end Selection

end Jil
