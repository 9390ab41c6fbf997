/-
Jil.Proofs.Labels — which labels the code of a function places.

The code of a statement places the label of a label statement, the label behind
the copies of a branch, and no other (`placed_statementCode`). The names of
these labels are all different, and different from that of the exit, so a label
behind copies is found where it stands (`labelIndex?_eq`). A label that a
checked function jumps to is placed by one of its statements
(`exists_labelIndex?_of_target`).
-/
import Jil.Proofs.Layout
import Jil.Proofs.Lowered
import Jil.Proofs.Scanning
import Jil.Proofs.StatementCode

namespace Jil

open Jil.Pseudo (Instr Reg)

/-! ## Labels of code -/

namespace Pseudo

/-- The labels that code places, in order. -/
def placedLabels (code : List Instr) : List String := code.filterMap Instr.placedLabel?

@[simp] theorem placedLabels_nil : placedLabels [] = [] := rfl

@[simp] theorem placedLabels_append (code rest : List Instr) :
    placedLabels (code ++ rest) = placedLabels code ++ placedLabels rest :=
  List.filterMap_append

@[simp] theorem placedLabels_cons (i : Instr) (code : List Instr) :
    placedLabels (i :: code) = i.placedLabel?.toList ++ placedLabels code := by
  unfold placedLabels
  rw [List.filterMap_cons]
  cases i.placedLabel? <;> rfl

/-- A label that is placed is found. -/
theorem exists_labelIndex? {code : List Instr} {name : String} (h : name ∈ placedLabels code) :
    ∃ index, labelIndex? code name = some index := by
  obtain ⟨i, hi, hname⟩ := List.mem_filterMap.1 h
  obtain ⟨n, hn⟩ := List.getElem?_of_mem hi
  cases hindex : labelIndex? code name with
  | some index => exact ⟨index, rfl⟩
  | none =>
    rw [labelIndex?, Option.map_eq_none_iff, List.getLast?_eq_none_iff, List.filter_eq_nil_iff]
      at hindex
    exact absurd (by simpa using hname) (hindex (i, n) (List.mem_zipIdx_iff_getElem?.2 hn))

/-- A label is found where it is placed last. -/
theorem labelIndex?_eq {front back : List Instr} {name : String}
    (h : name ∉ placedLabels back) :
    labelIndex? (front ++ .label name :: back) name = some front.length := by
  have hback : ∀ i ∈ back, decide (i.placedLabel? = some name) = false := by
    intro i hi
    simp only [decide_eq_false_iff_not]
    intro hname
    exact h (List.mem_filterMap.2 ⟨i, hi, hname⟩)
  rw [labelIndex?, getLast?_filter_append front (by simp [Instr.placedLabel?]) hback]
  rfl

end Pseudo

open Pseudo (placedLabels placedLabels_append placedLabels_cons placedLabels_nil)

namespace Native

/-! ## Calls place no labels -/

theorem placed_marshal {origin : Origin} {dest : Machine.Reg} {a : Argument} {i : Instr}
    (h : marshal origin dest a = .ok i) : i.placedLabel? = none := by
  unfold marshal at h
  split at h
  · cases h
    rfl
  · split at h
    · cases h
    · split at h <;> cases h <;> rfl

theorem Sequence.placed_andThen {s rest : Sequence} (hs : placedLabels s.code = [])
    (hrest : placedLabels rest.code = []) : placedLabels (s.andThen rest).code = [] := by
  unfold Sequence.andThen
  split
  · simp [hs, hrest]
  · exact hs

theorem placed_loadOperands (abi : Machine.Abi) (origin : Origin) (args : List Argument)
    (position : Nat) : placedLabels (loadOperands abi origin position args).code = [] := by
  induction args generalizing position with
  | nil => rfl
  | cons a rest ih =>
    rw [loadOperands]
    split
    · next i hi =>
      obtain ⟨r, -, hi⟩ := Pseudo.bind_eq_ok.1 hi
      exact Sequence.placed_andThen (by simp [Sequence.complete, placed_marshal hi]) (ih _)
    · rfl

theorem placed_loadArguments (abi : Machine.Abi) (env : Reg) (callee : String)
    (args : List Argument) (origin : Origin) :
    placedLabels (loadArguments abi env callee args origin).code = [] := by
  unfold loadArguments
  split
  · rfl
  · split
    · exact Sequence.placed_andThen rfl (placed_loadOperands _ _ _ _)
    · rfl

theorem placed_takeResult (abi : Machine.Abi) (result : Option Reg) :
    placedLabels (takeResult abi result) = [] := by
  cases result <;> rfl

theorem placed_serviceCall (abi : Machine.Abi) (env : Reg) (service : Service)
    (args : List Argument) (result : Option Reg) (origin : Origin) :
    placedLabels (serviceCall abi env service args result origin).code = [] := by
  refine Sequence.placed_andThen (placed_loadArguments _ _ _ _ _) ?_
  simp only [Sequence.complete, invoke, placedLabels_append, placed_takeResult,
    List.append_nil]
  split <;> rfl

theorem placed_directCall (abi : Machine.Abi) (env : Reg) (symbol : String)
    (args : List Argument) (result : Option Reg) (origin : Origin) :
    placedLabels (directCall abi env symbol args result origin).code = [] := by
  refine Sequence.placed_andThen (placed_loadArguments _ _ _ _ _) ?_
  simp [Sequence.complete, placed_takeResult, Instr.placedLabel?]

end Native

namespace Selection

/-! ## What every result of an activity satisfies -/

/-- Every result of an activity satisfies `P`. -/
def Ensures {α : Type} (x : Select α) (P : α → Prop) : Prop :=
  ∀ scope st a after, Yields scope x st a after → P a

namespace Ensures

variable {α β : Type} {P : α → Prop} {Q : β → Prop} {x : Select α} {f : α → Select β}

theorem result {scope : Scope} {st after : State} {a : α} (hx : Ensures x P)
    (h : Yields scope x st a after) : P a := hx scope st a after h

theorem any (x : Select α) : Ensures x fun _ => True := fun _ _ _ _ _ => trivial

theorem pure {a : α} (h : P a) : Ensures (pure a : Select α) P := by
  intro scope st b after hb
  rw [(yields_pure.1 hb).1]
  exact h

theorem bind (hx : Ensures x P) (hf : ∀ a, P a → Ensures (f a) Q) : Ensures (x >>= f) Q := by
  intro scope st b after hb
  obtain ⟨a, mid, ha, hb⟩ := yields_bind.1 hb
  exact hf a (hx scope st a mid ha) scope mid b after hb

/-- The result of the first activity does not matter. -/
theorem after (hf : ∀ a, Ensures (f a) Q) : Ensures (x >>= f) Q :=
  (any x).bind fun a _ => hf a

end Ensures

/-! ## Members and calls -/

/-- Code that places no label. -/
abbrev Unlabelled (code : List Instr) : Prop := placedLabels code = []

theorem Unlabelled.append {code rest : List Instr} (h : Unlabelled code)
    (h' : Unlabelled rest) :
    Unlabelled (code ++ rest) := by
  simp [Unlabelled, h, h']

theorem unlabelled_service (svc : Native.Service) (args : List Native.Argument)
    (result : Option Reg) (origin : Origin) :
    Ensures (service svc args result origin) Unlabelled := by
  intro scope st code after h
  rw [(yields_service h).2.1]
  exact Native.placed_serviceCall _ _ _ _ _ _

theorem unlabelled_findClass (name : String) (origin : Origin) :
    Ensures (findClass name origin) fun r => Unlabelled r.2 :=
  .after fun _ => .after fun _ => (unlabelled_service _ _ _ _).bind fun _ h => .pure h

theorem unlabelled_findClassOf (object : Reg) (origin : Origin) :
    Ensures (findClassOf object origin) fun r => Unlabelled r.2 :=
  .after fun _ => (unlabelled_service _ _ _ _).bind fun _ h => .pure h

theorem unlabelled_findMember (svc : Native.Service) (handle : Reg) (name descriptor : String)
    (origin : Origin) :
    Ensures (findMember svc handle name descriptor origin) fun r => Unlabelled r.2 :=
  .after fun _ => .after fun _ => .after fun _ =>
    (unlabelled_service _ _ _ _).bind fun _ h => .pure h

/-- A member of another class. -/
theorem unlabelled_remote {find : Select (Reg × List Instr)} {lookup svc : Native.Service}
    {name descriptor : String} {object result : Option Reg} {more : List Native.Argument}
    {origin : Origin} (hfind : Ensures find fun r => Unlabelled r.2) :
    Ensures (remote find lookup name descriptor svc object more result origin) Unlabelled :=
  hfind.bind fun _ hfound => (unlabelled_findMember _ _ _ _ _).bind fun _ hmember =>
    (unlabelled_service _ _ _ _).bind fun _ hcode =>
      .pure ((hfound.append hmember).append hcode)

theorem unlabelled_readPlace (address : Bool) (place : Pseudo.Operand) (p : Reg) :
    Unlabelled [readPlace address place p] := by
  cases address <;> rfl

theorem unlabelled_getStatic (owner field : String) (result : Register) (address : Bool)
    (origin : Origin) : Ensures (getStatic owner field result address origin) Unlabelled := by
  intro scope st code after h
  obtain ⟨t, -, ⟨place, -, rfl, rfl⟩ | ⟨-, -, type, -, h⟩⟩ := yields_getStatic h
  · exact unlabelled_readPlace _ _ _
  · exact (unlabelled_remote (unlabelled_findClass _ _)).result h

theorem unlabelled_putStatic (owner field : String) (src : Register) (origin : Origin) :
    Ensures (putStatic owner field src origin) Unlabelled := by
  intro scope st code after h
  obtain ⟨t, -, ⟨place, -, rfl, rfl⟩ | ⟨-, type, -, h⟩⟩ := yields_putStatic h
  · rfl
  · exact (unlabelled_remote (unlabelled_findClass _ _)).result h

theorem unlabelled_getField (object : Register) (field : String) (result : Register)
    (address : Bool) (origin : Origin) :
    Ensures (getField object field result address origin) Unlabelled := by
  intro scope st code after h
  obtain ⟨owner, t, -, -, ⟨place, -, rfl, rfl⟩ | ⟨-, -, type, -, h⟩⟩ := yields_getField h
  · exact unlabelled_readPlace _ _ _
  · exact (unlabelled_remote (unlabelled_findClassOf _ _)).result h

theorem unlabelled_putField (object : Register) (field : String) (src : Register)
    (origin : Origin) : Ensures (putField object field src origin) Unlabelled := by
  intro scope st code after h
  obtain ⟨owner, t, -, -, ⟨place, -, rfl, rfl⟩ | ⟨-, type, -, h⟩⟩ := yields_putField h
  · rfl
  · exact (unlabelled_remote (unlabelled_findClassOf _ _)).result h

theorem unlabelled_callOwn (target : ResolvedMethod) (receiver : Option Reg)
    (owner method : String) (args : List Register) (types : List Ty) (result : Option Reg)
    (origin : Origin) :
    Ensures (callOwn target receiver owner method args types result origin) Unlabelled := by
  intro scope st code after h
  obtain ⟨first, before, l, f, hfirst, -, -, -, rfl⟩ := yields_callOwn h
  have hbefore : Unlabelled before := by
    obtain ⟨-, rfl, -⟩ | ⟨-, hclass⟩ := hfirst
    · rfl
    · exact (unlabelled_findClass _ _).result hclass
  exact hbefore.append (Native.placed_directCall _ _ _ _ _ _)

theorem unlabelled_callOther (target : ResolvedMethod) (receiver : Option Reg)
    (method : String) (args : List Register) (types : List Ty) (result : Option Reg)
    (origin : Origin) :
    Ensures (callOther target receiver method args types result origin) Unlabelled := by
  intro scope st code after h
  obtain ⟨l, -, h⟩ := yields_callOther h
  exact (unlabelled_remote (unlabelled_findClass _ _)).result h

theorem unlabelled_callActual (object : Option Register) (owner method : String)
    (args : List Register) (result : Option Register) (origin : Origin) :
    Ensures (callActual object owner method args result origin) Unlabelled := by
  intro scope st code after h
  obtain ⟨types, target, r, receiver, -, -, -, -, -, ⟨-, h⟩ | ⟨-, h⟩⟩ := yields_callActual h
  · exact (unlabelled_callOwn _ _ _ _ _ _ _ _).result h
  · exact (unlabelled_callOther _ _ _ _ _ _ _).result h

theorem unlabelled_callVirtual (object : Register) (method : String) (args : List Register)
    (result : Option Register) (origin : Origin) :
    Ensures (callVirtual object method args result origin) Unlabelled := by
  intro scope st code after h
  obtain ⟨owner, types, target, r, l, -, -, -, -, -, -, h⟩ := yields_callVirtual h
  exact (unlabelled_remote (unlabelled_findClassOf _ _)).result h

/-! ## Values and merges -/

theorem unlabelled_widen (value : Reg) (type : Ty) :
    Ensures (widen value type) fun r => Unlabelled r.2 := by
  rintro scope st ⟨wide, code⟩ after h
  obtain ⟨-, -, rfl, -⟩ | ⟨-, -, rfl, -⟩ := yields_widen.1 h <;> rfl

theorem unlabelled_binaryForm (form : BinaryForm) (size : Machine.Size)
    (left right result : Reg) :
    Unlabelled (form.code size left right result) := by
  cases form <;> rfl

theorem unlabelled_binaryCode (op : BinaryOp) (type : Ty) (left right result : Reg) :
    Ensures (binaryCode op type left right result) Unlabelled := by
  intro scope st code after h
  obtain ⟨-, rfl, -⟩
      | ⟨-, -, first, before, mid, second, between, last, hfirst, hsecond, rfl, -⟩ :=
    yields_binaryCode.1 h
  · exact unlabelled_binaryForm _ _ _ _ _
  · have hbetween : Unlabelled between := by
      obtain ⟨-, -, rfl, -⟩ | ⟨-, hsecond⟩ := hsecond
      · rfl
      · exact (unlabelled_widen _ _).result hsecond
    exact ((((unlabelled_widen _ _).result hfirst).append hbetween).append
      (unlabelled_binaryForm _ _ _ _ _)).append rfl

theorem unlabelled_unaryCode (op : UnaryOp) (src result : Reg) :
    Unlabelled (unaryCode op src result) := by
  cases op <;> rfl

theorem unlabelled_convertCode (source : Ty) (src result : Reg) :
    Unlabelled (convertCode source src result) := by
  unfold convertCode
  split <;> rfl

/-- Moves place no label, and there is code as soon as there is something to move. -/
theorem placed_moveAll {scope : Scope} {moves : List (Reg × Reg)} {st after : State}
    {code : List Instr} (h : Yields scope (moveAll moves) st code after) :
    Unlabelled code ∧ (code = [] ↔ moves = []) := by
  obtain ⟨src, dest, rfl, rfl, -⟩ | ⟨-, rfl, -⟩ := yields_moveAll.1 h
  · exact ⟨rfl, by simp⟩
  · constructor
    · simp [Unlabelled, placedLabels, List.filterMap_map, List.filterMap_eq_nil_iff, move,
        Instr.mov, Instr.placedLabel?]
    · rw [← List.length_eq_zero_iff, ← List.length_eq_zero_iff, ← length_stage st.drawn moves]
      simp

theorem placed_edgeCode {scope : Scope} {edge : Nat} {origin : Origin} {st after : State}
    {code : List Instr} (h : Yields scope (edgeCode edge origin) st code after) :
    Unlabelled code ∧ (code = [] ↔ scope.copiesAt edge = []) := by
  obtain ⟨moves, hmoves, h⟩ := yields_edgeCode.1 h
  obtain ⟨hplaced, hempty⟩ := placed_moveAll h
  refine ⟨hplaced, hempty.trans ?_⟩
  have hlength := congrArg List.length (ids_of_moves hmoves)
  rw [List.length_map, List.length_map] at hlength
  rw [← List.length_eq_zero_iff, ← List.length_eq_zero_iff, hlength]

/-! ## Statements and bodies -/

/-- The labels that the code of a statement places. -/
def statementLabels (scope : Scope) (index : Nat) : Statement → List String
  | .label name => [scope.label name]
  | .branch _ _ _ => if scope.copiesAt index = [] then [] else [scope.edgeLabel index]
  | _ => []

/-- The labels that the code of statements places, of which the first has the given index. -/
def bodyLabels (scope : Scope) (index : Nat) : List Statement → List String
  | [] => []
  | s :: rest => statementLabels scope index s ++ bodyLabels scope (index + 1) rest

theorem placed_branchCode {condition : Reg} {expected : Bool} {target skip : String}
    {copies : List Instr} (h : Unlabelled copies) :
    placedLabels (branchCode condition expected target skip copies) =
      if copies = [] then [] else [skip] := by
  cases expected <;> cases copies <;> simp_all [branchCode, Instr.placedLabel?, Unlabelled]

/-- The code of a statement places the labels of the statement. -/
theorem placed_statementCode {scope : Scope} {index : Nat} {s : Statement} {origin : Origin}
    {st after : State} {code : List Instr}
    (h : Yields scope (statementCode index s origin) st code after) :
    placedLabels code = statementLabels scope index s := by
  cases gives_of_yields h with
  | copy | choose | literal | getLocal | putLocal | getParam | compare | returnValue
    | returnVoid
  | startScope | endScope => rfl
  | string _ _ hcode => exact (unlabelled_service _ _ _ _).result hcode
  | getStatic hcode | getStaticAddress hcode =>
    exact (unlabelled_getStatic _ _ _ _ _).result hcode
  | putStatic hcode => exact (unlabelled_putStatic _ _ _ _).result hcode
  | getField hcode | getFieldAddress hcode =>
    exact (unlabelled_getField _ _ _ _ _).result hcode
  | putField hcode => exact (unlabelled_putField _ _ _ _).result hcode
  | binary _ _ _ _ hcode => exact (unlabelled_binaryCode _ _ _ _ _).result hcode
  | unary => exact unlabelled_unaryCode _ _ _
  | convert => exact unlabelled_convertCode _ _ _
  | branch _ hcopies =>
    obtain ⟨hplaced, hempty⟩ := placed_edgeCode hcopies
    rw [placed_branchCode hplaced]
    simp only [statementLabels, hempty]
  | jump hcopies => exact (placed_edgeCode hcopies).1.append rfl
  | label hcopies => simp [(placed_edgeCode hcopies).1, statementLabels, Instr.placedLabel?]
  | callActual hcode => exact (unlabelled_callActual _ _ _ _ _ _).result hcode
  | callVirtual hcode => exact (unlabelled_callVirtual _ _ _ _ _).result hcode

/-- The code of statements places the labels of the statements. -/
theorem placed_bodyCode {scope : Scope} {index : Nat} {l : List Located} {st after : State}
    {code : List Instr} (h : Yields scope (bodyCode index l) st code after) :
    placedLabels code = bodyLabels scope index (l.map Located.statement) := by
  induction l generalizing index st code with
  | nil =>
    rw [(yields_pure.1 h).1]
    rfl
  | cons s l ih =>
    obtain ⟨first, mid, rest, hfirst, hrest, rfl⟩ := yields_bodyCode_cons.1 h
    rw [placedLabels_append, placed_statementCode hfirst, ih hrest]
    rfl

/-! ## Names of labels -/

section Names

variable {scope : Scope} {l : Label} {edge : Nat}

/-- The name of a label in characters. -/
theorem toList_label : (scope.label l).toList =
    (labelStart scope.position).toList ++ '_' :: Nat.toDigits 10 l.index := by
  simp [Scope.label, String.toList_append]

theorem toList_edgeLabel : (scope.edgeLabel edge).toList =
    (labelStart scope.position).toList ++ '_' :: 'e' :: Nat.toDigits 10 edge := by
  simp [Scope.edgeLabel, String.toList_append]

theorem toList_exitLabel : (exitLabel scope.position).toList =
    (labelStart scope.position).toList ++ ['_', 'e', 'x', 'i', 't'] := by
  simp [exitLabel, String.toList_append]

theorem label_ne_edgeLabel : scope.label l ≠ scope.edgeLabel edge := by
  intro h
  have h := congrArg String.toList h
  rw [toList_label, toList_edgeLabel, List.append_cancel_left_eq, List.cons.injEq] at h
  exact Text.not_mem_toDigits (c := 'e') rfl (h.2 ▸ List.mem_cons_self)

theorem edgeLabel_ne_exitLabel : scope.edgeLabel edge ≠ exitLabel scope.position := by
  intro h
  have h := congrArg String.toList h
  rw [toList_edgeLabel, toList_exitLabel, List.append_cancel_left_eq] at h
  simp only [List.cons.injEq, true_and] at h
  exact Text.not_mem_toDigits (c := 'x') rfl (h ▸ List.mem_cons_self)

theorem edgeLabel_inj {edge' : Nat} (h : scope.edgeLabel edge = scope.edgeLabel edge') :
    edge = edge' := by
  have h := congrArg String.toList h
  rw [toList_edgeLabel, toList_edgeLabel, List.append_cancel_left_eq] at h
  simp only [List.cons.injEq, true_and] at h
  rw [← Nat.ofDigitChars_ten_toDigits (n := edge), h, Nat.ofDigitChars_ten_toDigits]

end Names

/-! ## Labels of bodies -/

/-- The label behind the copies of a branch is placed by this branch only. -/
theorem edgeLabel_not_mem_bodyLabels {scope : Scope} {edge index : Nat} {l : List Statement}
    (h : edge < index) : scope.edgeLabel edge ∉ bodyLabels scope index l := by
  induction l generalizing index with
  | nil => exact List.not_mem_nil
  | cons s l ih =>
    intro hmem
    rcases List.mem_append.1 hmem with hmem | hmem
    · cases s with
      | label name => exact label_ne_edgeLabel (List.mem_singleton.1 hmem).symm
      | branch condition expected target =>
        simp only [statementLabels] at hmem
        split at hmem
        · exact List.not_mem_nil hmem
        · have := edgeLabel_inj (List.mem_singleton.1 hmem)
          omega
      | _ => exact List.not_mem_nil hmem
    · exact ih (Nat.lt_succ_of_lt h) hmem

/-- The code of a body places the labels of its label statements. -/
theorem label_mem_bodyLabels {scope : Scope} {index : Nat} {l : List Statement} {name : Label}
    (h : .label name ∈ l) : scope.label name ∈ bodyLabels scope index l := by
  induction l generalizing index with
  | nil => exact absurd h List.not_mem_nil
  | cons s l ih =>
    rcases List.mem_cons.1 h with rfl | h
    · exact List.mem_append_left _ List.mem_cons_self
    · exact List.mem_append_right _ (ih h)

end Selection

/-! ## Targets of jumps -/

namespace Typing

open Pseudo (bind_eq_ok ite_eq_ok)

/-- A statement that passes jumps to a label of its function. -/
theorem target_of_effect {scope : Scope} {ctx : Context} {s : Statement} {origin : Origin}
    {e : Effect} {l : Label} (h : effect scope ctx s origin = .ok e)
    (hl : s.jumpTarget? = some l) : l ∈ scope.function.labels := by
  cases judges_of_effect h with
  | branch _ htarget | jump htarget =>
    cases hl
    exact htarget
  | _ => cases hl

end Typing

/-- The labels of a function are those of its label statements. -/
theorem Function.mem_labels {f : Function} {l : Label} :
    l ∈ f.labels ↔ .label l ∈ f.statements := by
  rw [labels, List.mem_filterMap]
  constructor
  · rintro ⟨s, hs, hplaced⟩
    cases s with
    | label name =>
      cases hplaced
      exact hs
    | _ => cases hplaced
  · exact fun h => ⟨_, h, rfl⟩

/-- The labels that a checked function jumps to are placed by its statements. -/
theorem Checked.label_mem_of_target {u : ClassUnit} {position : Nat} {f : Function}
    (h : Checked u position f) {s : Statement} (hs : s ∈ f.statements) {l : Label}
    (hl : s.jumpTarget? = some l) : .label l ∈ f.statements := by
  obtain ⟨types, htyped⟩ := h.typed
  obtain ⟨located, hlocated, rfl⟩ := List.mem_map.1 hs
  obtain ⟨scope, -, ctx, e, -, hbody, heffect, -, -⟩ :=
    h.exists_effect htyped.recorded hlocated
  have hplaced := Function.mem_labels.1 (Typing.target_of_effect heffect hl)
  rwa [Function.statements, hbody] at hplaced

end Jil
