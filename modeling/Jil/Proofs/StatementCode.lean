/-
Jil.Proofs.StatementCode — what selecting gives for a statement.

`Gives` has one case for each kind of statement: the code that stands for it, the
state that it leaves, and what had to be known of its registers, variables and
labels. What is shown of selected code is shown by cases of `Gives`, so that
selecting a statement is taken apart here only (`gives_of_yields`); that code is
selected at all is shown by giving the case (`Gives.yields`).
-/
import Jil.Proofs.MemberCode
import Jil.Proofs.ValueCode

namespace Jil.Selection

open Jil.Pseudo (Instr Reg)

/-- The code of a statement, and the state that selecting it leaves. -/
inductive Gives (scope : Scope) (index : Nat) (origin : Origin) (st : State) :
    Statement → List Instr → State → Prop
  | copy {src dest : Register} {t u : Ty} (hsrc : scope.types.get? src = some t)
      (hdest : scope.types.get? dest = some u) :
    Gives scope index origin st (.copy src dest)
      [move (sizeOf t) ⟨src.index, sizeOf t⟩ ⟨dest.index, sizeOf u⟩] st
  | choose {first second result : Register} :
    Gives scope index origin st (.choose first second result) [] st
  | literal {type t : Ty} {value : String} {result : Register} {bits : Int}
      (hbits : Literal.bits? type value.toList = some bits)
      (hresult : scope.types.get? result = some t) :
    Gives scope index origin st (.literal type value result)
      [.mov (sizeOf t) (.imm bits) (.pseudo ⟨result.index, sizeOf t⟩)] st
  | string {value : String} {result : Register} {t : Ty} {text : Native.Argument}
      {mid after : State} {code : List Instr} (hresult : scope.types.get? result = some t)
      (htext : Yields scope (constant value) st text mid)
      (hcode : Yields scope
        (service .newStringUtf [text] (some ⟨result.index, sizeOf t⟩) origin) mid
        code after) :
    Gives scope index origin st (.string value result) code after
  | getLocal {name : String} {result : Register} {p : Reg} {t : Ty}
      (hlocal : st.locals.get? name = some p) (hresult : scope.types.get? result = some t) :
    Gives scope index origin st (.getLocal name result)
      [move (sizeOf t) p ⟨result.index, sizeOf t⟩] st
  | putLocal {name : String} {src : Register} {p : Reg} {t : Ty}
      (hlocal : st.locals.get? name = some p) (hsrc : scope.types.get? src = some t) :
    Gives scope index origin st (.putLocal name src) [move p.size ⟨src.index, sizeOf t⟩ p] st
  | getParam {name : String} {result : Register} {p : Reg} {t : Ty}
      (hparam : scope.params.get? name = some p) (hresult : scope.types.get? result = some t) :
    Gives scope index origin st (.getParam name result)
      [move (sizeOf t) p ⟨result.index, sizeOf t⟩] st
  | getStatic {owner field : String} {result : Register} {code : List Instr} {after : State}
      (hcode : Yields scope (Selection.getStatic owner field result false origin) st
        code after) :
    Gives scope index origin st (.getStatic owner field result) code after
  | getStaticAddress {owner field : String} {result : Register} {code : List Instr}
      {after : State}
      (hcode : Yields scope (Selection.getStatic owner field result true origin) st
        code after) :
    Gives scope index origin st (.getStaticAddress owner field result) code after
  | putStatic {owner field : String} {src : Register} {code : List Instr} {after : State}
      (hcode : Yields scope (Selection.putStatic owner field src origin) st code after) :
    Gives scope index origin st (.putStatic owner field src) code after
  | getField {object : Register} {field : String} {result : Register} {code : List Instr}
      {after : State}
      (hcode : Yields scope (Selection.getField object field result false origin) st
        code after) :
    Gives scope index origin st (.getField object field result) code after
  | getFieldAddress {object : Register} {field : String} {result : Register}
      {code : List Instr} {after : State}
      (hcode : Yields scope (Selection.getField object field result true origin) st
        code after) :
    Gives scope index origin st (.getFieldAddress object field result) code after
  | putField {object : Register} {field : String} {src : Register} {code : List Instr}
      {after : State}
      (hcode : Yields scope (Selection.putField object field src origin) st code after) :
    Gives scope index origin st (.putField object field src) code after
  | compare {op : Comparison} {left right result : Register} {a b t : Ty}
      (hleft : scope.types.get? left = some a) (hright : scope.types.get? right = some b)
      (hresult : scope.types.get? result = some t) (hintegral : a.isFloating = false) :
    Gives scope index origin st (.compare op left right result)
      (compareCode op a ⟨left.index, sizeOf a⟩ ⟨right.index, sizeOf b⟩ ⟨result.index,
        sizeOf t⟩) st
  | binary {op : BinaryOp} {left right result : Register} {a b t : Ty} {code : List Instr}
      {after : State} (hleft : scope.types.get? left = some a)
      (hright : scope.types.get? right = some b) (hresult : scope.types.get? result = some t)
      (hintegral : a.isFloating = false)
      (hcode : Yields scope (binaryCode op a ⟨left.index, sizeOf a⟩ ⟨right.index, sizeOf b⟩
        ⟨result.index, sizeOf t⟩) st code after) :
    Gives scope index origin st (.binary op left right result) code after
  | unary {op : UnaryOp} {src result : Register} {a t : Ty}
      (hsrc : scope.types.get? src = some a)
      (hresult : scope.types.get? result = some t) (hintegral : a.isFloating = false) :
    Gives scope index origin st (.unary op src result)
      (unaryCode op ⟨src.index, sizeOf a⟩ ⟨result.index, sizeOf t⟩) st
  | convert {src result : Register} {target a t : Ty} (hsrc : scope.types.get? src = some a)
      (hresult : scope.types.get? result = some t)
      (hintegral : ((a.isFloating || target.isFloating) && a ≠ target) = false) :
    Gives scope index origin st (.convert src target result)
      (convertCode a ⟨src.index, sizeOf a⟩ ⟨result.index, sizeOf t⟩) st
  | branch {condition : Register} {expected : Bool} {target : Label} {t : Ty}
      {copies : List Instr} {after : State} (hcondition : scope.types.get? condition = some t)
      (hcopies : Yields scope (edgeCode index origin) st copies after) :
    Gives scope index origin st (.branch condition expected target)
      (branchCode ⟨condition.index, sizeOf t⟩ expected (scope.label target)
        (scope.edgeLabel index)
        copies) after
  | jump {target : Label} {copies : List Instr} {after : State}
      (hcopies : Yields scope (edgeCode index origin) st copies after) :
    Gives scope index origin st (.jump target) (copies ++ [.jmp (scope.label target)]) after
  | label {name : Label} {copies : List Instr} {after : State}
      (hcopies : Yields scope (edgeCode index origin) st copies after) :
    Gives scope index origin st (.label name) (copies ++ [.label (scope.label name)]) after
  | callActual {object : Option Register} {owner method : String} {args : List Register}
      {result : Option Register} {code : List Instr} {after : State}
      (hcode : Yields scope (Selection.callActual object owner method args result origin)
        st code after) :
    Gives scope index origin st (.callActual object owner method args result) code after
  | callVirtual {object : Register} {method : String} {args : List Register}
      {result : Option Register} {code : List Instr} {after : State}
      (hcode : Yields scope (Selection.callVirtual object method args result origin) st
        code after) :
    Gives scope index origin st (.callVirtual object method args result) code after
  | returnValue {src : Register} {t : Ty} (hsrc : scope.types.get? src = some t) :
    Gives scope index origin st (.returnValue src)
      [.mov (sizeOf t) (.pseudo ⟨src.index, sizeOf t⟩) (.fixed scope.abi.returnRegister),
        .jmp (exitLabel scope.position)] st
  | returnVoid :
    Gives scope index origin st .returnVoid [.jmp (exitLabel scope.position)] st
  | startScope {name : String} {type : Ty} :
    Gives scope index origin st (.startScope name type) []
      { st with
        drawn := st.drawn + 1
        locals := st.locals.insert name ⟨st.drawn + 1, sizeOf type⟩ }
  | endScope {name : String} :
    Gives scope index origin st (.endScope name) [] { st with locals := st.locals.erase name }

variable {scope : Scope} {index : Nat} {s : Statement} {origin : Origin} {st after : State}
  {code : List Instr}

/-- The first operand of an operator is no floating-point number. -/
theorem exists_of_yields_operand {r : Register} {what : Construct}
    {next : Ty → Reg → Select (List Instr)}
    (h : Yields scope (do
      let type ← typeOf r origin
      requireIntegral type what origin
      let p ← pseudoOf r origin
      next type p) st code after) :
    ∃ t, scope.types.get? r = some t ∧ t.isFloating = false ∧
      Yields scope (next t ⟨r.index, sizeOf t⟩) st code after := by
  simp only [yields_bind, yields_requireIntegral] at h
  obtain ⟨t, _, htype, _, _, ⟨hintegral, rfl⟩, _, _, hoperand, hnext⟩ := h
  obtain ⟨ht, rfl⟩ := yields_typeOf.1 htype
  obtain ⟨rfl, rfl⟩ := (yields_pseudoOf_of_type ht).1 hoperand
  exact ⟨t, ht, hintegral, hnext⟩

/-- Selecting the code of a statement gives that code. -/
theorem gives_of_yields (h : Yields scope (statementCode index s origin) st code after) :
    Gives scope index origin st s code after := by
  cases s with
  | copy src dest =>
    simp only [statementCode, yields_bind, yields_pseudoOf, yields_pure] at h
    obtain ⟨_, _, ⟨⟨t, ht, rfl⟩, rfl⟩, _, _, ⟨⟨u, hu, rfl⟩, rfl⟩, rfl, rfl⟩ := h
    exact .copy ht hu
  | choose first second result =>
    obtain ⟨rfl, rfl⟩ := yields_pure.1 h
    exact .choose
  | literal type value result =>
    simp only [statementCode] at h
    split at h
    · exact absurd h not_yields_throw
    · next bits hbits =>
      simp only [yields_bind, yields_pseudoOf, yields_pure] at h
      obtain ⟨_, _, ⟨⟨t, ht, rfl⟩, rfl⟩, rfl, rfl⟩ := h
      exact .literal hbits ht
  | string value result =>
    simp only [statementCode, yields_bind, yields_pseudoOf] at h
    obtain ⟨_, _, ⟨⟨t, ht, rfl⟩, rfl⟩, text, mid, htext, hcode⟩ := h
    exact .string ht htext hcode
  | getLocal name result =>
    simp only [statementCode, yields_bind, yields_localOf, yields_pseudoOf, yields_pure] at h
    obtain ⟨p, _, ⟨hp, rfl⟩, _, _, ⟨⟨t, ht, rfl⟩, rfl⟩, rfl, rfl⟩ := h
    exact .getLocal hp ht
  | putLocal name src =>
    simp only [statementCode, yields_bind, yields_localOf, yields_pseudoOf, yields_pure] at h
    obtain ⟨p, _, ⟨hp, rfl⟩, _, _, ⟨⟨t, ht, rfl⟩, rfl⟩, rfl, rfl⟩ := h
    exact .putLocal hp ht
  | getParam name result =>
    simp only [statementCode, yields_bind, yields_paramOf, yields_pseudoOf, yields_pure] at h
    obtain ⟨p, _, ⟨hp, rfl⟩, _, _, ⟨⟨t, ht, rfl⟩, rfl⟩, rfl, rfl⟩ := h
    exact .getParam hp ht
  | getStatic owner field result => exact .getStatic h
  | getStaticAddress owner field result => exact .getStaticAddress h
  | putStatic owner field src => exact .putStatic h
  | getField object field result => exact .getField h
  | getFieldAddress object field result => exact .getFieldAddress h
  | putField object field src => exact .putField h
  | compare op left right result =>
    obtain ⟨a, ha, hintegral, h⟩ := exists_of_yields_operand h
    simp only [yields_bind, yields_pseudoOf, yields_pure] at h
    obtain ⟨_, _, ⟨⟨b, hb, rfl⟩, rfl⟩, _, _, ⟨⟨t, ht, rfl⟩, rfl⟩, rfl, rfl⟩ := h
    exact .compare ha hb ht hintegral
  | binary op left right result =>
    obtain ⟨a, ha, hintegral, h⟩ := exists_of_yields_operand h
    simp only [yields_bind, yields_pseudoOf] at h
    obtain ⟨_, _, ⟨⟨b, hb, rfl⟩, rfl⟩, _, _, ⟨⟨t, ht, rfl⟩, rfl⟩, hcode⟩ := h
    exact .binary ha hb ht hintegral hcode
  | unary op src result =>
    obtain ⟨a, ha, hintegral, h⟩ := exists_of_yields_operand h
    simp only [yields_bind, yields_pseudoOf, yields_pure] at h
    obtain ⟨_, _, ⟨⟨t, ht, rfl⟩, rfl⟩, rfl, rfl⟩ := h
    exact .unary ha ht hintegral
  | convert src target result =>
    simp only [statementCode] at h
    obtain ⟨a, _, htype, hcode⟩ := yields_bind.1 h
    obtain ⟨ha, rfl⟩ := yields_typeOf.1 htype
    split at hcode
    · obtain ⟨_, _, hthrow, -⟩ := yields_bind.1 hcode
      exact absurd hthrow not_yields_throw
    · next hintegral =>
      simp only [yields_bind, yields_pseudoOf_of_type ha, yields_pseudoOf,
        yields_pure] at hcode
      obtain ⟨_, _, ⟨rfl, rfl⟩, _, _, ⟨⟨t, ht, rfl⟩, rfl⟩, rfl, rfl⟩ := hcode
      exact .convert ha ht (Bool.eq_false_iff.2 hintegral)
  | branch condition expected target =>
    simp only [statementCode, yields_bind, yields_read, yields_pseudoOf, yields_pure] at h
    obtain ⟨_, _, ⟨rfl, rfl⟩, _, _, ⟨⟨t, ht, rfl⟩, rfl⟩, copies, _, hcopies, rfl, rfl⟩ := h
    exact .branch ht hcopies
  | jump target =>
    simp only [statementCode, yields_bind, yields_read, yields_pure] at h
    obtain ⟨copies, _, hcopies, _, _, ⟨rfl, rfl⟩, rfl, rfl⟩ := h
    exact .jump hcopies
  | label name =>
    simp only [statementCode, yields_bind, yields_read, yields_pure] at h
    obtain ⟨copies, _, hcopies, _, _, ⟨rfl, rfl⟩, rfl, rfl⟩ := h
    exact .label hcopies
  | callActual object owner method args result => exact .callActual h
  | callVirtual object method args result => exact .callVirtual h
  | returnValue src =>
    simp only [statementCode, yields_bind, yields_read, yields_pseudoOf, yields_pure] at h
    obtain ⟨_, _, ⟨rfl, rfl⟩, _, _, ⟨⟨t, ht, rfl⟩, rfl⟩, rfl, rfl⟩ := h
    exact .returnValue ht
  | returnVoid =>
    simp only [statementCode, yields_bind, yields_read, yields_pure] at h
    obtain ⟨_, _, ⟨rfl, rfl⟩, rfl, rfl⟩ := h
    exact .returnVoid
  | startScope name type =>
    simp only [statementCode, yields_bind, yields_draw, yields_modify, yields_pure] at h
    obtain ⟨_, _, ⟨rfl, rfl⟩, _, _, rfl, rfl, rfl⟩ := h
    exact .startScope
  | endScope name =>
    simp only [statementCode, yields_bind, yields_modify, yields_pure] at h
    obtain ⟨_, _, rfl, rfl, rfl⟩ := h
    exact .endScope

/-- A literal is one move of its bits, at the size of its type. -/
theorem code_of_literal {type : Ty} {value : String} {result : Register}
    (hresult : scope.types.get? result = some type)
    (h : Yields scope (statementCode index (.literal type value result) origin) st
      code after) :
    ∃ bits, Literal.bits? type value.toList = some bits ∧
      code = [.mov (sizeOf type) (.imm bits) (.pseudo ⟨result.index, sizeOf type⟩)] := by
  cases gives_of_yields h with
  | literal hbits ht =>
    obtain rfl := Option.some.inj (ht.symm.trans hresult)
    exact ⟨_, hbits, rfl⟩

/-- What a statement gives is what selecting its code gives. -/
theorem Gives.yields (h : Gives scope index origin st s code after) :
    Yields scope (statementCode index s origin) st code after := by
  cases h with
  | copy hsrc hdest =>
    simp only [statementCode, yields_bind, yields_pseudoOf_of_type hsrc,
      yields_pseudoOf_of_type hdest, yields_pure]
    exact ⟨_, _, ⟨rfl, rfl⟩, _, _, ⟨rfl, rfl⟩, rfl, rfl⟩
  | choose => exact yields_pure.2 ⟨rfl, rfl⟩
  | literal hbits hresult =>
    simp only [statementCode, hbits, yields_bind, yields_pseudoOf_of_type hresult, yields_pure]
    exact ⟨_, _, ⟨rfl, rfl⟩, rfl, rfl⟩
  | string hresult htext hcode =>
    simp only [statementCode, yields_bind, yields_pseudoOf_of_type hresult]
    exact ⟨_, _, ⟨rfl, rfl⟩, _, _, htext, hcode⟩
  | getLocal hlocal hresult =>
    simp only [statementCode, yields_bind, yields_localOf, yields_pseudoOf_of_type hresult,
      yields_pure]
    exact ⟨_, _, ⟨hlocal, rfl⟩, _, _, ⟨rfl, rfl⟩, rfl, rfl⟩
  | putLocal hlocal hsrc =>
    simp only [statementCode, yields_bind, yields_localOf, yields_pseudoOf_of_type hsrc,
      yields_pure]
    exact ⟨_, _, ⟨hlocal, rfl⟩, _, _, ⟨rfl, rfl⟩, rfl, rfl⟩
  | getParam hparam hresult =>
    simp only [statementCode, yields_bind, yields_paramOf, yields_pseudoOf_of_type hresult,
      yields_pure]
    exact ⟨_, _, ⟨hparam, rfl⟩, _, _, ⟨rfl, rfl⟩, rfl, rfl⟩
  | compare hleft hright hresult hintegral =>
    simp only [statementCode, yields_bind, yields_typeOf_of_type hleft, yields_requireIntegral,
      yields_pseudoOf_of_type hleft, yields_pseudoOf_of_type hright,
      yields_pseudoOf_of_type hresult, yields_pure]
    exact ⟨_, _, ⟨rfl, rfl⟩, (), _, ⟨hintegral, rfl⟩, _, _, ⟨rfl, rfl⟩, _, _, ⟨rfl, rfl⟩, _, _,
      ⟨rfl, rfl⟩, rfl, rfl⟩
  | binary hleft hright hresult hintegral hcode =>
    simp only [statementCode, yields_bind, yields_typeOf_of_type hleft, yields_requireIntegral,
      yields_pseudoOf_of_type hleft, yields_pseudoOf_of_type hright,
      yields_pseudoOf_of_type hresult]
    exact ⟨_, _, ⟨rfl, rfl⟩, (), _, ⟨hintegral, rfl⟩, _, _, ⟨rfl, rfl⟩, _, _, ⟨rfl, rfl⟩, _, _,
      ⟨rfl, rfl⟩, hcode⟩
  | unary hsrc hresult hintegral =>
    simp only [statementCode, yields_bind, yields_typeOf_of_type hsrc, yields_requireIntegral,
      yields_pseudoOf_of_type hsrc, yields_pseudoOf_of_type hresult, yields_pure]
    exact ⟨_, _, ⟨rfl, rfl⟩, (), _, ⟨hintegral, rfl⟩, _, _, ⟨rfl, rfl⟩, _, _,
      ⟨rfl, rfl⟩, rfl, rfl⟩
  | convert hsrc hresult hintegral =>
    simp only [statementCode, yields_bind, yields_typeOf_of_type hsrc]
    refine ⟨_, _, ⟨rfl, rfl⟩, ?_⟩
    rw [if_neg (Bool.eq_false_iff.1 hintegral)]
    simp only [yields_bind, yields_pseudoOf_of_type hsrc, yields_pseudoOf_of_type hresult,
      yields_pure]
    exact ⟨_, _, ⟨rfl, rfl⟩, _, _, ⟨rfl, rfl⟩, rfl, rfl⟩
  | branch hcondition hcopies =>
    simp only [statementCode, yields_bind, yields_read, yields_pseudoOf_of_type hcondition,
      yields_pure]
    exact ⟨_, _, ⟨rfl, rfl⟩, _, _, ⟨rfl, rfl⟩, _, _, hcopies, rfl, rfl⟩
  | jump hcopies | label hcopies =>
    simp only [statementCode, yields_bind, yields_read, yields_pure]
    exact ⟨_, _, hcopies, _, _, ⟨rfl, rfl⟩, rfl, rfl⟩
  | returnValue hsrc =>
    simp only [statementCode, yields_bind, yields_read, yields_pseudoOf_of_type hsrc,
      yields_pure]
    exact ⟨_, _, ⟨rfl, rfl⟩, _, _, ⟨rfl, rfl⟩, rfl, rfl⟩
  | returnVoid =>
    simp only [statementCode, yields_bind, yields_read, yields_pure]
    exact ⟨_, _, ⟨rfl, rfl⟩, rfl, rfl⟩
  | startScope =>
    exact yields_bind.2 ⟨_, _, yields_draw.2 ⟨rfl, rfl⟩,
      yields_bind.2 ⟨(), _, yields_modify.2 rfl, yields_pure.2 ⟨rfl, rfl⟩⟩⟩
  | endScope =>
    exact yields_bind.2 ⟨(), _, yields_modify.2 rfl, yields_pure.2 ⟨rfl, rfl⟩⟩
  | getStatic hcode | getStaticAddress hcode | putStatic hcode | getField hcode
  | getFieldAddress hcode | putField hcode | callActual hcode | callVirtual hcode =>
    exact hcode

end Jil.Selection
