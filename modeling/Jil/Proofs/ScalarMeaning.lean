/-
Jil.Proofs.ScalarMeaning — statements on values are lowered to their meaning.

`Statement.meaning` says on numbers what a statement computes and where it puts
the result, `Place.number?` which number a place holds while a stream runs.
`statementCode_puts_meaning` is the theorem: the code of a statement on values
puts the number that the statement means into its place, and leaves every other
place alone.

Statements with floating-point numbers are left out; the conversion to or from
one is not supported.
-/
import Jil.Proofs.Computing
import Jil.Proofs.Lowered

namespace Jil

/-! ## Meaning -/

/-- Booleans, integers and references. -/
def Ty.isScalar (t : Ty) : Bool := t = .boolean || t.isIntegral || t.isReference

theorem Ty.isFloating_of_isScalar {t : Ty} (h : t.isScalar = true) : t.isFloating = false := by
  cases t <;> first | rfl | cases h

namespace Statement

/-- The places that a statement on values reads. -/
def operands : Statement → List Selection.Place
  | .getLocal name _ => [.localVariable name]
  | .getParam name _ => [.parameter name]
  | .copy src _ | .putLocal _ src | .unary _ src _ | .convert src _ _ => [.register src]
  | .compare _ left right _ | .binary _ left right _ => [.register left, .register right]
  | _ => []

/-- Whether a statement computes a value, and no floating-point number. -/
def computesScalar : Statement → Bool
  | .literal type _ _ => !type.isFloating
  | .convert _ target _ => !target.isFloating
  | .copy _ _ | .getLocal _ _ | .putLocal _ _ | .getParam _ _ | .compare _ _ _ _
    | .binary _ _ _ _
  | .unary _ _ _ => true
  | _ => false

/-- Statements on booleans, integers and references. -/
structure Scalar (type : Selection.Place → Option Ty) (s : Statement) : Prop where
  computes : s.computesScalar = true
  operands : ∀ place ∈ s.operands, ∀ t, type place = some t → t.isScalar = true

/-- Operands that a statement is defined on: booleans are 0 or 1, and there is a quotient. -/
structure DefinedOn (type : Selection.Place → Option Ty) (value : Selection.Place → Option Int)
    (s : Statement) : Prop where
  truths : ∀ place ∈ s.operands, type place = some .boolean →
    value place = some 0 ∨ value place = some 1
  quotients : ∀ op left right result, s = .binary op left right result →
    ∀ t a b, type (.register left) = some t → value (.register left) = some a →
      value (.register right) = some b → op.Defined t.promoted a b

/-- What a statement computes from the values of places, and where it puts it. -/
def meaning (type : Selection.Place → Option Ty) (value : Selection.Place → Option Int) :
    Statement → Option (Selection.Place × Int)
  | .copy src dest => do
    pure (.register dest, ← value (.register src))
  | .literal type text result => do
    pure (.register result, ← Literal.bits? type text.toList)
  | .getLocal name result => do
    pure (.register result, ← value (.localVariable name))
  | .putLocal name src => do
    pure (.localVariable name, ← value (.register src))
  | .getParam name result => do
    pure (.register result, ← value (.parameter name))
  | .compare op left right result => do
    let a ← value (.register left)
    let b ← value (.register right)
    pure (.register result, if op.holds a b then 1 else 0)
  | .binary op left right result => do
    let t ← type (.register left)
    let a ← value (.register left)
    let b ← value (.register right)
    pure (.register result, op.result t a b)
  | .unary op src result => do
    let t ← type (.register src)
    let a ← value (.register src)
    pure (.register result, op.result t a)
  | .convert src target result => do
    pure (.register result, target.wrap (← value (.register src)))
  | _ => none

end Statement

namespace Selection

open Jil.Machine (Abi Runtime)
open Jil.Pseudo (Instr Reg)

/-- The number that a place holds. -/
def Place.number? (scope : Scope) (locals : Table String Ty) (st : State) (σ : Pseudo.State)
    (place : Place) : Option Int := do
  let t ← place.type? scope locals
  let p ← place.pseudo? scope st
  pure (t.number (σ.pseudo p.id))

/-! ## Numbers that are kept -/

theorem wrap_number (t : Ty) (w : Machine.Word) : t.wrap (t.number w) = t.number w := by
  rw [← Ty.ofBits_ofInt, Ty.ofInt_number_of_le (Nat.le_refl _)]
  rfl

/-- Storing keeps the number. -/
theorem wrap_number_of_stores {declared value : Ty} (h : Typing.Stores declared value)
    (w : Machine.Word) : declared.wrap (value.number w) = value.number w := by
  rcases h with rfl | ⟨hdeclared, hvalue⟩
  · exact wrap_number declared w
  · have hwidth : declared.width = value.width := by
      unfold Ty.width
      rw [sizeOf_of_isReference hdeclared, sizeOf_of_isReference hvalue]
    rw [← Ty.ofBits_ofInt, Ty.ofInt_number_of_le (Nat.le_of_eq hwidth), hwidth, Ty.ofBits,
      isUnsigned_of_isReference hdeclared, Ty.number, Ty.ofBits,
      isUnsigned_of_isReference hvalue]

/-- Operators on truth values give truth values. -/
theorem truth_of_isBitwise {op : BinaryOp} (hop : op.isBitwise = true) {a b : Int}
    (ha : a = 0 ∨ a = 1) (hb : b = 0 ∨ b = 1) :
    op.result .boolean a b = 0 ∨ op.result .boolean a b = 1 := by
  rcases ha with rfl | rfl <;> rcases hb with rfl | rfl <;>
    cases op <;> first | cases hop; done | decide

/-! ## Statements -/

section

variable {scope : Scope} {locals : Table String Ty} {st after : State} {w : Supply}
  {σ : Pseudo.State} {rt : Runtime} {code : List Instr}

/-- Running code puts what a statement means into its place. -/
def PutsMeaning (scope : Scope) (locals : Table String Ty) (st : State) (s : Statement)
    (code : List Instr) (rt : Runtime) (σ : Pseudo.State) : Prop :=
  ∃ dest n t p, s.meaning (·.type? scope locals) (·.number? scope locals st σ) = some (dest, n)
    ∧ dest.type? scope locals = some t ∧ dest.pseudo? scope st = some p
    ∧ Puts rt σ code st.drawn p.id t n ∧ (t = .boolean → n = 0 ∨ n = 1)

theorem number?_eq_some {place : Place} {t : Ty} {p : Reg}
    (ht : place.type? scope locals = some t) (hp : place.pseudo? scope st = some p) :
    place.number? scope locals st σ = some (t.number (σ.pseudo p.id)) := by
  unfold Place.number?
  rw [ht, hp]
  rfl

theorem number?_register {r : Register} {t : Ty} (hr : scope.types.get? r = some t) :
    (Place.register r).number? scope locals st σ = some (t.number (σ.pseudo r.index)) :=
  number?_eq_some (p := ⟨r.index, sizeOf t⟩) hr (by rw [Place.pseudo?, hr]; rfl)

theorem pseudo?_register {r : Register} {t : Ty} (hr : scope.types.get? r = some t) :
    (Place.register r).pseudo? scope st = some ⟨r.index, sizeOf t⟩ := by
  rw [Place.pseudo?, hr]
  rfl

theorem truth_of_definedOn {s : Statement} {place : Place} {n : Int}
    (h : s.DefinedOn (·.type? scope locals) (·.number? scope locals st σ))
    (hmem : place ∈ s.operands) (ht : place.type? scope locals = some .boolean)
    (hn : place.number? scope locals st σ = some n) : n = 0 ∨ n = 1 := by
  have htruth := h.truths place hmem ht
  simpa only [hn, Option.some.injEq] using htruth

/-- Operands of a binary operator that are no floating-point numbers. -/
theorem kind_of_binaryOperands {op : BinaryOp} {a b : Ty}
    (h : Typing.binaryOperands op a b = true) (hfloating : a.isFloating = false) :
    a.isIntegral = true ∨ a = .boolean ∧ op.isBitwise = true := by
  unfold Typing.binaryOperands at h
  split at h
  · rw [Bool.and_eq_true] at h
    exact .inl h.1
  · split at h
    · next hbitwise =>
      rw [Bool.and_eq_true, Bool.or_eq_true, decide_eq_true_eq (p := a = .boolean)] at h
      exact h.2.imp_right fun ha => ⟨ha, hbitwise⟩
    · rw [Bool.and_eq_true, Ty.isNumeric, hfloating, Bool.or_false] at h
      exact .inl h.2

theorem boolean_of_binaryOperands {op : BinaryOp} {b : Ty}
    (h : Typing.binaryOperands op .boolean b = true) : op.isBitwise = true ∧ b = .boolean := by
  have hsame := operandSizes h
  unfold Typing.binaryOperands at h
  split at h
  · cases h
  · next hshift =>
    rw [if_neg hshift] at hsame
    split at h
    · next hbitwise => exact ⟨hbitwise, hsame.symm⟩
    · rw [Bool.and_eq_true] at h
      cases h.2

/-- Statements that move a value from a place to another. -/
theorem putsMeaning_move (src dest : Place) {s : Statement} {declared value : Ty} {q p : Reg}
    (hsrc : src.type? scope locals = some value) (hq : src.pseudo? scope st = some q)
    (hdest : dest.type? scope locals = some declared) (hp : dest.pseudo? scope st = some p)
    (hsize : p.size = sizeOf declared) (hstores : Typing.Stores declared value)
    (hmem : src ∈ s.operands)
    (hmeaning : ∀ value, s.meaning (·.type? scope locals) value
      = (value src).bind fun n => some (dest, n))
    (hdefined : s.DefinedOn (·.type? scope locals) (·.number? scope locals st σ)) :
    PutsMeaning scope locals st s [move p.size q p] rt σ := by
  have hn : src.number? scope locals st σ = some (value.number (σ.pseudo q.id)) :=
    number?_eq_some hsrc hq
  refine ⟨dest, value.number (σ.pseudo q.id), declared, p, ?_, hdest, hp, ?_, ?_⟩
  · rw [hmeaning, hn]
    rfl
  · rw [← wrap_number_of_stores hstores]
    refine puts_move hsize (Nat.mul_le_mul_left 8 (bytes_le_of_stores ?_)) q
    exact hstores.imp_right And.right
  · rintro rfl
    rcases hstores with rfl | ⟨hreference, -⟩
    · exact truth_of_definedOn hdefined hmem hsrc hn
    · cases hreference

/-- A truth value is written as 1 or 0. -/
theorem truth_of_bits? {text : List Char} {bits : Int}
    (h : Literal.bits? .boolean text = some bits) : bits = 0 ∨ bits = 1 := by
  simp only [Literal.bits?] at h
  split at h
  · cases h
    exact .inr rfl
  · split at h
    · cases h
      exact .inl rfl
    · cases h

theorem putsMeaning_literal {type : Ty} {text : String} {bits : Int} {result : Register}
    (hfloating : type.isFloating = false) (hbits : Literal.bits? type text.toList = some bits)
    (hresult : scope.types.get? result = some type) :
    PutsMeaning scope locals st (.literal type text result)
      [.mov (sizeOf type) (.imm bits) (.pseudo ⟨result.index, sizeOf type⟩)] rt σ := by
  refine ⟨.register result, bits, type, _, ?_, hresult, pseudo?_register hresult,
    puts_literal hfloating hbits, ?_⟩
  · simp only [Statement.meaning, hbits]
    rfl
  · rintro rfl
    exact truth_of_bits? hbits

theorem putsMeaning_compare {op : Comparison} {left right result : Register} {a b : Ty}
    (hleft : scope.types.get? left = some a) (hright : scope.types.get? right = some b)
    (htyped : Typing.comparable op a b = true)
    (hresult : scope.types.get? result = some .boolean) :
    PutsMeaning scope locals st (.compare op left right result)
      (compareCode op a ⟨left.index, sizeOf a⟩ ⟨right.index, sizeOf b⟩
        ⟨result.index, sizeOf .boolean⟩) rt σ := by
  refine ⟨.register result, _, .boolean, _, ?_, hresult, pseudo?_register hresult,
    puts_compare htyped rfl, fun _ => ?_⟩
  · simp only [Statement.meaning, number?_register hleft, number?_register hright]
    rfl
  · split
    · exact .inr rfl
    · exact .inl rfl

/-- Code that computes a binary operator, from its operands as they are. -/
theorem putsMeaning_binary {op : BinaryOp} {left right result : Register} {a b : Ty}
    (hleft : scope.types.get? left = some a) (hright : scope.types.get? right = some b)
    (htyped : Typing.binaryOperands op a b = true) (hresult : scope.types.get? result = some a)
    (hdefined : (Statement.binary op left right result).DefinedOn (·.type? scope locals)
      (·.number? scope locals st σ))
    (hputs : op.Defined a.promoted (a.number (σ.pseudo left.index))
        (b.number (σ.pseudo right.index)) →
      Puts rt σ code st.drawn result.index a
        (op.result a (a.number (σ.pseudo left.index)) (b.number (σ.pseudo right.index)))) :
    PutsMeaning scope locals st (.binary op left right result) code rt σ := by
  have hquotient := hdefined.quotients op left right result rfl a _ _ hleft
    (number?_register hleft) (number?_register hright)
  refine ⟨.register result, _, a, _, ?_, hresult, pseudo?_register hresult,
    hputs hquotient, ?_⟩
  · have ht : (Place.register left).type? scope locals = some a := hleft
    simp only [Statement.meaning, ht, number?_register hleft, number?_register hright]
    rfl
  · rintro rfl
    obtain ⟨hbitwise, rfl⟩ : op.isBitwise = true ∧ b = .boolean :=
      boolean_of_binaryOperands htyped
    exact truth_of_isBitwise hbitwise
      (truth_of_definedOn hdefined List.mem_cons_self hleft (number?_register hleft))
      (truth_of_definedOn hdefined (List.mem_cons_of_mem _ List.mem_cons_self) hright
        (number?_register hright))

/-- Only `not` has a truth value as its operand, and gives one. -/
theorem truth_of_unaryOperand {op : UnaryOp} (h : Typing.unaryOperand op .boolean = true)
    (n : Int) : op.result .boolean n = 0 ∨ op.result .boolean n = 1 := by
  cases op with
  | not =>
    simp only [UnaryOp.result]
    split
    · exact .inr rfl
    · exact .inl rfl
  | negate | complement => cases h

theorem putsMeaning_unary {op : UnaryOp} {src result : Register} {t : Ty}
    (hsrc : scope.types.get? src = some t) (htyped : Typing.unaryOperand op t = true)
    (hfloating : t.isFloating = false) (hresult : scope.types.get? result = some t)
    (hdefined : (Statement.unary op src result).DefinedOn (·.type? scope locals)
      (·.number? scope locals st σ)) :
    PutsMeaning scope locals st (.unary op src result)
      (unaryCode op ⟨src.index, sizeOf t⟩ ⟨result.index, sizeOf t⟩) rt σ := by
  refine ⟨.register result, _, t, _, ?_, hresult, pseudo?_register hresult,
    puts_unary htyped hfloating rfl ?_, ?_⟩
  · have ht : (Place.register src).type? scope locals = some t := hsrc
    simp only [Statement.meaning, ht, number?_register hsrc]
    rfl
  · rintro rfl
    exact truth_of_definedOn hdefined List.mem_cons_self hsrc (number?_register hsrc)
  · rintro rfl
    exact truth_of_unaryOperand htyped _

theorem putsMeaning_convert {src result : Register} {t target : Ty}
    (hsrc : scope.types.get? src = some t) (hintegral : t.isIntegral = true)
    (htarget : target.isNumeric = true) (hresult : scope.types.get? result = some target) :
    PutsMeaning scope locals st (.convert src target result)
      (convertCode t ⟨src.index, sizeOf t⟩ ⟨result.index, sizeOf target⟩) rt σ := by
  refine ⟨.register result, _, target, _, ?_, hresult, pseudo?_register hresult,
    puts_convert hintegral rfl rfl, ?_⟩
  · simp only [Statement.meaning, number?_register hsrc]
    rfl
  · rintro rfl
    cases htarget

/-- The code of a statement on values puts what the statement means into its place. -/
theorem statementCode_putsMeaning (hlaid : Laid scope locals st w) {index : Nat}
    {origin : Origin} {s : Statement}
    (hjudged : s.Judged scope.types locals (scope.function.paramTable scope.unit.name))
    (hscalar : s.Scalar (·.type? scope locals)) :
    ∃ code after, Yields scope (statementCode index s origin) st code after ∧
      ∀ rt σ, s.DefinedOn (·.type? scope locals) (·.number? scope locals st σ) →
        PutsMeaning scope locals st s code rt σ := by
  obtain ⟨hcomputes, hoperands⟩ := hscalar
  -- what the operands of an operator are not
  have hfixed : ∀ {r : Register} {t : Ty}, .register r ∈ s.operands →
      scope.types.get? r = some t → t.isFloating = false := fun hmem ht =>
    Ty.isFloating_of_isScalar (hoperands _ hmem _ ht)
  cases s with
  | copy src dest =>
    obtain ⟨t, hsrc, hdest⟩ := hjudged
    refine ⟨_, _, (Gives.copy hsrc hdest).yields, fun rt σ hdefined => ?_⟩
    exact putsMeaning_move (.register src) (.register dest) hsrc
      (pseudo?_register hsrc) hdest (pseudo?_register hdest) rfl (.inl rfl) List.mem_cons_self
      (fun _ => rfl) hdefined
  | literal type text result =>
    obtain ⟨hresult, bits, hbits⟩ := hjudged
    have hfloating : type.isFloating = false := by
      simpa [Statement.computesScalar] using hcomputes
    exact ⟨_, _, (Gives.literal hbits hresult).yields, fun rt σ _ =>
      putsMeaning_literal hfloating hbits hresult⟩
  | getLocal name result =>
    obtain ⟨t, hlocal, hresult⟩ := hjudged
    obtain ⟨q, hq, -⟩ := hlaid.typed (.localVariable name) hlocal
    refine ⟨_, _, (Gives.getLocal hq hresult).yields, fun rt σ hdefined => ?_⟩
    exact putsMeaning_move (.localVariable name) (.register result) hlocal hq hresult
      (pseudo?_register hresult) rfl (.inl rfl) List.mem_cons_self (fun _ => rfl) hdefined
  | putLocal name src =>
    obtain ⟨value, declared, hsrc, hlocal, hstores⟩ := hjudged
    obtain ⟨p, hp, hsize⟩ := hlaid.typed (.localVariable name) hlocal
    refine ⟨_, _, (Gives.putLocal hp hsrc).yields, fun rt σ hdefined => ?_⟩
    exact putsMeaning_move (.register src) (.localVariable name) hsrc
      (pseudo?_register hsrc) hlocal hp hsize hstores List.mem_cons_self (fun _ =>
        rfl) hdefined
  | getParam name result =>
    obtain ⟨t, hparam, hresult⟩ := hjudged
    obtain ⟨q, hq, -⟩ := hlaid.typed (.parameter name) hparam
    refine ⟨_, _, (Gives.getParam hq hresult).yields, fun rt σ hdefined => ?_⟩
    exact putsMeaning_move (.parameter name) (.register result) hparam hq hresult
      (pseudo?_register hresult) rfl (.inl rfl) List.mem_cons_self (fun _ => rfl) hdefined
  | compare op left right result =>
    obtain ⟨a, b, hleft, hright, htyped, hresult⟩ := hjudged
    have hfloating := hfixed List.mem_cons_self hleft
    exact ⟨_, _, (Gives.compare hleft hright hresult hfloating).yields, fun rt σ _ =>
      putsMeaning_compare hleft hright htyped hresult⟩
  | binary op left right result =>
    obtain ⟨a, b, hleft, hright, htyped, hresult, hne⟩ := hjudged
    have hfloating := hfixed List.mem_cons_self hleft
    have hapart : right.index ≠ result.index := fun h => hne (congrArg Register.mk h)
    have hdrawn : right.index ≤ st.drawn := hlaid.drawn ▸ (hlaid.has_register hright).1
    obtain ⟨code, after, hyields, hcode⟩ :
        ∃ code after, Yields scope
          (binaryCode op a ⟨left.index, sizeOf a⟩ ⟨right.index, sizeOf b⟩
          ⟨result.index, sizeOf a⟩) st code after ∧ ∀ rt σ, _ → Puts rt σ code _ _ _ _ :=
      binary_correct (operandSizes htyped) (kind_of_binaryOperands htyped hfloating) rfl
        rfl rfl
        hdrawn hapart
    exact ⟨code, after, (Gives.binary hleft hright hresult hfloating hyields).yields,
      fun rt σ hdefined =>
        putsMeaning_binary hleft hright htyped hresult hdefined (hcode rt σ)⟩
  | unary op src result =>
    obtain ⟨t, hsrc, htyped, hresult⟩ := hjudged
    have hfloating := hfixed List.mem_cons_self hsrc
    exact ⟨_, _, (Gives.unary hsrc hresult hfloating).yields, fun rt σ hdefined =>
      putsMeaning_unary hsrc htyped hfloating hresult hdefined⟩
  | convert src target result =>
    obtain ⟨t, hsrc, hnumeric, htarget, hresult⟩ := hjudged
    have hfloating := hfixed List.mem_cons_self hsrc
    have htargetFixed : target.isFloating = false := by
      simpa [Statement.computesScalar] using hcomputes
    have hintegral : t.isIntegral = true := by
      rwa [Ty.isNumeric, hfloating, Bool.or_false] at hnumeric
    have hboth : ((t.isFloating || target.isFloating) && decide (t ≠ target)) = false := by
      rw [hfloating, htargetFixed]
      rfl
    exact ⟨_, _, (Gives.convert hsrc hresult hboth).yields, fun rt σ _ =>
      putsMeaning_convert hsrc hintegral htarget hresult⟩
  | _ => cases hcomputes

end

/-! ## Functions -/

section

variable {u : ClassUnit} {abi : Abi} {position : Nat} {f : Function} {scope : Scope}
  {entry : Entry} {strings : Assembly.StringTable} {pre post : List Located} {s : Located}
  {before : List Instr} {st : State}

/-- Whatever the places of a checked function hold when a statement on values is reached: the
code of the statement puts the number that the statement means into its place, and no other
register, local variable, parameter or environment is changed, nor is memory. -/
theorem statementCode_computes_meaning (habi : abi ∈ Abi.all) (hf : Checked u position f)
    (hthis : KeepsReceiver f) (hscope : scopeOf u abi position f = .ok (scope, entry))
    (hbody : f.body = pre ++ s :: post)
    (hpre : Yields scope (bodyCode 0 pre)
      { strings := strings, drawn := entry.drawn } before st)
    (hscalar : s.statement.Scalar (·.type? scope (openLocals .empty pre))) :
    ∃ code after, Yields scope (statementCode pre.length s.statement s.origin) st code after ∧
      ∀ rt σ,
        let type := fun place : Place => place.type? scope (openLocals .empty pre)
        let value := fun (σ : Pseudo.State) (place : Place) =>
          place.number? scope (openLocals .empty pre) st σ
        s.statement.DefinedOn type (value σ) →
          ∃ dest n σ', s.statement.meaning type (value σ) = some (dest, n)
            ∧ Instr.execAll rt σ code = .ok σ'
            ∧ value σ' dest = some n ∧ (type dest = some .boolean → n = 0 ∨ n = 1)
            ∧ (∀ place p, place ≠ dest → place.pseudo? scope st = some p →
              σ'.pseudo p.id = σ.pseudo p.id)
            ∧ σ'.memory = σ.memory ∧ σ'.calls = σ.calls := by
  obtain ⟨types, ht⟩ := hf.typed
  obtain ⟨w, -, hstart⟩ := laid_start ht hthis hscope strings
  have hcopies := copiesFit_of_scopeOf ht hscope
  obtain ⟨copies, -, rfl, -⟩ := scopeOf_eq_ok ht.recorded hscope
  have hjudged : ∀ front s' back, pre = front ++ s' :: back → s'.statement.Judged types
      (openLocals .empty front) (f.paramTable u.name) := by
    intro front s' back heq
    exact ht.judged front s' (back ++ s :: post) (by rw [hbody, heq, List.append_assoc]; rfl)
  obtain ⟨grown, hselected⟩ := selected_bodyCode habi hcopies hstart hjudged hpre
  obtain ⟨code, after, hyields, hcode⟩ :=
    statementCode_putsMeaning hselected.laid
      (ht.judged pre s post hbody) hscalar
  refine ⟨code, after, hyields, fun rt σ hdefined => ?_⟩
  obtain ⟨dest, n, t, p, hmeaning, htype, hp, ⟨σ', hrun, hn, hkeeps⟩, htruth⟩ :=
    hcode rt σ hdefined
  refine ⟨dest, n, σ', hmeaning, hrun, (number?_eq_some htype hp).trans (congrArg some hn),
    fun hboolean => htruth ?_, fun place q hne hq => ?_, hkeeps.memory, hkeeps.calls⟩
  · exact Option.some.inj (htype.symm.trans hboolean)
  · refine hkeeps.pseudo q.id (hselected.laid.drawn ▸ (hselected.laid.has _ hq).1) fun heq =>
      ?_
    exact hne (hselected.laid.apart hq hp heq)

end

/-- A function that takes the remainder of two bytes. -/
def remainder : Function :=
  ((do
      let a ← .literal .byte "-7"
      let b ← .literal .byte "2"
      let _ ← .binary .rem a b
      .returnVoid : Function.Build Unit).run
    { name := "remainder", kind := .static, params := [], returns := .void }).2

/-- The class of the function, after its check. -/
def remainderUnit : ClassUnit := ((ClassUnit.create "pkg/Rest").addFunction remainder).check.1

/-- The function with the types that its check finds. -/
def remainderChecked : Function :=
  { remainder with registerTypes := some ⟨[(⟨0⟩, .byte), (⟨1⟩, .byte), (⟨2⟩, .byte)]⟩ }

/-- Where -7 and 2 are in the operands. -/
def remainderState : Pseudo.State where
  regs _ := 0
  memory _ := 0
  flags := none
  calls := 0
  pseudo
    | 0 => -7
    | 1 => 2
    | _ => 0

/-- Nothing is called. -/
def quiet : Runtime :=
  ⟨.systemV, fun _ => 0, fun _ => ⟨fun _ => 0, fun _ => 0⟩, fun _ => false⟩

theorem checked_remainder : Checked remainderUnit 0 remainderChecked :=
  checked_of_single (n := "pkg/Rest") (f := remainder) (by unfold Function.Drawn; decide)
    rfl rfl

/-- The third statement of the function puts -1 into its register. -/
theorem remainder_computes_meaning :
    Checked remainderUnit 0 remainderChecked ∧ KeepsReceiver remainderChecked
    ∧ ∃ scope st code after σ',
      Yields scope (statementCode 2 (.binary .rem ⟨0⟩ ⟨1⟩ ⟨2⟩) .generated) st code after
      ∧ Instr.execAll quiet remainderState code = .ok σ'
      ∧ Ty.byte.number (σ'.pseudo 2) = -1 := by
  let literals : List Located :=
    [⟨.literal .byte "-7" ⟨0⟩, .generated⟩, ⟨.literal .byte "2" ⟨1⟩, .generated⟩]
  let scope : Scope :=
    ⟨remainderUnit, remainderChecked, 0, .systemV,
      ⟨[(⟨0⟩, .byte), (⟨1⟩, .byte), (⟨2⟩, .byte)]⟩, [], .empty⟩
  have hthis : KeepsReceiver remainderChecked := nofun
  have hoperands : ∀ place ∈ [Place.register ⟨0⟩, .register ⟨1⟩], ∀ t,
      place.type? scope (openLocals .empty literals) = some t → t.isScalar = true := by
    intro place hplace t ht
    simp only [List.mem_cons, List.not_mem_nil, or_false] at hplace
    rcases hplace with rfl | rfl <;> cases ht <;> rfl
  have habi : Abi.systemV ∈ Abi.all := by decide
  obtain ⟨code, after, hyields, hcode⟩ :=
    statementCode_computes_meaning habi checked_remainder hthis rfl
      (show remainderChecked.body = literals ++ _ :: _ from rfl) rfl ⟨rfl, hoperands⟩
  have hdefined : Statement.DefinedOn (·.type? scope (openLocals .empty literals))
      (·.number? scope (openLocals .empty literals) { strings := {}, drawn := 3 }
        remainderState)
      (.binary .rem ⟨0⟩ ⟨1⟩ ⟨2⟩) := by
    refine ⟨fun place hplace ht => ?_, fun op left right result heq t a b ht ha hb _ => ?_⟩
    · simp only [Statement.operands, List.mem_cons, List.not_mem_nil, or_false] at hplace
      rcases hplace with rfl | rfl <;> cases ht
    · cases heq
      cases ht
      have ha : a = -7 := (Option.some.inj ha).symm
      have hb : b = 2 := (Option.some.inj hb).symm
      subst ha hb
      decide
  obtain ⟨dest, n, σ', hmeaning, hrun, hn, -⟩ := hcode quiet remainderState hdefined
  have hdest : (Place.register ⟨2⟩, (-1 : Int)) = (dest, n) := Option.some.inj hmeaning
  cases hdest
  exact ⟨checked_remainder, hthis, scope, _, code, after, σ', hyields, hrun,
    Option.some.inj hn⟩

end Selection

end Jil
