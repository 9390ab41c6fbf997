/-
Jil.Proofs.StatementText — the text of a statement is read as that statement.

The word in front of a statement decides its form, and a form takes its
operands apart from the outside in: the last arrow, then the first or the last
separator of what stands in front of it. `Legible` says, form by form, what
names must look like so that these cuts hit the separators that writing put
there: no condition concerns a string constant, and a literal may hold anything
but blanks at its ends. A text is its word and its operands (`toList_body`);
`bare_operandsText` and `readForm_operandsText` go through the forms, and
`read_body` puts the two together.
-/
import Jil.Proofs.Operands

namespace Jil

open Jil.Text

/-! ## Forms -/

namespace Reader

variable {left right result : Register}

theorem bare_arrow {a b : List Char} (ha : Bare a) (hne : a ≠ []) (hb : IsWord b) :
    Bare (a ++ " -> ".toList ++ b) :=
  bare_append hne hb.ne_nil ha.first hb.bare.last

theorem bare_place {r : Register} {right : List Char} (hright : Bare right)
    (hne : right ≠ []) :
    Bare (r.text.toList ++ " -> ".toList ++ right) :=
  bare_append r.isWord_text.ne_nil hne r.isWord_text.bare.first hright.last

theorem anyName_toList (name : String) : anyName name.toList = .ok name := by
  rw [anyName, String.ofList_toList]

theorem chooseForm_append (hleft : left.index ≤ numberMax) (hright : right.index ≤ numberMax)
    (hresult : result.index ≤ numberMax) :
    chooseForm (left.text.toList ++ [',', ' '] ++ right.text.toList ++ " -> ".toList
      ++ result.text.toList) = .ok (.choose left right result) := by
  have hcomma : ',' ∉ left.text.toList := left.not_mem_text rfl (by decide) (by decide)
  have htrim := right.isWord_text.bare.trim_cons
  rw [chooseForm, arrow_append (left.isWord_text.bare_append _ right.isWord_text)
    result.isWord_text.bare (noArrow_register result)]
  simp [orElse, cut_char hcomma, register_text hleft, register_text hresult,
    register_of_trim htrim hright, bind, Except.bind, pure, Except.pure]

theorem literalForm_append {type : Ty} {value : String} (htype : type.Readable)
    (hspace : ' ' ∉ type.descriptor.toList) (hne : value ≠ "") (hvalue : Bare value.toList)
    (hresult : result.index ≤ numberMax) :
    literalForm (type.descriptor.toList ++ [' '] ++ value.toList ++ " -> ".toList
      ++ result.text.toList) = .ok (.literal type value result) := by
  have hbare : Bare (type.descriptor.toList ++ [' '] ++ value.toList) :=
    bare_append type.descriptor_ne_nil (by simpa using hne)
      type.bare_descriptor.first hvalue.last
  rw [literalForm, arrow_append hbare result.isWord_text.bare (noArrow_register result)]
  simp [orElse, cut_char hspace, type_descriptor htype, register_text hresult,
    hvalue.trim_eq, bind, Except.bind, pure, Except.pure]

/-- Operands and an operator between them, with one space between each two. -/
theorem operatorForm_append {ω : Type} {operator : String → Except Malformation ω}
    {build : ω → Register → Register → Register → Statement} {symbol : String} {op : ω}
    (hsymbol : IsWord symbol.toList) (hop : operator symbol = .ok op)
    (hleft : left.index ≤ numberMax) (hright : right.index ≤ numberMax)
    (hresult : result.index ≤ numberMax) :
    operatorForm operator build
      (left.text.toList ++ ' ' :: (symbol.toList ++ ' ' :: right.text.toList)
      ++ " -> ".toList ++ result.text.toList) = .ok (build op left right result) := by
  rw [operatorForm, arrow_append (bare_threeWords left.isWord_text right.isWord_text)
    result.isWord_text.bare (noArrow_register result)]
  simp [threeWords_spaces left.isWord_text hsymbol right.isWord_text, register_text,
    hleft, hright, hresult, hop, bind, Except.bind, pure, Except.pure]

theorem isWord_unaryOp (op : UnaryOp) : IsWord op.name.toList := by
  cases op <;> decide

theorem unaryForm_append (op : UnaryOp) (hright : right.index ≤ numberMax)
    (hresult : result.index ≤ numberMax) :
    unaryForm (op.name.toList ++ ' ' :: right.text.toList ++ " -> ".toList
      ++ result.text.toList)
      = .ok (.unary op right result) := by
  have hword := isWord_unaryOp op
  rw [unaryForm, arrow_append (bare_twoWords hword right.isWord_text) result.isWord_text.bare
    (noArrow_register result)]
  simp [orElse, twoWords_space hword right.isWord_text, ofName?_name, register_text,
    hright, hresult, bind, Except.bind, pure, Except.pure]

theorem convertForm_append {target : Ty} (htarget : target.Readable)
    (hword : IsWord target.descriptor.toList) (hleft : left.index ≤ numberMax)
    (hresult : result.index ≤ numberMax) :
    convertForm (left.text.toList ++ ' ' :: ("to".toList ++ ' ' :: target.descriptor.toList)
      ++ " -> ".toList ++ result.text.toList) = .ok (.convert left target result) := by
  have hto : IsWord "to".toList := by decide
  rw [convertForm,
    arrow_append (bare_threeWords left.isWord_text hword) result.isWord_text.bare
    (noArrow_register result)]
  simp only [bind, Except.bind, pure, Except.pure,
    threeWords_spaces left.isWord_text hto hword]
  simp [register_text, hleft, hresult, type_descriptor htarget]

theorem isWord_truth (b : Bool) : IsWord (if b then "true" else "false").toList := by
  cases b <;> decide

theorem branchForm_append (expected : Bool) {target : Label} (hleft : left.index ≤ numberMax)
    (htarget : target.index ≤ numberMax) :
    branchForm ((if expected then "true" else "false").toList
      ++ ' ' :: (left.text.toList ++ ' ' :: target.text.toList))
      = .ok (.branch left expected target) := by
  have hword := isWord_truth expected
  have htruth : truth (if expected then "true" else "false").toList = .ok expected := by
    cases expected <;> rfl
  rw [branchForm, threeWords_spaces hword left.isWord_text target.isWord_text]
  simp [htruth, register_text hleft, label_text htarget, bind, Except.bind, pure, Except.pure]

theorem startScopeForm_append {name : String} {type : Ty} (hname : ' ' ∉ name.toList)
    (htype : type.Readable) :
    startScopeForm (name.toList ++ ' ' :: type.descriptor.toList)
      = .ok (.startScope name type) := by
  rw [startScopeForm, cut_char hname]
  simp [orElse, type_descriptor htype, bind, Except.bind, pure, Except.pure]

section

variable {owner method : String} {args : List Register} {returned : Option Register}

/-- A call on a class without a receiver. -/
theorem callActualForm_append (hmember : LegibleMember owner method)
    (hopen : '(' ∉ owner.toList ++ '.' :: method.toList)
    (hargs : ∀ r ∈ args, r.index ≤ numberMax) (hreturned : ∀ r ∈ returned, r.index ≤ numberMax)
    (harrow : returned = none → ¬ " -> ".toList <:+: owner.toList ++ '.' :: method.toList)
    (hsign : owner.toList.head? ≠ some '%') :
    callActualForm (owner.toList ++ '.' :: method.toList
      ++ (Statement.argumentsText args).toList ++ (Statement.resultText returned).toList)
      = .ok (.callActual none owner method args returned) := by
  have hcall := call_append hmember.bare hopen hargs hreturned harrow
  unfold callActualForm
  split
  · next heq =>
    refine absurd ?_ hsign
    cases ho : owner.toList with
    | nil => simp at ho; exact absurd ho hmember.owner_ne
    | cons c o =>
      rw [ho] at heq
      rw [(List.cons.inj heq).1]
      rfl
  · simp only [hcall, bind, Except.bind, pure, Except.pure, hmember.read]

/-- A call on a class with a receiver. -/
theorem callActualForm_receiver_append (hmember : LegibleMember owner method)
    (hopen : '(' ∉ owner.toList ++ '.' :: method.toList)
    (hargs : ∀ r ∈ args, r.index ≤ numberMax) (hreturned : ∀ r ∈ returned, r.index ≤ numberMax)
    (harrow : returned = none → ¬ " -> ".toList <:+: owner.toList ++ '.' :: method.toList)
    (hleft : left.index ≤ numberMax) :
    callActualForm (left.text.toList ++ ' ' :: (owner.toList ++ '.' :: method.toList
      ++ (Statement.argumentsText args).toList ++ (Statement.resultText returned).toList))
      = .ok (.callActual (some left) owner method args returned) := by
  have hspace : ' ' ∉ left.text.toList := left.not_mem_text rfl (by decide) (by decide)
  have hcall := call_append hmember.bare hopen hargs hreturned harrow
  unfold callActualForm
  split
  · simp only [cut_char hspace, orElse, register_text hleft, hcall, hmember.read, bind,
      Except.bind,
      pure, Except.pure]
  · next hne =>
    rw [left.toList_text] at hne
    exact absurd rfl (hne _)

theorem callVirtualForm_append (hmethod : Bare method.toList) (hopen : '(' ∉ method.toList)
    (hargs : ∀ r ∈ args, r.index ≤ numberMax) (hreturned : ∀ r ∈ returned, r.index ≤ numberMax)
    (harrow : returned = none → ¬ " -> ".toList <:+: method.toList)
    (hleft : left.index ≤ numberMax) :
    callVirtualForm (left.text.toList ++ '.' :: method.toList
      ++ (Statement.argumentsText args).toList
      ++ (Statement.resultText returned).toList) = .ok (.callVirtual left method args
        returned) := by
  have hopen' : '(' ∉ left.text.toList ++ '.' :: method.toList := by
    simp [hopen, left.not_mem_text (c := '(') rfl (by decide) (by decide)]
  have harrow' :
      returned = none → ¬ " -> ".toList <:+: left.text.toList ++ '.' :: method.toList := by
    intro hnone hin
    refine (infix_split (by simp) hin).elim (not_infix_of_not_mem (c := ' ') (by simp) ?_)
      (harrow hnone)
    exact left.not_mem_text rfl (by decide) (by decide)
  rw [callVirtualForm,
    call_append (bare_objectMember left hmethod) hopen' hargs hreturned harrow']
  simp only [objectMember_append hleft hmethod, bind, Except.bind, pure, Except.pure]

end

end Reader

namespace Statement

/-! ## Statements that can be read -/

/-- The numbers of registers and labels can be written. -/
structure Numbered (s : Statement) : Prop where
  used : ∀ r ∈ s.usedRegisters, r.index ≤ Reader.numberMax
  defined : ∀ r ∈ s.definedRegister?, r.index ≤ Reader.numberMax
  labels : ∀ l ∈ s.mentionedLabel?, l.index ≤ Reader.numberMax

theorem Numbered.unlabelled {s : Statement}
    (hused : ∀ r ∈ s.usedRegisters, r.index ≤ Reader.numberMax)
    (hdefined : ∀ r ∈ s.definedRegister?, r.index ≤ Reader.numberMax)
    (hlabel : s.mentionedLabel? = none) : s.Numbered :=
  ⟨hused, hdefined, by simp [hlabel]⟩

/-- The names and literals of a statement are found again in its text. -/
def Legible : Statement → Prop
  | .literal type value _ =>
    type.Readable ∧ ' ' ∉ type.descriptor.toList ∧ value ≠ "" ∧ Bare value.toList
  | .getLocal name _ | .getParam name _ => name ≠ "" ∧ Bare name.toList
  | .putLocal name _ => name ≠ "" ∧ Bare name.toList ∧ Reader.NoArrow name.toList
  | .getStatic owner field _ | .getStaticAddress owner field _ =>
    Reader.LegibleMember owner field
  | .putStatic owner field _ =>
    Reader.LegibleMember owner field ∧ Reader.NoArrow (owner.toList ++ '.' :: field.toList)
  | .getField _ field _ | .getFieldAddress _ field _ => Bare field.toList
  | .putField _ field _ => Bare field.toList ∧ ¬ " -> ".toList <:+: field.toList
  | .convert _ target _ => target.Readable ∧ IsWord target.descriptor.toList
  | .callActual object owner method _ result =>
    Reader.LegibleMember owner method ∧ '(' ∉ owner.toList ++ '.' :: method.toList
      ∧ (object = none → owner.toList.head? ≠ some '%')
      ∧ (result = none → ¬ " -> ".toList <:+: owner.toList ++ '.' :: method.toList)
  | .callVirtual _ method _ result =>
    Bare method.toList ∧ '(' ∉ method.toList
      ∧ (result = none → ¬ " -> ".toList <:+: method.toList)
  | .startScope name type =>
    name ≠ "" ∧ ' ' ∉ name.toList ∧ (∀ c ∈ name.toList.head?, isBlank c = false)
      ∧ type.Readable
  | .endScope name => Bare name.toList
  | _ => True

/-! ## The word in front and the operands -/

/-- The word in front of a statement, which decides its form. -/
def opcode : Statement → String
  | .copy .. => "copy"
  | .choose .. => "choose"
  | .literal .. => "literal"
  | .string .. => "string"
  | .getLocal .. => "getLocal"
  | .putLocal .. => "putLocal"
  | .getParam .. => "getParam"
  | .getStatic .. => "getStatic"
  | .getStaticAddress .. => "getStaticAddress"
  | .putStatic .. => "putStatic"
  | .getField .. => "getField"
  | .getFieldAddress .. => "getFieldAddress"
  | .putField .. => "putField"
  | .compare .. => "setCondition"
  | .binary .. => "binary"
  | .unary .. => "unary"
  | .convert .. => "convert"
  | .branch .. => "branch"
  | .jump .. => "jump"
  | .label .. => "label"
  | .callActual .. => "callActual"
  | .callVirtual .. => "callVirtual"
  | .returnValue .. | .returnVoid => "return"
  | .startScope .. => "startScope"
  | .endScope .. => "endScope"

/-- What stands behind that word and a space. -/
def operandsText : Statement → List Char
  | .copy src dest => src.text.toList ++ " -> ".toList ++ dest.text.toList
  | .choose first second result =>
    first.text.toList ++ [',', ' '] ++ second.text.toList ++ " -> ".toList
      ++ result.text.toList
  | .literal type value result =>
    type.descriptor.toList ++ [' '] ++ value.toList ++ " -> ".toList ++ result.text.toList
  | .string value result => Quoted.encode value.toList ++ " -> ".toList ++ result.text.toList
  | .getLocal name result | .getParam name result =>
    name.toList ++ " -> ".toList ++ result.text.toList
  | .putLocal name src => src.text.toList ++ " -> ".toList ++ name.toList
  | .getStatic owner field result | .getStaticAddress owner field result =>
    owner.toList ++ '.' :: field.toList ++ " -> ".toList ++ result.text.toList
  | .putStatic owner field src =>
    src.text.toList ++ " -> ".toList ++ (owner.toList ++ '.' :: field.toList)
  | .getField object field result | .getFieldAddress object field result =>
    object.text.toList ++ '.' :: field.toList ++ " -> ".toList ++ result.text.toList
  | .putField object field src =>
    src.text.toList ++ " -> ".toList ++ (object.text.toList ++ '.' :: field.toList)
  | .compare op left right result =>
    left.text.toList ++ ' ' :: (op.symbol.toList ++ ' ' :: right.text.toList) ++ " -> ".toList
      ++ result.text.toList
  | .binary op left right result =>
    left.text.toList ++ ' ' :: (op.symbol.toList ++ ' ' :: right.text.toList) ++ " -> ".toList
      ++ result.text.toList
  | .unary op src result =>
    op.name.toList ++ ' ' :: src.text.toList ++ " -> ".toList ++ result.text.toList
  | .convert src target result =>
    src.text.toList ++ ' ' :: ("to".toList ++ ' ' :: target.descriptor.toList) ++ " -> ".toList
      ++ result.text.toList
  | .branch condition expected target =>
    (if expected then "true" else "false").toList
      ++ ' ' :: (condition.text.toList ++ ' ' :: target.text.toList)
  | .jump target | .label target => target.text.toList
  | .callActual none owner method args result =>
    owner.toList ++ '.' :: method.toList ++ (argumentsText args).toList
      ++ (resultText result).toList
  | .callActual (some r) owner method args result =>
    r.text.toList
      ++ ' ' :: (owner.toList ++ '.' :: method.toList ++ (argumentsText args).toList
      ++ (resultText result).toList)
  | .callVirtual object method args result =>
    object.text.toList ++ '.' :: method.toList ++ (argumentsText args).toList
      ++ (resultText result).toList
  | .returnValue src => src.text.toList
  | .returnVoid => []
  | .startScope name type => name.toList ++ ' ' :: type.descriptor.toList
  | .endScope name => name.toList

variable {s : Statement}

theorem space_not_mem_opcode (s : Statement) : ' ' ∉ s.opcode.toList := by
  unfold opcode
  split <;> decide

/-- Only a return without a value is a word alone. -/
theorem toList_body (h : s ≠ .returnVoid) :
    s.body.toList = s.opcode.toList ++ ' ' :: s.operandsText := by
  cases s with
  | returnVoid => exact absurd rfl h
  | callActual object owner method args result =>
    unfold body opcode operandsText
    cases object <;> simp
  | _ =>
    unfold body opcode operandsText
    simp

/-- Legible operands have no blanks at their ends. -/
theorem bare_operandsText (hs : s.Legible) : Bare s.operandsText := by
  cases s with
  | copy src dest =>
    exact Reader.bare_arrow src.isWord_text.bare src.isWord_text.ne_nil dest.isWord_text
  | choose first second result =>
    have hbare := first.isWord_text.bare_append [',', ' '] second.isWord_text
    exact Reader.bare_arrow hbare (by simp) result.isWord_text
  | literal type value result =>
    obtain ⟨-, -, hne, hvalue⟩ := hs
    have hbare : Bare (type.descriptor.toList ++ [' '] ++ value.toList) :=
      bare_append type.descriptor_ne_nil (by simpa using hne)
        type.bare_descriptor.first hvalue.last
    exact Reader.bare_arrow hbare (by simp) result.isWord_text
  | string value result =>
    exact Reader.bare_arrow (Reader.bare_encode _) (by simp [Quoted.encode]) result.isWord_text
  | getLocal name result | getParam name result =>
    exact Reader.bare_arrow hs.2 (by simpa using hs.1) result.isWord_text
  | putLocal name src => exact Reader.bare_place hs.2.1 (by simpa using hs.1)
  | getStatic owner field result | getStaticAddress owner field result =>
    exact Reader.bare_arrow hs.bare (by simp) result.isWord_text
  | putStatic owner field src => exact Reader.bare_place hs.1.bare (by simp)
  | getField object field result | getFieldAddress object field result =>
    exact Reader.bare_arrow (Reader.bare_objectMember object hs) (by simp) result.isWord_text
  | putField object field src =>
    exact Reader.bare_place (Reader.bare_objectMember object hs.1) (by simp)
  | compare op left right result | binary op left right result =>
    have hbare :=
      Reader.bare_threeWords (b := op.symbol.toList) left.isWord_text right.isWord_text
    exact Reader.bare_arrow hbare (by simp) result.isWord_text
  | unary op src result =>
    have hbare := Reader.bare_twoWords (Reader.isWord_unaryOp op) src.isWord_text
    exact Reader.bare_arrow hbare (by simp) result.isWord_text
  | convert src target result =>
    have hbare := Reader.bare_threeWords (b := "to".toList) src.isWord_text hs.2
    exact Reader.bare_arrow hbare (by simp) result.isWord_text
  | branch condition expected target =>
    exact Reader.bare_threeWords (Reader.isWord_truth expected) target.isWord_text
  | jump target | label target => exact target.isWord_text.bare
  | callActual object owner method args result =>
    have hfirst := hs.1.bare.first
    cases object with
    | none => exact Reader.bare_call (by simp) hfirst args result
    | some r =>
      have hfirst :
          ∀ c ∈ (r.text.toList ++ ' ' :: (owner.toList ++ '.' :: method.toList)).head?,
          isBlank c = false := by
        rw [r.toList_text]
        simp; decide
      simpa [operandsText] using Reader.bare_call (by simp) hfirst args result
  | callVirtual object method args result =>
    exact Reader.bare_call (by simp) (Reader.bare_objectMember object hs.1).first args result
  | returnValue src => exact src.isWord_text.bare
  | returnVoid => exact bare_nil
  | startScope name type =>
    obtain ⟨hne, -, hfirst, -⟩ := hs
    simpa [operandsText] using bare_append (m := [' ']) (by simpa using hne)
      type.descriptor_ne_nil
      hfirst type.bare_descriptor.last
  | endScope name => exact hs

/-- The word in front leads to the form that reads the operands. -/
theorem readForm_operandsText (hs : s.Legible) (hn : s.Numbered) :
    readForm s.opcode s.operandsText = .ok s := by
  cases s with
  | copy src dest =>
    have hsrc := Reader.register_text (hn.used src (by simp [usedRegisters]))
    rw [opcode, operandsText, readForm,
      Reader.toRegister_append src.isWord_text.bare hsrc (hn.defined dest rfl)]
    rfl
  | choose first second result =>
    rw [opcode, operandsText, readForm]
    exact Reader.chooseForm_append (hn.used first (by simp [usedRegisters]))
      (hn.used second (by simp [usedRegisters])) (hn.defined result rfl)
  | literal type value result =>
    obtain ⟨htype, hspace, hne, hvalue⟩ := hs
    rw [opcode, operandsText, readForm]
    exact Reader.literalForm_append htype hspace hne hvalue (hn.defined result rfl)
  | string value result =>
    rw [opcode, operandsText, readForm, Reader.toRegister_append (Reader.bare_encode _)
      (Reader.quoted_encode value) (hn.defined result rfl)]
    rfl
  | getLocal name result | getParam name result =>
    rw [opcode, operandsText, readForm,
      Reader.toRegister_append hs.2 (Reader.anyName_toList name) (hn.defined result rfl)]
    rfl
  | putLocal name src =>
    obtain ⟨-, hbare, harrow⟩ := hs
    rw [opcode, operandsText, readForm, Reader.fromRegister_append hbare harrow
      (Reader.anyName_toList name) (hn.used src (by simp [usedRegisters]))]
    rfl
  | getStatic owner field result | getStaticAddress owner field result =>
    rw [opcode, operandsText, readForm,
      Reader.toRegister_append hs.bare hs.read (hn.defined result rfl)]
    rfl
  | putStatic owner field src =>
    obtain ⟨hmember, harrow⟩ := hs
    rw [opcode, operandsText, readForm,
      Reader.fromRegister_append hmember.bare harrow hmember.read
      (hn.used src (by simp [usedRegisters]))]
    rfl
  | getField object field result | getFieldAddress object field result =>
    have hread := Reader.objectMember_append (hn.used object (by simp [usedRegisters])) hs
    rw [opcode, operandsText, readForm,
      Reader.toRegister_append (Reader.bare_objectMember object hs)
      hread (hn.defined result rfl)]
    rfl
  | putField object field src =>
    obtain ⟨hbare, harrow⟩ := hs
    have hread := Reader.objectMember_append (hn.used object (by simp [usedRegisters])) hbare
    have hspace : ' ' ∉ object.text.toList := object.not_mem_text rfl (by decide) (by decide)
    rw [opcode, operandsText, readForm, Reader.fromRegister_append
      (Reader.bare_objectMember object hbare) (Reader.noArrow_append hspace harrow) hread
      (hn.used src (by simp [usedRegisters]))]
    rfl
  | compare op left right result =>
    rw [opcode, operandsText, readForm]
    exact Reader.operatorForm_append (by cases op <;> decide) (Reader.comparison_symbol op)
      (hn.used left (by simp [usedRegisters])) (hn.used right (by simp [usedRegisters]))
      (hn.defined result rfl)
  | binary op left right result =>
    rw [opcode, operandsText, readForm]
    exact Reader.operatorForm_append (by cases op <;> decide) (Reader.binaryOp_symbol op)
      (hn.used left (by simp [usedRegisters])) (hn.used right (by simp [usedRegisters]))
      (hn.defined result rfl)
  | unary op src result =>
    rw [opcode, operandsText, readForm]
    exact Reader.unaryForm_append op (hn.used src (by simp [usedRegisters]))
      (hn.defined result rfl)
  | convert src target result =>
    rw [opcode, operandsText, readForm]
    exact Reader.convertForm_append hs.1 hs.2 (hn.used src (by simp [usedRegisters]))
      (hn.defined result rfl)
  | branch condition expected target =>
    rw [opcode, operandsText, readForm]
    exact Reader.branchForm_append expected (hn.used condition (by simp [usedRegisters]))
      (hn.labels target rfl)
  | jump target | label target =>
    rw [opcode, operandsText, readForm, Reader.label_text (hn.labels target rfl)]
    rfl
  | callActual object owner method args result =>
    obtain ⟨hmember, hopen, hsign, harrow⟩ := hs
    have hargs : ∀ r ∈ args, r.index ≤ Reader.numberMax := fun r hr =>
      hn.used r (by simp [usedRegisters, hr])
    cases object with
    | none =>
      rw [opcode, operandsText, readForm]
      exact Reader.callActualForm_append hmember hopen hargs hn.defined harrow (hsign rfl)
    | some r =>
      rw [opcode, operandsText, readForm]
      exact Reader.callActualForm_receiver_append hmember hopen hargs hn.defined harrow
        (hn.used r (by simp [usedRegisters]))
  | callVirtual object method args result =>
    obtain ⟨hbare, hopen, harrow⟩ := hs
    have hargs : ∀ r ∈ args, r.index ≤ Reader.numberMax := fun r hr =>
      hn.used r (by simp [usedRegisters, hr])
    rw [opcode, operandsText, readForm]
    exact Reader.callVirtualForm_append hbare hopen hargs hn.defined harrow
      (hn.used object (by simp [usedRegisters]))
  | returnValue src =>
    rw [opcode, operandsText, readForm, if_neg (by simp [src.isWord_text.ne_nil]),
      Reader.register_text (hn.used src (by simp [usedRegisters]))]
    rfl
  | returnVoid => rfl
  | startScope name type =>
    obtain ⟨-, hspace, -, htype⟩ := hs
    rw [opcode, operandsText, readForm]
    exact Reader.startScopeForm_append hspace htype
  | endScope name => rw [opcode, operandsText, readForm, String.ofList_toList]

/-- A statement is read from its text. -/
theorem read_body (hs : s.Legible) (hn : s.Numbered) : read s.body.toList = .ok s := by
  by_cases hvoid : s = .returnVoid
  · rw [hvoid]
    rfl
  · rw [toList_body hvoid, read, cutSpace_append s.space_not_mem_opcode]
    simp [(bare_operandsText hs).trim_eq, readForm_operandsText hs hn]

/-! ## Plain names -/

end Statement

/-- A name without blanks and without the signs that separate operands. -/
structure PlainName (name : String) : Prop where
  ne_empty : name ≠ ""
  plain : ∀ c ∈ name.toList, isBlank c = false ∧ c ∉ ".,();%".toList

instance (name : String) : Decidable (PlainName name) :=
  decidable_of_iff
    (name ≠ "" ∧ (name.toList.all fun c => !isBlank c && !".,();%".toList.contains c) = true)
    ⟨fun ⟨ne_empty, plain⟩ => ⟨ne_empty, by simpa using plain⟩,
      fun ⟨ne_empty, plain⟩ => ⟨ne_empty, by simpa using plain⟩⟩

namespace PlainName

variable {name owner : String}

theorem isWord (h : PlainName name) : IsWord name.toList :=
  ⟨by simpa using h.ne_empty, fun c hc => (h.plain c hc).1⟩

theorem not_mem_of_isBlank {c : Char} (hc : isBlank c = true) (h : PlainName name) :
    c ∉ name.toList := by
  intro hin
  rw [(h.plain c hin).1] at hc
  cases hc

theorem not_mem {c : Char} (hc : c ∈ ".,();%".toList) (h : PlainName name) : c ∉ name.toList :=
  fun hin => (h.plain c hin).2 hc

theorem not_arrow (h : PlainName name) : ¬ " -> ".toList <:+: name.toList :=
  not_infix_of_not_mem (c := ' ') (by simp) (h.not_mem_of_isBlank (by decide))

theorem isWord_member (howner : PlainName owner) (h : PlainName name) :
    IsWord (owner.toList ++ '.' :: name.toList) := by
  refine ⟨by simp, fun c hc => ?_⟩
  rw [List.mem_append, List.mem_cons] at hc
  obtain hc | rfl | hc := hc
  · exact howner.isWord.blank c hc
  · decide
  · exact h.isWord.blank c hc

theorem legibleMember (howner : PlainName owner) (h : PlainName name) :
    Reader.LegibleMember owner name :=
  ⟨howner.ne_empty, h.ne_empty, h.not_mem (by simp), (howner.isWord_member h).bare⟩

end PlainName

/-- A type that some descriptor describes, with a plain name if it names a class. -/
structure Ty.Plain (t : Ty) : Prop where
  described : ∃ s, Ty.ofDescriptor? s = some t
  named : ∀ name ∈ t.baseClass?, PlainName name

theorem Ty.Plain.readable {t : Ty} (h : t.Plain) : t.Readable := by
  obtain ⟨s, hs⟩ := h.described
  exact Ty.readable_of_ofDescriptor? hs

theorem Ty.Plain.isWord {t : Ty} (h : t.Plain) : IsWord t.descriptor.toList := by
  refine ⟨t.descriptor_ne_nil, fun c hc => ?_⟩
  obtain hc | ⟨name, hname, hc⟩ := Ty.mem_descriptor hc
  · have hsigns : IsWord "BZCSIJFDVnulL;[".toList := by decide
    exact hsigns.blank c hc
  · exact (h.named name hname).isWord.blank c hc

namespace Statement

/-- The names of variables, members and classes in the text of a statement. -/
def names : Statement → List String
  | .getLocal name _ | .putLocal name _ | .getParam name _ => [name]
  | .getStatic owner field _ | .getStaticAddress owner field _ | .putStatic owner field _ =>
    [owner, field]
  | .getField _ field _ | .getFieldAddress _ field _ | .putField _ field _ => [field]
  | .callActual _ owner method _ _ => [owner, method]
  | .callVirtual _ method _ _ => [method]
  | .startScope name _ | .endScope name => [name]
  | _ => []

/-- The types in the text of a statement. -/
def types : Statement → List Ty
  | .literal type _ _ => [type]
  | .convert _ target _ => [target]
  | .startScope _ type => [type]
  | _ => []

/-- The text of a literal, which is written as it is. -/
def literal? : Statement → Option String
  | .literal _ value _ => some value
  | _ => none

/-- Names are plain, and a literal has no blanks at its ends. Of string
constants nothing is asked. -/
structure WellNamed (s : Statement) : Prop where
  names : ∀ name ∈ s.names, PlainName name
  types : ∀ t ∈ s.types, t.Plain
  literal : ∀ value ∈ s.literal?, value ≠ "" ∧ trim value.toList = value.toList

theorem WellNamed.legible {s : Statement} (h : s.WellNamed) : s.Legible := by
  have hspace : isBlank ' ' = true := by decide
  cases s with
  | literal type value result =>
    have htype := h.types type (by simp [Statement.types])
    have hvalue := h.literal value rfl
    refine ⟨htype.readable, fun hin => ?_, hvalue.1, ?_⟩
    · rw [htype.isWord.blank _ hin] at hspace
      cases hspace
    · rw [← hvalue.2]
      exact bare_trim _
  | getLocal name result | getParam name result =>
    have hname := h.names name (by simp [Statement.names])
    exact ⟨hname.ne_empty, hname.isWord.bare⟩
  | putLocal name src =>
    have hname := h.names name (by simp [Statement.names])
    exact ⟨hname.ne_empty, hname.isWord.bare,
      Reader.noArrow_of_space (hname.not_mem_of_isBlank hspace)⟩
  | getStatic owner field result | getStaticAddress owner field result =>
    exact (h.names owner (by simp [Statement.names])).legibleMember
      (h.names field (by simp [Statement.names]))
  | putStatic owner field src =>
    have howner := h.names owner (by simp [Statement.names])
    have hfield := h.names field (by simp [Statement.names])
    exact ⟨howner.legibleMember hfield,
      Reader.noArrow_append (howner.not_mem_of_isBlank hspace) hfield.not_arrow⟩
  | getField object field result =>
    exact (h.names field (by simp [Statement.names])).isWord.bare
  | getFieldAddress object field result =>
    exact (h.names field (by simp [Statement.names])).isWord.bare
  | putField object field src =>
    have hfield := h.names field (by simp [Statement.names])
    exact ⟨hfield.isWord.bare, hfield.not_arrow⟩
  | convert src target result =>
    have htarget := h.types target (by simp [Statement.types])
    exact ⟨htarget.readable, htarget.isWord⟩
  | callActual object owner method args result =>
    have howner := h.names owner (by simp [Statement.names])
    have hmethod := h.names method (by simp [Statement.names])
    refine ⟨howner.legibleMember hmethod, ?_, fun _ hsign => ?_, fun _ => ?_⟩
    · simp [howner.not_mem (c := '(') (by simp), hmethod.not_mem (c := '(') (by simp)]
    · exact howner.not_mem (c := '%') (by simp) (List.mem_of_mem_head? hsign)
    · exact fun hin => (infix_split (by simp) hin).elim howner.not_arrow hmethod.not_arrow
  | callVirtual object method args result =>
    have hmethod := h.names method (by simp [Statement.names])
    exact ⟨hmethod.isWord.bare, hmethod.not_mem (by simp), fun _ => hmethod.not_arrow⟩
  | startScope name type =>
    have hname := h.names name (by simp [Statement.names])
    exact ⟨hname.ne_empty, hname.not_mem_of_isBlank hspace, hname.isWord.bare.first,
      (h.types type (by simp [Statement.types])).readable⟩
  | endScope name => exact (h.names name (by simp [Statement.names])).isWord.bare
  | _ => trivial

/-- Text is a faithful form of a statement with plain names: without the semicolon it is read
as the statement that was written, whatever a string constant or a literal holds. -/
theorem text_reads_back {s : Statement} (hs : s.WellNamed) (hn : s.Numbered) :
    ∃ body, stripEnd? [';'] s.text.toList = some body ∧ read body = .ok s := by
  refine ⟨s.body.toList, ?_, read_body hs.legible hn⟩
  rw [text, String.toList_append]
  exact stripEnd?_append _ _

/-- A literal with an arrow and a semicolon in it, and a string constant that is full of
signs. -/
theorem arrows_read_back :
    (∃ body, stripEnd? [';']
      (literal (.array (.classRef "a->b/C")) "'x -> %r1;'" ⟨7⟩).text.toList = some body
        ∧ read body = .ok (literal (.array (.classRef "a->b/C")) "'x -> %r1;'" ⟨7⟩))
      ∧ ∃ body, stripEnd? [';'] (string "\"a\\ -> %r2;\n\té\"" ⟨4294967295⟩).text.toList
        = some body
        ∧ read body = .ok (string "\"a\\ -> %r2;\n\té\"" ⟨4294967295⟩) := by
  constructor
  · refine text_reads_back ⟨nofun, ?_, ?_⟩ ⟨nofun, ?_, nofun⟩
    · intro t ht
      obtain rfl := List.mem_singleton.1 ht
      refine ⟨⟨"[La->b/C;".toList, by decide⟩, ?_⟩
      intro name hname
      cases hname
      decide
    · intro value hvalue
      cases hvalue
      exact ⟨by decide, by decide⟩
    · intro r hr
      cases hr
      decide
  · refine text_reads_back ⟨nofun, nofun, nofun⟩ ⟨nofun, ?_, nofun⟩
    intro r hr
    cases hr
    decide

end Statement

end Jil
