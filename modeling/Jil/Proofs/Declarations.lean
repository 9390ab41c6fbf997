/-
Jil.Proofs.Declarations — declarations, members and headers are read as they are written.

What stands on a line of its own outside of bodies: a declaration of another
class or of one of its members, a member of the class, and the header of a
function. For each kind there is a condition on what it consists of, and a
statement that reading its line gives it back.
-/
import Jil.ClassUnit.Reader
import Jil.Proofs.StatementText

namespace Jil

open Jil.Text

/-! ## What can be read -/

/-- A class that is declared, and its superclass, are words. -/
structure LegibleClass (declared : String × Option String) : Prop where
  name : IsWord declared.1.toList
  superclass : ∀ s ∈ declared.2, IsWord s.toList

structure ExternalField.Legible (f : ExternalField) : Prop where
  member : Reader.LegibleMember f.owner f.name
  word : IsWord (f.owner.toList ++ '.' :: f.name.toList)
  type : f.type.Readable
  typeWord : IsWord f.type.descriptor.toList

structure ExternalMethod.Legible (m : ExternalMethod) : Prop where
  member : Reader.LegibleMember m.owner m.key.name
  opens : '(' ∉ m.owner.toList ++ '.' :: m.key.name.toList
  params : ∀ t ∈ m.key.params, t.Readable ∧ ',' ∉ t.descriptor.toList
    ∧ ')' ∉ t.descriptor.toList
  returns : m.info.returns.Readable

/-- The text of a value, behind an equals sign between spaces. -/
def Member.valueText (m : Member) : List Char := (m.default.elim "" (" = " ++ ·)).toList

structure Member.Legible (m : Member) : Prop where
  type : m.type.Readable
  space : ' ' ∉ m.type.descriptor.toList
  name_ne : m.name ≠ ""
  name_bare : Bare m.name.toList
  value_bare : ∀ value ∈ m.default, Bare value.toList
  /-- The first equals sign between spaces is the one in front of the value. -/
  equals :
    ¬ " = ".toList <:+: ' ' :: m.name.toList ++ (if m.default.isSome then [' ', '='] else [])

/-- A parameter as it is written. -/
def Param.text (p : Param) : String := p.type.descriptor ++ " " ++ p.name

structure Param.Legible (p : Param) : Prop where
  type : p.type.Readable
  space : ' ' ∉ p.type.descriptor.toList
  name_ne : p.name ≠ ""
  name_bare : Bare p.name.toList
  comma : ',' ∉ p.text.toList
  closes : ')' ∉ p.text.toList

/-! ## Declarations -/

namespace Reader

variable {u : ClassUnit}

theorem kind_keyword (k : MemberKind) : kind k.keyword.toList = .ok k := by
  cases k <;> rfl

theorem space_not_mem_keyword (k : MemberKind) : ' ' ∉ k.keyword.toList := by
  cases k <;> decide

theorem isWord_keyword (k : MemberKind) : IsWord k.keyword.toList := by
  cases k <;> decide

theorem returns_append {t : Ty} (h : t.Readable) :
    returns ("returns".toList ++ ' ' :: t.descriptor.toList) = .ok t := by
  rw [returns, stripStart?_append]
  exact type_of_trim t.bare_descriptor.trim_cons h

theorem declaration_class (s : List Char) :
    declaration u ("class".toList ++ ' ' :: s) = classDeclaration u s := by
  rw [declaration, cutSpace_append (by decide)]
  simp

theorem declaration_field (s : List Char) :
    declaration u ("field".toList ++ ' ' :: s) = fieldDeclaration u s := by
  rw [declaration, cutSpace_append (by decide)]
  simp

theorem declaration_method (s : List Char) :
    declaration u ("method".toList ++ ' ' :: s) = methodDeclaration u s := by
  rw [declaration, cutSpace_append (by decide)]
  simp

theorem classDeclaration_append {declared : String × Option String}
    (h : LegibleClass declared) :
    classDeclaration u (declared.1.toList ++ (declared.2.elim "" (" extends " ++ ·)).toList)
      = .ok (u.declareClass declared.1 declared.2) := by
  obtain ⟨name, superclass⟩ := declared
  obtain ⟨hname, hsuper⟩ := h
  rw [classDeclaration]
  cases superclass with
  | none =>
    have hwords : words name.toList = [name.toList] := by
      have hall : ∀ w ∈ [name.toList], IsWord w := by simpa using hname
      simpa using words_intercalate hall
    simp [hwords]
  | some s =>
    have hwords : words (name.toList ++ " extends ".toList ++ s.toList)
        = [name.toList, "extends".toList, s.toList] := by
      have hextends : IsWord "extends".toList := by decide
      have hall : ∀ w ∈ [name.toList, "extends".toList, s.toList], IsWord w := by
        simpa using ⟨hname, by simpa using hextends, hsuper s rfl⟩
      simpa [List.intercalate_cons_cons] using words_intercalate hall
    simp only [Option.elim, String.toList_append, ← List.append_assoc, hwords]
    simp

theorem fieldDeclaration_append {f : ExternalField} (h : f.Legible) :
    fieldDeclaration u (f.kind.keyword.toList
      ++ ' ' :: (f.owner.toList ++ '.' :: f.name.toList ++ ' ' :: f.type.descriptor.toList))
      = .ok (u.declareField f) := by
  have hwords : words (f.kind.keyword.toList
      ++ ' ' :: (f.owner.toList ++ '.' :: f.name.toList ++ ' ' :: f.type.descriptor.toList))
      = [f.kind.keyword.toList, f.owner.toList ++ '.' :: f.name.toList,
        f.type.descriptor.toList] := by
    have hall : ∀ w ∈ [f.kind.keyword.toList, f.owner.toList ++ '.' :: f.name.toList,
        f.type.descriptor.toList], IsWord w := by
      simpa using ⟨isWord_keyword f.kind, h.word, h.typeWord⟩
    simpa [List.intercalate_cons_cons] using words_intercalate hall
  rw [fieldDeclaration, hwords]
  simp [kind_keyword, h.member.read, type_descriptor h.type, bind, Except.bind, pure,
    Except.pure]

/-- A method is declared without telling whether it takes any number of arguments. -/
theorem methodDeclaration_append {m : ExternalMethod} (h : m.Legible) :
    methodDeclaration u
      (m.info.kind.keyword.toList ++ ' ' :: (m.owner.toList ++ '.' :: m.key.name.toList
        ++ '(' :: ((String.intercalate ", " (m.key.params.map Ty.descriptor)).toList
        ++ ')' :: ' ' :: ("returns".toList ++ ' ' :: m.info.returns.descriptor.toList))))
      = .ok (u.declareMethod ⟨m.owner, m.key, ⟨m.info.returns, m.info.kind, false⟩⟩) := by
  have hparams :
      (items (String.intercalate ", " (m.key.params.map Ty.descriptor)).toList).mapM type
      = .ok m.key.params := by
    refine mapM_items (fun t ht => type_descriptor (h.params t ht).1) fun t ht => ?_
    exact ⟨t.descriptor_ne_nil, t.bare_descriptor, (h.params t ht).2.1⟩
  have hcloses : ')' ∉ (String.intercalate ", " (m.key.params.map Ty.descriptor)).toList := by
    intro hin
    obtain hc | hc | ⟨t, ht, hin⟩ := mem_listText hin
    · cases hc
    · cases hc
    · exact (h.params t ht).2.2 hin
  have hreturns : Bare ("returns".toList ++ ' ' :: m.info.returns.descriptor.toList) := by
    simpa using bare_append (m := [' ']) (by simp) m.info.returns.descriptor_ne_nil
      (show Bare "returns".toList by decide).first m.info.returns.bare_descriptor.last
  rw [methodDeclaration, cutSpace_append (space_not_mem_keyword _)]
  simp only [kind_keyword, cut_char h.opens, cut_char hcloses, orElse, h.member.bare.trim_eq,
    h.member.read, hparams, hreturns.trim_cons, returns_append h.returns, bind,
    Except.bind, pure, Except.pure]

/-! ## Members -/

/-- A member is read with the line that it stands on. -/
theorem memberLine_append {m : Member} (h : m.Legible) (k : MemberKind) (origin : Origin) :
    memberLine u k origin (m.type.descriptor.toList ++ ' ' :: m.name.toList ++ m.valueText)
      = .ok ((u.setMemberOrigin origin).addField k m.type m.name m.default) := by
  have hleft : Bare (m.type.descriptor.toList ++ ' ' :: m.name.toList) := by
    simpa using bare_append (m := [' ']) m.type.descriptor_ne_nil (by simpa using h.name_ne)
      m.type.bare_descriptor.first h.name_bare.last
  have hequals := h.equals
  cases hm : m.default with
  | none =>
    have hnone : cut " = ".toList (m.type.descriptor.toList ++ ' ' :: m.name.toList)
        = none := by
      refine cut_eq_none fun hin => hequals ?_
      rw [hm]
      simpa using infix_behind (s := ['=', ' ']) h.space hin
    rw [Member.valueText, hm, Option.elim, String.toList_empty, List.append_nil,
      memberLine, hnone]
    simp [hleft.trim_eq, cut_char h.space, orElse, type_descriptor h.type,
      h.name_bare.trim_eq, bind, Except.bind, pure, Except.pure]
  | some value =>
    have hvalue := h.value_bare value hm
    have hcut :
        cut " = ".toList (m.type.descriptor.toList ++ ' ' :: m.name.toList ++ " = ".toList
        ++ value.toList) = some (m.type.descriptor.toList ++ ' ' :: m.name.toList,
        value.toList) := by
      refine cut_append (t := [' ', '=']) (c := ' ') (by simp) (fun hin => hequals ?_)
        value.toList
      rw [List.append_assoc] at hin
      rw [hm]
      simpa using infix_behind (s := ['=', ' ']) h.space hin
    rw [Member.valueText, hm, Option.elim, String.toList_append, ← List.append_assoc,
      memberLine, hcut]
    simp [hleft.trim_eq, cut_char h.space, orElse, type_descriptor h.type, h.name_bare.trim_eq,
      hvalue.trim_eq, bind, Except.bind, pure, Except.pure]

/-! ## Parameters -/

theorem param_text {p : Param} (h : p.Legible) : param p.text.toList = .ok p := by
  have htext : p.text.toList = p.type.descriptor.toList ++ ' ' :: p.name.toList := by
    simp [Param.text]
  rw [param, htext, cut_char h.space]
  simp [orElse, type_descriptor h.type, h.name_bare.trim_eq, bind, Except.bind, pure,
    Except.pure]

theorem Param.Legible.bare {p : Param} (h : p.Legible) : Bare p.text.toList := by
  have hb := bare_append (m := [' ']) p.type.descriptor_ne_nil (by simpa using h.name_ne)
    p.type.bare_descriptor.first h.name_bare.last
  simpa [Param.text] using hb

end Reader

/-! ## Headers -/

namespace Function

/-- The list of classes behind a header. -/
def throwsText (f : Function) : List Char :=
  if f.throws.isEmpty then []
  else " throws(".toList ++ List.intercalate [' '] (f.throws.map String.toList) ++ [')']

/-- The parameters without the parentheses. -/
def paramList (f : Function) : List Char :=
  (String.intercalate ", " (f.params.map Param.text)).toList

/-- The name of a function that is no initializer, and what it returns. -/
structure LegibleName (f : Function) : Prop where
  bare : Bare f.name.toList
  opens : '(' ∉ f.name.toList
  init : f.name ≠ "init" ∧ ¬ "init ".toList <+: f.name.toList
  varargs : f.varargs = false → ¬ "varargs ".toList <+: f.name.toList
  returns : f.returns.Readable
  throws : ¬ "throws(".toList <:+: f.returns.descriptor.toList

structure LegibleHeader (f : Function) : Prop where
  params : ∀ p ∈ f.params, p.Legible
  throws : ∀ name ∈ f.throws, IsWord name.toList
  name : f.isInit = false → f.LegibleName
  /-- Without parameters there are no parentheses, and those of the list would be taken for
  them. -/
  parentheses : f.isInit = true → f.params = [] → f.throws = []

end Function

namespace Reader

/-- What stands behind the parameters, taken apart into the result and the
classes that are thrown. -/
def SplitsThrows (rest result : List Char) (throws : List String) : Prop :=
  (cut "throws(".toList rest = none ∧ result = rest ∧ throws = [])
    ∨ ∃ before after, cut "throws(".toList rest = some (before, after) ∧ trim before = result
      ∧ throwsList after = .ok throws

theorem throwsList_append {throws : List String} (h : ∀ name ∈ throws, IsWord name.toList) :
    throwsList (List.intercalate [' '] (throws.map String.toList) ++ [')']) = .ok throws := by
  have hwords : words (List.intercalate [' '] (throws.map String.toList))
      = throws.map String.toList := by
    refine words_intercalate ?_
    simpa using h
  rw [throwsList, stripEnd?_append]
  simp [orElse, hwords, bind, Except.bind, pure, Except.pure, Function.comp_def]

theorem splitsThrows_append {f : Function} (hf : ∀ name ∈ f.throws, IsWord name.toList)
    {result : List Char} (hresult : Bare result) (h : ¬ "throws(".toList <:+: result) :
    SplitsThrows (trim (result ++ f.throwsText)) result f.throws := by
  by_cases hthrows : f.throws = []
  · have htext : f.throwsText = [] := by simp [Function.throwsText, hthrows]
    rw [htext, List.append_nil, hresult.trim_eq]
    exact .inl ⟨cut_eq_none h, rfl, hthrows⟩
  · have htext : f.throwsText = ' ' :: ("throws(".toList
        ++ (List.intercalate [' '] (f.throws.map String.toList) ++ [')'])) := by
      simp [Function.throwsText, hthrows]
    have hopen : "throws(".toList = "throws".toList ++ ['('] := by simp
    have hsign : ¬ "throws(".toList <:+: "throws".toList :=
      not_infix_of_not_mem (c := '(') (by simp) (by decide)
    rw [htext]
    cases result with
    | nil =>
      have hbare : Bare ("throws(".toList
          ++ (List.intercalate [' '] (f.throws.map String.toList) ++ [')'])) := by
        have hfirst : Bare "throws(".toList := by decide
        rw [← List.append_assoc]
        exact bare_append (by simp) (by simp) hfirst.first (by simp; decide)
      rw [List.nil_append, hbare.trim_cons]
      exact .inr ⟨[], _, cut_of_stripStart? (stripStart?_append _ _), rfl,
        throwsList_append hf⟩
    | cons c r =>
      have hbare : Bare (c :: r ++ ' ' :: ("throws(".toList
          ++ (List.intercalate [' '] (f.throws.map String.toList) ++ [')']))) := by
        have hb := bare_append (a := c :: r) (m := " throws(".toList
          ++ List.intercalate [' '] (f.throws.map String.toList)) (b :=
          [')']) (by simp) (by simp)
          hresult.first (by simp; decide)
        simpa using hb
      have hfree : ¬ "throws(".toList <:+: c :: r ++ [' '] ++ "throws".toList := by
        intro hin
        rw [List.append_assoc] at hin
        exact (infix_split (by simp) hin).elim h hsign
      have htrim : trim (c :: r ++ [' ']) = c :: r := by
        simpa using hresult.trim_append (a := []) (b := [' ']) nofun (by simp; decide)
      have hcut :=
        cut_append hopen hfree (List.intercalate [' '] (f.throws.map String.toList) ++ [')'])
      rw [hbare.trim_eq]
      rw [List.append_assoc, List.append_assoc] at hcut
      exact .inr ⟨c :: r ++ [' '], _, hcut, htrim, throwsList_append hf⟩

/-- A header is read from its parts. -/
theorem header_of_parts {k : MemberKind} {v : Bool}
    {signature name list rest result : List Char} {params : List Param} {throws : List String}
    (hv : v = false → stripStart? "varargs ".toList signature = none)
    (hparts : signatureParts signature = .ok (name, list, rest))
    (hparams : (items list).mapM param = .ok params)
    (hthrows : SplitsThrows rest result throws) :
    header (k.keyword.toList ++ ' ' :: ((if v then "varargs ".toList else []) ++ signature))
      = (if isInitializer signature then
          if result.isEmpty then
            .ok { Function.initializer k params with varargs := v, throws := throws }
          else .error .initializerReturns
        else (returns result).map fun t =>
          { name := String.ofList name, kind := k, params := params, returns := t, varargs := v
            throws := throws }) := by
  have hsign := stripStart?_append "varargs ".toList signature
  rw [header, cutSpace_append (space_not_mem_keyword k)]
  obtain ⟨hcut, rfl, rfl⟩ | ⟨before, after, hcut, rfl, hafter⟩ := hthrows
  · cases v
    all_goals
      simp only [Bool.false_eq_true, if_false, if_true, List.nil_append, kind_keyword,
        hsign, hv, hparts, hparams, hcut, bind, Except.bind, pure, Except.pure]
      split
      · split <;> rfl
      · cases returns result <;> rfl
  · cases v
    all_goals
      simp only [Bool.false_eq_true, if_false, if_true, List.nil_append, kind_keyword,
        hsign, hv, hparts, hparams, hcut, hafter, bind, Except.bind, pure, Except.pure]
      split
      · split <;> rfl
      · cases returns (trim before) <;> rfl

/-- The name, the parameters and what follows them. -/
theorem signatureParts_append {name list : List Char} (hname : Bare name) (hopen : '(' ∉ name)
    (hclose : ')' ∉ list) (rest : List Char) :
    signatureParts (name ++ '(' :: (list ++ ')' :: rest)) = .ok (name, list, trim rest) := by
  rw [signatureParts, cut_char hopen]
  simp [orElse, cut_char hclose, hname.trim_eq, bind, Except.bind, pure, Except.pure]

theorem isInitializer_append {name : String} (hopen : '(' ∉ name.toList) (hne : name ≠ "init")
    (hinit : ¬ "init ".toList <+: name.toList) (rest : List Char) :
    isInitializer (name.toList ++ '(' :: rest) = false := by
  have hwhole : name.toList ++ '(' :: rest ≠ "init".toList := by
    intro heq
    have hin : '(' ∈ "init".toList := heq ▸ by simp
    exact absurd hin (by decide)
  have hparen : ¬ "init(".toList <+: name.toList ++ '(' :: rest := by
    rintro ⟨t, ht⟩
    have hcut : cut ['('] (name.toList ++ '(' :: rest) = some ("init".toList, t) := by
      rw [← ht]
      exact cut_char (a := "init".toList) (by decide) t
    rw [cut_char hopen] at hcut
    exact hne (String.toList_inj.1 (Prod.mk.inj (Option.some.inj hcut)).1)
  have hspace : ¬ "init ".toList <+: name.toList ++ '(' :: rest := fun hpre =>
    hinit (prefix_of_prefix_append (by decide) hpre)
  simp only [isInitializer, hwhole, stripStart?_eq_none hparen, stripStart?_eq_none hspace]
  rfl

end Reader

namespace Function

variable {f : Function}

/-- What is written behind the kind of a function and the word that tells of further
arguments. -/
def signatureText (f : Function) : List Char :=
  (if f.isInit then "init" else f.name).toList
    ++ (if f.isInit && f.params.isEmpty then [] else '(' :: (f.paramList ++ [')']))
    ++ (if f.isInit then []
      else ' ' :: ("returns".toList ++ ' ' :: f.returns.descriptor.toList))
    ++ f.throwsText

theorem toList_header (f : Function) :
    f.header.toList = "function".toList ++ ' ' :: (f.kind.keyword.toList
      ++ ' ' :: ((if f.varargs then "varargs ".toList else []) ++ f.signatureText)) := by
  have hthrows : (if f.throws.isEmpty then ""
      else " throws(" ++ String.intercalate " " f.throws ++ ")").toList = f.throwsText := by
    unfold throwsText
    split
    · rfl
    · simp
  have hparams : f.paramsText.toList = '(' :: (f.paramList ++ [')']) := by
    simp [paramsText, paramList, Function.comp_def, Param.text]
  simp only [header, String.toList_append, hthrows, signatureText]
  cases f.varargs <;> cases f.isInit <;> cases f.params.isEmpty <;> simp [hparams]

/-- A signature ends with a parenthesis, a descriptor or the word for an initializer. -/
theorem last_signatureText (f : Function) :
    ∀ c ∈ f.signatureText.getLast?, isBlank c = false := by
  have hclose : ∀ (a : List Char), ∀ c ∈ (a ++ [')']).getLast?, isBlank c = false := by
    intro a
    simp; decide
  by_cases hthrows : f.throws = []
  · cases hinit : f.isInit with
    | false =>
      have htext : f.signatureText = f.name.toList ++ ('(' :: (f.paramList ++ [')']))
          ++ (" returns ".toList) ++ f.returns.descriptor.toList := by
        simp [signatureText, throwsText, hinit, hthrows]
      rw [htext, getLast?_append_of_ne_nil f.returns.descriptor_ne_nil]
      exact f.returns.bare_descriptor.last
    | true =>
      by_cases hparams : f.params = []
      · have htext : f.signatureText = "init".toList := by
          simp [signatureText, throwsText, hinit, hparams, hthrows]
        rw [htext]
        exact (show Bare "init".toList by decide).last
      · have htext : f.signatureText = "init(".toList ++ f.paramList ++ [')'] := by
          simp [signatureText, throwsText, hinit, hparams, hthrows]
        rw [htext]
        exact hclose _
  · have htext : f.throwsText
        = " throws(".toList ++ List.intercalate [' '] (f.throws.map String.toList)
          ++ [')'] := by
      simp [throwsText, hthrows]
    rw [signatureText, htext, ← List.append_assoc]
    exact hclose _

theorem signatureText_ne_nil (f : Function) : f.signatureText ≠ [] := by
  cases hinit : f.isInit <;> simp [signatureText, hinit]

theorem bare_header (f : Function) : Bare f.header.toList := by
  have hword : Bare "function".toList := by decide
  have hb := bare_append (m := ' ' :: (f.kind.keyword.toList
    ++ ' ' :: (if f.varargs then "varargs ".toList else []))) (by simp)
      f.signatureText_ne_nil hword.first
    f.last_signatureText
  rw [toList_header]
  simpa only [List.append_assoc, List.cons_append] using hb

theorem closes_not_mem_paramList (h : ∀ p ∈ f.params, p.Legible) : ')' ∉ f.paramList := by
  intro hin
  obtain hc | hc | ⟨p, hp, hin⟩ := Reader.mem_listText hin
  · cases hc
  · cases hc
  · exact (h p hp).closes hin

theorem mapM_paramList (h : ∀ p ∈ f.params, p.Legible) :
    (Reader.items f.paramList).mapM Reader.param = .ok f.params := by
  refine Reader.mapM_items (fun p hp => Reader.param_text (h p hp)) fun p hp => ?_
  have hne : p.text.toList ≠ [] := by simp [Param.text]
  exact ⟨hne, Reader.Param.Legible.bare (h p hp), (h p hp).comma⟩

/-- A function with a name is read from its header. -/
theorem header_of_named (h : f.LegibleHeader) (hinit : f.isInit = false) :
    Reader.header (f.kind.keyword.toList
      ++ ' ' :: ((if f.varargs then "varargs ".toList else []) ++ f.signatureText))
      = .ok { name := f.name, kind := f.kind, params := f.params, returns := f.returns
              varargs := f.varargs, throws := f.throws } := by
  have hname := h.name hinit
  have htext : f.signatureText = f.name.toList ++ '(' :: (f.paramList
      ++ ')' :: ' ' :: ("returns".toList ++ ' ' :: f.returns.descriptor.toList
        ++ f.throwsText)) := by
    simp [signatureText, hinit]
  have hparts :=
    Reader.signatureParts_append hname.bare hname.opens (closes_not_mem_paramList h.params)
    (' ' :: ("returns".toList ++ ' ' :: f.returns.descriptor.toList ++ f.throwsText))
  have hreturns : Bare ("returns".toList ++ ' ' :: f.returns.descriptor.toList) := by
    simpa using bare_append (m := [' ']) (by simp) f.returns.descriptor_ne_nil
      (show Bare "returns".toList by decide).first f.returns.bare_descriptor.last
  have hfree :
      ¬ "throws(".toList <:+: "returns".toList ++ ' ' :: f.returns.descriptor.toList := by
    intro hin
    refine (infix_split (by simp) hin).elim (not_infix_of_not_mem (c := '(') (by simp) ?_)
      hname.throws
    decide
  have hthrows := Reader.splitsThrows_append h.throws hreturns hfree
  have hplain := Reader.isInitializer_append hname.opens hname.init.1 hname.init.2 (f.paramList
    ++ ')' :: ' ' :: ("returns".toList ++ ' ' :: f.returns.descriptor.toList ++ f.throwsText))
  have hvarargs : f.varargs = false → stripStart? "varargs ".toList (f.name.toList
      ++ '(' :: (f.paramList
        ++ ')' :: ' ' :: ("returns".toList ++ ' ' :: f.returns.descriptor.toList
        ++ f.throwsText))) = none := by
    intro hv
    refine stripStart?_eq_none fun hpre => hname.varargs hv ?_
    exact prefix_of_prefix_append (by decide) hpre
  rw [trim_cons_space] at hparts
  rw [htext, Reader.header_of_parts hvarargs hparts (mapM_paramList h.params) hthrows, hplain,
    if_neg (by simp), Reader.returns_append hname.returns, String.ofList_toList]
  rfl

/-- An initializer is read from its header. -/
theorem header_of_isInit (h : f.LegibleHeader) (hinit : f.isInit = true) :
    Reader.header (f.kind.keyword.toList
      ++ ' ' :: ((if f.varargs then "varargs ".toList else []) ++ f.signatureText))
      = .ok { initializer f.kind f.params with varargs := f.varargs, throws := f.throws } := by
  have hfree : ¬ "throws(".toList <:+: [] := by simp
  have hthrows := Reader.splitsThrows_append h.throws bare_nil hfree
  by_cases hparams : f.params = []
  · have hnone := h.parentheses hinit hparams
    have htext : f.signatureText = "init".toList := by
      simp [signatureText, throwsText, hinit, hparams, hnone]
    have hlist : (Reader.items []).mapM Reader.param = .ok f.params := by
      rw [hparams]
      rfl
    have hrest : trim ([] ++ f.throwsText) = [] := by simp [throwsText, hnone]; rfl
    have hparts : Reader.signatureParts "init".toList = .ok ("init".toList, [], []) := by rfl
    rw [hrest] at hthrows
    rw [htext, Reader.header_of_parts (fun _ => by decide) hparts hlist hthrows,
      if_pos (by decide)]
    rfl
  · have htext :
      f.signatureText = "init".toList ++ '(' :: (f.paramList ++ ')' :: f.throwsText) := by
      simp [signatureText, hinit, hparams]
    have hparts :
        Reader.signatureParts ("init".toList ++ '(' :: (f.paramList ++ ')' :: f.throwsText))
        = .ok ("init".toList, f.paramList, trim ([] ++ f.throwsText)) :=
      Reader.signatureParts_append (by decide) (by decide)
        (closes_not_mem_paramList h.params) f.throwsText
    have hvarargs : stripStart? "varargs ".toList ("init".toList
        ++ '(' :: (f.paramList ++ ')' :: f.throwsText)) = none := by
      simp [stripStart?]
    have hstart :
        Reader.isInitializer ("init".toList ++ '(' :: (f.paramList ++ ')' :: f.throwsText))
        = true := by
      have hstrip := stripStart?_append "init(".toList (f.paramList ++ ')' :: f.throwsText)
      have heq : "init".toList ++ '(' :: (f.paramList ++ ')' :: f.throwsText)
          = "init(".toList ++ (f.paramList ++ ')' :: f.throwsText) := by simp
      rw [heq, Reader.isInitializer, hstrip]
      simp
    rw [htext, Reader.header_of_parts (fun _ => hvarargs) hparts (mapM_paramList h.params)
      hthrows, hstart, if_pos rfl]
    rfl

/-- The header of a function is read as the header of a function without a body. -/
theorem exists_header (h : f.LegibleHeader) :
    ∃ g, Reader.header (f.kind.keyword.toList
      ++ ' ' :: ((if f.varargs then "varargs ".toList else []) ++ f.signatureText)) = .ok g
      ∧ g.header = f.header ∧ g.body = [] := by
  cases hinit : f.isInit with
  | false =>
    refine ⟨_, header_of_named h hinit, ?_, rfl⟩
    simp [header, hinit, paramsText]
  | true =>
    refine ⟨_, header_of_isInit h hinit, ?_, rfl⟩
    simp [header, hinit, initializer, paramsText]

end Function

end Jil
