/-
Jil.Proofs.UnitReading — a unit that was read is written so that it is read again.

Reading gives units whose parts are legible, but for a few that are only told
apart in the source by blanks that writing does not keep, or by parentheses
that it leaves out; `Unambiguous` names them, part by part. `AsRead` is what is
known of the parts of any unit that was read. One line of a source preserves it
(`Reading.AsRead.line`), and so a whole source does.

The one ambiguity that no blank is to blame for is an initializer without
parameters that throws: its empty parentheses are not written, and the list of
classes that it throws is read as parameters (`thrown_read_as_parameter`).
-/
import Jil.Proofs.Checked
import Jil.Proofs.StatementReading
import Jil.Proofs.UnitText

namespace Jil

open Jil.Text

/-! ## Ambiguities -/

/-- The first equals sign between spaces is the one in front of the value, also when the name
stands right behind the type. -/
structure Member.Unambiguous (m : Member) : Prop where
  first : ¬ "= ".toList <+: m.name.toList
  value : m.default.isSome → m.name ≠ "=" ∧ ¬ " =".toList <:+ m.name.toList

instance (m : Member) : Decidable m.Unambiguous :=
  decidable_of_iff (¬ "= ".toList <+: m.name.toList
      ∧ (m.default.isSome → m.name ≠ "=" ∧ ¬ " =".toList <:+ m.name.toList))
    ⟨fun ⟨first, value⟩ => ⟨first, value⟩, fun ⟨first, value⟩ => ⟨first, value⟩⟩

/-- The name of a function as it is found in its header: a name can begin with the word that
tells of further arguments. -/
def Function.nameInHeader (f : Function) : List Char :=
  if f.varargs then f.name.toList
  else (stripStart? "varargs ".toList f.name.toList).getD f.name.toList

/-- The name of a function is not taken for an initializer's, and an initializer that
throws has parameters. -/
structure Function.Unambiguous (f : Function) : Prop where
  name : f.isInit = false → Bare f.nameInHeader ∧ f.nameInHeader ≠ "init".toList
    ∧ ¬ "init ".toList <+: f.nameInHeader
  parentheses : f.isInit = true → f.params = [] → f.throws = []

instance (f : Function) : Decidable f.Unambiguous :=
  decidable_of_iff ((f.isInit = false → Bare f.nameInHeader ∧ f.nameInHeader ≠ "init".toList
        ∧ ¬ "init ".toList <+: f.nameInHeader)
      ∧ (f.isInit = true → f.params = [] → f.throws = []))
    ⟨fun ⟨name, parentheses⟩ => ⟨name, parentheses⟩, fun ⟨name, parentheses⟩ =>
      ⟨name, parentheses⟩⟩

/-- The path in the first line is the name, and the parts of the unit are unambiguous. -/
structure ClassUnit.Unambiguous (u : ClassUnit) : Prop where
  name : '\n' ∉ u.name.toList ∧ (∀ c ∈ u.name.toList.head?, isBlank c = false)
    ∧ ¬ "./".toList <+: u.name.toList
  statics : ∀ m ∈ u.statics.members, m.Unambiguous
  members : ∀ m ∈ u.fields.members, m.Unambiguous
  functions : ∀ f ∈ u.functions, f.Unambiguous
  statements : ∀ f ∈ u.functions, ∀ s ∈ f.statements, s.Unambiguous

instance (u : ClassUnit) : Decidable u.Unambiguous :=
  decidable_of_iff
    (('\n' ∉ u.name.toList ∧ (u.name.toList.head?.all fun c => !isBlank c) = true
      ∧ ¬ "./".toList <+: u.name.toList)
      ∧ (∀ m ∈ u.statics.members, m.Unambiguous) ∧ (∀ m ∈ u.fields.members, m.Unambiguous)
        ∧ (∀ f ∈ u.functions, f.Unambiguous)
        ∧ ∀ f ∈ u.functions, ∀ s ∈ f.statements, s.Unambiguous)
    ⟨fun ⟨name, statics, members, functions, statements⟩ =>
        ⟨by simpa [Option.all_eq_true] using name, statics, members, functions, statements⟩,
      fun ⟨name, statics, members, functions, statements⟩ =>
        ⟨by simpa [Option.all_eq_true] using name, statics, members, functions, statements⟩⟩

/-! ## Declarations -/

namespace Reader

open Pseudo (bind_eq_ok ite_eq_ok)

variable {u v : ClassUnit} {s : List Char}

theorem returns_eq_ok {t : Ty} (h : returns s = .ok t) :
    t.Readable ∧ t.descriptor.toList <:+: s := by
  obtain ⟨rest, hrest, h⟩ := bind_eq_ok.1 h
  have hwithin := (suffix_of_stripStart? (orElse_eq_ok.1 hrest)).isInfix
  exact ⟨(type_eq_ok h).1, (type_within h).trans hwithin⟩

theorem classDeclaration_eq_ok (h : classDeclaration u s = .ok v) :
    ∃ c, LegibleClass c ∧ v = u.declareClass c.1 c.2 := by
  have hword : ∀ w ∈ words s, IsWord w := fun w hw => (mem_words hw).1
  unfold classDeclaration at h
  split at h
  · cases h
  · next name hwords =>
    cases h
    exact ⟨(String.ofList name, none), ⟨by simpa using hword name (by simp [hwords]), nofun⟩,
      rfl⟩
  · next name extends_ superclass rest hwords =>
    obtain ⟨-, h⟩ | ⟨-, h⟩ := ite_eq_ok.1 h
    · cases h
      refine ⟨(String.ofList name, some (String.ofList superclass)), ⟨?_, ?_⟩, rfl⟩
      · simpa using hword name (by simp [hwords])
      · simpa using hword superclass (by simp [hwords])
    · cases h
  · cases h

theorem fieldDeclaration_eq_ok (h : fieldDeclaration u s = .ok v) :
    ∃ f, f.Legible ∧ v = u.declareField f := by
  have hword : ∀ w ∈ words s, IsWord w := fun w hw => (mem_words hw).1
  unfold fieldDeclaration at h
  split at h
  · next kindWord target typeWord hwords =>
    obtain ⟨k, -, h⟩ := bind_eq_ok.1 h
    obtain ⟨⟨owner, name⟩, hmember, h⟩ := bind_eq_ok.1 h
    obtain ⟨t, ht, h⟩ := bind_eq_ok.1 h
    cases h
    have htarget := hword target (by simp [hwords])
    have htypeWord := hword typeWord (by simp [hwords])
    obtain ⟨heq, hlegible⟩ := member_eq_ok hmember htarget.bare
    have hsame : t.descriptor.toList = typeWord := by
      rw [← (type_eq_ok ht).2, htypeWord.bare.trim_eq]
    exact ⟨⟨owner, name, t, k⟩,
      ⟨hlegible, heq ▸ htarget, (type_eq_ok ht).1, hsame ▸ htypeWord⟩, rfl⟩
  · cases h

/-- The parameters of a declared method, read from a list that holds no closing parenthesis. -/
theorem mapM_type_eq_ok {params : List Ty} (h : (items s).mapM type = .ok params)
    (hs : ')' ∉ s) :
    ∀ t ∈ params, (t.Readable ∧ ',' ∉ t.descriptor.toList ∧ ')' ∉ t.descriptor.toList)
      ∧ t.descriptor.toList <:+: s := by
  intro t ht
  obtain ⟨item, hitem, ht⟩ := exists_of_mapM_eq_ok h ht
  obtain ⟨hpart, hcomma⟩ := items_within hitem
  have hwithin := (type_within ht).trans hpart.within
  exact ⟨⟨(type_eq_ok ht).1, fun hin => hcomma ((type_within ht).subset hin),
    fun hin => hs (hwithin.subset hin)⟩, hwithin⟩

theorem methodDeclaration_eq_ok (h : methodDeclaration u s = .ok v) :
    ∃ m, m.Legible ∧ v = u.declareMethod m
      ∧ ∀ part ∈ m.owner :: m.key.name :: m.info.returns.descriptor :: m.key.params.map
        Ty.descriptor, part.toList <:+: s := by
  simp only [methodDeclaration] at h
  obtain ⟨k, -, h⟩ := bind_eq_ok.1 h
  obtain ⟨⟨target, rest⟩, hopen, h⟩ := bind_eq_ok.1 h
  obtain ⟨⟨owner, name⟩, hmember, h⟩ := bind_eq_ok.1 h
  obtain ⟨⟨list, rest'⟩, hclose, h⟩ := bind_eq_ok.1 h
  obtain ⟨params, hparams, h⟩ := bind_eq_ok.1 h
  obtain ⟨result, hresult, h⟩ := bind_eq_ok.1 h
  cases h
  have hopen := orElse_eq_ok.1 hopen
  have hclose : cut [')'] rest = some (list, rest') := orElse_eq_ok.1 hclose
  have hparams := mapM_type_eq_ok hparams (not_mem_before_cut hclose)
  have hreturns := returns_eq_ok hresult
  obtain ⟨heq, hlegible⟩ := member_eq_ok hmember (bare_trim target)
  -- where the parts stand within the line
  have hafter := (cutSpace_within s).2.isInfix
  have htarget : owner.toList ++ '.' :: name.toList <:+: s := by
    rw [← heq]
    exact ((infix_trim target).trans (within_of_cut hopen).1.isInfix).trans hafter
  have hrest := (within_of_cut hopen).2.isInfix.trans hafter
  have hlist := (within_of_cut hclose).1.isInfix.trans hrest
  have hlast := (within_of_cut hclose).2.isInfix.trans hrest
  refine ⟨⟨owner, ⟨name, params⟩, ⟨result, k, false⟩⟩,
    ⟨hlegible, ?_, fun t ht => (hparams t ht).1, hreturns.1⟩, rfl, ?_⟩
  · rw [← heq]
    exact fun hin => not_mem_before_cut hopen ((infix_trim target).subset hin)
  · intro part hpart
    simp only [List.mem_cons, List.mem_map] at hpart
    obtain rfl | rfl | rfl | ⟨t, ht, rfl⟩ := hpart
    · exact (member_within htarget).1
    · exact (member_within htarget).2
    · exact hreturns.2.trans ((infix_trim rest').trans hlast)
    · exact (hparams t ht).2.trans hlist

theorem newline_not_mem_methodText {m : ExternalMethod}
    (h : ∀ part ∈ m.owner :: m.key.name :: m.info.returns.descriptor :: m.key.params.map
      Ty.descriptor, '\n' ∉ part.toList) : '\n' ∉ (ClassUnit.methodText m).toList := by
  have hlist : '\n' ∉ (String.intercalate ", " (m.key.params.map Ty.descriptor)).toList := by
    intro hin
    obtain hc | hc | ⟨t, ht, hin⟩ := mem_listText hin
    · cases hc
    · cases hc
    · exact h t.descriptor (by simp; exact .inr (.inr (.inr ⟨t, ht, rfl⟩))) hin
  have hkind : '\n' ∉ m.info.kind.keyword.toList := by cases m.info.kind <;> decide
  rw [String.toList_intercalate] at hlist
  unfold ClassUnit.methodText MethodKey.text
  simp [h m.owner (by simp), h m.key.name (by simp), h m.info.returns.descriptor (by simp),
    hkind]
  simpa using hlist

theorem exists_of_declaration (h : declaration u s = .ok v) :
    (∃ c, LegibleClass c ∧ v = u.declareClass c.1 c.2)
      ∨ (∃ f, f.Legible ∧ v = u.declareField f)
      ∨ ∃ m, m.Legible ∧ v = u.declareMethod m
        ∧ ('\n' ∉ s → '\n' ∉ (ClassUnit.methodText m).toList) := by
  simp only [declaration] at h
  split at h
  · exact .inl (classDeclaration_eq_ok h)
  split at h
  · exact .inr (.inl (fieldDeclaration_eq_ok h))
  split at h
  · obtain ⟨m, hm, hv, hparts⟩ := methodDeclaration_eq_ok h
    refine .inr
      (.inr ⟨m, hm, hv, fun hs => newline_not_mem_methodText fun part hpart hin => ?_⟩)
    exact hs (((hparts part hpart).trans (cutSpace_within s).2.isInfix).subset hin)
  · cases h

/-! ## Members -/

end Reader

/-- The first equals sign between spaces does not stand in front of the one that is written. -/
theorem Member.Unambiguous.equals {m : Member} (h : m.Unambiguous)
    (hfree : ¬ " = ".toList <:+: m.name.toList) :
    ¬ " = ".toList <:+: ' ' :: m.name.toList
      ++ (if m.default.isSome then [' ', '='] else []) := by
  have hsep : " = ".toList = [' ', '=', ' '] := by decide
  have hfirst : ¬ ['=', ' '] <+: m.name.toList := h.first
  rw [hsep] at hfree ⊢
  intro hin
  cases hd : m.default.isSome with
  | false =>
    rw [hd, if_neg (by simp), List.append_nil] at hin
    obtain hpre | hin := List.infix_cons_iff.1 hin
    · exact hfirst (List.cons_prefix_cons.1 hpre).2
    · exact hfree hin
  | true =>
    obtain ⟨hname, hlast⟩ := h.value hd
    rw [hd, if_pos rfl, List.cons_append] at hin
    obtain hpre | hin := List.infix_cons_iff.1 hin
    · -- the space in front of the name, and an equals sign that the name begins with
      have hpre := (List.cons_prefix_cons.1 hpre).2
      match hm : m.name.toList with
      | [] =>
        rw [hm] at hpre
        exact absurd (List.cons_prefix_cons.1 hpre).1 (by decide)
      | [c] =>
        rw [hm] at hpre
        have hc : '=' = c := (List.cons_prefix_cons.1 hpre).1
        exact hname (String.toList_inj.1 (by rw [hm, ← hc]; rfl))
      | c :: d :: rest =>
        rw [hm] at hpre hfirst
        obtain ⟨hc, hpre⟩ := List.cons_prefix_cons.1 hpre
        have hd : ' ' = d := (List.cons_prefix_cons.1 hpre).1
        exact hfirst ⟨rest, by rw [hc, hd]; rfl⟩
    · -- an equals sign that the name ends with, and the space behind the name
      rw [show m.name.toList ++ [' ', '='] = m.name.toList ++ [' '] ++ ['='] by simp] at hin
      obtain hsuf | hin := List.infix_concat_iff.1 hin
      · obtain ⟨front, hfront⟩ := hsuf
        have hend := congrArg List.getLast? hfront
        simp at hend
      obtain hsuf | hin := List.infix_concat_iff.1 hin
      · obtain ⟨front, hfront⟩ := hsuf
        have hinit := congrArg List.dropLast hfront
        exact hlast ⟨front, by simpa using hinit⟩
      · exact hfree hin

/-- What is known of a member that was read. -/
structure Member.AsRead (m : Member) : Prop where
  legible : m.Unambiguous → m.Legible
  line : '\n' ∉ (Structure.memberText m).toList

namespace Reader

open Pseudo (bind_eq_ok ite_eq_ok)

variable {u v : ClassUnit} {s : List Char}

/-- A type and a name behind it, in a text without blanks at its ends. -/
theorem typeAndName_eq_ok {a b : List Char} {t : Ty} (hcut : cut [' '] s = some (a, b))
    (ht : type a = .ok t) (hs : Bare s) :
    t.Readable ∧ ' ' ∉ t.descriptor.toList ∧ t.descriptor.toList <:+: s
    ∧ IsPart s (trim b) := by
  refine ⟨(type_eq_ok ht).1, fun hin => not_mem_before_cut hcut ((type_within ht).subset hin),
    (type_within ht).trans (within_of_cut hcut).1.isInfix, (hs.isPart_of_cut hcut).2⟩

/-- What stands in front of the first equals sign between spaces, and a value behind it. -/
theorem memberParts {u v : ClassUnit} {k : MemberKind} {origin : Origin}
    (h : memberLine u k origin s = .ok v) :
    ∃ left default a b t, left <:+: s ∧ (¬ " = ".toList <:+: left)
      ∧ (∀ value ∈ default, Bare value.toList ∧ value.toList <:+: s)
      ∧ cut [' '] (trim left) = some (a, b) ∧ type a = .ok t
      ∧ v = (u.setMemberOrigin origin).addField k t (String.ofList (trim b)) default := by
  simp only [memberLine] at h
  cases hequals : cut " = ".toList s with
  | none =>
    simp only [hequals] at h
    obtain ⟨⟨a, b⟩, hcut, h⟩ := bind_eq_ok.1 h
    obtain ⟨t, ht, h⟩ := bind_eq_ok.1 h
    cases h
    exact ⟨s, none, a, b, t, List.infix_rfl, not_infix_of_cut hequals,
      by simp, orElse_eq_ok.1 hcut, ht, rfl⟩
  | some parts =>
    obtain ⟨left, value⟩ := parts
    simp only [hequals] at h
    obtain ⟨⟨a, b⟩, hcut, h⟩ := bind_eq_ok.1 h
    obtain ⟨t, ht, h⟩ := bind_eq_ok.1 h
    cases h
    obtain ⟨hfront, hback⟩ := within_of_cut hequals
    refine ⟨left, _, a, b, t, hfront.isInfix, not_infix_before_cut (by simp) hequals, ?_,
      orElse_eq_ok.1 hcut, ht, rfl⟩
    rintro _ ⟨⟩
    rw [String.toList_ofList]
    exact ⟨bare_trim value, (infix_trim value).trans hback.isInfix⟩

theorem memberLine_eq_ok {k : MemberKind} {origin : Origin}
    (h : memberLine u k origin s = .ok v) (hs : '\n' ∉ s) :
    ∃ t name default, (⟨t, name, default, origin⟩ : Member).AsRead
      ∧ v = (u.setMemberOrigin origin).addField k t name default := by
  obtain ⟨left, default, a, b, t, hwithin, hfree, hvalue, hcut, ht, rfl⟩ := memberParts h
  obtain ⟨htype, hspace, htypeWithin, hname⟩ := typeAndName_eq_ok hcut ht (bare_trim left)
  have hleft := hname.trans (infix_trim left)
  refine ⟨t, String.ofList (trim b), default, ⟨fun hm => ?_, fun hin => ?_⟩, rfl⟩
  · have hequals := hm.equals (by simpa using fun hin => hfree (hin.trans hleft.within))
    exact ⟨htype, hspace, by simpa using hleft.ne_nil, by simpa using hleft.bare,
      fun value hvalue' => (hvalue value hvalue').1, hequals⟩
  · have htypeLine : '\n' ∉ t.descriptor.toList := fun hin =>
      hs ((htypeWithin.trans ((infix_trim left).trans hwithin)).subset hin)
    have hnameLine : '\n' ∉ trim b := fun hin => hs ((hleft.within.trans hwithin).subset hin)
    unfold Structure.memberText at hin
    cases hd : default with
    | none => simp [hd, htypeLine, hnameLine] at hin
    | some value =>
      have hvalueLine : '\n' ∉ value.toList := fun hin => hs ((hvalue value hd).2.subset hin)
      simp [hd, htypeLine, hnameLine, hvalueLine] at hin

/-! ## Headers -/

theorem param_eq_ok {p : Param} (h : param s = .ok p) (hs : Bare s) (hcomma : ',' ∉ s)
    (hclose : ')' ∉ s) :
    p.Legible ∧ ∀ c ∈ p.text.toList, c ∈ s := by
  obtain ⟨⟨a, b⟩, hcut, h⟩ := bind_eq_ok.1 h
  obtain ⟨t, ht, h⟩ := bind_eq_ok.1 h
  cases h
  have hcut := orElse_eq_ok.1 hcut
  obtain ⟨htype, hspace, hwithin, hname⟩ := typeAndName_eq_ok hcut ht hs
  have hmem : ∀ c ∈ (⟨t, String.ofList (trim b)⟩ : Param).text.toList, c ∈ s := by
    intro c hc
    simp only [Param.text, String.toList_append, String.toList_ofList, List.mem_append] at hc
    obtain (hc | hc) | hc := hc
    · exact hwithin.subset hc
    · rw [eq_append_of_cut hcut]
      simp_all
    · exact hname.within.subset hc
  exact ⟨⟨htype, hspace, by simpa using hname.ne_nil, by simpa using hname.bare,
    fun hin => hcomma (hmem _ hin), fun hin => hclose (hmem _ hin)⟩, hmem⟩

/-- The parameters of a function, read from a list that holds no closing parenthesis. -/
theorem mapM_param_eq_ok {params : List Param} (h : (items s).mapM param = .ok params)
    (hs : ')' ∉ s) :
    ∀ p ∈ params, p.Legible ∧ ∀ c ∈ p.text.toList, c ∈ s := by
  intro p hp
  obtain ⟨item, hitem, hp⟩ := exists_of_mapM_eq_ok h hp
  obtain ⟨hpart, hcomma⟩ := items_within hitem
  have hread := param_eq_ok hp hpart.bare hcomma fun hin => hs (hpart.within.subset hin)
  exact ⟨hread.1, fun c hc => hpart.within.subset (hread.2 c hc)⟩

/-- The name, the parameters and what follows them are parts of the text; only an initializer
does without parentheses. -/
theorem signatureParts_eq_ok {name list rest : List Char}
    (h : signatureParts s = .ok (name, list, rest)) :
    ')' ∉ list ∧ list <:+: s ∧ rest <:+: s
      ∧ (isInitializer s = false → ∃ p r, s = p ++ '(' :: r ∧ '(' ∉ p ∧ name = trim p) := by
  simp only [signatureParts] at h
  split at h
  · next p r hopen =>
    obtain ⟨⟨l, r'⟩, hclose, h⟩ := bind_eq_ok.1 h
    cases h
    have hclose := orElse_eq_ok.1 hclose
    have hrest := (within_of_cut hopen).2.isInfix
    obtain ⟨hfront, hback⟩ := within_of_cut hclose
    exact ⟨not_mem_before_cut hclose, hfront.isInfix.trans hrest,
      (infix_trim r').trans (hback.isInfix.trans hrest),
      fun _ => ⟨p, r, by simpa using eq_append_of_cut hopen, not_mem_before_cut hopen, rfl⟩⟩
  · obtain ⟨hinit, h⟩ | ⟨-, h⟩ := ite_eq_ok.1 h
    · cases h
      refine ⟨by simp, List.nil_infix, (infix_trim _).trans ?_, fun hno => ?_⟩
      · cases hstrip : stripStart? "init".toList s with
        | none => exact List.nil_infix
        | some r => exact (suffix_of_stripStart? hstrip).isInfix
      · rw [hinit] at hno
        cases hno
    · cases h

theorem throwsList_eq_ok {throws : List String} (h : throwsList s = .ok throws) :
    ∀ name ∈ throws, IsWord name.toList := by
  obtain ⟨list, -, h⟩ := bind_eq_ok.1 h
  cases h
  intro name hname
  obtain ⟨w, hw, rfl⟩ := List.mem_map.1 hname
  simpa using (mem_words hw).1

theorem SplitsThrows.eq_ok {rest result : List Char} {throws : List String}
    (h : SplitsThrows rest result throws) :
    (∀ name ∈ throws, IsWord name.toList) ∧ result <:+: rest
    ∧ ¬ "throws(".toList <:+: result := by
  obtain ⟨hcut, rfl, rfl⟩ | ⟨before, after, hcut, rfl, hthrows⟩ := h
  · exact ⟨nofun, List.infix_rfl, not_infix_of_cut hcut⟩
  · exact ⟨throwsList_eq_ok hthrows, (infix_trim before).trans (within_of_cut hcut).1.isInfix,
      fun hin => not_infix_before_cut (by simp) hcut (hin.trans (infix_trim before))⟩

/-- The parts that a header was read from. -/
structure HeaderRead (s : List Char) (f : Function)
    (signature name list rest result : List Char) : Prop where
  within : signature <:+: s
  parts : signatureParts signature = .ok (name, list, rest)
  params : (items list).mapM param = .ok f.params
  throws : SplitsThrows rest result f.throws
  isInit : f.isInit = isInitializer signature
  named : f.isInit = false → f.name = String.ofList name ∧ returns result = .ok f.returns

/-- What stands behind the word for further arguments, or all of the text. -/
theorem varargs_within (rest : List Char) {signature : List Char} {v : Bool}
    (h : (match stripStart? "varargs ".toList rest with
      | some signature => (true, signature)
      | none => (false, rest)) = (v, signature)) : signature <:+: rest := by
  split at h
  · next r hstrip =>
    cases h
    exact (suffix_of_stripStart? hstrip).isInfix
  · cases h
    exact List.infix_rfl

/-- The classes that are thrown are put into the function that the rest of the header gives. -/
theorem splitsThrows_eq_ok (rest : List Char) {result : List Char} {list? : Option (List Char)}
    {f g : Function} {v : Bool}
    (h : (match list? with
      | none => do
        let throws ← pure []
        pure { g with varargs := v, throws := throws }
      | some list => do
        let throws ← throwsList list
        pure { g with varargs := v, throws := throws }
      : Except Malformation Function) = .ok f)
    (hsplit : (match cut "throws(".toList rest with
      | some (result, list) => (trim result, some list)
      | none => (rest, none)) = (result, list?)) :
    ∃ throws, f = { g with varargs := v, throws := throws }
      ∧ SplitsThrows rest result throws := by
  split at hsplit
  · next before after hcut =>
    cases hsplit
    obtain ⟨throws, hthrows, h⟩ := bind_eq_ok.1 h
    cases h
    exact ⟨throws, rfl, .inr ⟨before, after, hcut, rfl, hthrows⟩⟩
  · next hcut =>
    cases hsplit
    cases h
    exact ⟨[], rfl, .inl ⟨hcut, rfl, rfl⟩⟩

theorem header_eq_ok {f : Function} (h : header s = .ok f) :
    ∃ signature name list rest result, HeaderRead s f signature name list rest result := by
  simp only [header] at h
  obtain ⟨k, -, h⟩ := bind_eq_ok.1 h
  obtain ⟨⟨name, list, rest⟩, hparts, h⟩ := bind_eq_ok.1 h
  obtain ⟨params, hparams, h⟩ := bind_eq_ok.1 h
  have hwithin := (varargs_within (cutSpace s).2 rfl).trans (cutSpace_within s).2.isInfix
  obtain ⟨hinit, h⟩ | ⟨hinit, h⟩ := ite_eq_ok.1 h
  · obtain ⟨-, h⟩ | ⟨-, h⟩ := ite_eq_ok.1 h
    · obtain ⟨throws, rfl, hthrows⟩ := splitsThrows_eq_ok rest h rfl
      exact ⟨_, name, list, rest, _, hwithin, hparts, hparams, hthrows, hinit.symm,
        by rintro ⟨⟩⟩
    · cases h
  · obtain ⟨t, ht, h⟩ := bind_eq_ok.1 h
    obtain ⟨throws, rfl, hthrows⟩ := splitsThrows_eq_ok rest h rfl
    exact ⟨_, name, list, rest, _, hwithin, hparts, hparams, hthrows,
      (Bool.eq_false_iff.2 hinit).symm, fun _ => ⟨rfl, ht⟩⟩

/-- The name in front of the parameters of a function that is no initializer. -/
theorem HeaderRead.name_eq {f : Function} {signature name list rest result : List Char}
    (h : HeaderRead s f signature name list rest result) (hinit : f.isInit = false) :
    ∃ p, p <+: signature ∧ f.name.toList = trim p ∧ '(' ∉ p := by
  obtain ⟨-, -, -, hname⟩ := signatureParts_eq_ok h.parts
  obtain ⟨p, r, hsignature, hopen, rfl⟩ := hname (h.isInit ▸ hinit)
  refine ⟨p, hsignature ▸ List.prefix_append _ _, ?_, hopen⟩
  rw [(h.named hinit).1, String.toList_ofList]

/-- What a header consists of besides the name. -/
theorem HeaderRead.parts_legible {f : Function} {signature name list rest result : List Char}
    (h : HeaderRead s f signature name list rest result) :
    (∀ p ∈ f.params, p.Legible) ∧ (∀ name ∈ f.throws, IsWord name.toList)
      ∧ (f.isInit = false → f.returns.Readable
        ∧ ¬ "throws(".toList <:+: f.returns.descriptor.toList) := by
  have hlist := (signatureParts_eq_ok h.parts).1
  obtain ⟨hthrows, -, hfree⟩ := h.throws.eq_ok
  refine ⟨fun p hp => (mapM_param_eq_ok h.params hlist p hp).1, hthrows, fun hinit => ?_⟩
  have hreturns := returns_eq_ok (h.named hinit).2
  exact ⟨hreturns.1, fun hin => hfree (hin.trans hreturns.2)⟩

end Reader

namespace Function

variable {f : Function}

theorem nameInHeader_eq (h : f.varargs = false → ¬ "varargs ".toList <+: f.name.toList) :
    f.nameInHeader = f.name.toList := by
  unfold nameInHeader
  split
  · rfl
  · next hv => rw [stripStart?_eq_none (h (Bool.eq_false_iff.2 hv)), Option.getD_none]

theorem signatureText_of_varargs {rest : List Char} (hinit : f.isInit = false)
    (hname : f.name.toList = "varargs ".toList ++ rest) :
    f.signatureText = "varargs ".toList
      ++ ({ f with
          name := String.ofList rest
          varargs := true } : Function).signatureText := by
  simp only [signatureText, hinit, Bool.false_eq_true, if_false, Bool.false_and, hname,
    String.toList_ofList, List.append_assoc]
  rfl

/-- A name that begins with the word for further arguments makes the header that of the
function with the rest of the name and with further arguments. -/
theorem header_eq_of_varargs {rest : List Char} (hinit : f.isInit = false)
    (hv : f.varargs = false) (hname : f.name.toList = "varargs ".toList ++ rest) :
    { f with name := String.ofList rest, varargs := true }.header = f.header := by
  have hsignature := signatureText_of_varargs hinit hname
  apply String.toList_inj.1
  rw [toList_header, toList_header, hv, hsignature]
  rfl

end Function

namespace Reader

variable {s : List Char}

/-- A header that was read is the header of a function that is found again in it. -/
theorem HeaderRead.exists_legibleHeader {f : Function}
    {signature name list rest result : List Char}
    (h : HeaderRead s f signature name list rest result) (hf : f.Unambiguous) :
    ∃ g : Function, g.LegibleHeader ∧ g.header = f.header := by
  obtain ⟨hparams, hthrows, hreturns⟩ := h.parts_legible
  by_cases hword : f.isInit = false ∧ f.varargs = false ∧ "varargs ".toList <+: f.name.toList
  · obtain ⟨hinit, hv, r, hr⟩ := hword
    obtain ⟨p, -, hname, hopen⟩ := h.name_eq hinit
    obtain ⟨hbare, hne, hpre⟩ := hf.name hinit
    have hrest : f.nameInHeader = r := by
      rw [Function.nameInHeader, hv, if_neg (by simp), ← hr, stripStart?_append,
        Option.getD_some]
    rw [hrest] at hbare hne hpre
    refine ⟨{ f with name := String.ofList r, varargs := true }, ?_,
      Function.header_eq_of_varargs hinit hv hr.symm⟩
    refine ⟨hparams, hthrows, fun _ => ?_, fun htrue =>
      absurd (hinit.symm.trans htrue) (by decide)⟩
    exact {
      bare := by simpa using hbare
      opens := by
        rw [String.toList_ofList]
        exact fun hin =>
          hopen ((infix_trim p).subset (hname ▸ hr ▸ List.mem_append_right _ hin))
      init := ⟨fun heq => hne (by rw [← heq, String.toList_ofList]), by simpa using hpre⟩
      varargs := nofun
      returns := (hreturns hinit).1
      throws := (hreturns hinit).2 }
  · have hword : f.isInit = false → f.varargs = false →
      ¬ "varargs ".toList <+: f.name.toList :=
      fun hinit hv hpre => hword ⟨hinit, hv, hpre⟩
    refine ⟨f, ⟨hparams, hthrows, fun hinit => ?_, hf.parentheses⟩, rfl⟩
    obtain ⟨p, -, hname, hopen⟩ := h.name_eq hinit
    obtain ⟨-, hne, hpre⟩ := hf.name hinit
    rw [Function.nameInHeader_eq (hword hinit)] at hne hpre
    exact {
      bare := hname ▸ bare_trim p
      opens := fun hin => hopen ((infix_trim p).subset (hname ▸ hin))
      init := ⟨fun heq => hne (by rw [heq]), hpre⟩
      varargs := hword hinit
      returns := (hreturns hinit).1
      throws := (hreturns hinit).2 }

end Reader

namespace Function

variable {f : Function}

/-- Only a name, a parameter or a type can end the line of a header. -/
theorem newline_not_mem_header
    (hname : f.isInit = false → '\n' ∉ f.name.toList ∧ '\n' ∉ f.returns.descriptor.toList)
    (hparams : ∀ p ∈ f.params, '\n' ∉ p.text.toList)
    (hthrows : ∀ name ∈ f.throws, '\n' ∉ name.toList) :
    '\n' ∉ f.header.toList := by
  have hlist : '\n' ∉ f.paramList := by
    intro hin
    obtain hc | hc | ⟨p, hp, hin⟩ := Reader.mem_listText hin
    · cases hc
    · cases hc
    · exact hparams p hp hin
  have hthrown : '\n' ∉ f.throwsText := by
    unfold throwsText
    split
    · simp
    · intro hin
      simp only [List.mem_append] at hin
      obtain (hin | hin) | hin := hin
      · revert hin
        decide
      · obtain hsep | ⟨x, hx, hin⟩ := mem_intercalate hin
        · simp at hsep
        · obtain ⟨name, hname, rfl⟩ := List.mem_map.1 hx
          exact hthrows name hname hin
      · simp at hin
  have hkind : '\n' ∉ f.kind.keyword.toList := by cases f.kind <;> decide
  rw [toList_header, signatureText]
  cases hinit : f.isInit with
  | false => cases f.varargs <;> simp [hname hinit, hlist, hthrown, hkind]
  | true => cases f.varargs <;> cases f.params.isEmpty <;> simp [hlist, hthrown, hkind]

end Function

/-- What is known of a statement that was read and added to a function. -/
structure Statement.AsRead (s : Statement) : Prop where
  numbered : s.Numbered
  legible : s.Unambiguous → s.Legible
  line : '\n' ∉ s.body.toList
  registers : ∀ r ∈ s.definedRegister?, r.index ≠ Reader.numberMax
  labels : ∀ l ∈ s.mentionedLabel?, l.index ≠ Reader.numberMax

/-- What is known of a function that was read. -/
structure Function.AsRead (f : Function) : Prop where
  header : f.Unambiguous → ∃ g : Function, g.LegibleHeader ∧ g.header = f.header
  line : '\n' ∉ f.header.toList
  statements : ∀ s ∈ f.statements, s.AsRead

/-- The body of a function that was read may be another one, if its statements were read. -/
theorem Function.AsRead.withBody {f : Function} (h : f.AsRead) (body : List Located)
    (registers labels : Nat) (origin : Origin) (types : Option (Table Register Ty))
    (hbody : ∀ l ∈ body, l.statement.AsRead) :
    Function.AsRead { f with
      body := body, registerCount := registers, labelCount := labels, origin := origin
      registerTypes := types } := by
  refine ⟨fun hu => h.header ⟨hu.name, hu.parentheses⟩, h.line, fun s hs => ?_⟩
  obtain ⟨l, hl, rfl⟩ := List.mem_map.1 hs
  exact hbody l hl

namespace Reader

open Pseudo (bind_eq_ok ite_eq_ok)

variable {s : List Char}

theorem asRead_of_header {f : Function} (h : header s = .ok f) (hs : '\n' ∉ s) : f.AsRead := by
  have hbody := body_header h
  obtain ⟨signature, name, list, rest, result, hread⟩ := header_eq_ok h
  obtain ⟨hclose, hlist, hrest, -⟩ := signatureParts_eq_ok hread.parts
  obtain ⟨hthrows, hresult, -⟩ := hread.throws.eq_ok
  refine ⟨hread.exists_legibleHeader,
    Function.newline_not_mem_header (fun hinit => ⟨?_, ?_⟩) ?_ ?_, ?_⟩
  · obtain ⟨p, hp, hname, -⟩ := hread.name_eq hinit
    rw [hname]
    exact fun hin => hs ((((infix_trim p).trans hp.isInfix).trans hread.within).subset hin)
  · have hreturns := (returns_eq_ok (hread.named hinit).2).2
    exact fun hin =>
      hs ((((hreturns.trans hresult).trans hrest).trans hread.within).subset hin)
  · intro p hp hin
    exact hs
      ((hlist.trans hread.within).subset ((mapM_param_eq_ok hread.params hclose p hp).2 _ hin))
  · intro name hname hin
    exact absurd ((hthrows name hname).blank _ hin) (by decide)
  · simp [Function.statements, hbody]

/-- A statement is added when there is room for another register and another label. -/
theorem room_of_addStatement {f after : OpenFunction} {origin : Origin} {s : Statement}
    (h : addStatement f origin s = .ok after) :
    (∀ r ∈ s.definedRegister?, r.index ≠ numberMax) ∧ ∀ l ∈ s.mentionedLabel?, l.index
      ≠ numberMax := by
  constructor
  · intro r hr
    simp only [addStatement, Option.mem_def.1 hr] at h
    split at h
    · cases h
    split at h
    · cases h
    · assumption
  · intro l hl
    cases hd : s.definedRegister? with
    | none =>
      simp only [addStatement, hd, Option.mem_def.1 hl, pure_bind] at h
      split at h
      · cases h
      · assumption
    | some r =>
      simp only [addStatement, hd, Option.mem_def.1 hl, pure_bind] at h
      split at h
      · cases h
      split at h
      · cases h
      split at h
      · cases h
      · assumption

theorem asRead_addStatement {f after : OpenFunction} {origin : Origin} {st : Statement}
    (hf : f.function.AsRead) (hread : Statement.ReadFrom s st) (hs : '\n' ∉ s)
    (h : addStatement f origin st = .ok after) : after.function.AsRead := by
  obtain ⟨hregisters, hlabels⟩ := room_of_addStatement h
  have hst : st.AsRead :=
    ⟨hread.numbered, hread.legible, hread.newline_not_mem hs, hregisters, hlabels⟩
  rw [(addStatement_spec h).1]
  refine hf.withBody _ _ _ _ _ fun located hmem => ?_
  obtain hmem | hmem := List.mem_append.1 hmem
  · exact hf.statements _ (List.mem_map_of_mem hmem)
  · rw [List.mem_singleton] at hmem
    exact hmem ▸ hst

end Reader

/-! ## Units -/

/-- What is known of a unit that was read. Its name comes from the source, and
nothing is known of it. -/
structure ClassUnit.AsRead (u : ClassUnit) : Prop where
  superclass : Bare u.superclass.toList ∧ '\n' ∉ u.superclass.toList
  interfaces : ∀ name ∈ u.interfaces, Bare name.toList ∧ ',' ∉ name.toList ∧ '\n' ∉ name.toList
  classes : ∀ c ∈ u.externals.classes, LegibleClass c
  fields : ∀ f ∈ u.externals.fields, f.Legible
  methods : ∀ m ∈ u.externals.methods, m.Legible ∧ '\n' ∉ (ClassUnit.methodText m).toList
  kinds : u.statics.kind = .static ∧ u.fields.kind = .perObject
  statics : ∀ m ∈ u.statics.members, m.AsRead
  members : ∀ m ∈ u.fields.members, m.AsRead
  functions : ∀ f ∈ u.functions, f.AsRead

namespace ClassUnit

variable {u : ClassUnit}

theorem asRead_create (name : String) : (create name).AsRead where
  superclass :=
    have hroot : Bare objectClass.toList ∧ '\n' ∉ objectClass.toList :=
      ⟨by decide, by decide⟩
    hroot
  interfaces := nofun
  classes := nofun
  fields := nofun
  methods := nofun
  kinds := ⟨rfl, rfl⟩
  statics := nofun
  members := nofun
  functions := nofun

theorem AsRead.setSuperclass (h : u.AsRead) {name : String} (hbare : Bare name.toList)
    (hline : '\n' ∉ name.toList) : (u.setSuperclass name).AsRead :=
  { h with superclass := ⟨hbare, hline⟩ }

theorem forall_append_singleton {α : Type} {P : α → Prop} {xs : List α} {x : α}
    (h : ∀ y ∈ xs, P y) (hx : P x) : ∀ y ∈ xs ++ [x], P y := by
  simpa [or_imp, forall_and] using ⟨h, hx⟩

theorem AsRead.addInterface (h : u.AsRead) {name : String}
    (hname : Bare name.toList ∧ ',' ∉ name.toList ∧ '\n' ∉ name.toList) :
    (u.addInterface name).AsRead :=
  { h with interfaces := forall_append_singleton h.interfaces hname }

theorem AsRead.addInterfaces (h : u.AsRead) {names : List (List Char)}
    (hnames : ∀ name ∈ names, ',' ∉ name ∧ '\n' ∉ name) :
    (names.foldl (fun u name => u.addInterface (String.ofList (trim name))) u).AsRead := by
  induction names generalizing u with
  | nil => exact h
  | cons name rest ih =>
    refine ih (h.addInterface ?_) fun other hother =>
      hnames other (List.mem_cons_of_mem _ hother)
    obtain ⟨hcomma, hline⟩ := hnames name (by simp)
    rw [String.toList_ofList]
    exact ⟨bare_trim name, fun hin => hcomma ((infix_trim name).subset hin),
      fun hin => hline ((infix_trim name).subset hin)⟩

theorem AsRead.declaration (h : u.AsRead) {s : List Char} {v : ClassUnit}
    (hok : Reader.declaration u s = .ok v) (hs : '\n' ∉ s) : v.AsRead := by
  obtain ⟨c, hc, rfl⟩ | ⟨f, hf, rfl⟩ | ⟨m, hm, rfl, hline⟩ := Reader.exists_of_declaration hok
  · exact { h with classes := forall_append_singleton h.classes hc }
  · exact { h with fields := forall_append_singleton h.fields hf }
  · exact { h with methods := forall_append_singleton h.methods ⟨hm, hline hs⟩ }

theorem AsRead.memberLine (h : u.AsRead) {k : MemberKind} {origin : Origin} {s : List Char}
    {v : ClassUnit} (hok : Reader.memberLine u k origin s = .ok v) (hs : '\n' ∉ s) :
    v.AsRead := by
  obtain ⟨t, name, default, hm, rfl⟩ := Reader.memberLine_eq_ok hok hs
  cases k with
  | static => exact { h with statics := forall_append_singleton h.statics hm }
  | perObject => exact { h with members := forall_append_singleton h.members hm }

theorem AsRead.addFunction (h : u.AsRead) {f : Function} (hf : f.AsRead) :
    (u.addFunction f).AsRead :=
  { h with functions := forall_append_singleton h.functions hf }

end ClassUnit

/-- What is known while a source is read. -/
structure Reading.AsRead (r : Reading) : Prop where
  unit : r.unit.AsRead
  statements : ∀ f, r.place = .statements f → f.function.AsRead

namespace Reading

open Pseudo (bind_eq_ok ite_eq_ok)
open Reader

theorem asRead_outsideLine {u : ClassUnit} {origin : Origin} {s : List Char} {after : Reading}
    (h : u.AsRead) (hs : '\n' ∉ s) (hok : outsideLine u origin s = .ok after) :
    after.AsRead := by
  have hrest : '\n' ∉ (cutSpace s).2 := fun hin => hs ((cutSpace_within s).2.subset hin)
  simp only [outsideLine] at hok
  split at hok
  · cases hok
    exact ⟨h, by rintro _ ⟨⟩⟩
  split at hok
  · cases hok
    refine ⟨h.setSuperclass ?_ ?_, by rintro _ ⟨⟩⟩
    · rw [String.toList_ofList]
      exact bare_trim _
    · rw [String.toList_ofList]
      exact fun hin => hrest ((infix_trim _).subset hin)
  split at hok
  · cases hok
    refine ⟨h.addInterfaces fun name hname => ?_, by rintro _ ⟨⟩⟩
    have hpiece := mem_pieces hname
    exact ⟨hpiece.1, fun hin => hrest (hpiece.2.subset hin)⟩
  split at hok
  · obtain ⟨v, hv, rfl⟩ := map_eq_ok.1 hok
    exact ⟨h.declaration hv hrest, by rintro _ ⟨⟩⟩
  split at hok
  · obtain ⟨k, -, rfl⟩ := map_eq_ok.1 hok
    exact ⟨h, by rintro _ ⟨⟩⟩
  split at hok
  · obtain ⟨f, hf, rfl⟩ := map_eq_ok.1 hok
    have hfunction := asRead_of_header hf hrest
    refine ⟨h, fun g hg => ?_⟩
    cases hg
    exact hfunction.withBody _ _ _ _ _ fun l hl =>
      hfunction.statements _ (List.mem_map_of_mem hl)
  · cases hok

/-- One line. -/
theorem AsRead.line {r after : Reading} {origin : Origin} {s : List Char} (h : r.AsRead)
    (hs : '\n' ∉ s) (hok : r.line origin s = .ok after) : after.AsRead := by
  have hstrip : ∀ t, stripEnd? [';'] s = some t → '\n' ∉ t := by
    intro t ht hin
    rw [eq_append_of_stripEnd? ht] at hs
    exact hs (List.mem_append_left _ hin)
  unfold Reading.line at hok
  split at hok
  · exact asRead_outsideLine h.unit hs hok
  · unfold membersLine at hok
    split at hok
    · cases hok
      exact ⟨h.unit, nofun⟩
    · obtain ⟨t, ht, hok⟩ := bind_eq_ok.1 hok
      obtain ⟨v, hv, hok⟩ := bind_eq_ok.1 hok
      cases hok
      exact ⟨h.unit.memberLine hv (hstrip t (orElse_eq_ok.1 ht)), nofun⟩
  · next f hplace =>
    have hfunction := h.statements f hplace
    unfold statementsLine at hok
    split at hok
    · cases hok
      refine ⟨h.unit.addFunction (hfunction.withBody _ _ _ _ _ fun l hl => ?_), nofun⟩
      exact hfunction.statements _ (List.mem_map_of_mem hl)
    split at hok
    · cases hok
      refine ⟨h.unit, fun g hg => ?_⟩
      cases hg
      exact hfunction
    · obtain ⟨t, ht, hok⟩ := bind_eq_ok.1 hok
      obtain ⟨s', hs', hok⟩ := bind_eq_ok.1 hok
      obtain ⟨g, hg, hok⟩ := bind_eq_ok.1 hok
      cases hok
      refine ⟨h.unit, fun g' hg' => ?_⟩
      cases hg'
      exact asRead_addStatement hfunction (Statement.readFrom_of_read hs')
        (hstrip t (orElse_eq_ok.1 ht)) hg

end Reading

namespace Text

theorem IsWord.newline_not_mem {w : List Char} (h : IsWord w) : '\n' ∉ w := by
  intro hin
  exact absurd (h.blank '\n' hin) (by decide)

/-- A line does not hold its end. -/
theorem newline_not_mem_of_mem_lines {t l : List Char} (h : l ∈ lines t) : '\n' ∉ l := by
  have hpiece : ∀ p ∈ pieces '\n' t, '\n' ∉ p := fun p hp => (mem_pieces hp).1
  have hended :
      ∀ l ∈ (pieces '\n' t).dropLast.map fun p => (stripEnd? ['\r'] p).getD p, '\n' ∉ l := by
    intro l hl
    obtain ⟨p, hp, rfl⟩ := List.mem_map.1 hl
    have hp := hpiece p ((List.dropLast_subset _) hp)
    cases hstrip : stripEnd? ['\r'] p with
    | none => exact hp
    | some q =>
      rw [eq_append_of_stripEnd? hstrip] at hp
      exact fun hin => hp (List.mem_append_left _ hin)
  simp only [lines] at h
  split at h
  · exact hended l h
  · exact hended l h
  · next last _ hlast =>
    obtain h | h := List.mem_append.1 h
    · exact hended l h
    · rw [List.mem_singleton] at h
      exact h ▸ hpiece last (List.mem_of_getLast? hlast)

end Text

namespace ClassUnit

variable {u : ClassUnit} {text source : String}

theorem asRead_of_read (h : read text source = .ok u) : u.AsRead := by
  have hcreate : ∀ name, Reading.AsRead ⟨create name, .outside⟩ := fun name =>
    ⟨asRead_create name, nofun⟩
  refine (Reading.of_lines (fun n s hmem r after hr hok => hr.line (fun hin => ?_) hok)
    (hcreate _) h).unit
  obtain ⟨line, hline, rfl⟩ := List.mem_map.1 (List.of_mem_zip hmem).2
  exact newline_not_mem_of_mem_lines hline ((infix_trim line).subset hin)

theorem newline_not_mem_classText {c : String × Option String} (h : LegibleClass c) :
    '\n' ∉ (classText c).toList := by
  obtain ⟨name, superclass⟩ := c
  unfold classText
  cases superclass with
  | none => simp [h.name.newline_not_mem]
  | some s => simp [h.name.newline_not_mem, (h.superclass s rfl).newline_not_mem]

theorem newline_not_mem_fieldText {f : ExternalField} (h : f.Legible) :
    '\n' ∉ (fieldText f).toList := by
  have hkind : '\n' ∉ f.kind.keyword.toList := by cases f.kind <;> decide
  have hmember := h.word.newline_not_mem
  rw [List.mem_append, List.mem_cons, not_or, not_or] at hmember
  unfold fieldText
  simp [hkind, hmember, h.typeWord.newline_not_mem]

theorem newline_not_mem_structure {s : Structure} (h : ∀ m ∈ s.members, m.AsRead) :
    ∀ l ∈ s.lines, '\n' ∉ l.toList := by
  have hkind : '\n' ∉ s.kind.keyword.toList := by cases s.kind <;> decide
  intro l hl
  rw [Structure.lines, List.mem_append, List.mem_cons, List.mem_singleton, List.mem_map] at hl
  obtain (rfl | ⟨m, hm, rfl⟩) | rfl := hl
  · simp [hkind]
  · simp [(h m hm).line]
  · decide

theorem newline_not_mem_function {f : Function} (h : f.AsRead) :
    ∀ l ∈ f.lines, '\n' ∉ l.toList := by
  intro l hl
  rw [Function.lines, List.mem_append, List.mem_cons, List.mem_singleton, List.mem_map] at hl
  obtain (rfl | ⟨s, hs, rfl⟩) | rfl := hl
  · exact h.line
  · simp [Statement.text, (h.statements s hs).line]
  · decide

theorem AsRead.newline_not_mem_headerLines (h : u.AsRead) (hname : '\n' ∉ u.name.toList) :
    ∀ l ∈ u.headerLines, '\n' ∉ l.toList := by
  intro l hl
  simp only [headerLines, List.mem_append, List.mem_map, List.mem_cons, List.not_mem_nil,
    or_false] at hl
  obtain (((((rfl | rfl) | hl) | ⟨c, hc, rfl⟩) | ⟨f, hf, rfl⟩) | ⟨m, hm, rfl⟩) := hl
  · simp [hname]
  · simp [h.superclass.2]
  · split at hl
    · cases hl
    · obtain rfl := List.mem_singleton.1 hl
      rw [String.toList_append, String.toList_intercalate, List.mem_append]
      rintro (hin | hin)
      · revert hin
        decide
      · obtain hsep | ⟨x, hx, hin⟩ := mem_intercalate hin
        · simp at hsep
        · obtain ⟨name, hname, rfl⟩ := List.mem_map.1 hx
          exact (h.interfaces name hname).2.2 hin
  · exact newline_not_mem_classText (h.classes c hc)
  · exact newline_not_mem_fieldText (h.fields f hf)
  · exact (h.methods m hm).2

/-- Every line of a unit that was read is one line, if its name is. -/
theorem AsRead.newline_not_mem_lines (h : u.AsRead) (hname : '\n' ∉ u.name.toList) :
    ∀ l ∈ u.lines, '\n' ∉ l.toList := by
  intro l hl
  simp only [lines, List.mem_append, List.mem_cons, List.mem_flatMap] at hl
  obtain ((hl | rfl | hl) | rfl | hl) | ⟨f, hf, rfl | hl⟩ := hl
  · exact h.newline_not_mem_headerLines hname l hl
  · decide
  · exact newline_not_mem_structure h.statics l hl
  · decide
  · exact newline_not_mem_structure h.members l hl
  · decide
  · exact newline_not_mem_function (h.functions f hf) l hl

/-- Whatever is not ambiguous of a unit that was read is found again in its text. -/
theorem AsRead.legible (h : u.AsRead) (hu : u.Unambiguous)
    (honce : ∀ f ∈ u.functions, f.DefinesOnce) :
    u.Legible where
  name := hu.name.2
  superclass := h.superclass.1
  interfaces := fun name hname => ⟨(h.interfaces name hname).1, (h.interfaces name hname).2.1⟩
  classes := h.classes
  fields := h.fields
  methods := fun m hm => (h.methods m hm).1
  kinds := h.kinds
  statics := fun m hm => (h.statics m hm).legible (hu.statics m hm)
  members := fun m hm => (h.members m hm).legible (hu.members m hm)
  headers := fun f hf => (h.functions f hf).header (hu.functions f hf)
  bodies := fun f hf =>
    have hstatements := (h.functions f hf).statements
    { legible := fun s hs =>
        ⟨(hstatements s hs).legible (hu.statements f hf s hs), (hstatements s hs).numbered⟩
      once := honce f hf
      registers := fun s hs => (hstatements s hs).registers
      labels := fun s hs => (hstatements s hs).labels }
  lines := h.newline_not_mem_lines hu.name.1

/-- The text of a unit that was read begins with its path, and unless a part of the unit is
ambiguous it is read, under any name for the source, as a unit with the same text. -/
theorem read_text_of_read (h : read text source = .ok u) :
    "// file: ".toList <+: u.text.toList
      ∧ (u.Unambiguous → ∀ source', ∃ v, read u.text source' = .ok v ∧ v.text = u.text) := by
  constructor
  · rw [toList_text, lines, headerLines]
    simp [lineText]
  · intro hu source'
    exact exists_read_text ((asRead_of_read h).legible hu fun f hf =>
      (functions_of_read h f hf).2) source'

/-- What can be checked of a result holds of some result. -/
theorem exists_of_any {ε α : Type} {x : Except ε α} {p : α → Bool}
    (h : x.toOption.any p = true) :
    ∃ a, x = .ok a ∧ p a = true := by
  cases x with
  | error e => cases h
  | ok a => exact ⟨a, rfl, h⟩

/-- A method and initializers, with and without parameters, that are read again from their
text. -/
theorem headers_read_again :
    ∃ u, read ("function instance varargs f(I a) returns V throws(pkg/E)\nend function\n"
        ++ "function instance init(I a) throws(pkg/E)\nend function\n"
        ++ "function static init\nend function\n") "pkg/Main.jil" = .ok u
      ∧ "// file: ".toList <+: u.text.toList
      ∧ ∀ source', ∃ v, read u.text source' = .ok v ∧ v.text = u.text :=
  (exists_of_any (p := fun u => decide u.Unambiguous) (by decide +kernel)).imp
    fun _ ⟨hread, hclear⟩ =>
      have hagain := read_text_of_read hread
      ⟨hread, hagain.1, hagain.2 (of_decide_eq_true hclear)⟩

/-- An initializer without parameters is written without parentheses, and the list of classes
that it throws is read as a list of parameters. -/
theorem thrown_read_as_parameter :
    ∃ u, read "function static init() throws(pkg/Fault)\nend function\n" "pkg/Main.jil" = .ok u
      ∧ read u.text "again.jil"
        = .error (.parse (.expectedParameter "pkg/Fault") (some ⟨"again.jil", 10⟩)) := by
  refine (exists_of_any (p := fun u : ClassUnit => match read u.text "again.jil" with
      | .ok _ => false
      | .error e =>
        decide (e = .parse (.expectedParameter "pkg/Fault") (some ⟨"again.jil", 10⟩)))
    (by decide +kernel)).imp fun u ⟨hread, hagain⟩ => ⟨hread, ?_⟩
  split at hagain
  · cases hagain
  · next e he => rw [he, of_decide_eq_true hagain]

end ClassUnit

end Jil
