/-
Jil.Proofs.UnitText — the text of a unit is read as a unit with that text.

The text of a unit is a list of lines (`ClassUnit.lines`), each of which takes
reading one step further. What a unit shows of itself in its text is its
outline; reading rebuilds the outline part by part, while the lines that
members and statements belong to are new. `Legible` is what the parts must
satisfy so that each line is read as the part that it was written for.
-/
import Jil.Proofs.Declarations

namespace Jil

open Jil.Text

/-! ## Lines -/

/-- The lines of a structure. -/
def Structure.lines (s : Structure) : List String :=
  ("structure " ++ s.kind.keyword) :: s.members.map (fun m => "\t" ++ memberText m)
    ++ ["end structure"]

/-- The lines of a function. -/
def Function.lines (f : Function) : List String :=
  f.header :: f.statements.map (fun s => "\t" ++ s.text) ++ ["end function"]

/-- The lines of a unit. -/
def ClassUnit.lines (u : ClassUnit) : List String :=
  u.headerLines ++ "" :: u.statics.lines ++ "" :: u.fields.lines
    ++ u.functions.flatMap fun f => "" :: f.lines

/-- The text of lines. -/
def lineText (ls : List String) : List Char := ls.flatMap fun l => l.toList ++ ['\n']

theorem Structure.toList_text (s : Structure) : s.text.toList = lineText s.lines := by
  simp [text, lines, lineText, List.flatMap_map]

theorem Function.toList_text (f : Function) : f.text.toList = lineText f.lines := by
  simp [text, lines, lineText, List.flatMap_map]

theorem ClassUnit.toList_text (u : ClassUnit) : u.text.toList = lineText u.lines := by
  have hstatics := u.statics.toList_text
  have hfields := u.fields.toList_text
  have hfunctions : ∀ f : Function, f.text.toList = lineText f.lines := Function.toList_text
  simp only [lineText] at hstatics hfields hfunctions
  simp [text, lines, lineText, hstatics, hfields, hfunctions, List.flatMap_map,
    List.flatMap_assoc]

namespace Text

/-- Lines that are written are the lines that are found, up to blanks at their ends. -/
theorem map_trim_lines {ls : List String} (h : ∀ l ∈ ls, '\n' ∉ l.toList) :
    (lines (lineText ls)).map trim = ls.map fun l => trim l.toList := by
  have hpieces : pieces '\n' (lineText ls) = ls.map String.toList ++ [[]] := by
    induction ls with
    | nil => rfl
    | cons l ls ih =>
      have htext : lineText (l :: ls) = l.toList ++ '\n' :: lineText ls := by
        simp [lineText]
      rw [htext, pieces_append (h l (by simp)), ih fun m hm => h m (List.mem_cons_of_mem _ hm)]
      rfl
  have hend : ∀ l : List Char, trim ((stripEnd? ['\r'] l).getD l) = trim l := by
    intro l
    cases hl : stripEnd? ['\r'] l with
    | none => rfl
    | some m =>
      rw [Option.getD_some, eq_append_of_stripEnd? hl]
      have hb := trim_append (a := []) (s := m) (b := ['\r']) nofun (by simp; decide)
      simpa using hb.symm
  simp [lines, hpieces, hend, Function.comp_def]

end Text

/-! ## Runs of lines -/

namespace Reading

variable {P Q R : Reading → Prop}

/-- From a state of one kind, reading the lines leads to a state of the other. -/
def Leads (P : Reading → Prop) (ls : List String) (Q : Reading → Prop) : Prop :=
  ∀ (source : String) (last : Nat) (numbered rest : List (Nat × List Char)) (r : Reading),
    numbered.map Prod.snd = ls.map (fun l => trim l.toList) → P r →
    ∃ r', Q r' ∧ lines source last (numbered ++ rest) r = lines source last rest r'

theorem leads_nil : Leads P [] P := by
  intro source last numbered rest r hlines hr
  obtain rfl := List.map_eq_nil_iff.1 hlines
  exact ⟨r, hr, rfl⟩

theorem Leads.append {a b : List String} (h : Leads P a Q) (h' : Leads Q b R) :
    Leads P (a ++ b) R := by
  intro source last numbered rest r hlines hr
  rw [List.map_append] at hlines
  obtain ⟨front, back, rfl, hfront, hback⟩ := List.map_eq_append_iff.1 hlines
  obtain ⟨r₁, hr₁, h₁⟩ := h source last front (back ++ rest) r hfront hr
  obtain ⟨r₂, hr₂, h₂⟩ := h' source last back rest r₁ hback hr₁
  exact ⟨r₂, hr₂, by rw [List.append_assoc, h₁, h₂]⟩

theorem leads_blank : Leads P [""] P := by
  intro source last numbered rest r hlines hr
  obtain ⟨⟨number, l⟩, tail, rfl, hl, htail⟩ := List.map_eq_cons_iff.1 hlines
  obtain rfl := List.map_eq_nil_iff.1 htail
  have hl : l = [] := hl
  exact ⟨r, hr, by simp [lines, hl]⟩

/-- One line that is no blank line. -/
theorem leads_line {l : String} (hne : trim l.toList ≠ [])
    (h : ∀ r origin, P r → ∃ r', r.line origin (trim l.toList) = .ok r' ∧ Q r') :
    Leads P [l] Q := by
  intro source last numbered rest r hlines hr
  obtain ⟨⟨number, s⟩, tail, rfl, hs, htail⟩ := List.map_eq_cons_iff.1 hlines
  obtain rfl := List.map_eq_nil_iff.1 htail
  have hs : s = trim l.toList := hs
  obtain ⟨r', hline, hr'⟩ := h r ⟨source, number⟩ hr
  refine ⟨r', hr', ?_⟩
  rw [List.singleton_append, lines, hs, if_neg (by simpa using hne), hline]

/-- Item by item, the lines of all items are read. -/
theorem leads_each {α : Type} {items : List α} {text : α → List String}
    {P : List α → Reading → Prop}
    (h : ∀ before x after, items = before ++ x :: after →
      Leads (P before) (text x) (P (before ++ [x]))) :
    Leads (P []) (items.flatMap text) (P items) := by
  suffices hrest : ∀ before rest, items = before ++ rest →
      Leads (P before) (rest.flatMap text) (P items) from hrest [] items rfl
  intro before rest
  induction rest generalizing before with
  | nil =>
    rintro rfl
    rw [List.append_nil]
    exact leads_nil
  | cons x rest ih =>
    intro heq
    rw [List.flatMap_cons]
    exact (h before x rest heq).append (ih (before ++ [x]) (by simp [heq]))

end Reading

/-! ## Outlines -/

/-- What a unit shows of itself in its text. -/
structure Outline where
  name : String
  superclass : String
  interfaces : List String := []
  /-- The declarations of other classes, and of their fields and methods. -/
  classes : List String := []
  fields : List String := []
  methods : List String := []
  staticKind : MemberKind := .static
  statics : List String := []
  objectKind : MemberKind := .perObject
  members : List String := []
  functions : List (List String) := []

/-- The outline with more members of one kind. -/
def Outline.withMembers (o : Outline) (k : MemberKind) (texts : List String) : Outline :=
  match k with
  | .static => { o with statics := o.statics ++ texts }
  | .perObject => { o with members := o.members ++ texts }

theorem Outline.withMembers_nil (o : Outline) (k : MemberKind) : o.withMembers k [] = o := by
  cases k <;> simp [withMembers]

theorem Outline.withMembers_append (o : Outline) (k : MemberKind) (a b : List String) :
    (o.withMembers k a).withMembers k b = o.withMembers k (a ++ b) := by
  cases k <;> simp [withMembers]

namespace ClassUnit

variable {u : ClassUnit}

def outline (u : ClassUnit) : Outline where
  name := u.name
  superclass := u.superclass
  interfaces := u.interfaces
  classes := u.externals.classes.map classText
  fields := u.externals.fields.map fieldText
  methods := u.externals.methods.map methodText
  staticKind := u.statics.kind
  statics := u.statics.members.map Structure.memberText
  objectKind := u.fields.kind
  members := u.fields.members.map Structure.memberText
  functions := u.functions.map Function.lines

theorem text_eq_of_outline {v : ClassUnit} (h : u.outline = v.outline) : u.text = v.text := by
  have hlines : ∀ w : ClassUnit, w.lines
      = ["// file: " ++ w.outline.name ++ ".jil", "super " ++ w.outline.superclass]
        ++ (if w.outline.interfaces.isEmpty then []
            else ["implements " ++ String.intercalate ", " w.outline.interfaces])
        ++ w.outline.classes ++ w.outline.fields ++ w.outline.methods
        ++ "" :: ("structure " ++ w.outline.staticKind.keyword)
          :: w.outline.statics.map ("\t" ++ ·)
        ++ "end structure" :: "" :: ("structure " ++ w.outline.objectKind.keyword)
        :: w.outline.members.map ("\t" ++ ·) ++ "end structure"
        :: w.outline.functions.flatMap ("" :: ·) := by
    intro w
    simp [lines, headerLines, outline, Structure.lines, List.flatMap_map, Function.comp_def]
  apply String.toList_inj.1
  rw [toList_text, toList_text, hlines, hlines, h]

end ClassUnit

namespace Reading

/-! ## Lines between the parts -/

/-- Between the parts of a class of which the outline is known. -/
def Outside (o : Outline) (r : Reading) : Prop := r.place = .outside ∧ r.unit.outline = o

variable {u : ClassUnit} {o p : Outline}

theorem leads_outside {l : String} (hne : trim l.toList ≠ [])
    (h : ∀ u origin, u.outline = o →
      ∃ v, outsideLine u origin (trim l.toList) = .ok ⟨v, .outside⟩ ∧ v.outline = p) :
    Leads (Outside o) [l] (Outside p) := by
  refine leads_line hne fun r origin hr => ?_
  obtain ⟨v, hline, hv⟩ := h r.unit origin hr.2
  exact ⟨⟨v, .outside⟩, by rw [line, hr.1]; exact hline, rfl, hv⟩

theorem leads_comment {l : String} (hl : ∃ rest, trim l.toList = "//".toList ++ rest) :
    Leads (Outside o) [l] (Outside o) := by
  obtain ⟨rest, hl⟩ := hl
  refine leads_outside (by simp [hl]) fun u origin hu => ⟨u, ?_, hu⟩
  rw [hl]
  simp [outsideLine, isComment, stripStart?]

theorem trim_ne_nil {w : List Char} (hw : IsWord w) (s : List Char) :
    trim (w ++ ' ' :: s) ≠ [] := by
  rw [trim_word_append hw]
  split <;> simp [hw.ne_nil]

/-- A line begins with a keyword, and it is no comment if the keyword is none. -/
theorem exists_trim_keyword {w : List Char} (hw : IsWord w) (s : List Char) :
    ∃ rest, trim (w ++ ' ' :: s) = w ++ rest := by
  rw [trim_word_append hw]
  split
  · exact ⟨[], by simp⟩
  · exact ⟨_, rfl⟩

theorem outsideLine_super (origin : Origin) (s : List Char) :
    outsideLine u origin (trim ("super".toList ++ ' ' :: s))
      = .ok ⟨u.setSuperclass (String.ofList (trim s)), .outside⟩ := by
  have hword : IsWord "super".toList := by decide
  obtain ⟨rest, hrest⟩ := exists_trim_keyword hword s
  have hcut := cutSpace_trim hword s
  rw [hrest] at hcut ⊢
  rw [outsideLine, hcut]
  simp [isComment, stripStart?, trim_trimEnd]

theorem outsideLine_implements (origin : Origin) (s : List Char) :
    outsideLine u origin (trim ("implements".toList ++ ' ' :: s))
      = .ok ⟨(pieces ',' (trimEnd s)).foldl
          (fun u name => u.addInterface (String.ofList (trim name))) u, .outside⟩ := by
  have hword : IsWord "implements".toList := by decide
  obtain ⟨rest, hrest⟩ := exists_trim_keyword hword s
  have hcut := cutSpace_trim hword s
  rw [hrest] at hcut ⊢
  rw [outsideLine, hcut]
  simp [isComment, stripStart?]

theorem leads_super {superclass : String} (h : Bare superclass.toList) :
    Leads (Outside o) ["super " ++ superclass]
      (Outside { o with superclass := superclass }) := by
  have hword : IsWord "super".toList := by decide
  have htext : ("super " ++ superclass).toList = "super".toList ++ ' ' :: superclass.toList :=
    by simp
  refine leads_outside (by rw [htext]; exact trim_ne_nil hword _) fun u origin hu => ?_
  refine ⟨u.setSuperclass superclass, ?_, by rw [← hu]; rfl⟩
  rw [htext, outsideLine_super, h.trim_eq, String.ofList_toList]

theorem outline_addInterfaces (names : List (List Char)) (u : ClassUnit) :
    (names.foldl (fun u name => u.addInterface (String.ofList (trim name))) u).outline
      = { u.outline with
          interfaces := u.outline.interfaces ++ (names.map trim).map String.ofList } := by
  induction names generalizing u with
  | nil => simp
  | cons name rest ih =>
    rw [List.foldl_cons, ih]
    simp [ClassUnit.outline, ClassUnit.addInterface, ClassUnit.declareSelf]

theorem leads_implements {names : List String} (hne : names ≠ [])
    (h : ∀ name ∈ names, Bare name.toList ∧ ',' ∉ name.toList) (ho : o.interfaces = []) :
    Leads (Outside o) ["implements " ++ String.intercalate ", " names]
      (Outside { o with interfaces := names }) := by
  have hword : IsWord "implements".toList := by decide
  have htext : ("implements " ++ String.intercalate ", " names).toList
      = "implements".toList ++ ' ' :: List.intercalate [',', ' '] (names.map String.toList) :=
      by simp
  have hpieces :
      ((pieces ',' (trimEnd (List.intercalate [',', ' '] (names.map String.toList)))).map
      trim).map String.ofList = names := by
    obtain ⟨name, rest, rfl⟩ := List.exists_cons_of_ne_nil hne
    rw [map_trim_pieces_trim (by decide), List.map_cons,
      map_trim_pieces_intercalate (by decide)]
    · simp [Function.comp_def]
    · intro x hx
      rw [← List.map_cons, List.mem_map] at hx
      obtain ⟨y, hy, rfl⟩ := hx
      exact h y hy
  refine leads_outside (by rw [htext]; exact trim_ne_nil hword _) fun u origin hu => ?_
  refine ⟨_, by rw [htext, outsideLine_implements], ?_⟩
  rw [outline_addInterfaces, hpieces, hu, ho]
  rfl

/-! ## Declarations -/

theorem outsideLine_declare {origin : Origin} {s : List Char} {v : ClassUnit}
    (h : Reader.declaration u s = .ok v) :
    outsideLine u origin ("declare".toList ++ ' ' :: s) = .ok ⟨v, .outside⟩ := by
  rw [outsideLine, cutSpace_append (by decide)]
  simp [isComment, stripStart?, h, Except.map]

/-- A line that declares something of another class. -/
theorem leads_declare {l : String} {s : List Char}
    (htext : l.toList = "declare".toList ++ ' ' :: s) (hne : s ≠ [])
    (hlast : ∀ c ∈ s.getLast?, isBlank c = false)
    (h : ∀ u, u.outline = o → ∃ v, Reader.declaration u s = .ok v ∧ v.outline = p) :
    Leads (Outside o) [l] (Outside p) := by
  have hbare : Bare ("declare".toList ++ ' ' :: s) := by
    have hb :=
      bare_append (a := "declare".toList) (m := [' ']) (by simp) hne (by simp; decide) hlast
    simpa using hb
  rw [← htext] at hbare
  refine leads_outside (by rw [hbare.trim_eq, htext]; simp) fun u origin hu => ?_
  obtain ⟨v, hread, hv⟩ := h u hu
  exact ⟨v, by rw [hbare.trim_eq, htext, outsideLine_declare hread], hv⟩

theorem leads_class {declared : String × Option String} (h : LegibleClass declared) :
    Leads (Outside o) [ClassUnit.classText declared]
      (Outside { o with classes := o.classes ++ [ClassUnit.classText declared] }) := by
  have htext :
      (ClassUnit.classText declared).toList = "declare".toList ++ ' ' :: ("class".toList
      ++ ' ' :: (declared.1.toList ++ (declared.2.elim "" (" extends " ++ ·)).toList)) := by
    obtain ⟨name, superclass⟩ := declared
    unfold ClassUnit.classText
    cases superclass <;> simp
  have hclass : IsWord "class".toList := by decide
  have hbare : Bare ("class".toList
      ++ ' ' :: (declared.1.toList ++ (declared.2.elim "" (" extends " ++ ·)).toList)) := by
    obtain ⟨name, superclass⟩ := declared
    cases superclass with
    | none => simpa using hclass.bare_append [' '] h.name
    | some s =>
      simpa using hclass.bare_append (' ' :: (name.toList ++ " extends ".toList))
        (h.superclass s rfl)
  refine leads_declare htext (by simp) hbare.last fun u hu => ?_
  refine ⟨u.declareClass declared.1 declared.2, ?_, ?_⟩
  · exact (Reader.declaration_class _).trans (Reader.classDeclaration_append h)
  · rw [← hu]
    simp [ClassUnit.outline, ClassUnit.declareClass]

theorem leads_field {f : ExternalField} (h : f.Legible) :
    Leads (Outside o) [ClassUnit.fieldText f]
      (Outside { o with fields := o.fields ++ [ClassUnit.fieldText f] }) := by
  have htext : (ClassUnit.fieldText f).toList = "declare".toList ++ ' ' :: ("field".toList
      ++ ' ' :: (f.kind.keyword.toList ++ ' ' :: (f.owner.toList ++ '.' :: f.name.toList
        ++ ' ' :: f.type.descriptor.toList))) := by
    unfold ClassUnit.fieldText
    simp
  have hbare : Bare ("field".toList ++ ' ' :: (f.kind.keyword.toList ++ ' ' :: (f.owner.toList
      ++ '.' :: f.name.toList ++ ' ' :: f.type.descriptor.toList))) := by
    have hb := bare_append (m := ' ' :: (f.kind.keyword.toList ++ ' ' :: (f.owner.toList
      ++ '.' :: f.name.toList ++ [' ']))) (a := "field".toList) (by simp)
        f.type.descriptor_ne_nil
      (by simp; decide) f.type.bare_descriptor.last
    simpa using hb
  refine leads_declare htext (by simp) hbare.last fun u hu => ?_
  refine ⟨u.declareField f, ?_, ?_⟩
  · exact (Reader.declaration_field _).trans (Reader.fieldDeclaration_append h)
  · rw [← hu]
    simp [ClassUnit.outline, ClassUnit.declareField]

theorem leads_method {m : ExternalMethod} (h : m.Legible) :
    Leads (Outside o) [ClassUnit.methodText m]
      (Outside { o with methods := o.methods ++ [ClassUnit.methodText m] }) := by
  have htext : (ClassUnit.methodText m).toList = "declare".toList ++ ' ' :: ("method".toList
      ++ ' '
        :: (m.info.kind.keyword.toList ++ ' ' :: (m.owner.toList ++ '.' :: m.key.name.toList
        ++ '(' :: ((String.intercalate ", " (m.key.params.map Ty.descriptor)).toList
        ++ ')' :: ' ' :: ("returns".toList ++ ' ' :: m.info.returns.descriptor.toList))))) :=
          by
    have hkey : m.key.text.toList = m.key.name.toList
        ++ '(' :: ((String.intercalate ", " (m.key.params.map Ty.descriptor)).toList
          ++ [')']) := by
      unfold MethodKey.text
      simp
    unfold ClassUnit.methodText
    simp [hkey]
  have hbare : Bare ("method".toList
      ++ ' '
        :: (m.info.kind.keyword.toList ++ ' ' :: (m.owner.toList ++ '.' :: m.key.name.toList
        ++ '(' :: ((String.intercalate ", " (m.key.params.map Ty.descriptor)).toList
        ++ ')' :: ' ' :: ("returns".toList ++ ' ' :: m.info.returns.descriptor.toList))))) :=
          by
    have hb := bare_append (m := ' ' :: (m.info.kind.keyword.toList ++ ' ' :: (m.owner.toList
      ++ '.' :: m.key.name.toList
        ++ '(' :: ((String.intercalate ", " (m.key.params.map Ty.descriptor)).toList
        ++ ')' :: ' ' :: ("returns".toList ++ [' '])))))
      (a := "method".toList) (by simp) m.info.returns.descriptor_ne_nil
      (by simp; decide) m.info.returns.bare_descriptor.last
    simpa using hb
  refine leads_declare htext (by simp) hbare.last fun u hu => ?_
  have hsame : ClassUnit.methodText ⟨m.owner, m.key, ⟨m.info.returns, m.info.kind, false⟩⟩
      = ClassUnit.methodText m := rfl
  refine ⟨_, (Reader.declaration_method _).trans (Reader.methodDeclaration_append h), ?_⟩
  rw [← hu]
  simp [ClassUnit.outline, ClassUnit.declareMethod, hsame]

theorem leads_classes {cs : List (String × Option String)} (h : ∀ c ∈ cs, LegibleClass c) :
    Leads (Outside o) (cs.map ClassUnit.classText)
      (Outside { o with classes := o.classes ++ cs.map ClassUnit.classText }) := by
  have hcs := leads_each
    (P := fun cs => Outside { o with classes := o.classes ++ cs.map ClassUnit.classText })
    fun before c after (heq : cs = before ++ c :: after) => by
      have hc :=
        leads_class (o := { o with classes := o.classes ++ before.map ClassUnit.classText })
        (h c (by simp [heq]))
      simpa using hc
  simpa [← List.map_eq_flatMap] using hcs

theorem leads_fields {fs : List ExternalField} (h : ∀ f ∈ fs, f.Legible) :
    Leads (Outside o) (fs.map ClassUnit.fieldText)
      (Outside { o with fields := o.fields ++ fs.map ClassUnit.fieldText }) := by
  have hfs := leads_each
    (P := fun fs => Outside { o with fields := o.fields ++ fs.map ClassUnit.fieldText })
    fun before f after (heq : fs = before ++ f :: after) => by
      have hf :=
        leads_field (o := { o with fields := o.fields ++ before.map ClassUnit.fieldText })
        (h f (by simp [heq]))
      simpa using hf
  simpa [← List.map_eq_flatMap] using hfs

theorem leads_methods {ms : List ExternalMethod} (h : ∀ m ∈ ms, m.Legible) :
    Leads (Outside o) (ms.map ClassUnit.methodText)
      (Outside { o with methods := o.methods ++ ms.map ClassUnit.methodText }) := by
  have hms := leads_each
    (P := fun ms => Outside { o with methods := o.methods ++ ms.map ClassUnit.methodText })
    fun before m after (heq : ms = before ++ m :: after) => by
      have hm :=
        leads_method (o := { o with methods := o.methods ++ before.map ClassUnit.methodText })
        (h m (by simp [heq]))
      simpa using hm
  simpa [← List.map_eq_flatMap] using hms

/-! ## Members -/

/-- Among the members of one kind of a class of which the outline is known. -/
def Among (k : MemberKind) (o : Outline) (r : Reading) : Prop :=
  r.place = .members k ∧ r.unit.outline = o

theorem leads_structure (k : MemberKind) :
    Leads (Outside o) ["structure " ++ k.keyword] (Among k o) := by
  have htext :
      trim ("structure " ++ k.keyword).toList = "structure ".toList ++ k.keyword.toList := by
    cases k <;> decide
  refine leads_line (by rw [htext]; simp) fun r origin hr => ?_
  refine ⟨⟨r.unit, .members k⟩, ?_, rfl, hr.2⟩
  rw [line, hr.1, htext]
  cases k <;> rfl

theorem leads_endStructure (k : MemberKind) :
    Leads (Among k o) ["end structure"] (Outside o) := by
  have htext : trim "end structure".toList = "end structure".toList := by decide
  refine leads_line (by rw [htext]; simp) fun r origin hr => ?_
  refine ⟨⟨r.unit, .outside⟩, ?_, rfl, hr.2⟩
  rw [line, hr.1, htext]
  simp [membersLine]

theorem trim_tab_append {s : List Char} (h : Bare s) : trim ("\t".toList ++ s) = s := by
  simpa using h.trim_append (a := ['\t']) (b := []) (by simp; decide) nofun

theorem memberText_eq (m : Member) : (Structure.memberText m).toList
    = m.type.descriptor.toList ++ ' ' :: m.name.toList ++ m.valueText ++ [';'] := by
  unfold Structure.memberText Member.valueText
  cases m.default <;> simp

theorem leads_member {m : Member} (h : m.Legible) (k : MemberKind) :
    Leads (Among k o) ["\t" ++ Structure.memberText m]
      (Among k (o.withMembers k [Structure.memberText m])) := by
  have hbare : Bare (Structure.memberText m).toList := by
    have hb := bare_append (m := ' ' :: (m.name.toList ++ m.valueText)) (b := [';'])
      m.type.descriptor_ne_nil (by simp) m.type.bare_descriptor.first (by simp; decide)
    rw [memberText_eq]
    simpa using hb
  have htrim :
      trim ("\t" ++ Structure.memberText m).toList = (Structure.memberText m).toList := by
    rw [String.toList_append, trim_tab_append hbare]
  have hend : (Structure.memberText m).toList ≠ "end structure".toList := by
    intro heq
    have hlast := congrArg List.getLast? heq
    rw [memberText_eq, List.getLast?_append] at hlast
    simp at hlast
  refine leads_line (by rw [htrim, memberText_eq]; simp) fun r origin hr => ?_
  obtain ⟨hplace, hunit⟩ := hr
  refine ⟨⟨(r.unit.setMemberOrigin origin).addField k m.type m.name m.default, .members k⟩,
    ?_, rfl, ?_⟩
  · rw [line, hplace, htrim]
    simp only [membersLine, if_neg hend]
    rw [memberText_eq, stripEnd?_append]
    simp only [Reader.orElse, Reader.memberLine_append h k origin, bind, Except.bind, pure,
      Except.pure]
  · rw [← hunit]
    cases k <;>
      simp [Outline.withMembers, ClassUnit.outline, ClassUnit.addField,
        ClassUnit.setMemberOrigin, Structure.add, Structure.memberText]

/-- The members of one kind, with the lines around them. -/
theorem leads_members {members : List Member} (h : ∀ m ∈ members, m.Legible) (k : MemberKind)
    (o : Outline) :
    Leads (Outside o)
      (("structure " ++ k.keyword) :: members.map (fun m => "\t" ++ Structure.memberText m)
        ++ ["end structure"])
      (Outside (o.withMembers k (members.map Structure.memberText))) := by
  have hmembers : Leads (Among k (o.withMembers k []))
      (members.flatMap fun m => ["\t" ++ Structure.memberText m])
      (Among k (o.withMembers k (members.map Structure.memberText))) := by
    refine leads_each (P := fun ms => Among k (o.withMembers k (ms.map Structure.memberText)))
      fun before m after hms => ?_
    have hm := leads_member (o := o.withMembers k (before.map Structure.memberText))
      (h m (by simp [hms])) k
    rw [Outline.withMembers_append] at hm
    simpa using hm
  rw [Outline.withMembers_nil, ← List.map_eq_flatMap] at hmembers
  exact (leads_structure k).append (hmembers.append (leads_endStructure k))

/-! ## Functions -/

/-- Among the statements of a function of which the header and some statements have been
read. -/
structure Within (o : Outline) (header : String) (ss : List Statement) (r : Reading) :
    Prop where
  outline : r.unit.outline = o
  place : ∃ f, r.place = .statements f ∧ f.function.header = header
    ∧ f.function.statements = ss
    ∧ ∀ d ∈ f.defined, ∃ s ∈ ss, s.definedRegister? = some d

end Reading

/-- The body of a function, as it can be read: every register is defined once, and registers
and labels leave room for one more. -/
structure Function.LegibleBody (f : Function) : Prop where
  legible : ∀ s ∈ f.statements, s.Legible ∧ s.Numbered
  once : (f.statements.filterMap Statement.definedRegister?).Nodup
  registers : ∀ s ∈ f.statements, ∀ r ∈ s.definedRegister?, r.index ≠ Reader.numberMax
  labels : ∀ s ∈ f.statements, ∀ l ∈ s.mentionedLabel?, l.index ≠ Reader.numberMax

theorem Reader.addStatement_eq {f : OpenFunction} {s : Statement} (origin : Origin)
    (hnew : ∀ r ∈ s.definedRegister?, r ∉ f.defined ∧ r.index ≠ numberMax)
    (hlabel : ∀ l ∈ s.mentionedLabel?, l.index ≠ numberMax) :
    ∃ g, addStatement f origin s = .ok g
      ∧ g.function = { f.function with origin := origin }.append s
      ∧ g.defined = s.definedRegister?.toList ++ f.defined := by
  unfold addStatement
  cases hr : s.definedRegister? with
  | none =>
    cases hl : s.mentionedLabel? with
    | none => exact ⟨_, rfl, rfl, rfl⟩
    | some l => simp [hlabel l hl, bind, Except.bind, pure, Except.pure]
  | some r =>
    obtain ⟨hmem, hmax⟩ := hnew r hr
    cases hl : s.mentionedLabel? with
    | none => simp [hmem, hmax, bind, Except.bind, pure, Except.pure]
    | some l => simp [hmem, hmax, hlabel l hl, bind, Except.bind, pure, Except.pure]

/-- A statement begins with a letter. -/
theorem Statement.exists_body (s : Statement) :
    ∃ c rest, s.body.toList = c :: rest ∧ isBlank c = false ∧ c ≠ '/' := by
  obtain ⟨c, rest, hopcode, hc⟩ : ∃ c rest, s.opcode.toList = c :: rest ∧ isBlank c = false
      ∧ c ≠ '/' := by
    unfold opcode
    split <;> exact ⟨_, _, rfl, by decide⟩
  by_cases hvoid : s = .returnVoid
  · rw [hvoid]
    exact ⟨'r', _, rfl, by decide⟩
  · rw [toList_body hvoid, hopcode]
    exact ⟨c, _, rfl, hc⟩

namespace Reading

variable {o : Outline}

/-- One statement. -/
theorem leads_statement {header : String} {ss : List Statement} {s : Statement}
    (hs : s.Legible) (hn : s.Numbered)
    (hnew : ∀ t ∈ ss, ∀ r ∈ s.definedRegister?, t.definedRegister? ≠ some r)
    (hroom : ∀ r ∈ s.definedRegister?, r.index ≠ Reader.numberMax)
    (hlabel : ∀ l ∈ s.mentionedLabel?, l.index ≠ Reader.numberMax) :
    Leads (Within o header ss) ["\t" ++ s.text] (Within o header (ss ++ [s])) := by
  obtain ⟨c, rest, hbody, hblank, hslash⟩ := s.exists_body
  have htext : s.text.toList = s.body.toList ++ [';'] := by simp [Statement.text]
  have hbare : Bare (s.body.toList ++ [';']) := by
    have hb := bare_append (a := [c]) (m := rest) (b := [';']) (by simp) (by simp)
      (by simpa using hblank) (by simp; decide)
    simpa [hbody] using hb
  have htrim : trim ("\t" ++ s.text).toList = s.body.toList ++ [';'] := by
    rw [String.toList_append, htext, trim_tab_append hbare]
  have hend : s.body.toList ++ [';'] ≠ "end function".toList := by
    intro heq
    have hlast := congrArg List.getLast? heq
    rw [List.getLast?_append] at hlast
    simp at hlast
  have hcomment : isComment (s.body.toList ++ [';']) = false := by
    simp [isComment, hbody, stripStart?, Ne.symm hslash]
  refine leads_line (by rw [htrim]; simp) fun r origin hr => ?_
  obtain ⟨f, hplace, hheader, hss, hdefined⟩ := hr.place
  have hfresh : ∀ d ∈ s.definedRegister?, d ∉ f.defined ∧ d.index ≠ Reader.numberMax := by
    intro d hd
    refine ⟨fun hmem => ?_, hroom d hd⟩
    obtain ⟨t, ht, htd⟩ := hdefined d hmem
    exact hnew t ht d hd htd
  obtain ⟨g, hadd, hfunction, hg⟩ := Reader.addStatement_eq origin hfresh hlabel
  refine ⟨⟨r.unit, .statements g⟩, ?_, hr.outline, g, rfl, ?_, ?_, ?_⟩
  · rw [line, hplace, htrim]
    simp only [statementsLine, if_neg hend, hcomment, stripEnd?_append, Reader.orElse,
      Statement.read_body hs hn, hadd, bind, Except.bind, pure, Except.pure]
    rfl
  · rw [hfunction, ← hheader]
    rfl
  · rw [hfunction, ← hss]
    simp [Function.append, Function.statements]
  · intro d hd
    rw [hg, List.mem_append, Option.mem_toList] at hd
    obtain hd | hd := hd
    · exact ⟨s, by simp, hd⟩
    · obtain ⟨t, ht, htd⟩ := hdefined d hd
      exact ⟨t, by simp [ht], htd⟩

theorem outsideLine_function {u : ClassUnit} {origin : Origin} (s : List Char) :
    outsideLine u origin ("function".toList ++ ' ' :: s)
      = (Reader.header s).map fun f =>
      ⟨u, .statements { function := { f with origin := origin } }⟩ := by
  rw [outsideLine, cutSpace_append (by decide)]
  simp [isComment, stripStart?]

theorem leads_header {f : Function} (h : f.LegibleHeader) :
    Leads (Outside o) [f.header] (Within o f.header []) := by
  have htrim : trim f.header.toList = f.header.toList := f.bare_header.trim_eq
  have hne : f.header.toList ≠ [] := by
    rw [f.toList_header]
    exact List.append_ne_nil_of_left_ne_nil (by decide) _
  obtain ⟨g, hread, hheader, hbody⟩ := Function.exists_header h
  refine leads_line (by rw [htrim]; exact hne) fun r origin hr => ?_
  refine ⟨⟨r.unit, .statements { function := { g with origin := origin } }⟩, ?_, hr.2, _,
    rfl, ?_, ?_, ?_⟩
  · rw [line, hr.1, htrim, f.toList_header]
    simp only [outsideLine_function, hread]
    rfl
  · exact hheader
  · simp [Function.statements, hbody]
  · nofun

theorem leads_endFunction (f : Function) :
    Leads (Within o f.header f.statements) ["end function"]
      (Outside { o with functions := o.functions ++ [f.lines] }) := by
  have htext : trim "end function".toList = "end function".toList := by decide
  refine leads_line (by rw [htext]; simp) fun r origin hr => ?_
  obtain ⟨g, hplace, hheader, hss, -⟩ := hr.place
  refine ⟨⟨r.unit.addFunction (g.function.reserve g.registers g.labels), .outside⟩,
    ?_, rfl, ?_⟩
  · rw [line, hplace, htext]
    simp [statementsLine]
  · have hlines : (g.function.reserve g.registers g.labels).lines = f.lines := by
      have hheader' : (g.function.reserve g.registers g.labels).header = f.header := hheader
      have hss' : (g.function.reserve g.registers g.labels).statements = f.statements := hss
      rw [Function.lines, Function.lines, hheader', hss']
    rw [← hr.outline]
    simp [ClassUnit.outline, ClassUnit.addFunction, hlines]

/-- A function, with the blank line in front of it. -/
theorem leads_function {f : Function}
    (h : ∃ g : Function, g.LegibleHeader ∧ g.header = f.header) (hbody : f.LegibleBody) :
    Leads (Outside o) ("" :: f.lines)
      (Outside { o with functions := o.functions ++ [f.lines] }) := by
  have hstatements :
      Leads (Within o f.header []) (f.statements.flatMap fun s => ["\t" ++ s.text])
      (Within o f.header f.statements) := by
    refine leads_each (P := Within o f.header) fun before s after hss => ?_
    have hmem : s ∈ f.statements := by simp [hss]
    refine leads_statement (hbody.legible s hmem).1 (hbody.legible s hmem).2
      (fun t ht r hr htr => ?_) (hbody.registers s hmem) (hbody.labels s hmem)
    have honce := hbody.once
    rw [hss, List.filterMap_append, List.nodup_append] at honce
    refine honce.2.2 r (List.mem_filterMap.2 ⟨t, ht, htr⟩) r ?_ rfl
    exact List.mem_filterMap.2 ⟨s, by simp, hr⟩
  rw [← List.map_eq_flatMap] at hstatements
  obtain ⟨g, hg, hheader⟩ := h
  have hline := leads_header (o := o) hg
  rw [hheader] at hline
  exact leads_blank.append (hline.append (hstatements.append (leads_endFunction f)))

theorem leads_functions {fs : List Function}
    (h : ∀ f ∈ fs, ∃ g : Function, g.LegibleHeader ∧ g.header = f.header)
    (hbody : ∀ f ∈ fs, f.LegibleBody) :
    Leads (Outside o) (fs.flatMap fun f => "" :: f.lines)
      (Outside { o with functions := o.functions ++ fs.map Function.lines }) := by
  have hfs := leads_each (P := fun fs =>
    Outside { o with functions := o.functions ++ fs.map Function.lines })
    fun before f after (heq : fs = before ++ f :: after) => by
      have hmem : f ∈ fs := by simp [heq]
      simpa using leads_function
        (o := { o with functions := o.functions ++ before.map Function.lines })
        (h f hmem) (hbody f hmem)
  simpa using hfs

end Reading

/-! ## The whole text -/

namespace ClassUnit

/-- Every part of a unit is found again in its text. -/
structure Legible (u : ClassUnit) : Prop where
  /-- The name is the path in the first line, without its suffix. -/
  name : (∀ c ∈ u.name.toList.head?, isBlank c = false) ∧ ¬ "./".toList <+: u.name.toList
  superclass : Bare u.superclass.toList
  interfaces : ∀ name ∈ u.interfaces, Bare name.toList ∧ ',' ∉ name.toList
  classes : ∀ c ∈ u.externals.classes, LegibleClass c
  fields : ∀ f ∈ u.externals.fields, f.Legible
  methods : ∀ m ∈ u.externals.methods, m.Legible
  kinds : u.statics.kind = .static ∧ u.fields.kind = .perObject
  statics : ∀ m ∈ u.statics.members, m.Legible
  members : ∀ m ∈ u.fields.members, m.Legible
  /-- A header is the header of some function that is found again in it. -/
  headers : ∀ f ∈ u.functions, ∃ g : Function, g.LegibleHeader ∧ g.header = f.header
  bodies : ∀ f ∈ u.functions, f.LegibleBody
  /-- No part of a line ends it. -/
  lines : ∀ l ∈ u.lines, '\n' ∉ l.toList

variable {u : ClassUnit}

theorem trim_firstLine (name : String) : trim ("// file: " ++ name ++ ".jil").toList
    = "// file:".toList ++ ' ' :: (name.toList ++ ".jil".toList) := by
  have hslash : Bare "// file:".toList := by decide
  have hsuffix : Bare ".jil".toList := by decide
  have hb :=
    bare_append (m := ' ' :: name.toList) (by simp) (by simp) hslash.first hsuffix.last
  have hline : ("// file: " ++ name ++ ".jil").toList
      = "// file:".toList ++ ' ' :: name.toList ++ ".jil".toList := by simp
  rw [hline, hb.trim_eq]
  simp only [List.append_assoc, List.cons_append]

/-- The name of a unit is found in the first line of its text, whatever the source is
called. -/
theorem nameIn_lines (hfirst : ∀ c ∈ u.name.toList.head?, isBlank c = false)
    (hdot : ¬ "./".toList <+: u.name.toList) (rest : List (List Char)) (source : List Char) :
    nameIn (trim ("// file: " ++ u.name ++ ".jil").toList :: rest) source = u.name.toList := by
  have hsuffix : Bare ".jil".toList := by decide
  have hpath : Bare (u.name.toList ++ ".jil".toList) := by
    constructor
    · cases hname : u.name.toList with
      | nil => exact hsuffix.first
      | cons c name => simpa [hname] using hfirst
    · rw [getLast?_append_of_ne_nil (by decide)]
      exact hsuffix.last
  have hstart : stripStart? "./".toList (u.name.toList ++ ".jil".toList) = none := by
    refine stripStart?_eq_none fun hpre => ?_
    match hname : u.name.toList with
    | [] => rw [hname] at hpre; revert hpre; decide
    | [c] =>
      rw [hname] at hpre
      simp at hpre
    | c :: d :: name =>
      rw [hname] at hpre hdot
      simp at hpre hdot
      exact hdot hpre.1 hpre.2
  rw [nameIn, trim_firstLine, List.findSome?_cons, stripStart?_append]
  simp only [hpath.trim_cons, hstart, Option.getD_none, stripEnd?_append, Option.getD_some]

open Reading in
/-- The lines in front of the structures. -/
theorem leads_headerLines (h : u.Legible) :
    Leads (Outside (create u.name).outline) u.headerLines
      (Outside { u.outline with statics := [], members := [], functions := [] }) := by
  have hcomment : Leads (Outside (create u.name).outline) ["// file: " ++ u.name ++ ".jil"]
      (Outside { name := u.name, superclass := objectClass }) :=
    leads_comment ⟨_, trim_firstLine u.name⟩
  have hinterfaces : Leads (Outside { name := u.name, superclass := u.superclass })
      (if u.interfaces.isEmpty then []
        else ["implements " ++ String.intercalate ", " u.interfaces])
      (Outside
        { name := u.name, superclass := u.superclass, interfaces := u.interfaces }) := by
    by_cases hnone : u.interfaces = []
    · rw [hnone]
      exact leads_nil
    · rw [if_neg (by simpa using hnone)]
      exact leads_implements hnone h.interfaces rfl
  have hstart := hcomment.append ((leads_super h.superclass).append hinterfaces)
  have hkinds := h.kinds
  have hlines :=
    ((hstart.append (leads_classes h.classes)).append (leads_fields h.fields)).append
    (leads_methods h.methods)
  simpa [headerLines, outline, hkinds.1, hkinds.2] using hlines

open Reading in
theorem leads_lines (h : u.Legible) :
    Leads (Outside (create u.name).outline) u.lines (Outside u.outline) := by
  have hstatics := leads_members h.statics .static
    { u.outline with statics := [], members := [], functions := [] }
  have hmembers :=
    leads_members h.members .perObject { u.outline with members := [], functions := [] }
  have hfunctions :=
    leads_functions (o := { u.outline with functions := [] }) h.headers h.bodies
  have hparts := (((leads_headerLines h).append leads_blank).append hstatics).append
    ((leads_blank.append hmembers).append hfunctions)
  have hkinds := h.kinds
  simpa [lines, Structure.lines, outline, Outline.withMembers, hkinds.1, hkinds.2] using hparts

/-- The text of a legible unit is read, under any name for the source, as a unit with that
text. -/
theorem exists_read_text (h : u.Legible) (source : String) :
    ∃ v, read u.text source = .ok v ∧ v.text = u.text := by
  have hall : (Text.lines u.text.toList).map trim = u.lines.map fun l => trim l.toList := by
    rw [toList_text, map_trim_lines h.lines]
  have hname : nameIn (u.lines.map fun l => trim l.toList) source.toList = u.name.toList :=
    nameIn_lines h.name.1 h.name.2 _ _
  have hnumbered :
      ((List.range' 1 u.lines.length).zip (u.lines.map fun l => trim l.toList)).map Prod.snd
      = u.lines.map fun l => trim l.toList := by
    rw [List.map_snd_zip]
    simp
  have hstart : Reading.Outside (create u.name).outline ⟨create u.name, .outside⟩ := ⟨rfl, rfl⟩
  obtain ⟨r, ⟨hplace, houtline⟩, hread⟩ :=
    leads_lines h source u.lines.length _ [] _ hnumbered hstart
  refine ⟨r.unit, ?_, text_eq_of_outline houtline⟩
  rw [read, hall, hname, String.ofList_toList]
  simp only [List.length_map]
  rw [List.append_nil] at hread
  rw [hread, Reading.lines, Reading.finish, hplace]
  rfl

end ClassUnit

end Jil
