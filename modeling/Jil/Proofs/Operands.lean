/-
Jil.Proofs.Operands — operands are read as they are written.

A type, a register, a label or an operator is read back from its own text, and
so is a member with its owner, a list of arguments and an operand in front of
an arrow. What stands behind the last arrow must neither hold one nor complete
one: an arrow is two spaces with a sign between them, and whatever holds no
space is safe there (`not_arrow_of_space`).
-/
import Jil.Proofs.Numerals
import Jil.Proofs.Scanning
import Jil.Statement.Reader

namespace Jil

open Jil.Text

/-! ## Types -/

namespace Ty

/-- A type that its own descriptor is read as. -/
def Readable (t : Ty) : Prop := ofDescriptor? t.descriptor.toList = some t

/-- Class of a class reference, or of the innermost elements of an array. -/
def baseClass? : Ty → Option String
  | .classRef name => some name
  | .array element => element.baseClass?
  | _ => none

theorem eq_append_of_readDescriptor? {s rest : List Char} {t : Ty}
    (h : readDescriptor? s = some (t, rest)) : s = t.descriptor.toList ++ rest := by
  fun_induction readDescriptor? s generalizing t rest with
  | case1 => cases h
  | case2 | case3 | case4 | case5 | case6 | case7 | case8 | case9 | case10 =>
    cases h
    simp [descriptor]
  | case11 | case12 => cases h
  | case13 r name rest' _ hcut =>
    cases h
    simp [descriptor, eq_append_of_cut hcut]
  | case14 | case15 => cases h
  | case16 r element rest' _ hread ih =>
    cases h
    simp [descriptor, ih hread]
  | case17 => cases h

/-- A text that describes a type is the descriptor of the type. -/
theorem eq_descriptor_of_ofDescriptor? {s : List Char} {t : Ty}
    (h : ofDescriptor? s = some t) :
    s = t.descriptor.toList := by
  unfold ofDescriptor? at h
  split at h
  · next hs =>
    cases h
    exact hs
  · split at h
    · next hread =>
      cases h
      simpa using eq_append_of_readDescriptor? hread
    · cases h

theorem readable_of_ofDescriptor? {s : List Char} {t : Ty} (h : ofDescriptor? s = some t) :
    t.Readable := by
  rw [Readable, ← eq_descriptor_of_ofDescriptor? h]
  exact h

theorem descriptor_ne_nil (t : Ty) : t.descriptor.toList ≠ [] := by
  cases t <;> simp [descriptor]

theorem bare_descriptor (t : Ty) : Bare t.descriptor.toList := by
  induction t with
  | classRef name =>
    have hb := bare_append (a := ['L']) (m := name.toList) (b := [';']) (by simp) (by simp)
      (by simp [isBlank, blankRanges]) (by simp [isBlank, blankRanges])
    simpa [descriptor] using hb
  | array element ih =>
    have hb := bare_append (a := ['[']) (m := []) (b := element.descriptor.toList) (by simp)
      element.descriptor_ne_nil (by simp [isBlank, blankRanges]) ih.last
    simpa [descriptor] using hb
  | _ => exact bare_of_forall (by simp [descriptor, isBlank, blankRanges])

/-- A descriptor holds letters and signs of its own, and the name of a class. -/
theorem mem_descriptor {t : Ty} {c : Char} (h : c ∈ t.descriptor.toList) :
    c ∈ "BZCSIJFDVnulL;[".toList ∨ ∃ name, t.baseClass? = some name ∧ c ∈ name.toList := by
  induction t with
  | classRef name =>
    simp only [descriptor, String.toList_append, List.mem_append] at h
    obtain (h | h) | h := h
    · exact .inl (by simp_all)
    · exact .inr ⟨name, rfl, h⟩
    · exact .inl (by simp_all)
  | array element ih =>
    rw [descriptor, String.toList_append, List.mem_append] at h
    obtain h | h := h
    · exact .inl (by simp_all)
    · exact ih h
  | _ =>
    refine .inl ?_
    simp [descriptor] at h ⊢
    grind

end Ty

/-! ## Registers and labels -/

theorem Register.toList_text (r : Register) :
    r.text.toList = '%' :: 'r' :: Nat.toDigits 10 r.index := by
  simp [text]

theorem Label.toList_text (l : Label) : l.text.toList = 'L' :: Nat.toDigits 10 l.index := by
  simp [text]

/-- A character of the text of a register. -/
theorem Register.not_mem_text {c : Char} (h : c.isDigit = false) (hsign : c ≠ '%')
    (hr : c ≠ 'r') (r : Register) : c ∉ r.text.toList := by
  simp [Register.toList_text, hsign, hr, not_mem_toDigits h]

theorem Register.isWord_text (r : Register) : IsWord r.text.toList := by
  refine ⟨by simp [r.toList_text], fun c hc => ?_⟩
  rw [r.toList_text, List.mem_cons, List.mem_cons] at hc
  obtain rfl | rfl | hc := hc
  · decide
  · decide
  · exact isBlank_of_mem_toDigits hc

theorem Label.isWord_text (l : Label) : IsWord l.text.toList := by
  refine ⟨by simp [l.toList_text], fun c hc => ?_⟩
  rw [l.toList_text, List.mem_cons] at hc
  obtain rfl | hc := hc
  · decide
  · exact isBlank_of_mem_toDigits hc

namespace Reader

/-- A type is read from its descriptor, also between blanks. -/
theorem type_of_trim {s : List Char} {t : Ty} (hs : trim s = t.descriptor.toList)
    (h : t.Readable) :
    type s = .ok t := by
  rw [type, hs, h]
  rfl

theorem type_descriptor {t : Ty} (h : t.Readable) : type t.descriptor.toList = .ok t :=
  type_of_trim t.bare_descriptor.trim_eq h

/-- A register is read from its text, also between blanks. -/
theorem register_of_trim {s : List Char} {r : Register} (hs : trim s = r.text.toList)
    (h : r.index ≤ numberMax) : register s = .ok r := by
  have hstrip : stripStart? ['%', 'r'] r.text.toList = some (Nat.toDigits 10 r.index) := by
    rw [r.toList_text]
    exact stripStart?_append ['%', 'r'] _
  rw [register, hs, hstrip, Option.bind_some, readUnsigned?_toDigits h]
  rfl

theorem register_text {r : Register} (h : r.index ≤ numberMax) :
    register r.text.toList = .ok r :=
  register_of_trim r.isWord_text.bare.trim_eq h

theorem label_text {l : Label} (h : l.index ≤ numberMax) : label l.text.toList = .ok l := by
  have hstrip : stripStart? ['L'] l.text.toList = some (Nat.toDigits 10 l.index) := by
    rw [l.toList_text]
    exact stripStart?_append ['L'] _
  rw [label, l.isWord_text.bare.trim_eq, hstrip, Option.bind_some, readUnsigned?_toDigits h]
  rfl

/-! ## Operators -/

theorem comparison_symbol (op : Comparison) : comparison op.symbol = .ok op := by
  cases op <;> rfl

theorem binaryOp_symbol (op : BinaryOp) : binaryOp op.symbol = .ok op := by
  cases op <;> rfl

theorem ofName?_name (op : UnaryOp) : UnaryOp.ofName? op.name = some op := by
  cases op <;> rfl

/-! ## Members -/

/-- A class and a member that are found again at the last point between them. -/
structure LegibleMember (owner name : String) : Prop where
  owner_ne : owner ≠ ""
  name_ne : name ≠ ""
  point : '.' ∉ name.toList
  bare : Bare (owner.toList ++ '.' :: name.toList)

theorem LegibleMember.read {owner name : String} (h : LegibleMember owner name) :
    member (owner.toList ++ '.' :: name.toList) = .ok (owner, name) := by
  have howner : owner.toList ≠ [] := by simpa using h.owner_ne
  have hname : name.toList ≠ [] := by simpa using h.name_ne
  obtain ⟨c, o, heq⟩ := List.exists_cons_of_ne_nil howner
  obtain ⟨d, n, heq'⟩ := List.exists_cons_of_ne_nil hname
  rw [member, cutLast_char h.point, heq, heq']
  simp only
  rw [← heq, ← heq', String.ofList_toList, String.ofList_toList]

/-- A register and a member are read apart at the first point. -/
theorem objectMember_append {object : Register} {name : String}
    (hobject : object.index ≤ numberMax) (hname : Bare name.toList) :
    objectMember (object.text.toList ++ '.' :: name.toList) = .ok (object, name) := by
  have hpoint : '.' ∉ object.text.toList :=
    object.not_mem_text rfl (by decide) (by decide)
  rw [objectMember, cut_char hpoint]
  simp [orElse, register_text hobject, hname.trim_eq, bind, Except.bind, pure, Except.pure]

theorem bare_objectMember (object : Register) {name : String} (h : Bare name.toList) :
    Bare (object.text.toList ++ '.' :: name.toList) := by
  constructor
  · rw [object.toList_text]
    simp; decide
  · cases hn : name.toList with
    | nil => simp; decide
    | cons c rest =>
      intro d hd
      refine h.last d ?_
      rw [hn]
      simpa using hd

/-! ## String constants -/

theorem quoted_encode (value : String) :
    quoted (Quoted.encode value.toList) = .ok value := by
  simp [quoted, Quoted.decode_encode]

theorem bare_encode (s : List Char) : Bare (Quoted.encode s) := by
  have hb :=
    bare_append (a := ['"']) (m := s.flatMap Quoted.escape) (b := ['"']) (by simp) (by simp)
    (by simp; decide) (by simp; decide)
  simpa [Quoted.encode] using hb

/-! ## Lists -/

/-- Items without blanks at their ends are the items of the list that is written with them. -/
theorem items_intercalate {xs : List (List Char)} (h : ∀ x ∈ xs, x ≠ [] ∧ Bare x ∧ ',' ∉ x) :
    items (List.intercalate [',', ' '] xs) = xs := by
  have hkeep : xs.filter (!·.isEmpty) = xs := by
    rw [List.filter_eq_self]
    intro x hx
    simp [(h x hx).1]
  cases xs with
  | nil => rfl
  | cons x rest =>
    rw [items, map_trim_pieces_intercalate (by decide) fun y hy => (h y hy).2, hkeep]

theorem mapM_map_eq_ok {α β ε : Type} {read : β → Except ε α} {write : α → β} {xs : List α}
    (h : ∀ x ∈ xs, read (write x) = .ok x) : (xs.map write).mapM read = .ok xs := by
  induction xs with
  | nil => rfl
  | cons x rest ih =>
    rw [List.map_cons, List.mapM_cons, h x (by simp), ih fun y hy =>
      h y (List.mem_cons_of_mem _ hy)]
    rfl

/-- The items of a list that was written are read one by one. -/
theorem mapM_items {α : Type} {read : List Char → Except Malformation α} {text : α → String}
    {xs : List α} (hread : ∀ x ∈ xs, read (text x).toList = .ok x)
    (htext : ∀ x ∈ xs, (text x).toList ≠ [] ∧ Bare (text x).toList ∧ ',' ∉ (text x).toList) :
    (items (String.intercalate ", " (xs.map text)).toList).mapM read = .ok xs := by
  have hlist : (String.intercalate ", " (xs.map text)).toList
      = List.intercalate [',', ' '] (xs.map fun x => (text x).toList) := by
    simp [Function.comp_def]
  rw [hlist, items_intercalate, mapM_map_eq_ok hread]
  simpa using htext

/-- What a list that is written consists of. -/
theorem mem_listText {α : Type} {text : α → String} {xs : List α} {c : Char}
    (h : c ∈ (String.intercalate ", " (xs.map text)).toList) :
    c = ',' ∨ c = ' ' ∨ ∃ x ∈ xs, c ∈ (text x).toList := by
  rw [String.toList_intercalate] at h
  obtain hsep | ⟨s, hs, hc⟩ := mem_intercalate h
  · simpa [or_assoc] using Or.inl hsep
  · simp only [List.map_map, List.mem_map, Function.comp_apply] at hs
    obtain ⟨x, hx, rfl⟩ := hs
    exact .inr (.inr ⟨x, hx, hc⟩)

/-! ## Words -/

theorem threeWords_spaces {a b c : List Char} (ha : IsWord a) (hb : IsWord b) (hc : IsWord c) :
    threeWords (a ++ ' ' :: (b ++ ' ' :: c)) = .ok (a, b, c) := by
  have hall : ∀ w ∈ [a, b, c], IsWord w := by simp [ha, hb, hc]
  have hwords := words_intercalate hall
  have htext : List.intercalate [' '] [a, b, c] = a ++ ' ' :: (b ++ ' ' :: c) := by
    simp [List.intercalate_cons_cons]
  rw [htext] at hwords
  rw [threeWords, hwords]

theorem bare_threeWords {a b c : List Char} (ha : IsWord a) (hc : IsWord c) :
    Bare (a ++ ' ' :: (b ++ ' ' :: c)) := by
  simpa using ha.bare_append (' ' :: (b ++ [' '])) hc

theorem twoWords_space {a b : List Char} (ha : IsWord a) (hb : IsWord b) :
    twoWords (a ++ ' ' :: b) = .ok (a, b) := by
  have hall : ∀ w ∈ [a, b], IsWord w := by simp [ha, hb]
  have hwords := words_intercalate hall
  have htext : List.intercalate [' '] [a, b] = a ++ ' ' :: b := by
    simp [List.intercalate_cons_cons]
  rw [htext] at hwords
  rw [twoWords, hwords]

theorem bare_twoWords {a b : List Char} (ha : IsWord a) (hb : IsWord b) :
    Bare (a ++ ' ' :: b) := by
  simpa using ha.bare_append [' '] hb

/-! ## Arrows -/

/-- A text that may stand behind an arrow: it holds no other and does not complete one. -/
def NoArrow (s : List Char) : Prop := ¬ " -> ".toList <:+: ['-', '>', ' '] ++ s

theorem noArrow_of_space {s : List Char} (h : ' ' ∉ s) : NoArrow s := by
  refine not_infix_of_count_lt (c := ' ') ?_
  simp [List.count_eq_zero.2 h]

/-- Where a name begins behind a point, only an arrow within the name counts. -/
theorem noArrow_append {a b : List Char} (ha : ' ' ∉ a) (hb : ¬ " -> ".toList <:+: b) :
    NoArrow (a ++ '.' :: b) := by
  intro h
  rw [← List.append_assoc] at h
  exact (infix_split (by simp) h).elim (noArrow_of_space ha) hb

theorem noArrow_register (r : Register) : NoArrow r.text.toList :=
  noArrow_of_space (r.not_mem_text rfl (by decide) (by decide))

theorem cutLast_arrow {right : List Char} (h : NoArrow right) (left : List Char) :
    cutLast " -> ".toList (left ++ " -> ".toList ++ right) = some (left, right) :=
  cutLast_append h left

/-- The two sides of the last arrow. -/
theorem arrow_append {left right : List Char} (hleft : Bare left) (hright : Bare right)
    (h : NoArrow right) : arrow (left ++ " -> ".toList ++ right) = .ok (left, right) := by
  rw [arrow, cutLast_arrow h]
  simp [orElse, hleft.trim_eq, hright.trim_eq, bind, Except.bind, pure, Except.pure]

/-- An operand in front of an arrow and a register behind it. -/
theorem toRegister_append {α : Type} {operand : List Char → Except Malformation α}
    {left : List Char} {a : α} (hleft : Bare left) (ha : operand left = .ok a) {r : Register}
    (hr : r.index ≤ numberMax) :
    toRegister operand (left ++ " -> ".toList ++ r.text.toList) = .ok (a, r) := by
  rw [toRegister, arrow_append hleft r.isWord_text.bare (noArrow_register r)]
  simp [ha, register_text hr, bind, Except.bind, pure, Except.pure]

/-- A register in front of an arrow and a place behind it. -/
theorem fromRegister_append {α : Type} {place : List Char → Except Malformation α}
    {right : List Char} {a : α} (hright : Bare right) (harrow : NoArrow right)
    (ha : place right = .ok a) {r : Register} (hr : r.index ≤ numberMax) :
    fromRegister place (r.text.toList ++ " -> ".toList ++ right) = .ok (r, a) := by
  rw [fromRegister, arrow_append r.isWord_text.bare hright harrow]
  simp [ha, register_text hr, bind, Except.bind, pure, Except.pure]

/-! ## Calls -/

/-- Arguments are written between parentheses, and nothing between them looks like an arrow. -/
theorem exists_argumentsText {args : List Register} (h : ∀ r ∈ args, r.index ≤ numberMax) :
    ∃ list, (Statement.argumentsText args).toList = '(' :: (list ++ [')'])
      ∧ (items list).mapM register = .ok args ∧ '-' ∉ list := by
  refine ⟨(String.intercalate ", " (args.map Register.text)).toList, ?_, ?_, ?_⟩
  · simp [Statement.argumentsText]
  · refine mapM_items (fun r hr => register_text (h r hr)) fun r _ => ?_
    exact ⟨r.isWord_text.ne_nil, r.isWord_text.bare,
      r.not_mem_text rfl (by decide) (by decide)⟩
  · intro hin
    obtain hc | hc | ⟨r, -, hin⟩ := mem_listText hin
    · cases hc
    · cases hc
    · exact r.not_mem_text rfl (by decide) (by decide) hin

/-- A call begins like its target and ends with a parenthesis or a register. -/
theorem bare_call {target : List Char} (hne : target ≠ [])
    (hfirst : ∀ c ∈ target.head?, isBlank c = false) (args : List Register)
    (result : Option Register) :
    Bare (target ++ (Statement.argumentsText args).toList
      ++ (Statement.resultText result).toList) := by
  have htext : (Statement.argumentsText args).toList
      = '(' :: ((String.intercalate ", " (args.map Register.text)).toList ++ [')']) := by
    simp [Statement.argumentsText]
  cases result with
  | none =>
    have hb := bare_append (b := [')'])
      (m := '(' :: (String.intercalate ", " (args.map Register.text)).toList) hne
        (by simp) hfirst
      (by simp; decide)
    simpa [htext, Statement.resultText] using hb
  | some r =>
    have hb := bare_append (m := (Statement.argumentsText args).toList ++ " -> ".toList) hne
      r.isWord_text.ne_nil hfirst r.isWord_text.bare.last
    simpa [Statement.resultText] using hb

/-- A call is read apart at its last arrow, if it has a result, and at its first
parenthesis. -/
theorem call_append {target : List Char} (htarget : Bare target) (hopen : '(' ∉ target)
    {args : List Register} (hargs : ∀ r ∈ args, r.index ≤ numberMax) {result : Option Register}
    (hresult : ∀ r ∈ result, r.index ≤ numberMax)
    (harrow : result = none → ¬ " -> ".toList <:+: target) :
    call (target ++ (Statement.argumentsText args).toList
      ++ (Statement.resultText result).toList)
      = .ok (target, args, result) := by
  obtain ⟨list, htext, hitems, hdash⟩ := exists_argumentsText hargs
  rw [htext]
  have hbare : Bare (target ++ '(' :: (list ++ [')'])) := by
    have hfirst : ∀ c ∈ (target ++ ['(']).head?, isBlank c = false := by
      cases target with
      | nil => simp; decide
      | cons d target => simpa using htarget.first
    have hb :=
      bare_append (m := list) (b := [')']) (by simp) (by simp) hfirst (by simp; decide)
    simpa using hb
  cases result with
  | none =>
    have hnone : cutLast " -> ".toList (target ++ '(' :: (list ++ [')'])) = none := by
      refine cutLast_eq_none fun hin => ?_
      have hlist : ¬ " -> ".toList <:+: list ++ [')'] :=
        not_infix_of_not_mem (c := '-') (by simp) (by simp [hdash])
      exact (infix_split (by simp) hin).elim (harrow rfl) hlist
    rw [Statement.resultText, String.toList_empty, List.append_nil, call, hnone]
    simp [hbare.trim_eq, cut_char hopen, stripEnd?_append, hitems, htarget.trim_eq,
      orElse, bind, Except.bind, pure, Except.pure]
  | some r =>
    have hcut : cutLast " -> ".toList (target ++ '(' :: (list ++ [')'])
        ++ (Statement.resultText (some r)).toList)
        = some (target ++ '(' :: (list ++ [')']), r.text.toList) := by
      rw [Statement.resultText, String.toList_append, ← List.append_assoc]
      exact cutLast_arrow (noArrow_register r) _
    rw [call, hcut]
    simp [hbare.trim_eq, register_text (hresult r rfl), cut_char hopen,
      stripEnd?_append, hitems, htarget.trim_eq, orElse, bind, Except.bind, pure, Except.pure]

end Reader

end Jil
