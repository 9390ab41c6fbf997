/-
Jil.Proofs.StatementReading — what a text is that was read as a statement.

The way back from `StatementText`: a statement that was read has numbers that
can be written, and its names, types and literals are parts of the text it was
read from (`ReadFrom`). With two exceptions it is legible. A name behind an
arrow may begin with the rest of another arrow when blanks other than a space
keep the two apart; writing puts a space there and moves them together
(`Unambiguous`).
-/
import Jil.Proofs.Flow
import Jil.Proofs.StatementText

namespace Jil

open Jil.Text

/-! ## Parts of a text -/

namespace Text

/-- A part of a text that holds more than blanks, without those around it. -/
structure IsPart (s p : List Char) : Prop where
  ne_nil : p ≠ []
  bare : Bare p
  within : p <:+: s

theorem IsPart.trans {s p q : List Char} (h : p <:+: s) (h' : IsPart p q) : IsPart s q :=
  ⟨h'.ne_nil, h'.bare, h'.within.trans h⟩

theorem blank_of_trim_eq_nil {s : List Char} (h : trim s = []) :
    ∀ c ∈ s, isBlank c = true := by
  obtain ⟨front, back, hs, hfront, hback⟩ := exists_trim s
  rw [h, List.append_nil] at hs
  intro c hc
  rw [hs, List.mem_append] at hc
  exact hc.elim (hfront c) (hback c)

/-- Something stands in front of a blank within a bare text. -/
theorem Bare.isPart_front {a b : List Char} {c : Char} (h : Bare (a ++ c :: b))
    (hc : isBlank c = true) :
    IsPart (a ++ c :: b) (trim a) := by
  refine ⟨fun hnil => ?_, bare_trim a, (infix_trim a).trans (List.prefix_append _ _).isInfix⟩
  have hblank := blank_of_trim_eq_nil hnil
  have hfirst := h.first
  cases a with
  | nil => simp [hc] at hfirst
  | cons d a => simp [hblank d] at hfirst

/-- Something stands behind a blank within a bare text. -/
theorem Bare.isPart_back {a b : List Char} {c : Char} (h : Bare (a ++ c :: b))
    (hc : isBlank c = true) :
    IsPart (a ++ c :: b) (trim b) := by
  refine ⟨fun hnil => ?_, bare_trim b, (infix_trim b).trans ⟨a ++ [c], [], by simp⟩⟩
  have hblank : ∀ d ∈ c :: b, isBlank d = true := by
    simpa [hc] using blank_of_trim_eq_nil hnil
  have hlast := h.last (((c :: b).getLast (by simp)))
    (by rw [getLast?_append_of_ne_nil (by simp)]; exact List.getLast?_eq_some_getLast _)
  rw [hblank _ (List.getLast_mem _)] at hlast
  cases hlast

/-- Something stands on either side of a space within a bare text. -/
theorem Bare.isPart_of_cut {s a b : List Char} (h : Bare s)
    (hcut : cut [' '] s = some (a, b)) :
    IsPart s (trim a) ∧ IsPart s (trim b) := by
  have heq : s = a ++ ' ' :: b := by simpa using eq_append_of_cut hcut
  rw [heq] at h ⊢
  exact ⟨h.isPart_front (by decide), h.isPart_back (by decide)⟩

/-- What is trimmed from the front part of a text that begins without a blank is its
beginning. -/
theorem prefix_trim {s a : List Char} (hs : ∀ c ∈ s.head?, isBlank c = false) (h : a <+: s) :
    trim a <+: s := by
  refine List.IsPrefix.trans ?_ h
  have hstart : trimStart a = a := by
    refine trimStart_eq_self fun c hc => hs c ?_
    obtain ⟨b, rfl⟩ := h
    simp [List.head?_append, Option.mem_def.1 hc]
  obtain ⟨back, hback, -⟩ := exists_trimEnd a
  rw [trim, hstart]
  exact ⟨back, hback.symm⟩

end Text

/-! ## Results -/

/-- A result that is made from another one. -/
theorem map_eq_ok {ε α β : Type} {f : α → β} {x : Except ε α} {b : β} :
    x.map f = .ok b ↔ ∃ a, x = .ok a ∧ f a = b := by
  cases x <;> simp [Except.map]

/-- Every result of a list comes from a member. -/
theorem exists_of_mapM_eq_ok {ε α β : Type} {f : α → Except ε β} {l : List α}
    {results : List β} (h : l.mapM f = .ok results) {b : β} (hb : b ∈ results) :
    ∃ a ∈ l, f a = .ok b := by
  obtain ⟨hlen, hget⟩ := Pseudo.getElem?_of_mapM_eq_ok h
  obtain ⟨n, hn⟩ := List.mem_iff_getElem?.1 hb
  have hlt : n < l.length := by
    rw [← hlen]
    exact (List.getElem?_eq_some_iff.1 hn).1
  obtain ⟨b', hb', hf⟩ := hget n l[n] (List.getElem?_eq_getElem hlt)
  rw [hn] at hb'
  cases hb'
  exact ⟨l[n], List.getElem_mem hlt, hf⟩

namespace Reader

open Pseudo (bind_eq_ok ite_eq_ok)

variable {s : List Char}

theorem orElse_eq_ok {α : Type} {x : Option α} {complaint : Malformation} {a : α} :
    orElse x complaint = .ok a ↔ x = some a := by
  cases x <;> simp [orElse]

/-! ## Operands -/

theorem type_eq_ok {t : Ty} (h : type s = .ok t) :
    t.Readable ∧ trim s = t.descriptor.toList := by
  have hread := orElse_eq_ok.1 h
  exact ⟨Ty.readable_of_ofDescriptor? hread, Ty.eq_descriptor_of_ofDescriptor? hread⟩

theorem type_within {t : Ty} (h : type s = .ok t) : t.descriptor.toList <:+: s := by
  rw [← (type_eq_ok h).2]
  exact infix_trim s

theorem register_eq_ok {r : Register} (h : register s = .ok r) : r.index ≤ numberMax := by
  obtain ⟨n, hn, rfl⟩ := Option.map_eq_some_iff.1 (orElse_eq_ok.1 h)
  obtain ⟨digits, -, hdigits⟩ := Option.bind_eq_some_iff.1 hn
  exact le_of_readUnsigned? hdigits

theorem label_eq_ok {l : Label} (h : label s = .ok l) : l.index ≤ numberMax := by
  obtain ⟨n, hn, rfl⟩ := Option.map_eq_some_iff.1 (orElse_eq_ok.1 h)
  obtain ⟨digits, -, hdigits⟩ := Option.bind_eq_some_iff.1 hn
  exact le_of_readUnsigned? hdigits

theorem member_eq_ok {owner name : String} (h : member s = .ok (owner, name)) (hs : Bare s) :
    s = owner.toList ++ '.' :: name.toList ∧ LegibleMember owner name := by
  unfold member at h
  split at h
  · next c o d n hcut =>
    cases h
    have heq := eq_append_of_cutLast hcut
    have hpoint := not_infix_after_cutLast (by simp) hcut
    simp only [String.toList_ofList]
    refine ⟨by simpa using heq, by simp, by simp, ?_, ?_⟩
    · rw [String.toList_ofList]
      exact fun hin => hpoint (infix_of_mem hin)
    · rw [String.toList_ofList, String.toList_ofList]
      rw [heq] at hs
      simpa using hs
  · cases h

theorem member_within {owner name : String} (h : owner.toList ++ '.' :: name.toList <:+: s) :
    owner.toList <:+: s ∧ name.toList <:+: s :=
  ⟨(List.prefix_append _ _).isInfix.trans h,
    ((List.suffix_cons _ _).trans (List.suffix_append _ _)).isInfix.trans h⟩

theorem objectMember_eq_ok {object : Register} {name : String}
    (h : objectMember s = .ok (object, name)) :
    object.index ≤ numberMax ∧ Bare name.toList ∧ name.toList <:+: s := by
  obtain ⟨⟨left, right⟩, hcut, h⟩ := bind_eq_ok.1 h
  obtain ⟨r, hr, h⟩ := bind_eq_ok.1 h
  cases h
  rw [String.toList_ofList]
  have hwithin := (within_of_cut (orElse_eq_ok.1 hcut)).2.isInfix
  exact ⟨register_eq_ok hr, bare_trim right, (infix_trim right).trans hwithin⟩

/-- The sides of the last arrow; there is none on its right. -/
theorem arrow_eq_ok {left right : List Char} (h : arrow s = .ok (left, right)) (hs : Bare s) :
    IsPart s left ∧ IsPart s right ∧ ¬ " -> ".toList <:+: right := by
  obtain ⟨⟨a, b⟩, hcut, h⟩ := bind_eq_ok.1 h
  cases h
  have hcut := orElse_eq_ok.1 hcut
  have heq := eq_append_of_cutLast hcut
  have hfront : s = a ++ ' ' :: ("-> ".toList ++ b) := by simpa using heq
  have hback : s = (a ++ " ->".toList) ++ ' ' :: b := by simpa using heq
  refine ⟨?_, ?_, fun hin => ?_⟩
  · rw [hfront] at hs ⊢
    exact hs.isPart_front (by decide)
  · rw [hback] at hs ⊢
    exact hs.isPart_back (by decide)
  · exact not_infix_after_cutLast (by simp) hcut (hin.trans (infix_trim b))

theorem toRegister_eq_ok {α : Type} {operand : List Char → Except Malformation α} {a : α}
    {r : Register} (h : toRegister operand s = .ok (a, r)) (hs : Bare s) :
    ∃ left, IsPart s left ∧ operand left = .ok a ∧ r.index ≤ numberMax := by
  obtain ⟨⟨left, right⟩, harrow, h⟩ := bind_eq_ok.1 h
  obtain ⟨a', ha, h⟩ := bind_eq_ok.1 h
  obtain ⟨r', hr, h⟩ := bind_eq_ok.1 h
  cases h
  exact ⟨left, (arrow_eq_ok harrow hs).1, ha, register_eq_ok hr⟩

theorem fromRegister_eq_ok {α : Type} {place : List Char → Except Malformation α} {a : α}
    {r : Register} (h : fromRegister place s = .ok (r, a)) (hs : Bare s) :
    ∃ right, IsPart s right ∧ ¬ " -> ".toList <:+: right ∧ place right = .ok a
      ∧ r.index ≤ numberMax := by
  obtain ⟨⟨left, right⟩, harrow, h⟩ := bind_eq_ok.1 h
  obtain ⟨a', ha, h⟩ := bind_eq_ok.1 h
  obtain ⟨r', hr, h⟩ := bind_eq_ok.1 h
  cases h
  have hsides := arrow_eq_ok harrow hs
  exact ⟨right, hsides.2.1, hsides.2.2, ha, register_eq_ok hr⟩

theorem threeWords_eq_ok {a b c : List Char} (h : threeWords s = .ok (a, b, c)) :
    words s = [a, b, c] := by
  unfold threeWords at h
  split at h
  · cases h
    assumption
  · cases h

/-- The part of a call that is read when the arrow and the result are taken off. -/
theorem target_eq_ok {front target : List Char} {args : List Register}
    {result result' : Option Register} (h : (do
      let (target, args) ← orElse (cut ['('] front) .expectedCallOpen
      let args ← orElse (stripEnd? [')'] args) .expectedCallClose
      let args ← (items args).mapM register
      pure (trim target, args, result) : Except Malformation _) = .ok (target,
      args, result')) :
    result' = result ∧ '(' ∉ target ∧ (∀ r ∈ args, r.index ≤ numberMax)
      ∧ ∃ p, p <+: front ∧ target = trim p := by
  obtain ⟨⟨p, list⟩, hopen, h⟩ := bind_eq_ok.1 h
  obtain ⟨inner, -, h⟩ := bind_eq_ok.1 h
  obtain ⟨args', hargs, h⟩ := bind_eq_ok.1 h
  cases h
  have hopen := orElse_eq_ok.1 hopen
  refine ⟨rfl, fun hin => not_mem_before_cut hopen ((infix_trim p).subset hin),
    fun r hr => ?_, p, (within_of_cut hopen).1, rfl⟩
  obtain ⟨item, -, hitem⟩ := exists_of_mapM_eq_ok hargs hr
  exact register_eq_ok hitem

/-- The target of a call stands in front of its first parenthesis, and behind no arrow
if there is no result. -/
structure CallRead (s target : List Char) (args : List Register) (result : Option Register) :
    Prop where
  bare : Bare target
  opens : '(' ∉ target
  within : target <:+: s
  first : (∀ c ∈ s.head?, isBlank c = false) → target <+: s
  arrow : result = none → ¬ " -> ".toList <:+: target
  args : ∀ r ∈ args, r.index ≤ numberMax
  result : ∀ r ∈ result, r.index ≤ numberMax

theorem call_eq_ok {target : List Char} {args : List Register} {result : Option Register}
    (h : call s = .ok (target, args, result)) : CallRead s target args result := by
  have hfront : ∃ a result', a <+: s ∧ (∀ r ∈ result', r.index ≤ numberMax)
      ∧ (result' = none → ¬ " -> ".toList <:+: a) ∧ result = result' ∧ '(' ∉ target
      ∧ (∀ r ∈ args, r.index ≤ numberMax) ∧ ∃ p, p <+: trim a ∧ target = trim p := by
    simp only [call] at h
    split at h
    · next left right hcut =>
      obtain ⟨r, hr, h⟩ := bind_eq_ok.1 h
      refine ⟨left, some r, (within_of_cutLast hcut).1, ?_, by rintro ⟨⟩, target_eq_ok h⟩
      rintro _ ⟨⟩
      exact register_eq_ok hr
    · next hcut =>
      exact ⟨s, none, List.prefix_rfl,
        by simp, fun _ => not_infix_of_cutLast hcut, target_eq_ok h⟩
  obtain ⟨a, result', ha, hresult, harrow, rfl, hopens, hargs, p, hp, rfl⟩ := hfront
  have hwithin : trim p <:+: a := (infix_trim p).trans (hp.isInfix.trans (infix_trim a))
  exact {
    bare := bare_trim p
    opens := hopens
    within := hwithin.trans ha.isInfix
    first := fun hs => prefix_trim hs (hp.trans (prefix_trim hs ha))
    args := hargs
    result := hresult
    arrow := fun hnone hin => harrow hnone (hin.trans hwithin) }

/-- A text behind an arrow that does not begin with the rest of another one. -/
theorem noArrow_of_not_prefix (h : ¬ " -> ".toList <:+: s) (hstart : ¬ "-> ".toList <+: s) :
    NoArrow s := by
  intro hin
  obtain hpre | hin := List.infix_cons_iff.1 hin
  · exact absurd (List.cons_prefix_cons.1 hpre).1 (by decide)
  obtain hpre | hin := List.infix_cons_iff.1 hin
  · exact absurd (List.cons_prefix_cons.1 hpre).1 (by decide)
  obtain hpre | hin := List.infix_cons_iff.1 hin
  · exact hstart (List.cons_prefix_cons.1 hpre).2
  · exact h hin

theorem items_within {item : List Char} (h : item ∈ items s) :
    IsPart s item ∧ ',' ∉ item := by
  rw [items, List.mem_filter, List.mem_map] at h
  obtain ⟨⟨p, hp, rfl⟩, hne⟩ := h
  have hpiece := mem_pieces hp
  exact ⟨⟨by simpa using hne, bare_trim p, (infix_trim p).trans hpiece.2⟩,
    fun hin => hpiece.1 ((infix_trim p).subset hin)⟩

end Reader

/-! ## Statements -/

namespace Statement

/-- The name that the text behind the arrow of a statement begins with. -/
def storedName? : Statement → Option String
  | .putLocal name _ | .putStatic name _ _ => some name
  | _ => none

/-- Behind an arrow no name begins with the rest of an arrow. -/
def Unambiguous (s : Statement) : Prop :=
  ∀ name ∈ s.storedName?, ¬ "-> ".toList <+: name.toList

instance (s : Statement) : Decidable s.Unambiguous :=
  inferInstanceAs (Decidable (∀ name ∈ s.storedName?, ¬ "-> ".toList <+: name.toList))

/-- What is known of a statement that was read from a text. -/
structure ReadFrom (t : List Char) (s : Statement) : Prop where
  numbered : s.Numbered
  legible : s.Unambiguous → s.Legible
  names : ∀ name ∈ s.names, name.toList <:+: t
  types : ∀ type ∈ s.types, type.descriptor.toList <:+: t
  literal : ∀ value ∈ s.literal?, value.toList <:+: t

theorem ReadFrom.of_names {t : List Char} {s : Statement} (hnumbered : s.Numbered)
    (hlegible : s.Unambiguous → s.Legible) (hnames : ∀ name ∈ s.names, name.toList <:+: t)
    (htypes : s.types = []) (hliteral : s.literal? = none) : ReadFrom t s :=
  ⟨hnumbered, hlegible, hnames, by simp [htypes], by simp [hliteral]⟩

/-- Statements without names, types and literals. -/
theorem ReadFrom.unnamed {t : List Char} {s : Statement} (hnumbered : s.Numbered)
    (hlegible : s.Unambiguous → s.Legible) (hnames : s.names = []) (htypes : s.types = [])
    (hliteral : s.literal? = none) : ReadFrom t s :=
  .of_names hnumbered hlegible (by simp [hnames]) htypes hliteral

end Statement

namespace Reader

open Pseudo (bind_eq_ok ite_eq_ok)
open Statement (ReadFrom)

variable {s : List Char} {st : Statement}

theorem chooseForm_eq_ok (h : chooseForm s = .ok st) : ReadFrom s st := by
  obtain ⟨⟨left, right⟩, -, h⟩ := bind_eq_ok.1 h
  obtain ⟨⟨a, b⟩, -, h⟩ := bind_eq_ok.1 h
  obtain ⟨first, hfirst, h⟩ := bind_eq_ok.1 h
  obtain ⟨second, hsecond, h⟩ := bind_eq_ok.1 h
  obtain ⟨result, hresult, h⟩ := bind_eq_ok.1 h
  cases h
  refine .unnamed (.unlabelled ?_ ?_ rfl) (fun _ => trivial) rfl rfl rfl
  · simpa [Statement.usedRegisters] using ⟨register_eq_ok hfirst, register_eq_ok hsecond⟩
  · simpa [Statement.definedRegister?] using register_eq_ok hresult

theorem literalForm_eq_ok (h : literalForm s = .ok st) (hs : Bare s) : ReadFrom s st := by
  obtain ⟨⟨left, right⟩, harrow, h⟩ := bind_eq_ok.1 h
  obtain ⟨⟨a, b⟩, hcut, h⟩ := bind_eq_ok.1 h
  obtain ⟨t, ht, h⟩ := bind_eq_ok.1 h
  obtain ⟨result, hresult, h⟩ := bind_eq_ok.1 h
  cases h
  have hleft := (arrow_eq_ok harrow hs).1
  have hcut := orElse_eq_ok.1 hcut
  have hvalue := (hleft.bare.isPart_of_cut hcut).2
  have hwithin := (type_within ht).trans (within_of_cut hcut).1.isInfix
  have hspace : ' ' ∉ t.descriptor.toList := fun hin =>
    not_mem_before_cut hcut ((type_within ht).subset hin)
  refine ⟨⟨nofun, ?_, nofun⟩, fun _ => ⟨(type_eq_ok ht).1, hspace, ?_, ?_⟩, nofun, ?_, ?_⟩
  · simpa [Statement.definedRegister?] using register_eq_ok hresult
  · simpa using hvalue.ne_nil
  · simpa using hvalue.bare
  · simpa [Statement.types] using hwithin.trans hleft.within
  · simpa [Statement.literal?] using hvalue.within.trans hleft.within

/-- Two operands and a result, around an operator. -/
theorem operatorForm_eq_ok {ω : Type} {operator : String → Except Malformation ω}
    {build : ω → Register → Register → Register → Statement}
    (h : operatorForm operator build s = .ok st) :
    ∃ op left right result, st = build op left right result
      ∧ left.index ≤ numberMax ∧ right.index ≤ numberMax ∧ result.index ≤ numberMax := by
  obtain ⟨⟨operands, right⟩, -, h⟩ := bind_eq_ok.1 h
  obtain ⟨⟨a, symbol, b⟩, -, h⟩ := bind_eq_ok.1 h
  obtain ⟨left, hleft, h⟩ := bind_eq_ok.1 h
  obtain ⟨right, hright, h⟩ := bind_eq_ok.1 h
  obtain ⟨result, hresult, h⟩ := bind_eq_ok.1 h
  obtain ⟨op, -, h⟩ := bind_eq_ok.1 h
  cases h
  exact ⟨op, left, right, result, rfl, register_eq_ok hleft, register_eq_ok hright,
    register_eq_ok hresult⟩

theorem unaryForm_eq_ok (h : unaryForm s = .ok st) : ReadFrom s st := by
  obtain ⟨⟨operands, right⟩, -, h⟩ := bind_eq_ok.1 h
  obtain ⟨⟨name, a⟩, -, h⟩ := bind_eq_ok.1 h
  obtain ⟨op, -, h⟩ := bind_eq_ok.1 h
  obtain ⟨src, hsrc, h⟩ := bind_eq_ok.1 h
  obtain ⟨result, hresult, h⟩ := bind_eq_ok.1 h
  cases h
  refine .unnamed (.unlabelled ?_ ?_ rfl) (fun _ => trivial) rfl rfl rfl
  · simpa [Statement.usedRegisters] using register_eq_ok hsrc
  · simpa [Statement.definedRegister?] using register_eq_ok hresult

theorem convertForm_eq_ok (h : convertForm s = .ok st) (hs : Bare s) : ReadFrom s st := by
  obtain ⟨⟨operands, right⟩, harrow, h⟩ := bind_eq_ok.1 h
  obtain ⟨⟨a, word, b⟩, hwords, h⟩ := bind_eq_ok.1 h
  simp only at h
  obtain ⟨-, h⟩ | ⟨-, h⟩ := ite_eq_ok.1 h
  · cases h
  obtain ⟨src, hsrc, h⟩ := bind_eq_ok.1 h
  obtain ⟨target, htarget, h⟩ := bind_eq_ok.1 h
  obtain ⟨result, hresult, h⟩ := bind_eq_ok.1 h
  cases h
  have hword : IsWord b ∧ b <:+: operands := mem_words (by simp [threeWords_eq_ok hwords])
  have hsame : target.descriptor.toList = b := by
    rw [← (type_eq_ok htarget).2, hword.1.bare.trim_eq]
  refine ⟨⟨?_, ?_, nofun⟩, fun _ => ⟨(type_eq_ok htarget).1, hsame ▸ hword.1⟩,
    nofun, ?_, nofun⟩
  · simpa [Statement.usedRegisters] using register_eq_ok hsrc
  · simpa [Statement.definedRegister?] using register_eq_ok hresult
  · simpa [Statement.types, hsame] using hword.2.trans (arrow_eq_ok harrow hs).1.within

theorem branchForm_eq_ok (h : branchForm s = .ok st) : ReadFrom s st := by
  obtain ⟨⟨a, b, c⟩, -, h⟩ := bind_eq_ok.1 h
  obtain ⟨expected, -, h⟩ := bind_eq_ok.1 h
  obtain ⟨condition, hcondition, h⟩ := bind_eq_ok.1 h
  obtain ⟨target, htarget, h⟩ := bind_eq_ok.1 h
  cases h
  refine .unnamed ⟨?_, by rintro _ ⟨⟩, ?_⟩ (fun _ => trivial) rfl rfl rfl
  · simpa [Statement.usedRegisters] using register_eq_ok hcondition
  · rintro _ ⟨⟩
    exact label_eq_ok htarget

theorem startScopeForm_eq_ok (h : startScopeForm s = .ok st) (hs : Bare s) :
    ReadFrom s st := by
  obtain ⟨⟨name, rest⟩, hcut, h⟩ := bind_eq_ok.1 h
  obtain ⟨t, ht, h⟩ := bind_eq_ok.1 h
  cases h
  have hcut := orElse_eq_ok.1 hcut
  obtain ⟨hpre, hrest⟩ := within_of_cut hcut
  have hne : name ≠ [] := by
    rintro rfl
    exact (hs.isPart_of_cut hcut).1.ne_nil rfl
  refine ⟨⟨nofun, nofun, nofun⟩, fun _ => ⟨?_, ?_, ?_, (type_eq_ok ht).1⟩, ?_, ?_, nofun⟩
  · simpa using hne
  · simpa using not_mem_before_cut hcut
  · intro c hc
    rw [String.toList_ofList] at hc
    obtain ⟨back, rfl⟩ := hpre
    exact hs.first c (by simp [List.head?_append, Option.mem_def.1 hc])
  · simpa [Statement.names] using hpre.isInfix
  · simpa [Statement.types] using (type_within ht).trans hrest.isInfix

theorem callVirtualForm_eq_ok (h : callVirtualForm s = .ok st) : ReadFrom s st := by
  obtain ⟨⟨target, args, result⟩, hcall, h⟩ := bind_eq_ok.1 h
  obtain ⟨⟨object, method⟩, hmember, h⟩ := bind_eq_ok.1 h
  cases h
  have hcall := call_eq_ok hcall
  obtain ⟨hobject, hbare, hmethod⟩ := objectMember_eq_ok hmember
  refine .of_names (.unlabelled ?_ hcall.result rfl)
    (fun _ => ⟨hbare, ?_, fun hnone hin => ?_⟩) ?_ rfl rfl
  · simpa [Statement.usedRegisters] using ⟨hobject, hcall.args⟩
  · exact fun hin => hcall.opens (hmethod.subset hin)
  · exact hcall.arrow hnone (hin.trans hmethod)
  · simpa [Statement.names] using hmethod.trans hcall.within

/-- A call on a class, of which the receiver has been read. -/
theorem readFrom_callActual {t target : List Char} {object : Option Register}
    {owner method : String} {args : List Register} {result : Option Register}
    (hcall : CallRead s target args result) (hmember : member target = .ok (owner, method))
    (hs : s <:+: t) (hobject : ∀ r ∈ object, r.index ≤ numberMax)
    (hsign : object = none → (∀ c ∈ s.head?, isBlank c = false) ∧ s.head? ≠ some '%') :
    ReadFrom t (.callActual object owner method args result) := by
  obtain ⟨heq, hlegible⟩ := member_eq_ok hmember hcall.bare
  have hwithin := hcall.within.trans hs
  rw [heq] at hwithin
  refine .of_names (.unlabelled ?_ hcall.result rfl) (fun _ => ⟨hlegible, heq ▸ hcall.opens,
    fun hnone hhead => ?_, fun hnone => heq ▸ hcall.arrow hnone⟩) ?_ rfl rfl
  · intro r hr
    rw [Statement.usedRegisters, List.mem_append, Option.mem_toList] at hr
    exact hr.elim (hobject r) (hcall.args r)
  · obtain ⟨hfirst, hne⟩ := hsign hnone
    obtain ⟨rest, hrest⟩ := hcall.first hfirst
    refine hne ?_
    rw [← hrest, heq, List.append_assoc, List.head?_append, hhead]
    rfl
  · simpa [Statement.names] using member_within hwithin

theorem callActualForm_eq_ok (h : callActualForm s = .ok st) (hs : Bare s) :
    ReadFrom s st := by
  simp only [callActualForm] at h
  split at h
  · next rest =>
    obtain ⟨⟨a, b⟩, hcut, h⟩ := bind_eq_ok.1 h
    obtain ⟨r, hr, h⟩ := bind_eq_ok.1 h
    obtain ⟨p, hp, h⟩ := bind_eq_ok.1 h
    cases hp
    obtain ⟨⟨target, args, result⟩, hcall, h⟩ := bind_eq_ok.1 h
    obtain ⟨⟨owner, method⟩, hmember, h⟩ := bind_eq_ok.1 h
    cases h
    have hwithin := (within_of_cut (orElse_eq_ok.1 hcut)).2.isInfix
    refine readFrom_callActual (call_eq_ok hcall) hmember hwithin ?_ nofun
    rintro _ ⟨⟩
    exact register_eq_ok hr
  · next hne =>
    obtain ⟨p, hp, h⟩ := bind_eq_ok.1 h
    cases hp
    obtain ⟨⟨target, args, result⟩, hcall, h⟩ := bind_eq_ok.1 h
    obtain ⟨⟨owner, method⟩, hmember, h⟩ := bind_eq_ok.1 h
    cases h
    refine readFrom_callActual (call_eq_ok hcall) hmember List.infix_rfl nofun fun _ =>
      ⟨hs.first, ?_⟩
    intro hhead
    obtain ⟨rest, rfl⟩ := List.head?_eq_some_iff.1 hhead
    exact hne rest rfl

end Reader

namespace Statement

open Pseudo (ite_eq_ok)

variable {t : List Char} {s : Statement}

/-- What a form reads is known to come from its text. -/
theorem readFrom_of_readForm {opcode : String} (h : readForm opcode t = .ok s) (ht : Bare t) :
    ReadFrom t s := by
  unfold readForm at h
  split at h
  case h_1 =>
    obtain ⟨⟨src, dest⟩, hread, rfl⟩ := map_eq_ok.1 h
    obtain ⟨left, -, hsrc, hdest⟩ := Reader.toRegister_eq_ok hread ht
    refine .unnamed (.unlabelled ?_ ?_ rfl) (fun _ => trivial) rfl rfl rfl
    · simpa [usedRegisters] using Reader.register_eq_ok hsrc
    · simpa [definedRegister?] using hdest
  case h_2 => exact Reader.chooseForm_eq_ok h
  case h_3 => exact Reader.literalForm_eq_ok h ht
  case h_4 =>
    obtain ⟨⟨value, result⟩, hread, rfl⟩ := map_eq_ok.1 h
    obtain ⟨left, -, -, hresult⟩ := Reader.toRegister_eq_ok hread ht
    refine .unnamed (.unlabelled (by rintro _ ⟨⟩) ?_ rfl) (fun _ => trivial) rfl rfl rfl
    simpa [definedRegister?] using hresult
  case h_5 | h_6 =>
    obtain ⟨⟨name, result⟩, hread, rfl⟩ := map_eq_ok.1 h
    obtain ⟨left, hleft, hname, hresult⟩ := Reader.toRegister_eq_ok hread ht
    cases hname
    refine .of_names (.unlabelled (by rintro _ ⟨⟩) ?_ rfl) (fun _ => ⟨?_, ?_⟩) ?_ rfl rfl
    · simpa [definedRegister?] using hresult
    · simpa using hleft.ne_nil
    · simpa using hleft.bare
    · simpa [Statement.names] using hleft.within
  case h_7 =>
    obtain ⟨⟨src, name⟩, hread, rfl⟩ := map_eq_ok.1 h
    obtain ⟨right, hright, harrow, hname, hsrc⟩ := Reader.fromRegister_eq_ok hread ht
    cases hname
    refine .of_names (.unlabelled ?_ (by rintro _ ⟨⟩) rfl) (fun hfree =>
      ⟨?_, ?_, ?_⟩) ?_ rfl rfl
    · simpa [usedRegisters] using hsrc
    · simpa using hright.ne_nil
    · simpa using hright.bare
    · have hstart : ¬ "-> ".toList <+: right := fun hpre => hfree _ rfl (by simpa using hpre)
      simpa using Reader.noArrow_of_not_prefix harrow hstart
    · simpa [Statement.names] using hright.within
  case h_8 | h_9 =>
    obtain ⟨⟨⟨owner, field⟩, result⟩, hread, rfl⟩ := map_eq_ok.1 h
    obtain ⟨left, hleft, hmember, hresult⟩ := Reader.toRegister_eq_ok hread ht
    obtain ⟨rfl, hlegible⟩ := Reader.member_eq_ok hmember hleft.bare
    refine .of_names (.unlabelled (by rintro _ ⟨⟩) ?_ rfl) (fun _ => hlegible) ?_ rfl rfl
    · simpa [definedRegister?] using hresult
    · simpa [Statement.names] using Reader.member_within hleft.within
  case h_10 =>
    obtain ⟨⟨src, owner, field⟩, hread, rfl⟩ := map_eq_ok.1 h
    obtain ⟨right, hright, harrow, hmember, hsrc⟩ := Reader.fromRegister_eq_ok hread ht
    obtain ⟨rfl, hlegible⟩ := Reader.member_eq_ok hmember hright.bare
    refine .of_names (.unlabelled ?_ (by rintro _ ⟨⟩) rfl) (fun hfree =>
      ⟨hlegible, ?_⟩) ?_ rfl rfl
    · simpa [usedRegisters] using hsrc
    · refine Reader.noArrow_of_not_prefix harrow fun hpre => hfree _ rfl ?_
      exact prefix_of_prefix_append (by decide) hpre
    · simpa [Statement.names] using Reader.member_within hright.within
  case h_11 | h_12 =>
    obtain ⟨⟨⟨object, field⟩, result⟩, hread, rfl⟩ := map_eq_ok.1 h
    obtain ⟨left, hleft, hmember, hresult⟩ := Reader.toRegister_eq_ok hread ht
    obtain ⟨hobject, hbare, hfield⟩ := Reader.objectMember_eq_ok hmember
    refine .of_names (.unlabelled ?_ ?_ rfl) (fun _ => hbare) ?_ rfl rfl
    · simpa [usedRegisters] using hobject
    · simpa [definedRegister?] using hresult
    · simpa [Statement.names] using hfield.trans hleft.within
  case h_13 =>
    obtain ⟨⟨src, object, field⟩, hread, rfl⟩ := map_eq_ok.1 h
    obtain ⟨right, hright, harrow, hmember, hsrc⟩ := Reader.fromRegister_eq_ok hread ht
    obtain ⟨hobject, hbare, hfield⟩ := Reader.objectMember_eq_ok hmember
    refine .of_names (.unlabelled ?_ (by rintro _ ⟨⟩) rfl)
      (fun _ => ⟨hbare, fun hin => harrow (hin.trans hfield)⟩) ?_ rfl rfl
    · simpa [usedRegisters] using ⟨hobject, hsrc⟩
    · simpa [Statement.names] using hfield.trans hright.within
  case h_14 | h_15 =>
    obtain ⟨op, left, right, result, rfl, hleft, hright, hresult⟩ :=
      Reader.operatorForm_eq_ok h
    refine .unnamed (.unlabelled ?_ ?_ rfl) (fun _ => trivial) rfl rfl rfl
    · simpa [usedRegisters] using ⟨hleft, hright⟩
    · simpa [definedRegister?] using hresult
  case h_16 => exact Reader.unaryForm_eq_ok h
  case h_17 => exact Reader.convertForm_eq_ok h ht
  case h_18 => exact Reader.branchForm_eq_ok h
  case h_19 | h_20 =>
    obtain ⟨target, hlabel, rfl⟩ := map_eq_ok.1 h
    refine .unnamed ⟨by rintro _ ⟨⟩, by rintro _ ⟨⟩, ?_⟩ (fun _ => trivial) rfl rfl rfl
    rintro _ ⟨⟩
    exact Reader.label_eq_ok hlabel
  case h_21 => exact Reader.callActualForm_eq_ok h ht
  case h_22 => exact Reader.callVirtualForm_eq_ok h
  case h_23 =>
    obtain ⟨-, h⟩ | ⟨-, h⟩ := ite_eq_ok.1 h
    · cases h
      exact .unnamed (.unlabelled (by rintro _ ⟨⟩) (by rintro _ ⟨⟩) rfl) (fun _ =>
        trivial) rfl rfl rfl
    · obtain ⟨src, hsrc, rfl⟩ := map_eq_ok.1 h
      refine .unnamed (.unlabelled ?_ (by rintro _ ⟨⟩) rfl) (fun _ => trivial) rfl rfl rfl
      simpa [usedRegisters] using Reader.register_eq_ok hsrc
  case h_24 => exact Reader.startScopeForm_eq_ok h ht
  case h_25 =>
    cases h
    refine .of_names (.unlabelled (by rintro _ ⟨⟩) (by rintro _ ⟨⟩) rfl) (fun _ =>
      ?_) ?_ rfl rfl
    · simpa [Legible] using ht
    · simp [Statement.names]
  case h_26 => cases h

theorem ReadFrom.mono {a b : List Char} (h : a <:+: b) (hs : ReadFrom a s) : ReadFrom b s :=
  ⟨hs.numbered, hs.legible, fun name hname => (hs.names name hname).trans h,
    fun type htype => (hs.types type htype).trans h,
    fun value hvalue => (hs.literal value hvalue).trans h⟩

theorem readFrom_of_read (h : read t = .ok s) : ReadFrom t s := by
  exact (readFrom_of_readForm h (bare_trim _)).mono
    ((infix_trim _).trans (cutSpace_within t).2.isInfix)

theorem newline_not_mem_encode (v : List Char) : '\n' ∉ Quoted.encode v := by
  have hescape : ∀ c, '\n' ∉ Quoted.escape c := by
    intro c
    unfold Quoted.escape
    split
    case h_5 _ _ hline _ =>
      rw [List.mem_singleton]
      exact fun heq => hline heq.symm
    all_goals decide
  simp [Quoted.encode, hescape]

theorem newline_not_mem_argumentsText (args : List Register) :
    '\n' ∉ (argumentsText args).toList := by
  rw [argumentsText, String.toList_append, String.toList_append, List.mem_append,
    List.mem_append]
  rintro ((hin | hin) | hin)
  · revert hin
    decide
  · obtain hc | hc | ⟨r, -, hin⟩ := Reader.mem_listText hin
    · cases hc
    · cases hc
    · exact r.not_mem_text rfl (by decide) (by decide) hin
  · revert hin
    decide

theorem newline_not_mem_resultText (result : Option Register) :
    '\n' ∉ (resultText result).toList := by
  cases result with
  | none => simp [resultText]
  | some r => simp [resultText, r.not_mem_text (c := '\n') rfl (by decide) (by decide)]

/-- Only a name, a type or a literal can end the line of a statement. -/
theorem newline_body (h : '\n' ∈ s.body.toList) :
    (∃ name ∈ s.names, '\n' ∈ name.toList) ∨ (∃ type ∈ s.types, '\n' ∈ type.descriptor.toList)
      ∨ ∃ value ∈ s.literal?, '\n' ∈ value.toList := by
  have hregister : ∀ r : Register, '\n' ∉ r.text.toList := fun r =>
    r.not_mem_text rfl (by decide) (by decide)
  have hlabel : ∀ l : Label, '\n' ∉ l.text.toList := fun l => by
    simp [l.toList_text, not_mem_toDigits (c := '\n') rfl]
  have hcomparison : ∀ op : Comparison, '\n' ∉ op.symbol.toList := fun op => by
    cases op <;> decide
  have hbinary : ∀ op : BinaryOp, '\n' ∉ op.symbol.toList := fun op => by cases op <;> decide
  have hunary : ∀ op : UnaryOp, '\n' ∉ op.name.toList := fun op => by cases op <;> decide
  have htruth : ∀ b : Bool, '\n' ∉ (if b then "true" else "false").toList := fun b => by
    cases b <;> decide
  cases s with
  | callActual object owner method args result =>
    unfold body at h
    cases object <;>
      simp [hregister, newline_not_mem_argumentsText, newline_not_mem_resultText] at h <;>
      simpa [Statement.names, types, literal?] using h
  | callVirtual object method args result =>
    unfold body at h
    simp [hregister, newline_not_mem_argumentsText, newline_not_mem_resultText] at h
    simpa [Statement.names, types, literal?] using h
  | _ =>
    unfold body at h
    simp [hregister, hlabel, hcomparison, hbinary, hunary, htruth, newline_not_mem_encode] at h
    try simpa [Statement.names, types, literal?] using h

/-- A statement that was read from a line is written on a line. -/
theorem ReadFrom.newline_not_mem (h : ReadFrom t s) (ht : '\n' ∉ t) :
    '\n' ∉ s.body.toList := by
  intro hin
  obtain ⟨name, hname, hin⟩ | ⟨type, htype, hin⟩ | ⟨value, hvalue, hin⟩ := newline_body hin
  · exact ht ((h.names name hname).subset hin)
  · exact ht ((h.types type htype).subset hin)
  · exact ht ((h.literal value hvalue).subset hin)

end Statement

end Jil
