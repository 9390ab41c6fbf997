/-
Jil.Proofs.NameFamilies — the names in assembly text come in families that never meet.

Symbols hold no full stop and labels do. A label of a function begins with `.LF`,
the place of the function and an underline (`LabelOf`), and goes on with a number,
with `e` and a number, or with `exit`; a constant begins with `.LC`. The symbol of
the static members ends in a way in which that of a function cannot end
(`Symbol.ofStatics_ne_functionSymbol`), although a method may be called `static`.
-/
import Jil.Proofs.DefinedNames
import Jil.Proofs.Labels
import Jil.Proofs.Symbols

namespace Jil

open Machine (Abi)

/-! ## Names -/

namespace Assembly

/-- Letters, digits and underlines. -/
def IsSymbol (s : String) : Prop := ∀ c ∈ s.toList, c.isAlphanum = true ∨ c = '_'

instance : DecidablePred IsSymbol := fun s => List.decidableBAll _ s.toList

namespace IsSymbol

variable {s t : String}

theorem isName (h : IsSymbol s) : IsName s := fun c hc => (h c hc).imp_right .inl

theorem append (hs : IsSymbol s) (ht : IsSymbol t) : IsSymbol (s ++ t) := by
  intro c hc
  rw [String.toList_append, List.mem_append] at hc
  exact hc.elim (hs c) (ht c)

/-- Labels are no symbols. -/
theorem ne_of_dot (h : IsSymbol s) (ht : '.' ∈ t.toList) : s ≠ t := by
  rintro rfl
  exact absurd (h _ ht) (by decide)

end IsSymbol

theorem isName_nat (n : Nat) : IsName (toString n) := by
  intro c hc
  rw [Text.toList_toString_nat] at hc
  have hdigit := Nat.isDigit_of_mem_toDigits (by decide) (by decide) hc
  exact .inl (by simp [Char.isAlphanum, hdigit])

theorem toString_nat_inj {m n : Nat} (h : toString m = toString n) : m = n := by
  have h := congrArg String.toList h
  rw [Text.toList_toString_nat, Text.toList_toString_nat] at h
  rw [← Nat.ofDigitChars_ten_toDigits (n := m), h, Nat.ofDigitChars_ten_toDigits]

namespace StringTable

theorem isName_labelAt (k : Nat) : IsName (labelAt k) :=
  IsName.append (s := ".LC") (by decide) (isName_nat k)

theorem labelAt_inj {k k' : Nat} (h : labelAt k = labelAt k') : k = k' :=
  toString_nat_inj ((String.append_right_inj _).1 h)

theorem dot_mem_labelAt (k : Nat) : '.' ∈ (labelAt k).toList := by simp [labelAt]

theorem map_fst_entries (t : StringTable) :
    t.entries.map Prod.fst = (List.range t.size).map labelAt := by
  exact List.ext_getElem (by simp [entries, size]) fun n _ _ => by simp [entries]

theorem nodup_labels (t : StringTable) : (t.entries.map Prod.fst).Nodup := by
  rw [map_fst_entries, List.Nodup, List.pairwise_map]
  exact List.nodup_range.imp fun hne heq => hne (labelAt_inj heq)

end StringTable

end Assembly

open Assembly (IsName IsSymbol StringTable isName_nat toString_nat_inj)

namespace Symbol

open Text (digitChar fixedDigits)

theorem isAlphanum_of_mem_fixedDigits {places n : Nat} {c : Char}
    (h : c ∈ fixedDigits 16 places n) :
    c.isAlphanum = true := by
  have hdigit : ∀ d < 16, (digitChar d).isAlphanum = true := by decide
  obtain ⟨d, hd, rfl⟩ := Text.mem_fixedDigits (by decide) h
  exact hdigit d hd

/-- What a character is spelled with. -/
theorem of_mem_escape {c d : Char} (h : d ∈ escape c) : d.isAlphanum = true ∨ d = '_' := by
  revert h
  fun_cases escape c
  case case5 halphanum =>
    intro h
    exact .inl (List.mem_singleton.1 h ▸ halphanum)
  case case6 =>
    intro h
    obtain ⟨unit, -, h⟩ := List.mem_flatMap.1 h
    obtain rfl | h := List.mem_cons.1 h
    · exact .inr rfl
    · obtain rfl | h := List.mem_cons.1 h
      · exact .inl rfl
      · exact .inl (isAlphanum_of_mem_fixedDigits h)
  all_goals
    -- an underline, and behind it the number of the escape if it has one
    intro h
    obtain rfl | h := List.mem_cons.1 h
    · exact .inr rfl
    · first | exact .inl (List.mem_singleton.1 h ▸ rfl) | cases h

theorem isSymbol_spelling (s : List Char) : IsSymbol (String.ofList (s.flatMap escape)) := by
  intro c hc
  rw [String.toList_ofList, List.mem_flatMap] at hc
  obtain ⟨d, -, hd⟩ := hc
  exact of_mem_escape hd

variable {abi : Abi}

theorem isSymbol_symbolStart (habi : abi ∈ Abi.all) : IsSymbol abi.symbolStart := by
  have hall : ∀ abi ∈ Abi.all, IsSymbol abi.symbolStart := by decide
  exact hall abi habi

theorem isSymbol_ofStatics (habi : abi ∈ Abi.all) (owner : String) :
    IsSymbol (ofStatics abi owner) :=
  (isSymbol_symbolStart habi).append <| (isSymbol_spelling _).append (by decide)

theorem isSymbol_ofMethod (owner method : String) (overload : Option (List Ty)) :
    IsSymbol (ofMethod owner method overload) := by
  intro c hc
  have howner : IsSymbol ("Java_" ++ mangle owner ++ "_") := by
    refine IsSymbol.append (IsSymbol.append ?_ (isSymbol_spelling _)) ?_ <;> decide
  rw [toList_ofMethod, List.mem_append] at hc
  refine hc.elim (howner c) fun hc => isSymbol_spelling (methodSpelled method overload) c ?_
  rwa [String.toList_ofList]

theorem isSymbol_functionSymbol (habi : abi ∈ Abi.all) (u : ClassUnit) (f : Function) :
    IsSymbol (u.functionSymbol abi f) := by
  rw [ClassUnit.functionSymbol_eq]
  exact (isSymbol_symbolStart habi).append (isSymbol_ofMethod _ _ _)

/-- A function has never the symbol of the static members: with five more characters
in front of the class there is room for one behind it, and what stands in front of
that is an underline. -/
theorem ofStatics_ne_functionSymbol (u : ClassUnit) (f : Function) :
    ofStatics abi u.name ≠ u.functionSymbol abi f := by
  intro h
  rw [ClassUnit.functionSymbol_eq] at h
  have h := congrArg String.toList ((String.append_right_inj _).1 h)
  rw [toList_ofMethod] at h
  generalize (methodSpelled f.name (u.overload f)).flatMap escape = rest at h
  have hlist : ((mangle u.name).toList ++ ['_', 's', 't', 'a', 't']) ++ ['i'] ++ ['c']
      = ("Java_".toList ++ (mangle u.name).toList) ++ ['_'] ++ rest := by
    simpa using h
  have hlength : rest.length = 1 := by
    have := congrArg List.length hlist
    simp at this
    omega
  obtain ⟨hfront, -⟩ := List.append_inj' hlist hlength.symm
  obtain ⟨-, hlast⟩ := List.append_inj' hfront rfl
  exact absurd hlast (by decide)

end Symbol

namespace Selection

/-- A label of the function at a position. -/
def LabelOf (position : Nat) (name : String) : Prop :=
  ∃ rest, IsName rest ∧ name = labelStart position ++ "_" ++ rest

namespace LabelOf

variable {position : Nat} {name : String}

theorem isName (h : LabelOf position name) : IsName name := by
  obtain ⟨rest, hrest, rfl⟩ := h
  refine .append (.append (.append ?_ (isName_nat _)) ?_) hrest <;> decide

theorem dot_mem (h : LabelOf position name) : '.' ∈ name.toList := by
  obtain ⟨rest, -, rfl⟩ := h
  simp [labelStart]

/-- A label belongs to one function. -/
theorem position_eq {other : Nat} (h : LabelOf position name) (h' : LabelOf other name) :
    position = other := by
  obtain ⟨rest, -, rfl⟩ := h
  obtain ⟨rest', -, heq⟩ := h'
  have hlist : (toString position).toList ++ '_' :: rest.toList
      = (toString other).toList ++ '_' :: rest'.toList := by
    have := congrArg String.toList heq
    simpa [labelStart] using this
  have hdigits : ∀ n : Nat, '_' ∉ (toString n).toList := fun n => by
    rw [Text.toList_toString_nat]
    exact Text.not_mem_toDigits rfl
  exact toString_nat_inj
    (String.toList_inj.1 (Text.append_char_inj (hdigits _) (hdigits _) hlist).1)

theorem ne_labelAt (h : LabelOf position name) (k : Nat) : name ≠ StringTable.labelAt k := by
  obtain ⟨rest, -, rfl⟩ := h
  intro heq
  have hlist := congrArg String.toList heq
  simp [labelStart, StringTable.labelAt] at hlist

end LabelOf

variable {scope : Scope} {index : Nat} {l : List Statement} {name : String}

theorem labelOf_label (n : Label) : LabelOf scope.position (scope.label n) :=
  ⟨_, isName_nat _, rfl⟩

theorem labelOf_edgeLabel (edge : Nat) : LabelOf scope.position (scope.edgeLabel edge) :=
  ⟨"e" ++ toString edge, .append (by decide) (isName_nat _), by
    simp [Scope.edgeLabel, ← String.toList_inj]⟩

theorem labelOf_exitLabel (position : Nat) : LabelOf position (exitLabel position) :=
  ⟨"exit", by decide, by simp [exitLabel, String.append_assoc]⟩

theorem label_inj {n n' : Label} (h : scope.label n = scope.label n') : n = n' := by
  have hindex := toString_nat_inj ((String.append_right_inj _).1 h)
  cases n
  cases n'
  exact congrArg _ hindex

theorem label_ne_exitLabel {n : Label} : scope.label n ≠ exitLabel scope.position := by
  intro h
  have h := congrArg String.toList h
  rw [toList_label, toList_exitLabel, List.append_cancel_left_eq, List.cons.injEq] at h
  exact Text.not_mem_toDigits (c := 'e') rfl (h.2 ▸ List.mem_cons_self)

/-- The labels of a body are those of its label statements and of its edges. -/
theorem of_mem_bodyLabels (h : name ∈ bodyLabels scope index l) :
    (∃ n ∈ l.filterMap Statement.placedLabel?, name = scope.label n)
      ∨ ∃ edge, index ≤ edge ∧ name = scope.edgeLabel edge := by
  induction l generalizing index with
  | nil => cases h
  | cons s l ih =>
    rcases List.mem_append.1 h with h | h
    · cases s with
      | label n => exact .inl ⟨n, by simp [Statement.placedLabel?], List.mem_singleton.1 h⟩
      | branch condition expected target =>
        simp only [statementLabels] at h
        split at h
        · cases h
        · exact .inr ⟨index, Nat.le_refl _, List.mem_singleton.1 h⟩
      | _ => cases h
    · obtain ⟨n, hn, rfl⟩ | ⟨edge, hedge, rfl⟩ := ih h
      · refine .inl ⟨n, ?_, rfl⟩
        rw [List.filterMap_cons]
        split
        · exact hn
        · exact List.mem_cons_of_mem _ hn
      · exact .inr ⟨edge, by omega, rfl⟩

theorem labelOf_of_mem_bodyLabels (h : name ∈ bodyLabels scope index l) :
    LabelOf scope.position name := by
  obtain ⟨n, -, rfl⟩ | ⟨edge, -, rfl⟩ := of_mem_bodyLabels h
  · exact labelOf_label n
  · exact labelOf_edgeLabel edge

theorem exitLabel_not_mem_bodyLabels :
    exitLabel scope.position ∉ bodyLabels scope index l := by
  intro h
  obtain ⟨n, -, heq⟩ | ⟨edge, -, heq⟩ := of_mem_bodyLabels h
  · exact label_ne_exitLabel heq.symm
  · exact edgeLabel_ne_exitLabel heq.symm

/-- A body that places no label twice has code that places no label twice. -/
theorem nodup_bodyLabels (h : (l.filterMap Statement.placedLabel?).Nodup) :
    (bodyLabels scope index l).Nodup := by
  induction l generalizing index with
  | nil => exact .nil
  | cons s l ih =>
    cases s with
    | label n =>
      obtain ⟨hn, h⟩ := List.nodup_cons.1 h
      refine List.nodup_cons.2 ⟨fun hmem => ?_, ih h⟩
      obtain ⟨n', hn', heq⟩ | ⟨edge, -, heq⟩ := of_mem_bodyLabels hmem
      · exact hn (label_inj heq ▸ hn')
      · exact label_ne_edgeLabel heq
    | branch condition expected target =>
      have h : (l.filterMap Statement.placedLabel?).Nodup := h
      simp only [bodyLabels, statementLabels]
      split
      · exact ih h
      · exact List.nodup_cons.2 ⟨edgeLabel_not_mem_bodyLabels (Nat.lt_succ_self _), ih h⟩
    | _ => exact ih h

end Selection

end Jil
