/-
Jil.Proofs.Symbols — no two functions of a class share a symbol.

A symbol spells the name of its function and, where the class overloads the name,
the descriptors of the parameters behind two underlines. The underline is also
what every escape begins with, and nothing separates the descriptors. Reading
from the left works all the same: an escape goes on with one of the digits `0` to
`3`, so the underline of a slash is told apart as long as no such digit stands
behind the slash (`Spellable`). The two underlines are the spelling of two
slashes, which no name holds; so a long symbol spells one text, and one lemma on
spelling (`eq_of_flatMap_escape`) serves both forms. Descriptors in a row are told
by `Ty.descriptors_inj`.

Names of methods without slash and full stop, and spellable classes without
semicolon, are all that is asked; an empty class name does no harm.
-/
import Jil.Proofs.Descriptors
import Jil.Symbol
import Jil.Selection.Context

namespace Jil

open Jil.Text

/-! ## Digits -/

namespace Text

theorem length_fixedDigits (radix places n : Nat) :
    (fixedDigits radix places n).length = places := by
  induction places generalizing n with
  | zero => rfl
  | succ places ih => simp [fixedDigits, ih]

theorem digitChar_inj {d e : Nat} (hd : d < 16) (he : e < 16) (h : digitChar d = digitChar e) :
    d = e := by
  have hall : ∀ d < 16, ∀ e < 16, digitChar d = digitChar e → d = e := by decide
  exact hall d hd e he h

/-- A number below the range of its places is told by its digits. -/
theorem fixedDigits_inj {places m n : Nat} (hm : m < 16 ^ places) (hn : n < 16 ^ places)
    (h : fixedDigits 16 places m = fixedDigits 16 places n) : m = n := by
  induction places generalizing m n with
  | zero => omega
  | succ places ih =>
    obtain ⟨hhigh, hlow⟩ := List.append_inj' h rfl
    have hdiv : m / 16 = n / 16 := by
      rw [Nat.pow_succ] at hm hn
      exact ih (Nat.div_lt_of_lt_mul (by omega)) (Nat.div_lt_of_lt_mul (by omega)) hhigh
    have hmod : m % 16 = n % 16 :=
      digitChar_inj (Nat.mod_lt _ (by omega)) (Nat.mod_lt _ (by omega)) (List.cons.inj hlow).1
    omega

end Text

namespace Symbol

/-! ## Spelling one character -/

/-- The spelling of a 16-bit unit. -/
def unitSpelling (unit : Nat) : List Char := '_' :: '0' :: fixedDigits 16 4 unit

theorem unitSpelling_append_inj {m n : Nat} {a b : List Char} (hm : m < 0x10000)
    (hn : n < 0x10000) (h : unitSpelling m ++ a = unitSpelling n ++ b) : m = n ∧ a = b := by
  have h' : fixedDigits 16 4 m ++ a = fixedDigits 16 4 n ++ b := by
    simpa [unitSpelling] using h
  obtain ⟨hdigits, hrest⟩ :=
    List.append_inj h' (by rw [length_fixedDigits, length_fixedDigits])
  exact ⟨fixedDigits_inj hm hn hdigits, hrest⟩

/-- The spelling of units begins with an underline and a zero. -/
theorem exists_spelling_units (c : Char) :
    ∃ rest, (units c).flatMap unitSpelling = '_' :: '0' :: rest := by
  simp only [units]
  split <;> exact ⟨_, rfl⟩

/-- A character is no surrogate. -/
theorem not_surrogate (c : Char) : c.toNat < 0xd800 ∨ 0xdfff < c.toNat ∧ c.toNat < 0x110000 :=
  c.valid

/-- The units of different characters differ, whatever follows them. -/
theorem units_append_inj {c d : Char} {a b : List Char}
    (h : (units c).flatMap unitSpelling ++ a = (units d).flatMap unitSpelling ++ b) :
    c = d ∧ a = b := by
  have hc := not_surrogate c
  have hd := not_surrogate d
  suffices c.toNat = d.toNat ∧ a = b from ⟨Char.toNat_inj.1 this.1, this.2⟩
  simp only [units] at h
  split at h <;> split at h <;>
    simp only [List.flatMap_cons, List.flatMap_nil, List.append_nil, List.append_assoc] at h
  · exact unitSpelling_append_inj ‹_› ‹_› h
  · -- one unit against the first of two: that one is a surrogate
    obtain ⟨hfirst, -⟩ := unitSpelling_append_inj ‹_› (by omega) h
    omega
  · obtain ⟨hfirst, -⟩ := unitSpelling_append_inj (by omega) ‹_› h
    omega
  · obtain ⟨hfirst, h⟩ := unitSpelling_append_inj (by omega) (by omega) h
    obtain ⟨hsecond, h⟩ := unitSpelling_append_inj (by omega) (by omega) h
    exact ⟨by omega, h⟩

/-! ## Spelling texts -/

/-- The digits that go on behind the underline of an escape. -/
def escapeDigits : List Char := ['0', '1', '2', '3']

/-- A text that does not go on like an escape. -/
def Apart (s : List Char) : Prop := ∀ d ∈ escapeDigits, s.head? ≠ some d

/-- A text that its spelling tells: it holds no full stop, which is spelled like a slash, and
no slash in front of a digit that would make it an escape. -/
def Spellable (s : List Char) : Prop := '.' ∉ s ∧ ∀ d ∈ escapeDigits, ¬ ['/', d] <:+: s

-- the parts are named: the digits are searched one by one, and not all
-- characters that there are
instance : DecidablePred Spellable := fun s =>
  @instDecidableAnd _ _ (inferInstanceAs (Decidable ('.' ∉ s)))
    (@List.decidableBAll _ _
      (fun d => @instDecidableNot _ (List.instDecidableIsInfixOfDecidableEq ['/', d] s))
      escapeDigits)

theorem apart_cons {c : Char} {s : List Char} : Apart (c :: s) ↔ c ∉ escapeDigits := by
  simp only [Apart, List.head?_cons, ne_eq, Option.some.injEq]
  grind

theorem spellable_cons {c : Char} {s : List Char} :
    Spellable (c :: s) ↔ c ≠ '.' ∧ (c = '/' → Apart s) ∧ Spellable s := by
  have hhead (d : Char) : ['/', d] <+: c :: s ↔ c = '/' ∧ s.head? = some d := by
    rw [List.cons_prefix_cons, eq_comm]
    cases s <;> simp [eq_comm]
  simp only [Spellable, Apart, List.mem_cons, not_or, List.infix_cons_iff, hhead]
  grind

/-- Behind a text may stand what does not go on like an escape. -/
theorem Spellable.append {s t : List Char} (hs : Spellable s) (ht : Spellable t)
    (h : Apart t) :
    Spellable (s ++ t) := by
  induction s with
  | nil => exact ht
  | cons c s ih =>
    obtain ⟨hc, hslash, hs⟩ := spellable_cons.1 hs
    refine spellable_cons.2 ⟨hc, fun heq => ?_, ih hs⟩
    cases s with
    | nil => exact h
    | cons e s => exact apart_cons.2 (apart_cons.1 (hslash heq))

/-- A text without slashes and full stops. -/
theorem spellable_of_not_mem {s : List Char} (hslash : '/' ∉ s) (hdot : '.' ∉ s) :
    Spellable s :=
  ⟨hdot, fun _ _ h => hslash (h.subset (by simp))⟩

/-- A spelling is the character itself, or it begins with an underline. -/
theorem escape_eq_or (c : Char) : escape c = [c] ∨ ∃ rest, escape c = '_' :: rest := by
  fun_cases escape c
  case case5 => exact .inl rfl
  case case6 =>
    obtain ⟨rest, h⟩ := exists_spelling_units c
    exact .inr ⟨_, h⟩
  all_goals exact .inr ⟨_, rfl⟩

theorem escape_ne_nil (c : Char) : escape c ≠ [] := by
  obtain h | ⟨_, h⟩ := escape_eq_or c <;> simp [h]

/-- Spelling brings no digit to the front. -/
theorem Apart.flatMap_escape {s : List Char} (h : Apart s) : Apart (s.flatMap escape) := by
  cases s with
  | nil => exact h
  | cons c s =>
    obtain hc | ⟨rest, hc⟩ := escape_eq_or c
    · rw [List.flatMap_cons, hc]
      exact apart_cons.2 (apart_cons.1 h)
    · rw [List.flatMap_cons, hc]
      exact apart_cons.2 (by decide)

/-- Spellings of different characters differ, whatever follows them. -/
theorem escape_append_inj {c d : Char} {a b : List Char} (hc : c ≠ '.') (hd : d ≠ '.')
    (ha : c = '/' → Apart a) (hb : d = '/' → Apart b) (h : escape c ++ a = escape d ++ b) :
    c = d ∧ a = b := by
  obtain ⟨_, hunits⟩ := exists_spelling_units c
  obtain ⟨_, hunits'⟩ := exists_spelling_units d
  simp only [Apart, escapeDigits, List.forall_mem_cons] at ha hb
  unfold unitSpelling at hunits hunits'
  revert h
  -- the sixth case of `escape` is the one of units
  fun_cases escape c <;> fun_cases escape d <;> intro h
  case case6.case6 => exact units_append_inj h
  all_goals simp only [hunits, hunits', List.cons_append, List.nil_append,
    List.cons.injEq] at h
  all_goals grind

/-- A spellable text is told by its spelling. -/
theorem eq_of_flatMap_escape {s t : List Char} (hs : Spellable s) (ht : Spellable t)
    (h : s.flatMap escape = t.flatMap escape) : s = t := by
  induction s generalizing t with
  | nil =>
    cases t with
    | nil => rfl
    | cons d t => simp [escape_ne_nil] at h
  | cons c s ih =>
    cases t with
    | nil => simp [escape_ne_nil] at h
    | cons d t =>
      obtain ⟨hc, hslash, hs'⟩ := spellable_cons.1 hs
      obtain ⟨hd, hslash', ht'⟩ := spellable_cons.1 ht
      obtain ⟨rfl, hrest⟩ := escape_append_inj hc hd (fun hc => (hslash hc).flatMap_escape)
        (fun hd => (hslash' hd).flatMap_escape) h
      rw [ih hs' ht' hrest]

/-! ## Spelling descriptors -/

/-- The name of a class that a descriptor tells, and that its spelling tells. -/
def ClassName (name : String) : Prop := ';' ∉ name.toList ∧ Spellable name.toList

instance : DecidablePred ClassName := fun _ => inferInstanceAs (Decidable (_ ∧ _))

/-- A type whose class, if it has one, has such a name. -/
def SpellableType (t : Ty) : Prop := ∀ name ∈ t.baseClass?, ClassName name

instance : DecidablePred SpellableType := fun t =>
  inferInstanceAs (Decidable (∀ name ∈ t.baseClass?, ClassName name))

theorem spellable_descriptor {t : Ty} (h : SpellableType t) :
    Spellable t.descriptor.toList := by
  induction t with
  | classRef name =>
    have hname := (h name rfl).2.append (t := [';']) (by decide) (apart_cons.2 (by decide))
    simpa [Ty.descriptor, spellable_cons] using hname
  | array element ih =>
    have helement := ih h
    simpa [Ty.descriptor, spellable_cons] using helement
  | _ => decide

/-- A descriptor does not go on like an escape. -/
theorem apart_descriptor (t : Ty) (s : List Char) : Apart (t.descriptor.toList ++ s) := by
  cases t <;> simp [Ty.descriptor, apart_cons, escapeDigits]

theorem apart_descriptors (ts : List Ty) : Apart (ts.flatMap (·.descriptor.toList)) := by
  cases ts with
  | nil => simp [Apart]
  | cons t ts => exact apart_descriptor t _

theorem spellable_descriptors {ts : List Ty} (h : ∀ t ∈ ts, SpellableType t) :
    Spellable (ts.flatMap (·.descriptor.toList)) := by
  induction ts with
  | nil => decide
  | cons t ts ih =>
    obtain ⟨ht, hts⟩ := List.forall_mem_cons.1 h
    exact (spellable_descriptor ht).append (ih hts) (apart_descriptors ts)

/-! ## Symbols of methods -/

/-- The text that a symbol spells behind its class: the two underlines of the long form are two
slashes. -/
def methodSpelled (method : String) : Option (List Ty) → List Char
  | some params => method.toList ++ '/' :: '/' :: params.flatMap (·.descriptor.toList)
  | none => method.toList

theorem toList_ofMethod (owner method : String) (overload : Option (List Ty)) :
    (ofMethod owner method overload).toList
      = ("Java_" ++ mangle owner ++ "_").toList ++ (methodSpelled method overload).flatMap
        escape := by
  have hslash : escape '/' = ['_'] := rfl
  cases overload with
  | none => simp [ofMethod, methodSpelled, mangle]
  | some params =>
    simp [ofMethod, methodSpelled, mangle, hslash, List.flatMap_map, List.flatMap_assoc]

theorem spellable_methodSpelled {method : String} {overload : Option (List Ty)}
    (hslash : '/' ∉ method.toList) (hdot : '.' ∉ method.toList)
    (h : ∀ params ∈ overload, ∀ t ∈ params, SpellableType t) :
    Spellable (methodSpelled method overload) := by
  have hmethod := spellable_of_not_mem hslash hdot
  cases overload with
  | none => exact hmethod
  | some params =>
    have hparams := spellable_descriptors (h params rfl)
    refine hmethod.append ?_ (apart_cons.2 (by decide))
    simp only [spellable_cons]
    exact ⟨by decide, fun _ => apart_cons.2 (by decide), by decide,
      fun _ => apart_descriptors params, hparams⟩

/-- Behind one class, a symbol of a method tells its name and its parameters. -/
theorem ofMethod_inj {owner method method' : String} {overload overload' : Option (List Ty)}
    (hslash : '/' ∉ method.toList) (hslash' : '/' ∉ method'.toList)
    (hdot : '.' ∉ method.toList) (hdot' : '.' ∉ method'.toList)
    (hparams : ∀ params ∈ overload, ∀ t ∈ params, SpellableType t)
    (hparams' : ∀ params ∈ overload', ∀ t ∈ params, SpellableType t)
    (h : ofMethod owner method overload = ofMethod owner method' overload') :
    method = method' ∧ overload = overload' := by
  have hspelled : methodSpelled method overload = methodSpelled method' overload' := by
    refine eq_of_flatMap_escape (spellable_methodSpelled hslash hdot hparams)
      (spellable_methodSpelled hslash' hdot' hparams') ?_
    rw [← String.toList_inj, toList_ofMethod, toList_ofMethod] at h
    exact List.append_cancel_left h
  cases overload with
  | none =>
    cases overload' with
    | none => exact ⟨String.toList_inj.1 hspelled, rfl⟩
    | some params' =>
      rw [methodSpelled, methodSpelled] at hspelled
      exact absurd (by rw [hspelled]; simp) hslash
  | some params =>
    cases overload' with
    | none =>
      rw [methodSpelled, methodSpelled] at hspelled
      exact absurd (by rw [← hspelled]; simp) hslash'
    | some params' =>
      obtain ⟨hmethod, hrest⟩ := append_char_inj hslash hslash' hspelled
      have hlists :=
        Ty.descriptors_inj (fun t ht name hname => (hparams params rfl t ht name hname).1)
        (fun t ht name hname => (hparams' params' rfl t ht name hname).1)
          (List.cons.inj hrest).2
      exact ⟨String.toList_inj.1 hmethod, by rw [hlists]⟩

end Symbol

/-! ## Symbols of functions -/

/-- A function whose symbol can tell its name and its parameters. -/
structure Function.Exportable (f : Function) : Prop where
  slash : '/' ∉ f.name.toList
  dot : '.' ∉ f.name.toList
  /-- The classes of the parameters. -/
  classes : ∀ t ∈ f.paramTypes, Symbol.SpellableType t

namespace ClassUnit

/-- The parameter types that the symbol of a function spells. -/
def overload (u : ClassUnit) (f : Function) : Option (List Ty) :=
  if 1 < u.functions.countP (·.name = f.name) then some f.paramTypes else none

theorem functionSymbol_eq (u : ClassUnit) (abi : Machine.Abi) (f : Function) :
    u.functionSymbol abi f = abi.symbol (Symbol.ofMethod u.name f.name (u.overload f)) := by
  simp [functionSymbol, overload]

theorem eq_paramTypes_of_overload {u : ClassUnit} {f : Function} {params : List Ty}
    (h : u.overload f = some params) : params = f.paramTypes := by
  unfold overload at h
  split at h
  · exact (Option.some.inj h).symm
  · cases h

theorem spellable_of_overload {u : ClassUnit} {f : Function} (h : f.Exportable) :
    ∀ params ∈ u.overload f, ∀ t ∈ params, Symbol.SpellableType t := by
  intro params hparams
  rw [eq_paramTypes_of_overload hparams]
  exact h.classes

/-- Without the long form a function is the only one of its name. -/
theorem eq_of_overload_eq_none {u : ClassUnit} {f g : Function} (hf : f ∈ u.functions)
    (hg : g ∈ u.functions) (h : u.overload f = none) (hname : g.name = f.name) : f = g := by
  have hcount : u.functions.countP (·.name = f.name) ≤ 1 := by
    unfold overload at h
    split at h
    · cases h
    · omega
  have hf' : f ∈ u.functions.filter (·.name = f.name) := by simpa using hf
  have hg' : g ∈ u.functions.filter (·.name = f.name) := by simpa [hname] using hg
  rw [List.countP_eq_length_filter] at hcount
  match hfilter : u.functions.filter (·.name = f.name) with
  | [] =>
    rw [hfilter] at hf'
    cases hf'
  | [e] =>
    rw [hfilter, List.mem_singleton] at hf' hg'
    rw [hf', hg']
  | _ :: _ :: _ => simp [hfilter] at hcount

/-- The symbol of a function tells its name and its parameters. -/
theorem key_eq_of_functionSymbol_eq {u : ClassUnit} {abi : Machine.Abi} {f g : Function}
    (hf : f ∈ u.functions) (hg : g ∈ u.functions) (ef : f.Exportable) (eg : g.Exportable)
    (h : u.functionSymbol abi f = u.functionSymbol abi g) : f.key = g.key := by
  rw [functionSymbol_eq, functionSymbol_eq] at h
  obtain ⟨hname, hoverload⟩ := Symbol.ofMethod_inj ef.slash eg.slash ef.dot eg.dot
    (spellable_of_overload ef) (spellable_of_overload eg) ((String.append_right_inj _).1 h)
  cases hlong : u.overload f with
  | none => rw [eq_of_overload_eq_none hf hg hlong hname.symm]
  | some params =>
    have hparams := eq_paramTypes_of_overload hlong
    have hparams' := eq_paramTypes_of_overload (hoverload ▸ hlong)
    rw [Function.key, Function.key, hname, ← hparams, ← hparams']

/-- Functions of a class that differ in name or in parameter types have different symbols. -/
theorem functionSymbol_ne {u : ClassUnit} {abi : Machine.Abi} {f g : Function}
    (hf : f ∈ u.functions) (hg : g ∈ u.functions) (ef : f.Exportable) (eg : g.Exportable)
    (h : f.name ≠ g.name ∨ f.paramTypes ≠ g.paramTypes) :
    u.functionSymbol abi f ≠ u.functionSymbol abi g := by
  intro heq
  have hkey := key_eq_of_functionSymbol_eq hf hg ef eg heq
  obtain ⟨hname, hparams⟩ := MethodKey.mk.inj hkey
  exact h.elim (· hname) (· hparams)

/-- A static method without statements. -/
def bareMethod (name : String) (types : List Ty) : Function where
  name := name
  kind := .static
  params := types.map fun t => ⟨t, "p"⟩
  returns := .void

/-- A class that overloads a name, once without parameters, beside a name that ends
like the long form does. -/
def alikeUnit : ClassUnit :=
  (((ClassUnit.create "pkg/Alike").addFunction (bareMethod "a" [])).addFunction
    (bareMethod "a" [.array (.classRef "pkg/a_1")])).addFunction (bareMethod "a__" [])

/-- The two underlines of an overload are not those of a name. -/
theorem overload_symbol_ne_name_symbol :
    bareMethod "a" [] ∈ alikeUnit.functions
    ∧ bareMethod "a" [.array (.classRef "pkg/a_1")] ∈ alikeUnit.functions
    ∧ bareMethod "a__" [] ∈ alikeUnit.functions
    ∧ alikeUnit.functionSymbol .systemV (bareMethod "a" [])
        ≠ alikeUnit.functionSymbol .systemV (bareMethod "a__" [])
    ∧ alikeUnit.functionSymbol .systemV (bareMethod "a" [])
        ≠ alikeUnit.functionSymbol .systemV
          (bareMethod "a" [.array (.classRef "pkg/a_1")]) := by
  have hall : alikeUnit.functions = [bareMethod "a" [],
      bareMethod "a" [.array (.classRef "pkg/a_1")], bareMethod "a__" []] := rfl
  have hshort : bareMethod "a" [] ∈ alikeUnit.functions := by simp [hall]
  have hlong : bareMethod "a" [.array (.classRef "pkg/a_1")] ∈ alikeUnit.functions := by
    simp [hall]
  have hname : bareMethod "a__" [] ∈ alikeUnit.functions := by simp [hall]
  have eshort : (bareMethod "a" []).Exportable := ⟨by decide, by decide, by decide⟩
  have elong : (bareMethod "a" [.array (.classRef "pkg/a_1")]).Exportable :=
    ⟨by decide, by decide, by decide +kernel⟩
  have ename : (bareMethod "a__" []).Exportable := ⟨by decide, by decide, by decide⟩
  exact ⟨hshort, hlong, hname, functionSymbol_ne hshort hname eshort ename (.inl (by decide)),
    functionSymbol_ne hshort hlong eshort elong (.inr (by decide))⟩

end ClassUnit

end Jil
