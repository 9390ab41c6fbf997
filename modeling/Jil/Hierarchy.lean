/-
Jil.Hierarchy — superclasses, interfaces and assignability.

A hierarchy records, for each declared class, its superclass and its
interfaces; nothing forbids cycles or classes that are named but not declared.

* `isSubclass` searches the relation that superclasses and interfaces span,
* `superclassChain` follows superclasses until they end or repeat,
* `lineage` follows them for at most `lineageLimit` classes,
* `canAssign` is assignability between types,
* `commonSupertype?` is the type that a merge of two references gets.
-/
import Jil.Table
import Jil.Ty

namespace Jil

/-- What is declared about one class. -/
structure ClassEntry where
  superclass : Option String
  interfaces : List String
  deriving DecidableEq, Repr

/-- The classes from which a class inherits directly, interfaces last. -/
def ClassEntry.parents (e : ClassEntry) : List String :=
  e.superclass.toList ++ e.interfaces

/-- The declared classes. -/
structure ClassHierarchy where
  classes : Table String ClassEntry := .empty
  deriving Repr, Inhabited

namespace ClassHierarchy

/-- The hierarchy without classes. -/
def empty : ClassHierarchy := {}

/-- Declares a class; an earlier declaration of it is forgotten. -/
def declare (h : ClassHierarchy) (name : String) (superclass : Option String)
    (interfaces : List String) : ClassHierarchy :=
  ⟨h.classes.insert name ⟨superclass, interfaces⟩⟩

/-- The declared superclass of a class. -/
def superclass? (h : ClassHierarchy) (name : String) : Option String :=
  (h.classes.get? name).bind ClassEntry.superclass

/-- The declared parents of a class; none when the class is not declared. -/
def parents (h : ClassHierarchy) (name : String) : List String :=
  ((h.classes.get? name).map ClassEntry.parents).getD []

/-! ## Subclasses -/

/-- How much of the hierarchy lies outside `seen`: one for each declared class and one for each
of its parents. -/
def unseenWeight (seen : List String) : List (String × ClassEntry) → Nat
  | [] => 0
  | e :: r => (if e.1 ∈ seen then 0 else 1 + e.2.parents.length) + unseenWeight seen r

theorem unseenWeight_cons_le (seen : List String) (c : String)
    (entries : List (String × ClassEntry)) :
    unseenWeight (c :: seen) entries ≤ unseenWeight seen entries := by
  induction entries with
  | nil => exact Nat.le_refl _
  | cons e r ih =>
    simp only [unseenWeight, List.mem_cons]
    by_cases h₁ : e.1 ∈ seen
    · simp only [h₁, or_true, if_true]; omega
    · by_cases h₂ : e.1 = c
      · simp only [h₂, true_or, if_true]; omega
      · simp only [h₁, h₂, or_false, if_false]; omega

theorem unseenWeight_visit (seen : List String) (c : String) (entry : ClassEntry)
    (entries : List (String × ClassEntry)) (declared : entries.lookup c = some entry)
    (new : c ∉ seen) :
    unseenWeight (c :: seen) entries + 1 + entry.parents.length
      ≤ unseenWeight seen entries := by
  induction entries with
  | nil => simp at declared
  | cons e r ih =>
    obtain ⟨i, w⟩ := e
    by_cases h : c = i
    · subst h
      have hw : w = entry := by simpa using declared
      subst hw
      have := unseenWeight_cons_le seen c r
      simp only [unseenWeight, List.mem_cons, true_or, if_true, new, if_false]
      omega
    · have hb : (c == i) = false := by simpa using h
      have hr : r.lookup c = some entry := by simpa [List.lookup_cons, hb] using declared
      have := ih hr
      have h₂ : ¬ i = c := fun q => h q.symm
      by_cases h₁ : i ∈ seen
      · simp only [unseenWeight, List.mem_cons, h₁, or_true, if_true]; omega
      · simp only [unseenWeight, List.mem_cons, h₁, h₂, or_false, if_false]; omega

/-- Searches the classes that `work` and its ancestors name for `target`, without looking
behind the classes in `seen`. -/
def search (h : ClassHierarchy) (target : String) (seen work : List String) : Bool :=
  match work with
  | [] => false
  | c :: rest =>
    if c = target then true
    else if c ∈ seen then h.search target seen rest
    else h.search target (c :: seen) (h.parents c ++ rest)
termination_by unseenWeight seen h.classes.entries + work.length
decreasing_by
  · simp only [List.length_cons]; omega
  · next hnew =>
    have hle := unseenWeight_cons_le seen c h.classes.entries
    simp only [List.length_append, List.length_cons, parents]
    cases found : h.classes.get? c with
    | none => simp only [Option.map_none, Option.getD_none, List.length_nil]; omega
    | some entry =>
      have := unseenWeight_visit seen c entry h.classes.entries found hnew
      simp only [Option.map_some, Option.getD_some]
      omega

/-- Whether `sub` is `sup` or inherits from it; every class inherits from the root class. -/
def isSubclass (h : ClassHierarchy) (sub sup : String) : Bool :=
  sup = objectClass || h.search sup [] [sub]

/-! ## Superclasses in order -/

/-- The class and its superclasses in order, ending before a class of `seen`. -/
def chainOutside (h : ClassHierarchy) (seen : List String) (name : String) : List String :=
  if _new : name ∈ seen then []
  else
    match _found : h.superclass? name with
    | none => [name]
    | some parent => name :: h.chainOutside (name :: seen) parent
termination_by unseenWeight seen h.classes.entries
decreasing_by
  simp only [superclass?, Option.bind_eq_some_iff] at _found
  obtain ⟨entry, declared, -⟩ := _found
  have := unseenWeight_visit seen name entry h.classes.entries declared _new
  omega

/-- The class and its superclasses, each once. -/
def superclassChain (h : ClassHierarchy) (name : String) : List String :=
  h.chainOutside [] name

/-- The class and up to `limit - 1` superclasses. -/
def lineageUpTo (h : ClassHierarchy) : Nat → String → List String
  | 0, _ => []
  | limit + 1, name =>
    name :: match h.superclass? name with
      | none => []
      | some parent => h.lineageUpTo limit parent

/-- Number of classes that a member is looked up in. -/
def lineageLimit : Nat := 64

/-- The classes in which a member of a class is looked up, nearest first. -/
def lineage (h : ClassHierarchy) (name : String) : List String :=
  h.lineageUpTo lineageLimit name

/-! ## Types -/

/-- Whether a value of type `src` may be stored where `dest` is declared. The null type goes to
every reference, every reference to the root class, a class to its ancestors, and an array to
an array when both elements are references and assignable. -/
def canAssign (h : ClassHierarchy) (dest src : Ty) : Bool :=
  dest = src ||
    match dest, src with
    | d, .null => d.isReference
    | .classRef d, s =>
      if d = objectClass then s.isReference
      else match s with
        | .classRef s => h.isSubclass s d
        | _ => false
    | .array d, .array s => d.isReference && s.isReference && h.canAssign d s
    | _, _ => false

/-- The type of a value that is one of two references: the other type for a null reference, the
nearest common superclass of two classes, and otherwise the root class. Primitive types have a
common type only when they are equal. -/
def commonSupertype? (h : ClassHierarchy) (a b : Ty) : Option Ty :=
  if a = b then some a
  else if a.isPrimitive || b.isPrimitive then none
  else
    match a, b with
    | .null, other => some other
    | other, .null => some other
    | .classRef x, .classRef y =>
      let ancestors := h.superclassChain x
      let shared := (h.superclassChain y).find? (· ∈ ancestors)
      some (.classRef (shared.getD objectClass))
    | _, _ => some .object

end ClassHierarchy

end Jil
