/-
Jil.Proofs.Assignability — which values may be stored where.

`Assigns` is assignability as a relation: one rule for equal types, one for null
references, one for the root class, one for classes, and one for arrays, whose
elements follow the same rules. `canAssign` decides it (`canAssign_iff`).

The relation is reflexive, and it is transitive exactly where nothing stands
above the root class (`RootOnTop`). The root class takes every reference, so
through it a class above it would take arrays, which it does not
(`rootOnTop_of_trans`).
-/
import Jil.Proofs.Ancestry

namespace Jil

namespace ClassHierarchy

variable {h : ClassHierarchy}

/-! ## Assignability as a relation -/

/-- `h.Assigns dest src` says that a value of type `src` may be stored where `dest` is
declared. -/
inductive Assigns (h : ClassHierarchy) : Ty → Ty → Prop
  | same (t : Ty) : Assigns h t t
  | null {dest : Ty} : dest.isReference = true → Assigns h dest .null
  | object {src : Ty} : src.isReference = true → Assigns h .object src
  | classes {sup sub : String} : h.Inherits sub sup → Assigns h (.classRef sup) (.classRef sub)
  | arrays {dest src : Ty} : dest.isReference = true → src.isReference = true →
      Assigns h dest src → Assigns h (.array dest) (.array src)

theorem assigns_of_canAssign {dest src : Ty} (hok : h.canAssign dest src = true) :
    h.Assigns dest src := by
  fun_induction h.canAssign dest src with
  | case1 dest src ih =>
    rw [Bool.or_eq_true, decide_eq_true_eq] at hok
    rcases hok with rfl | hok
    · exact .same _
    · split at hok
      · exact .null hok
      · split at hok
        · next hroot =>
          subst hroot
          exact .object hok
        · next hroot =>
          split at hok
          · exact .classes ((isSubclass_iff.1 hok).resolve_left hroot)
          · cases hok
      · rw [Bool.and_eq_true, Bool.and_eq_true] at hok
        exact .arrays hok.1.1 hok.1.2 (ih hok.2)
      · cases hok

theorem canAssign_of_assigns {dest src : Ty} (hassigns : h.Assigns dest src) :
    h.canAssign dest src = true := by
  induction hassigns with
  | same t => rw [canAssign.eq_def, decide_eq_true rfl, Bool.true_or]
  | @null dest href => cases dest <;> first | rfl | cases href
  | @object src href => cases src <;> first | exact Bool.or_true _ | cases href
  | @classes sup sub hinherits =>
    have hsub := isSubclass_iff.2 (.inr hinherits)
    rw [canAssign.eq_def, Bool.or_eq_true]
    right
    change (if sup = objectClass then true else h.isSubclass sub sup) = true
    rw [hsub, ite_self]
  | arrays hdest hsrc _ ih =>
    rw [canAssign.eq_def, Bool.or_eq_true]
    right
    simp only [hdest, hsrc, ih, Bool.and_self]

theorem canAssign_iff {dest src : Ty} : h.canAssign dest src = true ↔ h.Assigns dest src :=
  ⟨assigns_of_canAssign, canAssign_of_assigns⟩

/-- A value may be stored as a reference exactly when it is one. -/
theorem Assigns.isReference_eq {dest src : Ty} (hassigns : h.Assigns dest src) :
    dest.isReference = src.isReference := by
  cases hassigns with
  | same => rfl
  | null href => exact href
  | object href => exact href.symm
  | classes | arrays => rfl

/-! ## The root class -/

/-- Nothing but the root class itself stands directly above the root class. -/
def RootOnTop (h : ClassHierarchy) : Prop := ∀ p, h.Edge objectClass p → p = objectClass

theorem RootOnTop.eq_of_inherits (hroot : h.RootOnTop) {c : String}
    (hinherits : h.Inherits objectClass c) : c = objectClass := by
  induction hinherits with
  | refl => rfl
  | tail _ hedge ih =>
    subst ih
    exact hroot _ hedge

theorem Assigns.trans (hroot : h.RootOnTop) {a b c : Ty} (hab : h.Assigns a b)
    (hbc : h.Assigns b c) : h.Assigns a c := by
  induction hab generalizing c with
  | same => exact hbc
  | null href =>
    -- a null reference is the only value that may be stored as one
    cases hbc with
    | same | null => exact .null href
  | object href => exact .object (hbc.isReference_eq ▸ href)
  | classes hinherits =>
    cases hbc with
    | same => exact .classes hinherits
    | null => exact .null rfl
    | object href =>
      obtain rfl := hroot.eq_of_inherits hinherits
      exact .object href
    | classes hmore => exact .classes (hmore.trans hinherits)
  | arrays hdest hsrc helements ih =>
    cases hbc with
    | same => exact .arrays hdest hsrc helements
    | null => exact .null rfl
    | arrays _ hsrc' hmore => exact .arrays hdest hsrc' (ih hmore)

/-- A class above the root class takes objects of the root class, which may be arrays,
but it takes no array. -/
theorem rootOnTop_of_trans
    (htrans : ∀ a b c, h.Assigns a b → h.Assigns b c → h.Assigns a c) : h.RootOnTop := by
  intro p hedge
  have harray : h.Assigns (.classRef p) (.array .int) :=
    htrans _ .object _ (.classes (.single hedge)) (.object rfl)
  cases harray
  rfl

/-- Assignability is a preorder, whose order on classes is the one that superclasses and
interfaces span, with the root class on top. It is transitive only where nothing else stands
above the root class. -/
theorem canAssign_is_preorder (h : ClassHierarchy) :
    (∀ sub sup, h.isSubclass sub sup = true ↔ sup = objectClass ∨ h.Inherits sub sup)
    ∧ (∀ t, h.canAssign t t = true)
    ∧ (h.RootOnTop ↔ ∀ a b c, h.canAssign a b = true → h.canAssign b c = true →
        h.canAssign a c = true) := by
  simp only [canAssign_iff]
  exact ⟨fun _ _ => isSubclass_iff, .same, fun hroot _ _ _ => .trans hroot, rootOnTop_of_trans⟩

/-- Two classes that are superclasses of each other, one of them declared anew. -/
def circle : ClassHierarchy :=
  ((empty.declare "pkg/Cat" none []).declare "pkg/Cat" (some "pkg/Animal") []).declare
    "pkg/Animal" (some "pkg/Cat") ["pkg/Pet"]

/-- Arrays of either class of the circle may be stored as arrays of the interface of one. -/
theorem circle_is_preordered :
    circle.RootOnTop
    ∧ circle.canAssign (.array (.classRef "pkg/Pet")) (.array (.classRef "pkg/Cat"))
      = true := by
  obtain ⟨hsub, -, htrans⟩ := canAssign_is_preorder circle
  have hroot : circle.RootOnTop := by
    have hnone : circle.parents objectClass = [] := by decide
    intro p hedge
    rw [← mem_parents, hnone] at hedge
    cases hedge
  have hpet : circle.canAssign (.array (.classRef "pkg/Pet")) (.array (.classRef "pkg/Animal"))
      = true :=
      canAssign_iff.2 (.arrays rfl rfl (.classes (.single (.interface rfl (by decide)))))
  have hanimal :
      circle.canAssign (.array (.classRef "pkg/Animal")) (.array (.classRef "pkg/Cat"))
      = true := canAssign_iff.2 (.arrays rfl rfl (.classes (.single (.superclass rfl))))
  exact ⟨hroot, htrans.1 hroot _ _ _ hpet hanimal⟩

end ClassHierarchy

end Jil
