/-
Jil.Proofs.Descriptors — types and their descriptors tell one another.

A text that describes a type is the descriptor of that type, and the types that
are read back from their descriptors are those that can be described: a class has
a name without semicolon, and the elements of an array are neither `void` nor of
the null type (`readable_iff`). Both directions follow the recursion of the
reader, which leaves what stands behind a descriptor as it is.

Descriptors stand in a list without anything between them. They are read off from
the left all the same: the first letter tells the kind of a type, and a class ends
at its semicolon (`descriptor_append_inj`). So the descriptor of a method tells
its parameters once what it returns is known.
-/
import Jil.Proofs.Operands

namespace Jil

open Jil.Text

namespace Text

/-- Texts that a character ends are told apart in front of it. -/
theorem append_char_inj {c : Char} {a a' b b' : List Char} (ha : c ∉ a) (ha' : c ∉ a')
    (h : a ++ c :: b = a' ++ c :: b') : a = a' ∧ b = b' := by
  have hcut := cut_char ha b
  rw [h, cut_char ha' b'] at hcut
  cases hcut
  exact ⟨rfl, rfl⟩

end Text

namespace Ty

variable {t u : Ty} {s a b rest : List Char}

/-! ## Types that can be described -/

/-- A type whose descriptor describes it: names of classes hold something, but no semicolon,
and elements are neither `void` nor of the null type. -/
def Describable : Ty → Prop
  | .classRef name => name ≠ "" ∧ ';' ∉ name.toList
  | .array element => element ≠ .void ∧ element ≠ .null ∧ element.Describable
  | _ => True

/-- Describable types are told by computing. -/
def decideDescribable : (t : Ty) → Decidable t.Describable
  | .classRef name => inferInstanceAs (Decidable (name ≠ "" ∧ ';' ∉ name.toList))
  | .array element =>
    @instDecidableAnd _ _ inferInstance
      (@instDecidableAnd _ _ inferInstance element.decideDescribable)
  | .byte | .boolean | .char | .short | .int | .long | .float | .double | .void | .null =>
    .isTrue trivial

instance : DecidablePred Describable := decideDescribable

/-- A descriptor at the front of a text is read, and what stands behind it is left. -/
theorem readDescriptor?_append (h : t.Describable) (hnull : t ≠ .null) (rest : List Char) :
    readDescriptor? (t.descriptor.toList ++ rest) = some (t, rest) := by
  induction t with
  | null => exact absurd rfl hnull
  | classRef name =>
    obtain ⟨hne, hsemicolon⟩ := h
    have hcut : cut [';'] (name.toList ++ ';' :: rest) = some (name.toList, rest) :=
      cut_char hsemicolon rest
    have hname : name.toList ≠ [] := by simpa using hne
    simp only [descriptor, String.toList_append, List.append_assoc]
    simp [readDescriptor?, hcut]
  | array element ih =>
    obtain ⟨hvoid, hnull, helement⟩ := h
    have hread := ih helement hnull
    simp only [descriptor, String.toList_append, List.append_assoc]
    simp [readDescriptor?, hread]
  | _ => rfl

/-- What is read can be described, and the null type is not read. -/
theorem describable_of_readDescriptor? (h : readDescriptor? s = some (t, rest)) :
    t.Describable ∧ t ≠ .null := by
  fun_induction readDescriptor? s generalizing t rest with
  | case1 => cases h
  | case2 | case3 | case4 | case5 | case6 | case7 | case8 | case9 | case10 =>
    cases h
    exact ⟨trivial, by simp⟩
  | case11 | case12 => cases h
  | case13 r name rest' hne hcut =>
    cases h
    refine ⟨⟨fun hname => ?_, by simpa using not_mem_before_cut hcut⟩, by simp⟩
    exact hne (by simpa using hname)
  | case14 | case15 => cases h
  | case16 r element rest' hvoid hread ih =>
    cases h
    obtain ⟨helement, hnull⟩ := ih hread
    exact ⟨⟨hvoid, hnull, helement⟩, by simp⟩
  | case17 => cases h

/-- The types that are read back from their descriptors are those that can be described. -/
theorem readable_iff : t.Readable ↔ t.Describable := by
  unfold Readable ofDescriptor?
  constructor
  · intro h
    split at h
    · cases h
      trivial
    · split at h
      · next hread =>
        cases h
        exact (describable_of_readDescriptor? hread).1
      · cases h
  · intro h
    by_cases hnull : t = .null
    · subst hnull
      rfl
    · have hread := readDescriptor?_append h hnull []
      rw [List.append_nil] at hread
      have hne : t.descriptor.toList ≠ "null".toList := by
        intro heq
        rw [heq] at hread
        cases hread
      rw [if_neg hne, hread]

/-! ## Lists of descriptors -/

/-- The class of a describable type has a name without semicolon. -/
theorem Describable.not_mem_baseClass (h : t.Describable) :
    ∀ name ∈ t.baseClass?, ';' ∉ name.toList := by
  induction t with
  | classRef name =>
    intro name' hname
    cases hname
    exact h.2
  | array element ih => exact ih h.2.2
  | _ => exact nofun

/-- Descriptors are read off from the left. -/
theorem descriptor_append_inj (ht : ∀ name ∈ t.baseClass?, ';' ∉ name.toList)
    (hu : ∀ name ∈ u.baseClass?, ';' ∉ name.toList)
    (h : t.descriptor.toList ++ a = u.descriptor.toList ++ b) : t = u ∧ a = b := by
  induction t generalizing u with
  | classRef name =>
    cases u with
    | classRef name' =>
      have h' : name.toList ++ ';' :: a = name'.toList ++ ';' :: b := by
        simpa [descriptor] using h
      obtain ⟨heq, hrest⟩ := append_char_inj (ht name rfl) (hu name' rfl) h'
      exact ⟨by rw [String.toList_inj.1 heq], hrest⟩
    | _ => simp [descriptor] at h
  | array element ih =>
    cases u with
    | array element' =>
      have h' : element.descriptor.toList ++ a = element'.descriptor.toList ++ b := by
        simpa [descriptor] using h
      have hu' : ∀ name ∈ element'.baseClass?, ';' ∉ name.toList := hu
      obtain ⟨heq, hrest⟩ := ih ht hu' h'
      exact ⟨by rw [heq], hrest⟩
    | _ => simp [descriptor] at h
  | _ => cases u <;> simp_all [descriptor]

/-- A list of types is told by its descriptors one after another. -/
theorem descriptors_inj {ts us : List Ty}
    (hts : ∀ t ∈ ts, ∀ name ∈ t.baseClass?, ';' ∉ name.toList)
    (hus : ∀ u ∈ us, ∀ name ∈ u.baseClass?, ';' ∉ name.toList)
    (h : ts.flatMap (·.descriptor.toList) = us.flatMap (·.descriptor.toList)) : ts = us := by
  induction ts generalizing us with
  | nil =>
    cases us with
    | nil => rfl
    | cons u us => exact absurd (List.append_eq_nil_iff.1 h.symm).1 u.descriptor_ne_nil
  | cons t ts ih =>
    cases us with
    | nil => exact absurd (List.append_eq_nil_iff.1 h).1 t.descriptor_ne_nil
    | cons u us =>
      obtain ⟨ht, hts⟩ := List.forall_mem_cons.1 hts
      obtain ⟨hu, hus⟩ := List.forall_mem_cons.1 hus
      rw [List.flatMap_cons, List.flatMap_cons] at h
      obtain ⟨heq, hrest⟩ := descriptor_append_inj ht hu h
      rw [heq, ih hts hus hrest]

end Ty

theorem toList_methodDescriptor (params : List Ty) (returns : Ty) :
    (methodDescriptor params returns).toList
      = '(' :: (params.flatMap (·.descriptor.toList) ++ ')' :: returns.descriptor.toList) := by
  simp [methodDescriptor, List.flatMap_map]

/-- A text describes at most the type whose descriptor it is; the types that their descriptors
describe are the describable ones; and methods that return the same have the same descriptor
only if they take the same parameters. -/
theorem descriptors_tell_types :
    (∀ (d : String) (t : Ty), Ty.ofDescriptor? d.toList = some t → t.descriptor = d)
    ∧ (∀ t : Ty, Ty.ofDescriptor? t.descriptor.toList = some t ↔ t.Describable)
    ∧ ∀ (ps qs : List Ty) (returns : Ty), (∀ t ∈ ps, t.Describable) →
      (∀ t ∈ qs, t.Describable) →
      methodDescriptor ps returns = methodDescriptor qs returns → ps = qs := by
  refine ⟨fun d t h => ?_, fun t => Ty.readable_iff, fun ps qs returns hps hqs h => ?_⟩
  · exact (String.toList_inj.1 (Ty.eq_descriptor_of_ofDescriptor? h)).symm
  · have hlists := String.toList_inj.2 h
    rw [toList_methodDescriptor, toList_methodDescriptor] at hlists
    exact Ty.descriptors_inj (fun t ht => (hps t ht).not_mem_baseClass)
      (fun t ht => (hqs t ht).not_mem_baseClass)
        (List.append_cancel_right (List.cons.inj hlists).2)

/-- A class named like a piece of other descriptors, in an array of arrays, next to the null
type; an array of the null type cannot be described. -/
theorem descriptors_of_odd_types :
    Ty.ofDescriptor? "[[L)I[null;".toList = some (.array (.array (.classRef ")I[null")))
      ∧ (Ty.array (.array (.classRef ")I[null"))).descriptor = "[[L)I[null;"
      ∧ ¬ (Ty.array .null).Describable ∧ Ty.ofDescriptor? "[null".toList = none
      ∧ methodDescriptor [.null, .void, .array .int] .int
        ≠ methodDescriptor [.null, .array .int, .void] .int := by
  obtain ⟨htext, htype, hparams⟩ := descriptors_tell_types
  refine ⟨?_, ?_, by decide, by decide, fun h => ?_⟩
  · exact (htype (.array (.array (.classRef ")I[null")))).2 (by decide)
  · exact htext _ _ (by decide)
  · have hlists :=
      hparams [.null, .void, .array .int] [.null, .array .int, .void] .int (by decide)
      (by decide) h
    cases hlists

end Jil
