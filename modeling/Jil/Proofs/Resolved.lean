/-
Jil.Proofs.Resolved — what a successful check says about the names in statements.

The check of a class and the selection of instructions look names up in tables
of their own. `Statement.Known` says that a check has given a type to every
register that a statement names, `Statement.Resolved` that the unit after it
resolves the fields and methods; both hold of every statement of a function
that passed (`Checked.resolved`). Fields of the class itself then have offsets
(`ClassUnit.exists_fieldOffset`), and its methods have functions
(`ClassUnit.exists_function_of_findMethod?`).
-/
import Jil.Proofs.Checked

namespace Jil

open Pseudo (bind_eq_ok ite_eq_ok)

/-! ## Members of the class itself -/

/-- A value in a table that was made from a list is one of the list's. -/
theorem Table.mem_of_get?_ofList {κ ν : Type} [DecidableEq κ] {l : List (κ × ν)} {k : κ}
    {v : ν} (h : (Table.ofList l).get? k = some v) : (k, v) ∈ l := by
  have hfold : ∀ (l : List (κ × ν)) (t : Table κ ν),
      (l.foldl (fun t e => t.insert e.1 e.2) t).get? k = some v →
      t.get? k = some v ∨ (k, v) ∈ l := by
    intro l
    induction l with
    | nil => exact fun t ht => .inl ht
    | cons e l ih =>
      intro t ht
      rcases ih _ ht with ht | hmem
      · rw [Table.get?_insert] at ht
        split at ht
        · next hk =>
          rw [hk, ← Option.some.inj ht]
          exact .inr List.mem_cons_self
        · exact .inl ht
      · exact .inr (List.mem_cons_of_mem _ hmem)
  exact (hfold l .empty h).resolve_left (by simp)

namespace Structure

/-- Laying members out keeps them in order. -/
theorem map_fst_layoutFrom (offset : Nat) (members : List Member) :
    (layoutFrom offset members).map Prod.fst = members := by
  induction members generalizing offset with
  | nil => rfl
  | cons m members ih => exact congrArg (m :: ·) (ih _)

/-- A member with a type has an offset. -/
theorem exists_fieldOffset {s : Structure} {name : String} {origin : Origin} {t : Ty}
    (h : s.fieldType name origin = .ok t) (origin' : Origin) :
    ∃ offset, s.fieldOffset name origin' = .ok offset := by
  unfold fieldType at h
  split at h
  · next m hm =>
    have hlaid : s.layout.find? (·.1.name = name) ≠ none := by
      intro hnone
      rw [List.find?_eq_none] at hnone
      have hmem := List.mem_of_find?_eq_some hm
      rw [← map_fst_layoutFrom dispatchSlotSize s.members] at hmem
      obtain ⟨e, he, heq⟩ := List.mem_map.1 hmem
      have hname : m.name = name := by simpa using List.find?_some hm
      exact hnone e he (by simpa [heq] using hname)
    obtain ⟨e, he⟩ := Option.ne_none_iff_exists'.1 hlaid
    exact ⟨e.2, by unfold fieldOffset; rw [he]⟩
  · cases h

end Structure

namespace ClassUnit

variable {u : ClassUnit} {origin : Origin}

theorem exists_staticOffset {field : String} {t : Ty}
    (h : u.staticFieldType u.name field origin = .ok t) :
    ∃ offset, u.fieldOffset .static field origin = .ok offset := by
  unfold staticFieldType at h
  rw [if_pos rfl] at h
  exact Structure.exists_fieldOffset h origin

theorem exists_objectOffset {field : String} {t : Ty}
    (h : u.objectFieldType u.name field origin = .ok t) :
    ∃ offset, u.fieldOffset .perObject field origin = .ok offset := by
  unfold objectFieldType at h
  rw [if_pos rfl] at h
  exact Structure.exists_fieldOffset h origin

/-- The types that functions record do not matter to the resolution of methods. -/
theorem resolveMethod_functions (u : ClassUnit) (functions : List Function) :
    ({ u with functions := functions } : ClassUnit).resolveMethod = u.resolveMethod := by
  have hfind : ∀ (key : MethodKey) (owners : List String),
      ({ u with functions := functions } : ClassUnit).findMethod? key owners
        = u.findMethod? key owners := by
    intro key owners
    induction owners with
    | nil => rfl
    | cons owner owners ih =>
      rw [findMethod?, findMethod?, ih]
      rfl
  funext owner name args origin
  unfold resolveMethod
  rw [hfind]

/-- The methods of the class itself are found in the index of its functions. -/
theorem exists_function_of_findMethod? (hfresh : u.rebuildIndex = u) {key : MethodKey}
    {owners : List String} {m : ResolvedMethod} (h : u.findMethod? key owners = .ok (some m))
    (hlocal : m.isLocal = true) : ∃ f ∈ u.functions, f.key = key ∧ f.info = m.info := by
  induction owners with
  | nil => cases h
  | cons owner owners ih =>
    rw [findMethod?] at h
    obtain ⟨found, hfound, h⟩ := bind_eq_ok.1 h
    split at h
    · next m' =>
      cases h
      unfold methodIn? at hfound
      split at hfound
      · obtain ⟨index, hindex, hfound⟩ := bind_eq_ok.1 hfound
        have hbuilt : index = .build (u.functions.map fun f => (f.key, f.info)) := by
          unfold ClassUnit.index at hindex
          rw [← hfresh] at hindex
          exact (Except.ok.inj hindex).symm
        obtain ⟨info, hinfo, rfl⟩ := Option.map_eq_some_iff.1 (Except.ok.inj hfound)
        rw [hbuilt] at hinfo
        obtain ⟨f, hf, heq⟩ := List.mem_map.1 (Table.mem_of_get?_ofList hinfo)
        exact ⟨f, hf, congrArg Prod.fst heq, congrArg Prod.snd heq⟩
      · obtain ⟨e, -, rfl⟩ := Option.map_eq_some_iff.1 (Except.ok.inj hfound)
        cases hlocal
    · exact ih h

theorem resolveMethod_eq_ok {owner name : String} {args : List Ty} {m : ResolvedMethod} :
    u.resolveMethod owner name args origin = .ok m ↔
      u.findMethod? ⟨name, args⟩ (u.hierarchy.lineage owner) = .ok (some m) := by
  unfold resolveMethod
  cases u.findMethod? ⟨name, args⟩ (u.hierarchy.lineage owner) with
  | error e => exact ⟨nofun, nofun⟩
  | ok found =>
    cases found with
    | none => exact ⟨nofun, nofun⟩
    | some m' =>
      constructor
      · rintro ⟨⟩
        rfl
      · rintro ⟨⟩
        rfl

end ClassUnit

/-! ## Statements -/

/-- Every register that a statement names has a type. -/
structure Statement.Known (types : Table Register Ty) (s : Statement) : Prop where
  used : ∀ r ∈ s.usedRegisters, ∃ t, types.get? r = some t
  defined : ∀ r, s.definedRegister? = some r → ∃ t, types.get? r = some t

/-- The unit resolves the fields and the methods that a statement names. -/
def Statement.Resolved (u : ClassUnit) (types : Table Register Ty) (origin : Origin) :
    Statement → Prop
  | .getStatic owner field _ | .getStaticAddress owner field _ | .putStatic owner field _ =>
    ∃ t, u.staticFieldType owner field origin = .ok t
  | .getField object field _ | .getFieldAddress object field _ | .putField object field _ =>
    ∃ owner t, types.get? object = some (.classRef owner)
      ∧ u.objectFieldType owner field origin = .ok t
  | .callActual _ owner method args _ =>
    ∃ argTypes target, args.mapM types.get? = some argTypes
      ∧ u.resolveMethod owner method argTypes origin = .ok target
  | .callVirtual object method args _ =>
    ∃ owner argTypes target, types.get? object = some (.classRef owner)
      ∧ args.mapM types.get? = some argTypes
      ∧ u.resolveMethod owner method argTypes origin = .ok target
  | _ => True

namespace Typing

variable {scope : Scope} {ctx : Context} {origin : Origin} {types : Table Register Ty}

/-- Operands whose types are known keep them. -/
theorem mapM_get?_of_known {known : Table Register Ty}
    (hknown : ∀ r t, known.get? r = some t → types.get? r = some t) {args : List Register}
    {argTypes : List Ty} (h : args.mapM known.get? = some argTypes) :
    args.mapM types.get? = some argTypes := by
  induction args generalizing argTypes with
  | nil => exact h
  | cons a args ih =>
    simp only [List.mapM_cons, bind, Option.bind_eq_some_iff, pure, Option.some.injEq] at h ⊢
    obtain ⟨t, ht, rest, hrest, rfl⟩ := h
    exact ⟨t, hknown _ _ ht, rest, ih hrest, rfl⟩

section

variable {s : Statement} {e : Effect} (h : Judges scope ctx origin s e)
  (hknown : ∀ r t, ctx.registers.get? r = some t → types.get? r = some t)
include h hknown

/-- A statement that passes names registers that have a type behind it. -/
theorem Judges.known (hnew : ∀ r t, e = .define r t → types.get? r = some t) :
    s.Known types where
  used r hr := (h.used r hr).imp (hknown r)
  defined r hr := by
    have hdefined := h.defined?.trans hr
    cases e with
    | define r' t =>
      cases hdefined
      exact ⟨t, hnew r t rfl⟩
    | _ => cases hdefined

/-- A statement that passes names fields and methods that the unit resolves. -/
theorem Judges.resolved : s.Resolved scope.unit types origin := by
  cases h with
  | getStatic hfield | getStaticAddress hfield | putStatic _ hfield => exact ⟨_, hfield⟩
  | getField hobject hfield | getFieldAddress hobject hfield | putField hobject _ hfield =>
    exact ⟨_, _, hknown _ _ hobject, hfield⟩
  | callActual _ hargs hmethod => exact ⟨_, _, mapM_get?_of_known hknown hargs, hmethod⟩
  | callVirtual hobject hargs hmethod =>
    exact ⟨_, _, _, hknown _ _ hobject, mapM_get?_of_known hknown hargs, hmethod⟩
  | _ => trivial

end

end Typing

/-- Registering types in functions does not change what a unit resolves. -/
theorem Statement.Resolved.congr {u v : ClassUnit} {types : Table Register Ty}
    {origin : Origin} {s : Statement} (h : s.Resolved v types origin)
    {functions : List Function} (hv : { u with functions := functions } = v) :
    s.Resolved u types origin := by
  subst hv
  have hresolve := ClassUnit.resolveMethod_functions u functions
  cases s with
  | callActual object owner method args result =>
    obtain ⟨argTypes, target, hargs, htarget⟩ := h
    exact ⟨argTypes, target, hargs, hresolve ▸ htarget⟩
  | callVirtual object method args result =>
    obtain ⟨owner, argTypes, target, hobject, hargs, htarget⟩ := h
    exact ⟨owner, argTypes, target, hobject, hargs, hresolve ▸ htarget⟩
  | _ => exact h

/-- The names in the statements of a function that passed its check. -/
theorem Checked.resolved {u : ClassUnit} {position : Nat} {f : Function}
    (h : Checked u position f) {types : Table Register Ty}
    (hrecorded : f.registerTypes = some types) {s : Located} (hs : s ∈ f.body) :
    s.statement.Known types ∧ s.statement.Resolved u types s.origin := by
  obtain ⟨scope, functions, ctx, e, hunit, -, heffect, hknown, hnew⟩ :=
    h.exists_effect hrecorded hs
  have hjudges := Typing.judges_of_effect heffect
  exact ⟨hjudges.known hknown hnew, (hjudges.resolved hknown).congr hunit⟩

end Jil
