/-
Jil.Proofs.IndexFreshness — the signature index never answers from old data.

A class begins empty or is read from a source, and then operations change it
(`ClassUnit.Operation`). Reading is made of the same operations, line by line
(`Reading.operations_of_line`). The index is a part of the class, next to the
functions that it was built from, and an operation that touches one of the two
without the other takes the index away: `IsFresh` is what every operation keeps
(`IsFresh.run`), a check included, wherever it stops (`check_unit`).

So there are two kinds of classes (`index_never_old`). A class that is `Stale`
refuses to be asked for its own methods; in one that is `UpToDate` the last
function with a key answers for it, and nothing of the class itself does when no
function has the key. Classes become stale only by functions that are added
(`index?_of_run`).
-/
import Jil.Compilation
import Jil.Proofs.MemberLookup
import Jil.Proofs.UnitReading

namespace Jil

namespace ClassUnit

variable {u : ClassUnit}

/-! ## Operations -/

/-- What can be done to a class. -/
inductive Operation where
  | setSuperclass (superclass : String)
  | addInterface (name : String)
  | setMemberOrigin (origin : Origin)
  | addField (kind : MemberKind) (type : Ty) (name : String) (default : Option String)
  | addFunction (f : Function)
  | declareClass (name : String) (superclass : Option String)
  | declareField (f : ExternalField)
  | declareMethod (m : ExternalMethod)
  | rebuildIndex
  | check
  | compile (session : Session)

/-- The class after an operation; one that fails may have changed it as well. -/
def Operation.run (u : ClassUnit) : Operation → ClassUnit
  | .setSuperclass superclass => u.setSuperclass superclass
  | .addInterface name => u.addInterface name
  | .setMemberOrigin origin => u.setMemberOrigin origin
  | .addField kind type name default => u.addField kind type name default
  | .addFunction f => u.addFunction f
  | .declareClass name superclass => u.declareClass name superclass
  | .declareField f => u.declareField f
  | .declareMethod m => u.declareMethod m
  | .rebuildIndex => u.rebuildIndex
  | .check => u.check.1
  | .compile session => (u.compile session).1

/-- The class after some operations. -/
def operate (u : ClassUnit) (l : List Operation) : ClassUnit := l.foldl Operation.run u

/-- The classes that one comes to: classes begin empty or are read, and go on with
operations. -/
inductive Reached : ClassUnit → Prop
  | created (name : String) : Reached (create name)
  | read {text source : String} {u : ClassUnit} (h : read text source = .ok u) : Reached u
  | run {u : ClassUnit} (h : Reached u) (o : Operation) : Reached (o.run u)

theorem Reached.operate (h : u.Reached) (l : List Operation) : (u.operate l).Reached := by
  induction l generalizing u with
  | nil => exact h
  | cons o l ih => exact ih (h.run o)

/-! ## What operations keep -/

/-- If there is an index, it was built from the functions as they are. -/
def IsFresh (u : ClassUnit) : Prop :=
  ∀ index, u.index? = some index → index = .build (u.functions.map fun f => (f.key, f.info))

theorem isFresh_of_rebuildIndex (hfresh : u.rebuildIndex = u) : u.IsFresh := fun _ hindex =>
  Option.some.inj (hindex.symm.trans (rebuildIndex_eq_self_iff.1 hfresh))

/-- What leaves functions and index alone. -/
theorem IsFresh.untouched {v : ClassUnit} (h : u.IsFresh)
    (hfunctions : v.functions = u.functions) (hindex : v.index? = u.index?) : v.IsFresh := by
  unfold IsFresh
  rwa [hfunctions, hindex]

/-- A check that stops at the value of a member leaves the class as it was; every other check
builds the index, before it looks at functions. -/
theorem check_unit (u : ClassUnit) : (∃ e, u.checkDefaults = .error e) ∧ u.check.1 = u
    ∨ u.checkDefaults = .ok () ∧ u.check.1.rebuildIndex = u.check.1 := by
  unfold check
  split
  · next e he => exact .inl ⟨⟨e, he⟩, rfl⟩
  · next hdefaults =>
    dsimp only
    split <;> exact .inr ⟨hdefaults, rfl⟩

theorem IsFresh.check (h : u.IsFresh) : u.check.1.IsFresh := by
  obtain ⟨-, hsame⟩ | ⟨-, hfresh⟩ := check_unit u
  · rwa [hsame]
  · exact isFresh_of_rebuildIndex hfresh

theorem index?_of_check (h : u.check.1.index? = none) : u.index? = none := by
  obtain ⟨-, hsame⟩ | ⟨-, hfresh⟩ := check_unit u
  · rwa [hsame] at h
  · cases h.symm.trans (rebuildIndex_eq_self_iff.1 hfresh)

theorem compile_unit (u : ClassUnit) (session : Session) :
    (u.compile session).1 = u.check.1 := by
  unfold compile
  split <;> next hcheck => rw [hcheck]

theorem IsFresh.run (h : u.IsFresh) (o : Operation) : (o.run u).IsFresh := by
  cases o with
  | setSuperclass | addInterface | setMemberOrigin | declareClass | declareField
    | declareMethod =>
    exact h.untouched rfl rfl
  | addField kind => cases kind <;> exact h.untouched rfl rfl
  | addFunction f => exact nofun
  | rebuildIndex => exact isFresh_of_rebuildIndex rfl
  | check => exact h.check
  | compile session =>
    rw [Operation.run, compile_unit]
    exact h.check

/-- Only a function that is added takes an index away. -/
theorem index?_of_run {o : Operation} (h : (o.run u).index? = none) :
    u.index? = none ∨ ∃ f, o = .addFunction f := by
  cases o with
  | setSuperclass | addInterface | setMemberOrigin | declareClass | declareField
    | declareMethod =>
    exact .inl h
  | addField kind => cases kind <;> exact .inl h
  | addFunction f => exact .inr ⟨f, rfl⟩
  | rebuildIndex => cases h
  | check => exact .inl (index?_of_check h)
  | compile session =>
    rw [Operation.run, compile_unit] at h
    exact .inl (index?_of_check h)

theorem IsFresh.operate (h : u.IsFresh) (l : List Operation) : (u.operate l).IsFresh := by
  induction l generalizing u with
  | nil => exact h
  | cons o l ih => exact ih (h.run o)

end ClassUnit

/-! ## Reading -/

open ClassUnit (Operation IsFresh)

namespace Reader

variable {u v : ClassUnit} {s : List Char}

theorem operation_of_declaration (h : declaration u s = .ok v) :
    ∃ o : Operation, v = o.run u := by
  obtain ⟨c, -, rfl⟩ | ⟨f, -, rfl⟩ | ⟨m, -, rfl, -⟩ := exists_of_declaration h
  · exact ⟨.declareClass c.1 c.2, rfl⟩
  · exact ⟨.declareField f, rfl⟩
  · exact ⟨.declareMethod m, rfl⟩

end Reader

namespace Reading

open Pseudo (bind_eq_ok)
open Reader
open Text (trim cutSpace pieces)

theorem operate_addInterfaces (names : List (List Char)) (u : ClassUnit) :
    names.foldl (fun u name => u.addInterface (String.ofList (trim name))) u
      = u.operate (names.map fun name => .addInterface (String.ofList (trim name))) := by
  rw [ClassUnit.operate, List.foldl_map]
  rfl

/-- What a line does to the class is done by operations. -/
theorem operations_of_line {r after : Reading} {origin : Origin} {s : List Char}
    (h : r.line origin s = .ok after) : ∃ l, after.unit = r.unit.operate l := by
  unfold Reading.line at h
  split at h
  · simp only [outsideLine] at h
    split at h
    · cases h
      exact ⟨[], rfl⟩
    split at h
    · cases h
      exact ⟨[.setSuperclass _], rfl⟩
    split at h
    · cases h
      exact ⟨_, operate_addInterfaces _ _⟩
    split at h
    · obtain ⟨v, hv, rfl⟩ := map_eq_ok.1 h
      obtain ⟨o, rfl⟩ := operation_of_declaration hv
      exact ⟨[o], rfl⟩
    split at h
    · obtain ⟨k, -, rfl⟩ := map_eq_ok.1 h
      exact ⟨[], rfl⟩
    split at h
    · obtain ⟨f, -, rfl⟩ := map_eq_ok.1 h
      exact ⟨[], rfl⟩
    · cases h
  · unfold membersLine at h
    split at h
    · cases h
      exact ⟨[], rfl⟩
    · obtain ⟨s', -, h⟩ := bind_eq_ok.1 h
      obtain ⟨v, hv, h⟩ := bind_eq_ok.1 h
      cases h
      obtain ⟨left, default, a, b, t, -, -, -, -, -, rfl⟩ := memberParts hv
      exact ⟨[.setMemberOrigin origin, .addField _ t _ default], rfl⟩
  · unfold statementsLine at h
    split at h
    · cases h
      exact ⟨[.addFunction _], rfl⟩
    split at h
    · cases h
      exact ⟨[], rfl⟩
    · obtain ⟨s', -, h⟩ := bind_eq_ok.1 h
      obtain ⟨statement, -, h⟩ := bind_eq_ok.1 h
      obtain ⟨f, -, h⟩ := bind_eq_ok.1 h
      cases h
      exact ⟨[], rfl⟩

end Reading

namespace ClassUnit

variable {u : ClassUnit}

theorem Reached.isFresh (h : u.Reached) : u.IsFresh := by
  induction h with
  | created name => exact isFresh_of_rebuildIndex rfl
  | read h =>
    refine Reading.of_lines (P := fun r => r.unit.IsFresh) (fun _ _ _ r after hr hok => ?_)
      (isFresh_of_rebuildIndex rfl) h
    obtain ⟨l, hl⟩ := Reading.operations_of_line hok
    exact hl ▸ hr.operate l
  | run _ o ih => exact ih.run o

/-! ## Look-ups -/

/-- Of the functions with a key the last one. -/
def LastWith (u : ClassUnit) (key : MethodKey) (f : Function) : Prop :=
  f.key = key ∧ ∃ front back, u.functions = front ++ f :: back ∧ ∀ g ∈ back, g.key ≠ key

theorem getLast?_functions_eq_some {key : MethodKey} {f : Function} (h : u.LastWith key f) :
    (u.functions.filter (·.key = key)).getLast? = some f := by
  obtain ⟨hkey, front, back, hfunctions, hback⟩ := h
  have hnone : back.filter (·.key = key) = [] :=
    List.filter_eq_nil_iff.2 fun g hg => by simpa using hback g hg
  simp [hfunctions, hkey, hnone]

/-- The class refuses to be asked for its own methods. -/
structure Stale (u : ClassUnit) : Prop where
  index : u.index = .error (.staleIndex u.name)
  refused : ∀ name args origin,
    u.resolveMethod u.name name args origin = .error (.fault (.staleIndex u.name))
  /-- A call is still resolved where another class answers first. -/
  foreign : ∀ owner name args origin m,
    u.resolveMethod owner name args origin = .ok m → m.isLocal = false

/-- The class answers with its functions as they are. -/
structure UpToDate (u : ClassUnit) : Prop where
  index : u.index = .ok (.build (u.functions.map fun f => (f.key, f.info)))
  /-- The last function with a key is known by its return type, its kind and whether the number
  of its arguments varies. -/
  last : ∀ key f, u.LastWith key f →
    u.methodIn? key u.name = .ok (some ⟨u.name, key, f.info, true⟩)
      ∧ ∀ origin, u.resolveMethod u.name key.name key.params origin
        = .ok ⟨u.name, key, f.info, true⟩
  /-- Without a function that has the key, the class itself has nothing to give. -/
  missing : ∀ key, (∀ f ∈ u.functions, f.key ≠ key) →
    u.methodIn? key u.name = .ok none
      ∧ ∀ owner origin m, u.resolveMethod owner key.name key.params origin = .ok m →
        m.isLocal = false

/-- A method that a look-up gives is the one of a class among those that it is looked up in. -/
theorem exists_of_findMethod? {key : MethodKey} {owners : List String} {m : ResolvedMethod}
    (h : u.findMethod? key owners = .ok (some m)) :
    ∃ owner, u.methodIn? key owner = .ok (some m) := by
  induction owners with
  | nil => cases h
  | cons owner owners ih =>
    obtain ⟨found, hfound, h⟩ := Pseudo.bind_eq_ok.1 h
    cases found with
    | some m' =>
      cases h
      exact ⟨owner, hfound⟩
    | none => exact ih h

theorem owner_of_isLocal {key : MethodKey} {owner : String} {m : ResolvedMethod}
    (h : u.methodIn? key owner = .ok (some m)) (hlocal : m.isLocal = true) :
    owner = u.name := by
  rcases Pseudo.ite_eq_ok.1 h with ⟨howner, -⟩ | ⟨-, h⟩
  · exact howner
  · obtain ⟨e, -, rfl⟩ := Option.map_eq_some_iff.1 (Except.ok.inj h)
    cases hlocal

/-- What a call reaches in the class itself is what the class itself has. -/
theorem methodIn?_of_isLocal {owner name : String} {args : List Ty} {origin : Origin}
    {m : ResolvedMethod} (h : u.resolveMethod owner name args origin = .ok m)
    (hlocal : m.isLocal = true) : u.methodIn? ⟨name, args⟩ u.name = .ok (some m) := by
  unfold resolveMethod at h
  cases hfound : u.findMethod? ⟨name, args⟩ (u.hierarchy.lineage owner) with
  | error f => rw [hfound] at h; cases h
  | ok found =>
    rw [hfound] at h
    cases found with
    | none => cases h
    | some m' =>
      cases h
      obtain ⟨d, hd⟩ := exists_of_findMethod? hfound
      rwa [owner_of_isLocal hd hlocal] at hd

/-- So a call is answered by another class when the class itself has nothing to give. -/
theorem foreign_of_methodIn? {owner name : String} {args : List Ty} {origin : Origin}
    {m : ResolvedMethod} (h : u.resolveMethod owner name args origin = .ok m)
    (hself : u.methodIn? ⟨name, args⟩ u.name ≠ .ok (some m)) : m.isLocal = false := by
  cases hlocal : m.isLocal with
  | false => rfl
  | true => exact absurd (methodIn?_of_isLocal h hlocal) hself

theorem stale_of_index? (h : u.index? = none) : u.Stale := by
  have hindex : u.index = .error (.staleIndex u.name) := by rw [index, h]
  have hself : ∀ key, u.methodIn? key u.name = .error (.staleIndex u.name) := fun key => by
    rw [methodIn?, if_pos rfl, hindex]
    rfl
  refine ⟨hindex, fun name args origin => ?_, fun owner name args origin m hm => ?_⟩
  · -- the class itself comes first in its lineage
    have hfind : u.findMethod? ⟨name, args⟩ (u.hierarchy.lineage u.name)
        = .error (.staleIndex u.name) := by
      change u.findMethod? ⟨name, args⟩ (u.name :: _) = _
      rw [findMethod?, hself]
      rfl
    rw [resolveMethod, hfind]
    rfl
  · exact foreign_of_methodIn? hm (by simp [hself])

theorem upToDate_of_rebuildIndex (hfresh : u.rebuildIndex = u) : u.UpToDate := by
  have hself : ∀ key, u.methodIn? key u.name = .ok (u.methodOf? key u.name) := fun key =>
    methodIn?_eq hfresh key u.name
  refine ⟨index_eq hfresh, fun key f hf => ?_, fun key hnone => ?_⟩
  · have hmethod : u.methodOf? key u.name = some ⟨u.name, key, f.info, true⟩ := by
      rw [methodOf?, if_pos rfl, getLast?_functions_eq_some hf]
      rfl
    refine ⟨hmethod ▸ hself key, fun origin => ?_⟩
    have hfirst : (u.hierarchy.lineage u.name).findSome? (u.methodOf? key)
        = some ⟨u.name, key, f.info, true⟩ := by
      change List.findSome? _ (u.name :: _) = _
      rw [List.findSome?_cons, hmethod]
    rw [resolveMethod_eq hfresh, hfirst]
  · have hmethod : u.methodOf? key u.name = none := by
      rw [methodOf?, if_pos rfl,
        List.filter_eq_nil_iff.2 fun f hf => by simpa using hnone f hf]
      rfl
    exact ⟨hmethod ▸ hself key, fun owner origin m hm =>
      foreign_of_methodIn? hm (by simp [hself, hmethod])⟩

theorem Stale.index?_eq (h : u.Stale) : u.index? = none := by
  cases hindex : u.index? with
  | none => rfl
  | some index =>
    have herror := h.index
    rw [ClassUnit.index, hindex] at herror
    cases herror

/-- Whatever has been done to a class, also where a check failed: the class refuses to be asked
for its own methods, or its signature index is the one of its functions as they are. It comes
to refuse only by a function that is added, and answers again when the index is built, which a
check does unless it stops at the value of a member. -/
theorem index_never_old {u : ClassUnit} (h : u.Reached) :
    (u.Stale ∨ u.UpToDate)
      ∧ (∀ o : Operation, (o.run u).Stale → u.Stale ∨ ∃ f, o = .addFunction f)
      ∧ u.rebuildIndex.UpToDate
      ∧ (u.checkDefaults = .ok () → (u.check.1).UpToDate) := by
  refine ⟨?_, fun o ho => ?_, upToDate_of_rebuildIndex rfl, fun hdefaults => ?_⟩
  · cases hindex : u.index? with
    | none => exact .inl (stale_of_index? hindex)
    | some index =>
      have hfresh := rebuildIndex_eq_self_iff.2 (h.isFresh index hindex ▸ hindex)
      exact .inr (upToDate_of_rebuildIndex hfresh)
  · exact (index?_of_run ho.index?_eq).imp_left stale_of_index?
  · obtain ⟨⟨e, he⟩, -⟩ | ⟨-, hfresh⟩ := check_unit u
    · cases hdefaults.symm.trans he
    · exact upToDate_of_rebuildIndex hfresh

/-- A class with two functions of one key, of which the second one jumps to a label
that it does not place. -/
def overloaded : ClassUnit :=
  operate (create "pkg/Main")
    [.addFunction { name := "run", kind := .static, params := [], returns := .void },
      .addFunction
        { name := "run", kind := .perObject, params := [], returns := .int, varargs := true
          body := [⟨.jump ⟨0⟩, .generated⟩] }]

/-- The class cannot be asked for its methods before it is checked. The check fails, and behind
it the second function answers. -/
theorem overloaded_answers :
    overloaded.Reached ∧ overloaded.Stale ∧ overloaded.check.2.toOption = none
      ∧ (overloaded.check.1).UpToDate
      ∧ overloaded.check.1.resolveMethod "pkg/Main" "run" [] .generated
        = .ok ⟨"pkg/Main", ⟨"run", []⟩, ⟨.int, .perObject, true⟩, true⟩ := by
  have hreached : overloaded.Reached := (Reached.created "pkg/Main").operate _
  obtain ⟨hindex, -, -, hcheck⟩ := index_never_old hreached
  have hstale : overloaded.Stale := hindex.resolve_right fun hcurrent => nomatch hcurrent.index
  have hcurrent : (overloaded.check.1).UpToDate := hcheck rfl
  refine ⟨hreached, hstale, rfl, hcurrent, ?_⟩
  exact (hcurrent.last ⟨"run", []⟩ _ ⟨rfl, [_], [], rfl, nofun⟩).2 .generated

end ClassUnit

end Jil
