/-
Jil.Proofs.Selecting — what it means that selecting gives a result.

`Yields scope x st a after` says that the activity `x`, begun in the state `st`,
gives `a` and leaves the state `after`, of which there is at most one each
(`Yields.unique`). Each way to build an activity has one lemma that says when it
yields, and so has each of the lookups that the selection of instructions is
made of.
-/
import Jil.Selection.Function

namespace Jil.Selection

open Jil.Pseudo (Instr Reg)

/-- The result of an activity, and the state after it. -/
def Yields (scope : Scope) {α : Type} (x : Select α) (st : State) (a : α) (after : State) :
    Prop :=
  (x.run scope).run.run st = (.ok a, after)

variable {scope : Scope} {st after : State} {α β : Type}

/-- An activity has one result. -/
theorem Yields.unique {x : Select α} {a b : α} {after' : State} (h : Yields scope x st a after)
    (h' : Yields scope x st b after') : a = b ∧ after = after' := by
  have heq := Prod.mk.inj (h.symm.trans h')
  exact ⟨Except.ok.inj heq.1, heq.2⟩

/-! ## Activities -/

@[simp] theorem yields_pure {a b : α} :
    Yields scope (pure a : Select α) st b after ↔ b = a ∧ after = st := by
  constructor
  · intro h
    cases h
    exact ⟨rfl, rfl⟩
  · rintro ⟨rfl, rfl⟩
    rfl

theorem yields_bind {x : Select α} {f : α → Select β} {b : β} :
    Yields scope (x >>= f) st b after ↔
      ∃ a mid, Yields scope x st a mid ∧ Yields scope (f a) mid b after := by
  unfold Yields
  simp only [ReaderT.run_bind, ExceptT.run_bind, StateT.run_bind]
  obtain ⟨r, mid⟩ := (x.run scope).run.run st
  cases r with
  | ok a =>
    constructor
    · intro h
      exact ⟨a, mid, rfl, h⟩
    · rintro ⟨a', mid', h, h'⟩
      cases h
      exact h'
  | error e =>
    constructor
    · intro h
      cases h
    · rintro ⟨a', mid', h, -⟩
      cases h

theorem yields_map {x : Select α} {f : α → β} {b : β} :
    Yields scope (f <$> x) st b after ↔ ∃ a, Yields scope x st a after ∧ b = f a := by
  rw [map_eq_pure_bind, yields_bind]
  constructor
  · rintro ⟨a, mid, hx, h⟩
    obtain ⟨rfl, rfl⟩ := yields_pure.1 h
    exact ⟨a, hx, rfl⟩
  · rintro ⟨a, hx, rfl⟩
    exact ⟨a, after, hx, yields_pure.2 ⟨rfl, rfl⟩⟩

theorem yields_lift {x : Except Failure α} {a : α} :
    Yields scope (liftM x : Select α) st a after ↔ x = .ok a ∧ after = st := by
  constructor
  · intro h
    cases x with
    | ok b =>
      cases h
      exact ⟨rfl, rfl⟩
    | error e => cases h
  · rintro ⟨rfl, rfl⟩
    rfl

/-- What can only be reported. -/
theorem yields_liftReported {x : Except CompileError α} {a : α} :
    Yields scope (liftM x : Select α) st a after ↔ x = .ok a ∧ after = st := by
  constructor
  · intro h
    cases x with
    | ok b =>
      cases h
      exact ⟨rfl, rfl⟩
    | error e => cases h
  · rintro ⟨rfl, rfl⟩
    rfl

@[simp] theorem not_yields_throw {e : Failure} {a : α} :
    ¬ Yields scope (throw e : Select α) st a after := by
  intro h
  cases h

@[simp] theorem yields_read {a : Scope} :
    Yields scope (read : Select Scope) st a after ↔ a = scope ∧ after = st := by
  constructor
  · intro h
    cases h
    exact ⟨rfl, rfl⟩
  · rintro ⟨rfl, rfl⟩
    rfl

@[simp] theorem yields_get {a : State} :
    Yields scope (get : Select State) st a after ↔ a = st ∧ after = st := by
  constructor
  · intro h
    cases h
    exact ⟨rfl, rfl⟩
  · rintro ⟨rfl, rfl⟩
    rfl

@[simp] theorem yields_modify {f : State → State} {a : PUnit} :
    Yields scope (modify f : Select PUnit) st a after ↔ after = f st := by
  constructor
  · intro h
    cases h
    rfl
  · rintro rfl
    rfl

theorem yields_modifyGet {f : State → α × State} {a : α} :
    Yields scope (modifyGet f : Select α) st a after ↔ (a, after) = f st := by
  constructor
  · intro h
    have hrun : ((.ok (f st).1, (f st).2) : Except Failure α × State) = (.ok a, after) := h
    simp only [Prod.mk.injEq, Except.ok.injEq] at hrun
    rw [← hrun.1, ← hrun.2]
  · intro h
    have hrun : ((.ok (f st).1, (f st).2) : Except Failure α × State) = (.ok a, after) := by
      rw [← h]
    exact hrun

theorem yields_mapM_nil {f : α → Select β} {l : List β} :
    Yields scope ([].mapM f) st l after ↔ l = [] ∧ after = st := by
  rw [List.mapM_nil, yields_pure]

theorem yields_mapM_cons {f : α → Select β} {a : α} {rest : List α} {l : List β} :
    Yields scope ((a :: rest).mapM f) st l after ↔
      ∃ b mid bs, Yields scope (f a) st b mid ∧ Yields scope (rest.mapM f) mid bs after
        ∧ l = b :: bs := by
  rw [List.mapM_cons, yields_bind]
  simp only [yields_bind, yields_pure]
  constructor
  · rintro ⟨b, mid, hb, bs, mid', hbs, rfl, rfl⟩
    exact ⟨b, mid, bs, hb, hbs, rfl⟩
  · rintro ⟨b, mid, bs, hb, hbs, rfl⟩
    exact ⟨b, mid, hb, bs, after, hbs, rfl, rfl⟩

/-- Looking things up one after the other. -/
theorem yields_mapM_of_lookup {f : α → Select β} {g : α → Option β}
    (h : ∀ a st b after, Yields scope (f a) st b after ↔ g a = some b ∧ after = st)
    {l : List α} {found : List β} :
    Yields scope (l.mapM f) st found after ↔ l.mapM g = some found ∧ after = st := by
  induction l generalizing st found with
  | nil =>
    rw [yields_mapM_nil, List.mapM_nil]
    exact and_congr_left fun _ => ⟨fun h => h ▸ rfl, fun h => (Option.some.inj h).symm⟩
  | cons a l ih =>
    simp only [yields_mapM_cons, h, ih]
    rw [List.mapM_cons]
    constructor
    · rintro ⟨b, _, bs, ⟨hb, rfl⟩, ⟨hbs, rfl⟩, rfl⟩
      simp [hb, hbs]
    · rintro ⟨hfound, rfl⟩
      simp only [bind, Option.bind_eq_some_iff, pure, Option.some.injEq] at hfound
      obtain ⟨b, hb, bs, hbs, rfl⟩ := hfound
      exact ⟨b, after, bs, ⟨hb, rfl⟩, ⟨hbs, rfl⟩, rfl⟩

/-! ## Lookups -/

theorem yields_typeOf {r : Register} {origin : Origin} {t : Ty} :
    Yields scope (typeOf r origin) st t after ↔ scope.types.get? r = some t ∧ after = st := by
  unfold typeOf
  simp only [yields_bind, yields_read]
  constructor
  · rintro ⟨_, _, ⟨rfl, rfl⟩, h⟩
    split at h
    · next t' ht =>
      obtain ⟨rfl, rfl⟩ := yields_pure.1 h
      exact ⟨ht, rfl⟩
    · exact absurd h not_yields_throw
  · rintro ⟨h, rfl⟩
    refine ⟨scope, after, ⟨rfl, rfl⟩, ?_⟩
    rw [h]
    exact yields_pure.2 ⟨rfl, rfl⟩

theorem yields_pseudoOf {r : Register} {origin : Origin} {p : Reg} :
    Yields scope (pseudoOf r origin) st p after ↔
      (∃ t, scope.types.get? r = some t ∧ p = ⟨r.index, sizeOf t⟩) ∧ after = st := by
  unfold pseudoOf
  simp only [yields_bind, yields_typeOf, yields_pure]
  constructor
  · rintro ⟨t, _, ⟨ht, rfl⟩, rfl, rfl⟩
    exact ⟨⟨t, ht, rfl⟩, rfl⟩
  · rintro ⟨⟨t, ht, rfl⟩, rfl⟩
    exact ⟨t, after, ⟨ht, rfl⟩, rfl, rfl⟩

theorem yields_classOf {r : Register} {origin : Origin} {name : String} :
    Yields scope (classOf r origin) st name after ↔
      scope.types.get? r = some (.classRef name) ∧ after = st := by
  unfold classOf
  simp only [yields_bind, yields_typeOf]
  constructor
  · rintro ⟨t, _, ⟨ht, rfl⟩, h⟩
    split at h
    · obtain ⟨rfl, rfl⟩ := yields_pure.1 h
      exact ⟨ht, rfl⟩
    · exact absurd h not_yields_throw
  · rintro ⟨h, rfl⟩
    exact ⟨_, after, ⟨h, rfl⟩, yields_pure.2 ⟨rfl, rfl⟩⟩

theorem yields_localOf {name : String} {origin : Origin} {p : Reg} :
    Yields scope (localOf name origin) st p after ↔ st.locals.get? name = some p
    ∧ after = st := by
  unfold localOf
  simp only [yields_bind, yields_get]
  constructor
  · rintro ⟨_, _, ⟨rfl, rfl⟩, h⟩
    split at h
    · next p' hp =>
      obtain ⟨rfl, rfl⟩ := yields_pure.1 h
      exact ⟨hp, rfl⟩
    · exact absurd h not_yields_throw
  · rintro ⟨h, rfl⟩
    refine ⟨after, after, ⟨rfl, rfl⟩, ?_⟩
    rw [h]
    exact yields_pure.2 ⟨rfl, rfl⟩

theorem yields_paramOf {name : String} {origin : Origin} {p : Reg} :
    Yields scope (paramOf name origin) st p after ↔
      scope.params.get? name = some p ∧ after = st := by
  unfold paramOf
  simp only [yields_bind, yields_read]
  constructor
  · rintro ⟨_, _, ⟨rfl, rfl⟩, h⟩
    split at h
    · next p' hp =>
      obtain ⟨rfl, rfl⟩ := yields_pure.1 h
      exact ⟨hp, rfl⟩
    · exact absurd h not_yields_throw
  · rintro ⟨h, rfl⟩
    refine ⟨scope, after, ⟨rfl, rfl⟩, ?_⟩
    rw [h]
    exact yields_pure.2 ⟨rfl, rfl⟩

theorem yields_draw {size : Machine.Size} {p : Reg} :
    Yields scope (draw size) st p after ↔
      p = ⟨st.drawn + 1, size⟩ ∧ after = { st with drawn := st.drawn + 1 } := by
  unfold draw
  rw [yields_modifyGet, Prod.mk.injEq]

/-- Constants are addresses, and change the table of constants only. -/
theorem yields_constant {text : String} {a : Native.Argument}
    (h : Yields scope (constant text) st a after) :
    (∃ label, a = .address label) ∧ ∃ strings, after = { st with strings := strings } := by
  unfold constant at h
  rw [yields_modifyGet, Prod.mk.injEq] at h
  exact ⟨⟨_, h.1⟩, _, h.2⟩

theorem yields_whole {s : Native.Sequence} {code : List Instr} :
    Yields scope (whole s) st code after ↔ s.outcome = .ok () ∧ code = s.code
    ∧ after = st := by
  unfold whole
  simp only [yields_bind, yields_lift, yields_pure]
  constructor
  · rintro ⟨_, _, ⟨h, rfl⟩, rfl, rfl⟩
    exact ⟨h, rfl, rfl⟩
  · rintro ⟨h, rfl, rfl⟩
    exact ⟨(), after, ⟨h, rfl⟩, rfl, rfl⟩

/-- The code of a service is that of its call, which is counted. -/
theorem yields_service {svc : Native.Service} {args : List Native.Argument}
    {result : Option Reg} {origin : Origin} {code : List Instr}
    (h : Yields scope (service svc args result origin) st code after) :
    (Native.serviceCall scope.abi (environment scope.function) svc args result origin).outcome
        = .ok ()
      ∧ code = (Native.serviceCall scope.abi (environment scope.function) svc args result
          origin).code
      ∧ after = { st with serviceCalls := st.serviceCalls + 1 } := by
  unfold service at h
  simp only [yields_bind, yields_read, yields_whole, yields_modify, yields_pure] at h
  obtain ⟨_, _, ⟨rfl, rfl⟩, _, _, ⟨hok, rfl, rfl⟩, _, _, rfl, rfl, rfl⟩ := h
  exact ⟨hok, rfl, rfl⟩

/-- What is not a floating-point number is accepted. -/
theorem yields_requireIntegral {type : Ty} {what : Construct} {origin : Origin} {u : Unit} :
    Yields scope (requireIntegral type what origin) st u after ↔
      type.isFloating = false ∧ after = st := by
  unfold requireIntegral
  cases hf : type.isFloating with
  | true => exact ⟨fun h => absurd h not_yields_throw, nofun⟩
  | false => exact ⟨fun h => ⟨rfl, (yields_pure.1 h).2⟩, fun h => yields_pure.2 ⟨rfl, h.2⟩⟩

section Typed

variable {r : Register} {t : Ty} {origin : Origin}

theorem yields_typeOf_of_type (hr : scope.types.get? r = some t) {u : Ty} :
    Yields scope (typeOf r origin) st u after ↔ u = t ∧ after = st := by
  rw [yields_typeOf, hr, Option.some.injEq, eq_comm]

theorem yields_pseudoOf_of_type (hr : scope.types.get? r = some t) {p : Reg} :
    Yields scope (pseudoOf r origin) st p after ↔ p = ⟨r.index, sizeOf t⟩ ∧ after = st := by
  rw [yields_pseudoOf, hr]
  simp

end Typed

/-! ## Bodies -/

/-- The code of statements is that of the first one and that of the others. -/
theorem yields_bodyCode_cons {index : Nat} {s : Located} {l : List Located}
    {code : List Instr} :
    Yields scope (bodyCode index (s :: l)) st code after ↔
      ∃ first mid rest, Yields scope (statementCode index s.statement s.origin) st first mid
        ∧ Yields scope (bodyCode (index + 1) l) mid rest after ∧ code = first ++ rest := by
  rw [bodyCode, yields_bind]
  simp only [yields_bind, yields_pure]
  constructor
  · rintro ⟨first, mid, hfirst, rest, _, hrest, rfl, rfl⟩
    exact ⟨first, mid, rest, hfirst, hrest, rfl⟩
  · rintro ⟨first, mid, rest, hfirst, hrest, rfl⟩
    exact ⟨first, mid, hfirst, rest, after, hrest, rfl, rfl⟩

end Jil.Selection
