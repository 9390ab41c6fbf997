/-
Jil.Proofs.CommonSupertype — the type of a merge.

Of two classes whose superclasses meet, the common supertype is the place where
they meet first: both extend it, and it extends whatever both extend (`Meet`).
In an acyclic hierarchy there is one such place, so the order of the two classes
does not matter (`commonSupertype?_comm`); in a circle every class of the circle
is one, and the walk takes the first that it comes to. Where the superclasses do
not meet, and where an array is merged with something else, only the root class
is left.
-/
import Jil.Proofs.Assignability
import Jil.Typing.Rules

namespace Jil

namespace ClassHierarchy

variable {h : ClassHierarchy} {x y z : String}

/-! ## Where superclasses meet -/

/-- Both classes extend `z`, and `z` extends every class that both extend. -/
structure Meet (h : ClassHierarchy) (x y z : String) : Prop where
  left : h.Extends x z
  right : h.Extends y z
  least : ∀ w, h.Extends x w → h.Extends y w → h.Extends z w

theorem Meet.symm (hz : h.Meet x y z) : h.Meet y x z :=
  ⟨hz.right, hz.left, fun w hy hx => hz.least w hx hy⟩

/-- In an acyclic hierarchy superclasses meet in one place. -/
theorem Meet.eq (hacyclic : h.Acyclic) {w : String} (hz : h.Meet x y z) (hw : h.Meet x y w) :
    z = w :=
  hacyclic.antisymm (hz.least w hw.left hw.right) (hw.least z hz.left hz.right)

/-- The first class of one chain that is on another. -/
def shared? (h : ClassHierarchy) (x y : String) : Option String :=
  (h.superclassChain y).find? (· ∈ h.superclassChain x)

theorem meet_of_shared? (hz : h.shared? x y = some z) : h.Meet x y z := by
  obtain ⟨hx, front, back, hchain, hfront⟩ := List.find?_eq_some_iff_append.1 hz
  have hy : z ∈ h.superclassChain y := by simp [hchain]
  refine ⟨mem_superclassChain.1 (by simpa using hx), mem_superclassChain.1 hy,
    fun w hxw hyw => ?_⟩
  -- a class that both extend is not in front of `z` on the second chain
  have hback : w = z ∨ w ∈ back := by
    have hw := mem_superclassChain.2 hyw
    rw [hchain, List.mem_append, List.mem_cons] at hw
    refine hw.resolve_left fun hw => ?_
    simpa [mem_superclassChain.2 hxw] using hfront w hw
  rcases hback with rfl | hback
  · exact .refl
  · have hpairs := pairwise_superclassChain (h := h) y
    rw [hchain, List.pairwise_append, List.pairwise_cons] at hpairs
    exact hpairs.2.1.1 w hback

theorem shared?_eq_none : h.shared? x y = none ↔ ∀ w, h.Extends x w → ¬ h.Extends y w := by
  simp only [shared?, List.find?_eq_none, decide_eq_true_eq, mem_superclassChain]
  exact ⟨fun hnone w hx hy => hnone w hy hx, fun hnone w hy hx => hnone w hx hy⟩

theorem shared?_comm (hacyclic : h.Acyclic) (x y : String) :
    h.shared? x y = h.shared? y x := by
  cases hxy : h.shared? x y with
  | none => exact (shared?_eq_none.2 fun w hy hx => shared?_eq_none.1 hxy w hx hy).symm
  | some z =>
    have hz := meet_of_shared? hxy
    cases hyx : h.shared? y x with
    | none => exact absurd hz.left (shared?_eq_none.1 hyx z hz.right)
    | some w => rw [hz.symm.eq hacyclic (meet_of_shared? hyx)]

/-! ## The common supertype -/

theorem commonSupertype?_self (h : ClassHierarchy) (t : Ty) :
    h.commonSupertype? t t = some t :=
  if_pos rfl

theorem commonSupertype?_classRef (hne : x ≠ y) :
    h.commonSupertype? (.classRef x) (.classRef y)
      = some (.classRef ((h.shared? x y).getD objectClass)) :=
  if_neg fun heq => hne (Ty.classRef.inj heq)

/-- Null references take the type of what they are merged with. -/
theorem commonSupertype?_null {t : Ty} (href : t.isReference = true) :
    h.commonSupertype? .null t = some t ∧ h.commonSupertype? t .null = some t := by
  cases t <;> first | exact ⟨rfl, rfl⟩ | cases href

/-- Arrays have only the root class in common with anything else. -/
theorem commonSupertype?_array {e t : Ty} (href : t.isReference = true) (hnull : t ≠ .null)
    (hne : .array e ≠ t) : h.commonSupertype? (.array e) t = some .object
      ∧ h.commonSupertype? t (.array e) = some .object := by
  unfold commonSupertype?
  rw [if_neg hne, if_neg hne.symm]
  cases t <;> first | exact ⟨rfl, rfl⟩ | contradiction

theorem commonSupertype?_comm (hacyclic : h.Acyclic) {a b : Ty} (ha : a.isReference = true)
    (hb : b.isReference = true) : h.commonSupertype? a b = h.commonSupertype? b a := by
  by_cases heq : a = b
  · rw [heq]
  · cases a with
    | null => rw [(commonSupertype?_null hb).1, (commonSupertype?_null hb).2]
    | array e =>
      by_cases hnull : b = .null
      · rw [hnull, (commonSupertype?_null ha).1, (commonSupertype?_null ha).2]
      · rw [(commonSupertype?_array hb hnull heq).1, (commonSupertype?_array hb hnull heq).2]
    | classRef x =>
      cases b with
      | null => rw [(commonSupertype?_null ha).1, (commonSupertype?_null ha).2]
      | array e =>
        obtain ⟨hleft, hright⟩ := commonSupertype?_array (h := h) ha nofun (Ne.symm heq)
        rw [hleft, hright]
      | classRef y =>
        have hne : x ≠ y := fun hxy => heq (congrArg _ hxy)
        rw [commonSupertype?_classRef hne, commonSupertype?_classRef hne.symm,
          shared?_comm hacyclic]
      | _ => cases hb
    | _ => cases ha

/-- `t` takes values of both types, and of two classes it is stored wherever a class that both
extend is declared. A null reference adds nothing. -/
structure LeastAbove (h : ClassHierarchy) (a b t : Ty) : Prop where
  left : h.canAssign t a = true
  right : h.canAssign t b = true
  least : ∀ x y z, a = .classRef x → b = .classRef y → h.Extends x z → h.Extends y z →
    h.canAssign (.classRef z) t = true
  nullLeft : a = .null → t = b
  nullRight : b = .null → t = a

theorem leastAbove_self (h : ClassHierarchy) (t : Ty) : h.LeastAbove t t t where
  left := canAssign_iff.2 (.same t)
  right := canAssign_iff.2 (.same t)
  least := by
    rintro x _ z rfl - hx -
    exact canAssign_iff.2 (.classes hx.inherits)
  nullLeft _ := rfl
  nullRight _ := rfl

theorem leastAbove_null {t : Ty} (href : t.isReference = true) :
    h.LeastAbove .null t t ∧ h.LeastAbove t .null t := by
  have hnull := canAssign_iff.2 (.null (h := h) href)
  have hself := canAssign_iff.2 (.same (h := h) t)
  exact ⟨⟨hnull, hself, nofun, fun _ => rfl, id⟩, ⟨hself, hnull, nofun, id, fun _ => rfl⟩⟩

/-- The root class is above everything, and least where the superclasses do not meet. -/
theorem leastAbove_object {a b : Ty} (ha : a.isReference = true) (hb : b.isReference = true)
    (hleft : a ≠ .null) (hright : b ≠ .null)
    (hapart : ∀ x y z, a = .classRef x → b = .classRef y → h.Extends x z → ¬ h.Extends y z) :
    h.LeastAbove a b .object where
  left := canAssign_iff.2 (.object ha)
  right := canAssign_iff.2 (.object hb)
  least x y z hx hy hxz hyz := absurd hyz (hapart x y z hx hy hxz)
  nullLeft hnull := absurd hnull hleft
  nullRight hnull := absurd hnull hright

theorem leastAbove_of_meet (hz : h.Meet x y z) :
    h.LeastAbove (.classRef x) (.classRef y) (.classRef z) where
  left := canAssign_iff.2 (.classes hz.left.inherits)
  right := canAssign_iff.2 (.classes hz.right.inherits)
  least := by
    rintro _ _ w ⟨⟩ ⟨⟩ hx hy
    exact canAssign_iff.2 (.classes (hz.least w hx hy).inherits)
  nullLeft := nofun
  nullRight := nofun

theorem exists_leastAbove {a b : Ty} (ha : a.isReference = true) (hb : b.isReference = true) :
    ∃ t, h.commonSupertype? a b = some t ∧ h.LeastAbove a b t := by
  by_cases heq : a = b
  · subst heq
    exact ⟨a, commonSupertype?_self h a, leastAbove_self h a⟩
  · cases a with
    | null => exact ⟨b, (commonSupertype?_null hb).1, (leastAbove_null hb).1⟩
    | array e =>
      by_cases hnull : b = .null
      · subst hnull
        exact ⟨_, (commonSupertype?_null ha).2, (leastAbove_null ha).2⟩
      · exact ⟨_, (commonSupertype?_array hb hnull heq).1,
          leastAbove_object ha hb nofun hnull nofun⟩
    | classRef x =>
      cases b with
      | null => exact ⟨_, (commonSupertype?_null ha).2, (leastAbove_null ha).2⟩
      | array e =>
        exact ⟨_, (commonSupertype?_array ha nofun (Ne.symm heq)).2,
          leastAbove_object ha hb nofun nofun nofun⟩
      | classRef y =>
        refine ⟨_, commonSupertype?_classRef fun hxy => heq (congrArg _ hxy), ?_⟩
        cases hshared : h.shared? x y with
        | some z => exact leastAbove_of_meet (meet_of_shared? hshared)
        | none =>
          refine leastAbove_object rfl rfl nofun nofun ?_
          rintro _ _ z ⟨⟩ ⟨⟩
          exact shared?_eq_none.1 hshared z
      | _ => cases hb
    | _ => cases ha

/-! ## Merges -/

/-- The result of a merge of two references has their common supertype. -/
theorem effect_choose {scope : Typing.Scope} {ctx : Typing.Context} {first second : Register}
    {a b t : Ty} (hfirst : ctx.registers.get? first = some a)
    (hsecond : ctx.registers.get? second = some b) (ha : a.isReference = true)
    (hb : b.isReference = true) (ht : scope.unit.hierarchy.commonSupertype? a b = some t)
    (result : Register) (origin : Origin) :
    Typing.effect scope ctx (.choose first second result) origin = .ok (.define result t) := by
  have hmerged : scope.merged first second a b origin = .ok t := by
    simp [Typing.Scope.merged, Ty.isPrimitive, ha, hb, ht]
  simp only [Typing.effect, Typing.Context.register, hfirst, hsecond]
  exact congrArg (· >>= fun t => pure (Typing.Effect.define result t)) hmerged

/-- Two references always have a common supertype, which is the type of their merge.
It takes both, and nothing that both extend is nearer; in an acyclic hierarchy their
order does not matter. -/
theorem merge_is_least_above (h : ClassHierarchy) {a b : Ty} (ha : a.isReference = true)
    (hb : b.isReference = true) :
    ∃ t, h.commonSupertype? a b = some t ∧ h.LeastAbove a b t
      ∧ (h.Acyclic → h.commonSupertype? b a = some t)
      ∧ ∀ (scope : Typing.Scope) (ctx : Typing.Context) (first second result : Register)
          (origin : Origin), scope.unit.hierarchy = h →
          ctx.registers.get? first = some a → ctx.registers.get? second = some b →
          Typing.effect scope ctx (.choose first second result) origin
            = .ok (.define result t) := by
  obtain ⟨t, ht, hleast⟩ := exists_leastAbove (h := h) ha hb
  refine ⟨t, ht, hleast, fun hacyclic => ?_, ?_⟩
  · rw [commonSupertype?_comm hacyclic hb ha, ht]
  · rintro scope ctx first second result origin rfl hfirst hsecond
    exact effect_choose hfirst hsecond ha hb ht result origin

/-- Two classes with one superclass, one of them with an interface. -/
def pets : ClassHierarchy :=
  ((empty.declare "pkg/Animal" (some objectClass) []).declare "pkg/Dog" (some "pkg/Animal")
    ["pkg/Pet"]).declare "pkg/Cat" (some "pkg/Animal") []

theorem acyclic_pets : pets.Acyclic := by
  refine acyclic_of_measure
    (fun c => if c = objectClass then 2 else if c = "pkg/Animal" then 1 else 0) fun c p hp =>
    ?_
  simp only [pets, superclass?_declare] at hp
  repeat' split at hp
  all_goals subst_vars
  all_goals cases hp
  all_goals decide

/-- Dogs and cats merge to animals, in either order. -/
theorem pets_merge_to_animals :
    (Ty.classRef "pkg/Dog").isReference = true ∧ (Ty.classRef "pkg/Cat").isReference = true
    ∧ pets.Acyclic
    ∧ pets.LeastAbove (.classRef "pkg/Dog") (.classRef "pkg/Cat") (.classRef "pkg/Animal")
    ∧ pets.commonSupertype? (.classRef "pkg/Cat") (.classRef "pkg/Dog")
      = some (.classRef "pkg/Animal") := by
  have hmeet : pets.commonSupertype? (.classRef "pkg/Dog") (.classRef "pkg/Cat")
      = some (.classRef "pkg/Animal") := by decide +kernel
  obtain ⟨t, ht, hleast, hcomm, -⟩ := merge_is_least_above pets
    (a := .classRef "pkg/Dog") (b := .classRef "pkg/Cat") rfl rfl
  obtain rfl := Option.some.inj (hmeet.symm.trans ht)
  exact ⟨rfl, rfl, acyclic_pets, hleast, hcomm acyclic_pets⟩

end ClassHierarchy

end Jil
