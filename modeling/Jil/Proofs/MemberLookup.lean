/-
Jil.Proofs.MemberLookup — in which class a member is found.

A member is looked up in the classes of a lineage. `Nearest` says which of them
answers: a class that has the member, with none in front of it that has, and
`Absent` says that none does. Methods and fields of other classes are found in
the nearest class and nowhere else (`members_come_from_nearest`).

Two things can be lost. A lineage ends after `lineageLimit` classes, so a member
that is declared further up is not found, although values are assignable along
all superclasses. And a class is asked for a field by its name, so a field is
hidden by one of the other kind that the class declares before it (`Visible`).
`lost` has one of each.
-/
import Jil.Proofs.Ancestry
import Jil.ClassUnit

namespace Jil

/-! ## The nearest class -/

namespace ClassHierarchy

variable {h : ClassHierarchy} {α : Type} {find : String → Option α} {c : String}

/-- The class `d`, which stands `n` superclasses above `c`, has `a` to give, and no
nearer class has anything. -/
structure Nearest (h : ClassHierarchy) (find : String → Option α) (c : String) (n : Nat)
    (d : String) (a : α) : Prop where
  inside : n < lineageLimit
  above : h.ancestor? n c = some d
  found : find d = some a
  first : ∀ k e, k < n → h.ancestor? k c = some e → find e = none

/-- No class of the lineage has anything. -/
def Absent (h : ClassHierarchy) (find : String → Option α) (c : String) : Prop :=
  ∀ n d, n < lineageLimit → h.ancestor? n c = some d → find d = none

theorem getElem?_lineage_eq_some {n : Nat} {d : String} :
    (h.lineage c)[n]? = some d ↔ n < lineageLimit ∧ h.ancestor? n c = some d := by
  rw [getElem?_lineage]
  split <;> simp [*]

theorem findSome?_lineage_eq_some {a : α} :
    (h.lineage c).findSome? find = some a ↔ ∃ n d, h.Nearest find c n d a := by
  rw [List.findSome?_eq_some_iff]
  constructor
  · rintro ⟨front, d, back, hlineage, hfound, hfront⟩
    have hd : (h.lineage c)[front.length]? = some d := by simp [hlineage]
    obtain ⟨hinside, habove⟩ := getElem?_lineage_eq_some.1 hd
    refine ⟨front.length, d, hinside, habove, hfound, fun k e hk he => ?_⟩
    have hke := getElem?_lineage_eq_some.2 ⟨Nat.lt_trans hk hinside, he⟩
    rw [hlineage, List.getElem?_append_left hk] at hke
    exact hfront e (List.mem_of_getElem? hke)
  · rintro ⟨n, d, hnearest⟩
    obtain ⟨hn, hd⟩ := List.getElem?_eq_some_iff.1
      (getElem?_lineage_eq_some.2 ⟨hnearest.inside, hnearest.above⟩)
    refine ⟨(h.lineage c).take n, d, (h.lineage c).drop (n + 1), ?_, hnearest.found,
      fun e he => ?_⟩
    · rw [← hd, ← List.drop_eq_getElem_cons hn, List.take_append_drop]
    · obtain ⟨k, hk⟩ := List.mem_iff_getElem?.1 he
      rw [List.getElem?_take] at hk
      split at hk
      · next hlt => exact hnearest.first k e hlt (getElem?_lineage_eq_some.1 hk).2
      · cases hk

theorem findSome?_lineage_eq_none :
    (h.lineage c).findSome? find = none ↔ h.Absent find c := by
  rw [List.findSome?_eq_none_iff]
  constructor
  · exact fun hnone n d hn hd =>
      hnone d (List.mem_of_getElem? (getElem?_lineage_eq_some.2 ⟨hn, hd⟩))
  · intro habsent d hd
    obtain ⟨n, hn⟩ := List.mem_iff_getElem?.1 hd
    obtain ⟨hinside, habove⟩ := getElem?_lineage_eq_some.1 hn
    exact habsent n d hinside habove

end ClassHierarchy

/-! ## Methods -/

namespace ClassUnit

variable {u : ClassUnit} {owner name : String} {key : MethodKey} {origin : Origin}

/-- The method with a given key that a class has: of the class itself the last function counts,
of another class the first declaration. -/
def methodOf? (u : ClassUnit) (key : MethodKey) (owner : String) : Option ResolvedMethod :=
  if owner = u.name then
    (u.functions.filter (·.key = key)).getLast?.map fun f => ⟨owner, key, f.info, true⟩
  else
    (u.externals.methods.find? fun m => m.owner = owner && m.key = key).map fun m =>
      ⟨owner, key, m.info, false⟩

/-- A method is known by the class that has it, which is the class itself exactly
when the method is local. -/
theorem owner_of_methodOf? {m : ResolvedMethod} (hm : u.methodOf? key owner = some m) :
    m.owner = owner ∧ m.key = key ∧ (m.isLocal = true ↔ owner = u.name) := by
  unfold methodOf? at hm
  split at hm
  · next howner =>
    obtain ⟨f, -, rfl⟩ := Option.map_eq_some_iff.1 hm
    exact ⟨rfl, rfl, fun _ => howner, fun _ => rfl⟩
  · next howner =>
    obtain ⟨e, -, rfl⟩ := Option.map_eq_some_iff.1 hm
    exact ⟨rfl, rfl, nofun, fun heq => absurd heq howner⟩

/-- An index that is up to date is the one of the functions as they are. -/
theorem rebuildIndex_eq_self_iff : u.rebuildIndex = u ↔
    u.index? = some (.build (u.functions.map fun f => (f.key, f.info))) := by
  constructor
  · intro hfresh
    rw [← hfresh]
    rfl
  · intro hindex
    rw [rebuildIndex, ← hindex]

theorem index_eq (hfresh : u.rebuildIndex = u) :
    u.index = .ok (.build (u.functions.map fun f => (f.key, f.info))) := by
  rw [index, rebuildIndex_eq_self_iff.1 hfresh]

theorem methodIn?_eq (hfresh : u.rebuildIndex = u) (key : MethodKey) (owner : String) :
    u.methodIn? key owner = .ok (u.methodOf? key owner) := by
  unfold methodIn? methodOf?
  split
  · rw [index_eq hfresh]
    change Except.ok (Option.map _ ((Table.ofList _).get? key)) = _
    rw [Table.get?_ofList, List.filter_map, List.getLast?_map, Option.map_map, Option.map_map]
    rfl
  · rfl

theorem findMethod?_eq (hfresh : u.rebuildIndex = u) (key : MethodKey) (owners : List String) :
    u.findMethod? key owners = .ok (owners.findSome? (u.methodOf? key)) := by
  induction owners with
  | nil => rfl
  | cons owner owners ih =>
    rw [findMethod?, methodIn?_eq hfresh, List.findSome?_cons]
    cases u.methodOf? key owner with
    | some m => rfl
    | none => exact ih

theorem resolveMethod_eq (hfresh : u.rebuildIndex = u) (args : List Ty) :
    u.resolveMethod owner name args origin
      = match (u.hierarchy.lineage owner).findSome? (u.methodOf? ⟨name, args⟩) with
        | some m => .ok m
        | none => .error (.undefined (.method owner ⟨name, args⟩) origin) := by
  unfold resolveMethod
  rw [findMethod?_eq hfresh]
  cases (u.hierarchy.lineage owner).findSome? (u.methodOf? ⟨name, args⟩) <;> rfl

end ClassUnit

/-! ## Fields -/

namespace Externals

variable {e : Externals} {kind : MemberKind} {name owner : String}

/-- The first field of a class that has a given name and kind. -/
def fieldOf? (e : Externals) (kind : MemberKind) (name owner : String) :
    Option ExternalField :=
  e.fields.find? fun f => f.owner = owner && f.name = name && f.kind = kind

/-- No field of the other kind is declared in front of the field of a given name and kind. -/
def Visible (e : Externals) (kind : MemberKind) (name owner : String) : Prop :=
  ∀ f, e.fieldOf? kind name owner = some f → e.field? owner name = some f

/-- The first field of a class that has a given name, when it has the given kind. -/
def shownField? (e : Externals) (kind : MemberKind) (name owner : String) :
    Option ExternalField :=
  (e.field? owner name).filter (·.kind = kind)

/-- A field that is shown is the first one of its name and kind. -/
theorem fieldOf?_of_shownField? {f : ExternalField}
    (h : e.shownField? kind name owner = some f) :
    e.fieldOf? kind name owner = some f := by
  obtain ⟨hfield, hkind⟩ := Option.filter_eq_some_iff.1 h
  obtain ⟨hf, front, back, hfields, hfront⟩ := List.find?_eq_some_iff_append.1 hfield
  refine List.find?_eq_some_iff_append.2
    ⟨Bool.and_eq_true_iff.2 ⟨hf, hkind⟩, front, back, hfields, fun g hg => ?_⟩
  have hother := hfront g hg
  simp only [Bool.not_eq_true', Bool.and_eq_false_iff] at hother ⊢
  exact .inl hother

/-- A field that is visible is shown. -/
theorem shownField?_of_visible {f : ExternalField} (hvisible : e.Visible kind name owner)
    (h : e.fieldOf? kind name owner = some f) : e.shownField? kind name owner = some f := by
  have hf := List.find?_some h
  simp only [Bool.and_eq_true, decide_eq_true_eq] at hf
  exact Option.filter_eq_some_iff.2 ⟨hvisible f h, decide_eq_true hf.2⟩

end Externals

namespace ClassUnit

variable {u : ClassUnit} {kind : MemberKind} {owner name : String} {origin : Origin}

/-- Type of a field, static or of objects. -/
def fieldType (u : ClassUnit) : MemberKind → String → String → Origin → Except CompileError Ty
  | .static => u.staticFieldType
  | .perObject => u.objectFieldType

/-- How a field that is missing is named. -/
def fieldReference : MemberKind → String → String → Reference
  | .static => .staticField
  | .perObject => .field

/-- The nearest field of a name and a kind is visible. Nothing is said about the classes
behind. -/
def NearestVisible (u : ClassUnit) (kind : MemberKind) (owner name : String) : Prop :=
  ∀ n d f, u.hierarchy.Nearest (u.externals.fieldOf? kind name) owner n d f →
    u.externals.Visible kind name d

/-- A field is looked for among those that are shown. -/
theorem externalField?_eq_findSome? : u.externalField? kind owner name
    = (u.hierarchy.lineage owner).findSome? (u.externals.shownField? kind name) := by
  unfold externalField?
  induction u.hierarchy.lineage owner with
  | nil => rfl
  | cons d rest ih =>
    rw [List.findSome?_cons, ← ih, List.filterMap_cons, Externals.shownField?]
    cases u.externals.field? d name with
    | none => rfl
    | some f =>
      by_cases hkind : f.kind = kind <;> simp [hkind, Option.filter, -List.find?_filterMap]

/-- Where the nearest field is visible, it counts. -/
theorem externalField?_eq (hvisible : u.NearestVisible kind owner name) :
    u.externalField? kind owner name
      = (u.hierarchy.lineage owner).findSome? (u.externals.fieldOf? kind name) := by
  rw [externalField?_eq_findSome?]
  cases hfound : (u.hierarchy.lineage owner).findSome? (u.externals.fieldOf? kind name) with
  | some f =>
    obtain ⟨n, d, hnearest⟩ := ClassHierarchy.findSome?_lineage_eq_some.1 hfound
    refine ClassHierarchy.findSome?_lineage_eq_some.2 ⟨n, d, hnearest.inside, hnearest.above,
      Externals.shownField?_of_visible (hvisible n d f hnearest) hnearest.found,
      fun k e hk he => ?_⟩
    -- a nearer class that shows a field would have one
    refine Option.eq_none_iff_forall_ne_some.2 fun g hg => ?_
    exact nomatch (Externals.fieldOf?_of_shownField? hg).symm.trans (hnearest.first k e hk he)
  | none =>
    have habsent := ClassHierarchy.findSome?_lineage_eq_none.1 hfound
    refine ClassHierarchy.findSome?_lineage_eq_none.2 fun n d hn hd => ?_
    refine Option.eq_none_iff_forall_ne_some.2 fun g hg => ?_
    exact nomatch (Externals.fieldOf?_of_shownField? hg).symm.trans (habsent n d hn hd)

theorem fieldType_eq (hforeign : owner ≠ u.name)
    (hvisible : u.NearestVisible kind owner name) :
    u.fieldType kind owner name origin
      = match (u.hierarchy.lineage owner).findSome? (u.externals.fieldOf? kind name) with
        | some f => .ok f.type
        | none => .error (.undefined (fieldReference kind owner name) (some origin)) := by
  rw [← externalField?_eq hvisible]
  cases kind with
  | static | perObject => exact if_neg hforeign

theorem resolveMethod_iff (hfresh : u.rebuildIndex = u) (args : List Ty) :
    (∀ m, u.resolveMethod owner name args origin = .ok m ↔
      ∃ n d, u.hierarchy.Nearest (u.methodOf? ⟨name, args⟩) owner n d m
        ∧ m.owner = d ∧ m.key = ⟨name, args⟩ ∧ (m.isLocal = true ↔ d = u.name))
    ∧ ∀ e, u.resolveMethod owner name args origin = .error e ↔
      u.hierarchy.Absent (u.methodOf? ⟨name, args⟩) owner
        ∧ e = .undefined (.method owner ⟨name, args⟩) origin := by
  rw [resolveMethod_eq hfresh, ← ClassHierarchy.findSome?_lineage_eq_none]
  have hnearest :
      ∀ m, (u.hierarchy.lineage owner).findSome? (u.methodOf? ⟨name, args⟩) = some m ↔
      ∃ n d, u.hierarchy.Nearest (u.methodOf? ⟨name, args⟩) owner n d m
        ∧ m.owner = d ∧ m.key = ⟨name, args⟩ ∧ (m.isLocal = true ↔ d = u.name) := fun m => by
    rw [ClassHierarchy.findSome?_lineage_eq_some]
    exact exists₂_congr fun n d => ⟨fun hd => ⟨hd, owner_of_methodOf? hd.found⟩, And.left⟩
  simp only [← hnearest]
  cases (u.hierarchy.lineage owner).findSome? (u.methodOf? ⟨name, args⟩) <;>
    simp [eq_comm]

theorem fieldType_iff (hforeign : owner ≠ u.name)
    (hvisible : u.NearestVisible kind owner name) :
    (∀ t, u.fieldType kind owner name origin = .ok t ↔
      ∃ n d f, u.hierarchy.Nearest (u.externals.fieldOf? kind name) owner n d f ∧ f.type = t)
    ∧ ∀ e, u.fieldType kind owner name origin = .error e ↔
      u.hierarchy.Absent (u.externals.fieldOf? kind name) owner
        ∧ e = .undefined (fieldReference kind owner name) (some origin) := by
  rw [fieldType_eq hforeign hvisible, ← ClassHierarchy.findSome?_lineage_eq_none]
  have hnearest :
      ∀ t, (∃ n d f, u.hierarchy.Nearest (u.externals.fieldOf? kind name) owner n d f
        ∧ f.type = t)
      ↔ ∃ f, (u.hierarchy.lineage owner).findSome? (u.externals.fieldOf? kind name) = some f
        ∧ f.type = t := fun t => by
    simp only [ClassHierarchy.findSome?_lineage_eq_some]
    constructor
    · rintro ⟨n, d, f, hf, ht⟩
      exact ⟨f, ⟨n, d, hf⟩, ht⟩
    · rintro ⟨f, ⟨n, d, hf⟩, ht⟩
      exact ⟨n, d, f, hf, ht⟩
  simp only [hnearest]
  cases (u.hierarchy.lineage owner).findSome? (u.externals.fieldOf? kind name) <;>
    simp [eq_comm]

/-- Where members come from. With a signature index that is up to date, a method is the one
of the nearest class of the lineage that has the key, and it is local exactly when that is
the class itself; it is missing only when no class of the lineage has it. The type of a field
of another class is the one of the nearest class of the lineage that has a field of the name
and the kind, provided that this class does not hide it, and it is missing only when no class
of the lineage has one. -/
theorem members_come_from_nearest {u : ClassUnit} (hfresh : u.rebuildIndex = u)
    (owner name : String) (origin : Origin) :
    (∀ args, (∀ m, u.resolveMethod owner name args origin = .ok m ↔
          ∃ n d, u.hierarchy.Nearest (u.methodOf? ⟨name, args⟩) owner n d m
            ∧ m.owner = d ∧ m.key = ⟨name, args⟩ ∧ (m.isLocal = true ↔ d = u.name))
        ∧ ∀ e, u.resolveMethod owner name args origin = .error e ↔
          u.hierarchy.Absent (u.methodOf? ⟨name, args⟩) owner
            ∧ e = .undefined (.method owner ⟨name, args⟩) origin)
    ∧ ∀ kind, owner ≠ u.name → u.NearestVisible kind owner name →
        (∀ t, u.fieldType kind owner name origin = .ok t ↔
          ∃ n d f, u.hierarchy.Nearest (u.externals.fieldOf? kind name) owner n d f
          ∧ f.type = t)
        ∧ ∀ e, u.fieldType kind owner name origin = .error e ↔
          u.hierarchy.Absent (u.externals.fieldOf? kind name) owner
            ∧ e = .undefined (fieldReference kind owner name) (some origin) :=
  ⟨fun args => resolveMethod_iff hfresh args, fun _ hforeign hvisible =>
    fieldType_iff hforeign hvisible⟩

/-- A class with a function, and two other classes below it that have fields of one name. The
upper one hides its field of objects. -/
def kin : ClassUnit :=
  ((((((create "pkg/Main").addFunction
      { name := "run", kind := .static, params := [], returns := .void }).declareClass
        "pkg/Derived"
      (some "pkg/Base")).declareClass "pkg/Base" (some "pkg/Main")).declareField
    ⟨"pkg/Derived", "id", .int, .perObject⟩).declareField
    ⟨"pkg/Base", "id", .long, .static⟩).declareField
    ⟨"pkg/Base", "id", .short, .perObject⟩ |>.rebuildIndex

theorem fields_kin : kin.externals.fields = [⟨"pkg/Derived", "id", .int, .perObject⟩,
    ⟨"pkg/Base", "id", .long, .static⟩, ⟨"pkg/Base", "id", .short, .perObject⟩] := rfl

/-- A call of the lowest class reaches the function of the class itself, and its field is the
one that it declares, whatever the class above it hides. -/
theorem members_of_kin :
    kin.rebuildIndex = kin ∧ "pkg/Derived" ≠ kin.name
    ∧ kin.NearestVisible .perObject "pkg/Derived" "id"
    ∧ ¬ kin.externals.Visible .perObject "id" "pkg/Base"
    ∧ kin.resolveMethod "pkg/Derived" "run" [] .generated
      = .ok ⟨"pkg/Main", ⟨"run", []⟩, ⟨.void, .static, false⟩, true⟩
    ∧ kin.fieldType .perObject "pkg/Derived" "id" .generated = .ok .int := by
  have hfresh : kin.rebuildIndex = kin := rfl
  have hforeign : "pkg/Derived" ≠ kin.name := by decide
  have hfound : kin.externals.fieldOf? .perObject "id" "pkg/Derived"
      = some ⟨"pkg/Derived", "id", .int, .perObject⟩ := by
    rw [Externals.fieldOf?, fields_kin]
    rfl
  have hnearest :
      kin.hierarchy.Nearest (kin.externals.fieldOf? .perObject "id") "pkg/Derived" 0
      "pkg/Derived" ⟨"pkg/Derived", "id", .int, .perObject⟩ :=
    ⟨by decide, rfl, hfound, fun _ _ hk => nomatch hk⟩
  have hvisible : kin.NearestVisible .perObject "pkg/Derived" "id" := by
    intro n d f hd
    obtain rfl : n = 0 := by
      refine Nat.eq_zero_of_not_pos fun hn => ?_
      exact nomatch hfound.symm.trans (hd.first 0 _ hn rfl)
    cases hd.above
    intro g hg
    rw [← hg, hfound, Externals.field?, fields_kin]
    rfl
  have hhidden : ¬ kin.externals.Visible .perObject "id" "pkg/Base" := by
    intro hbase
    have hshown := hbase ⟨"pkg/Base", "id", .short, .perObject⟩ rfl
    exact absurd hshown (by decide)
  obtain ⟨hmethods, -⟩ := members_come_from_nearest hfresh "pkg/Derived" "run" .generated
  obtain ⟨-, hfields⟩ := members_come_from_nearest hfresh "pkg/Derived" "id" .generated
  refine ⟨hfresh, hforeign, hvisible, hhidden, ?_, ?_⟩
  · refine ((hmethods []).1 _).2 ⟨2, "pkg/Main", ⟨by decide, rfl, rfl, fun k e hk he => ?_⟩,
      rfl, rfl, fun _ => rfl, fun _ => rfl⟩
    match k, hk with
    | 0, _ | 1, _ =>
      cases he
      decide
  · exact ((hfields .perObject hforeign hvisible).1 _).2 ⟨0, _, _, hnearest, rfl⟩

/-- The classes of a tower, from the ground. -/
def storey (n : Nat) : String := String.ofList ('F' :: List.replicate n 'x')

/-- A class that knows a tower of so many storeys, each with the next one as its superclass. -/
def tower : Nat → ClassUnit
  | 0 => create "pkg/Main"
  | n + 1 => (tower n).declareClass (storey n) (some (storey (n + 1)))

theorem storey_inj {m n : Nat} (heq : storey m = storey n) : m = n := by
  have hlength := congrArg String.length heq
  simpa [storey] using hlength

theorem storey_ne (n : Nat) : storey n ≠ "pkg/Main" := by
  intro heq
  have hfirst := congrArg (fun s => s.toList.head?) heq
  simp [storey] at hfirst

theorem superclass?_tower (n : Nat) (c : String) : (tower (n + 1)).hierarchy.superclass? c
    = if c = storey n then some (storey (n + 1)) else (tower n).hierarchy.superclass? c :=
  ClassHierarchy.superclass?_declare _ _ _ c

/-- A tower is what it is because of its classes: nothing else has been declared. -/
theorem tower_spec (n : Nat) : (tower n).name = "pkg/Main" ∧ (tower n).functions = []
    ∧ (tower n).index? = some {} ∧ (tower n).externals.methods = []
    ∧ (tower n).externals.fields = [] := by
  induction n with
  | zero => exact ⟨rfl, rfl, rfl, rfl, rfl⟩
  | succ n ih => exact ih

theorem superclass?_storey {k n : Nat} (hk : k < n) :
    (tower n).hierarchy.superclass? (storey k) = some (storey (k + 1)) := by
  induction n with
  | zero => cases hk
  | succ n ih =>
    rw [superclass?_tower]
    split
    · next heq => rw [storey_inj heq]
    · next hne =>
        exact ih (Nat.lt_of_le_of_ne (Nat.le_of_lt_succ hk) fun heq => hne (heq ▸ rfl))

theorem ancestor?_storey {k j n : Nat} (hk : j + k ≤ n) :
    (tower n).hierarchy.ancestor? k (storey j) = some (storey (j + k)) := by
  induction k generalizing j with
  | zero => rfl
  | succ k ih =>
    rw [ClassHierarchy.ancestor?, superclass?_storey (by omega), Option.bind_some,
      ih (by omega)]
    congr 2
    omega

/-- Names grow longer from storey to storey. -/
theorem acyclic_tower (n : Nat) : (tower n).hierarchy.Acyclic := by
  refine ClassHierarchy.acyclic_of_measure String.length fun c p hp => ?_
  induction n with
  | zero =>
    have hmain : (tower 0).hierarchy.superclass? c
        = if c = "pkg/Main" then some objectClass else none :=
      ClassHierarchy.superclass?_declare _ _ _ c
    rw [hmain] at hp
    split at hp
    · next hc =>
      cases hp
      rw [hc]
      decide
    · cases hp
  | succ n ih =>
    rw [superclass?_tower] at hp
    split at hp
    · next hc =>
      cases hp
      simp [hc, storey]
    · exact ih hp

/-- A tower with a method on top, and with a static field and a field of objects of
one name on the ground. -/
def lost (height : Nat) : ClassUnit :=
  (((tower height).declareMethod ⟨storey height, ⟨"run", []⟩,
    ⟨.void, .static, false⟩⟩).declareField
    ⟨storey 0, "size", .int, .static⟩).declareField ⟨storey 0, "size", .long, .perObject⟩

theorem methods_lost (height : Nat) : (lost height).externals.methods
    = [⟨storey height, ⟨"run", []⟩, ⟨.void, .static, false⟩⟩] := by
  rw [show (lost height).externals.methods = (tower height).externals.methods ++ _ from rfl,
    (tower_spec height).2.2.2.1, List.nil_append]

theorem fields_lost (height : Nat) : (lost height).externals.fields
    = [⟨storey 0, "size", .int, .static⟩, ⟨storey 0, "size", .long, .perObject⟩] := by
  rw [show (lost height).externals.fields = ((tower height).externals.fields ++ _)
    ++ _ from rfl, (tower_spec height).2.2.2.2]
  rfl

theorem name_lost (height : Nat) : (lost height).name = "pkg/Main" := (tower_spec height).1

theorem hierarchy_lost (height : Nat) : (lost height).hierarchy = (tower height).hierarchy :=
  rfl

theorem rebuildIndex_lost (height : Nat) : (lost height).rebuildIndex = lost height := by
  obtain ⟨-, hfunctions, hindex, -, -⟩ := tower_spec height
  refine rebuildIndex_eq_self_iff.2 ?_
  rw [show (lost height).functions = [] from hfunctions]
  exact hindex

theorem storey_ne_name_lost (n height : Nat) : storey n ≠ (lost height).name := by
  rw [name_lost]
  exact storey_ne n

/-- From the ground of a tower that is as high as a lineage is long the top cannot be seen. -/
theorem resolveMethod_lost {height : Nat} (hhigh : ClassHierarchy.lineageLimit ≤ height) :
    (lost height).resolveMethod (storey 0) "run" [] origin
      = .error (.undefined (.method (storey 0) ⟨"run", []⟩) origin) := by
  refine ((resolveMethod_iff (rebuildIndex_lost height) []).2 _).2 ⟨fun n d hn hd => ?_, rfl⟩
  have hbelow : n < height := Nat.lt_of_lt_of_le hn hhigh
  rw [hierarchy_lost, ancestor?_storey (by omega), Nat.zero_add] at hd
  cases hd
  have hne : storey height ≠ storey n :=
    fun heq => absurd (storey_inj heq) (Nat.ne_of_gt hbelow)
  simp [methodOf?, storey_ne_name_lost, methods_lost, hne]

/-- The field of objects on the ground stands behind a static one. -/
theorem objectFieldType_lost (height : Nat) :
    (lost height).objectFieldType (storey 0) "size" origin
      = .error (.undefined (.field (storey 0) "size") (some origin)) := by
  have hstatic : ∀ d f, (lost height).externals.field? d "size" = some f →
      f.kind = .static := by
    intro d f hf
    rw [Externals.field?, fields_lost] at hf
    by_cases hd : storey 0 = d
    · simp only [hd, decide_true, Bool.and_self, List.find?_cons_of_pos,
        Option.some.injEq] at hf
      rw [← hf]
    · simp [hd] at hf
  have hnone : (lost height).externalField? .perObject (storey 0) "size" = none := by
    refine List.find?_eq_none.2 fun f hf => ?_
    obtain ⟨d, -, hd⟩ := List.mem_filterMap.1 hf
    simp [hstatic d f hd]
  rw [objectFieldType, if_neg (storey_ne_name_lost 0 height), hnone]

/-- The method on top of the tower is declared by a class that the ground extends, and the
field of objects by the ground itself, but neither is found from the ground. -/
theorem members_lost :
    (lost 64).rebuildIndex = lost 64 ∧ (lost 64).hierarchy.Acyclic
    ∧ (lost 64).hierarchy.Extends (storey 0) (storey 64)
    ∧ (lost 64).methodOf? ⟨"run", []⟩ (storey 64)
      = some ⟨storey 64, ⟨"run", []⟩, ⟨.void, .static, false⟩, false⟩
    ∧ (lost 64).resolveMethod (storey 0) "run" [] .generated
      = .error (.undefined (.method (storey 0) ⟨"run", []⟩) .generated)
    ∧ storey 0 ≠ (lost 64).name
    ∧ (lost 64).externals.fieldOf? .perObject "size" (storey 0)
      = some ⟨storey 0, "size", .long, .perObject⟩
    ∧ (lost 64).objectFieldType (storey 0) "size" .generated
      = .error (.undefined (.field (storey 0) "size") (some .generated)) := by
  have hreach := ancestor?_storey (k := 64) (j := 0) (Nat.le_refl 64)
  refine ⟨rebuildIndex_lost 64, acyclic_tower 64, ClassHierarchy.extends_iff.2 ⟨64, hreach⟩,
    ?_,
    resolveMethod_lost (Nat.le_refl _), storey_ne_name_lost 0 64, ?_, objectFieldType_lost 64⟩
  · simp [methodOf?, storey_ne_name_lost, methods_lost]
  · simp [Externals.fieldOf?, fields_lost]

end ClassUnit

end Jil
