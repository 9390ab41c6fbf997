/-
Jil.Proofs.Ancestry — the classes above a class.

A hierarchy is a graph: one edge leads from a class to its superclass, others
lead to its interfaces, and both may run in circles. `Extends` follows
superclasses only and `Inherits` all edges. The walks of `Jil.Hierarchy` are
described by these relations: the search finds a class exactly when it is
inherited from (`isSubclass_iff`), the chain of a class consists of the classes
that it extends, nearer ones first (`mem_superclassChain`,
`pairwise_superclassChain`), and its lineage of its nearest superclasses
(`getElem?_lineage`).

Nothing is needed about the order in which the search visits classes: what it
has seen is closed under the edges, up to what is still to be visited.
-/
import Jil.Hierarchy
import Mathlib.Logic.Relation

namespace Jil

namespace ClassHierarchy

variable {h : ClassHierarchy}

/-! ## Relations between classes -/

/-- A class inherits directly from its superclass and from its interfaces. -/
inductive Edge (h : ClassHierarchy) (c p : String) : Prop
  | superclass : h.superclass? c = some p → Edge h c p
  | interface {entry : ClassEntry} :
      h.classes.get? c = some entry → p ∈ entry.interfaces → Edge h c p

/-- A class inherits from itself and from what is above it. -/
def Inherits (h : ClassHierarchy) : String → String → Prop := Relation.ReflTransGen h.Edge

/-- A class extends itself, its superclass, the superclass of that, and so on. -/
def Extends (h : ClassHierarchy) : String → String → Prop :=
  Relation.ReflTransGen fun c p => h.superclass? c = some p

/-- No class comes again above itself in the order of superclasses. -/
def Acyclic (h : ClassHierarchy) : Prop :=
  ∀ c p, h.superclass? c = some p → ¬ h.Extends p c

theorem mem_parents {c p : String} : p ∈ h.parents c ↔ h.Edge c p := by
  unfold parents
  cases hentry : h.classes.get? c with
  | none =>
    simp only [Option.map_none, Option.getD_none, List.not_mem_nil, false_iff]
    rintro (hp | ⟨he, -⟩)
    · simp [superclass?, hentry] at hp
    · simp [hentry] at he
  | some entry =>
    simp only [Option.map_some, Option.getD_some, ClassEntry.parents, List.mem_append,
      Option.mem_toList]
    constructor
    · rintro (hp | hp)
      · exact .superclass (by simpa [superclass?, hentry] using hp)
      · exact .interface hentry hp
    · rintro (hp | ⟨he, hp⟩)
      · exact .inl (by simpa [superclass?, hentry] using hp)
      · cases hentry.symm.trans he
        exact .inr hp

theorem Extends.inherits {c d : String} (hc : h.Extends c d) : h.Inherits c d :=
  hc.lift id fun _ _ hp => .superclass hp

/-- The class that stands `n` superclasses above a class. -/
def ancestor? (h : ClassHierarchy) : Nat → String → Option String
  | 0, c => some c
  | n + 1, c => (h.superclass? c).bind (h.ancestor? n)

theorem extends_iff {c d : String} : h.Extends c d ↔ ∃ n, h.ancestor? n c = some d := by
  constructor
  · intro hextends
    induction hextends using Relation.ReflTransGen.head_induction_on with
    | refl => exact ⟨0, rfl⟩
    | head hp _ ih =>
      obtain ⟨n, hn⟩ := ih
      exact ⟨n + 1, by rw [ancestor?, hp, Option.bind_some, hn]⟩
  · rintro ⟨n, hn⟩
    induction n generalizing c with
    | zero =>
      cases hn
      exact .refl
    | succ n ih =>
      obtain ⟨p, hp, hpd⟩ := Option.bind_eq_some_iff.1 hn
      exact .head hp (ih hpd)

/-- The superclass of a class after another declaration. -/
theorem superclass?_declare (name : String) (superclass : Option String)
    (interfaces : List String) (c : String) :
    (h.declare name superclass interfaces).superclass? c
      = if c = name then superclass else h.superclass? c := by
  simp only [superclass?, declare, Table.get?_insert]
  split <;> rfl

/-- In an acyclic hierarchy classes that extend each other are the same. -/
theorem Acyclic.antisymm (hacyclic : h.Acyclic) {c d : String} (hcd : h.Extends c d)
    (hdc : h.Extends d c) : c = d := by
  rcases Relation.ReflTransGen.cases_head hcd with heq | ⟨p, hp, hpd⟩
  · exact heq
  · exact absurd (hpd.trans hdc) (hacyclic c p hp)

/-- A hierarchy is acyclic when some measure grows from each class to its superclass. -/
theorem acyclic_of_measure (measure : String → Nat)
    (hlt : ∀ c p, h.superclass? c = some p → measure c < measure p) : h.Acyclic := by
  have hle : ∀ {c d}, h.Extends c d → measure c ≤ measure d := fun hcd => by
    induction hcd with
    | refl => exact Nat.le_refl _
    | tail _ hp ih => exact Nat.le_trans ih (Nat.le_of_lt (hlt _ _ hp))
  exact fun c p hp hpc => absurd (hle hpc) (Nat.not_le.2 (hlt c p hp))

/-! ## The search -/

/-- What the search finds is inherited from. -/
theorem inherits_of_search {target : String} {seen work : List String}
    (hfound : h.search target seen work = true) : ∃ c ∈ work, h.Inherits c target := by
  fun_induction h.search target seen work with
  | case1 => cases hfound
  | case2 => exact ⟨target, List.mem_cons_self, .refl⟩
  | case3 seen c rest _ _ ih =>
    obtain ⟨d, hd, hinherits⟩ := ih hfound
    exact ⟨d, List.mem_cons_of_mem _ hd, hinherits⟩
  | case4 seen c rest _ _ ih =>
    obtain ⟨d, hd, hinherits⟩ := ih hfound
    rcases List.mem_append.1 hd with hd | hd
    · exact ⟨c, List.mem_cons_self, .head (mem_parents.1 hd) hinherits⟩
    · exact ⟨d, List.mem_cons_of_mem _ hd, hinherits⟩

/-- What the search does not find is not inherited from: the classes behind it do not hold the
target and lead only to each other and to what is still to be visited. -/
theorem not_inherits_of_search {target : String} {seen work : List String}
    (hmissing : h.search target seen work = false) (hseen : ∀ c ∈ seen, c ≠ target)
    (hclosed : ∀ c ∈ seen, ∀ p, h.Edge c p → p ∈ seen ∨ p ∈ work) {c : String}
    (hc : c ∈ seen ∨ c ∈ work) : ¬ h.Inherits c target := by
  fun_induction h.search target seen work generalizing c with
  | case1 seen =>
    have hstays : ∀ {d}, h.Inherits c d → d ∈ seen := fun hinherits => by
      induction hinherits with
      | refl => exact hc.resolve_right List.not_mem_nil
      | tail _ hedge ih => exact (hclosed _ ih _ hedge).resolve_right List.not_mem_nil
    exact fun hinherits => hseen _ (hstays hinherits) rfl
  | case2 => cases hmissing
  | case3 seen d rest _ hmem ih =>
    refine ih hmissing hseen (fun c hc p hp => ?_) ?_
    · rcases hclosed c hc p hp with hp | hp
      · exact .inl hp
      · rcases List.mem_cons.1 hp with rfl | hp
        · exact .inl hmem
        · exact .inr hp
    · rcases hc with hc | hc
      · exact .inl hc
      · rcases List.mem_cons.1 hc with rfl | hc
        · exact .inl hmem
        · exact .inr hc
  | case4 seen d rest hne _ ih =>
    refine ih hmissing (fun c hc => ?_) (fun c hc p hp => ?_) ?_
    · rcases List.mem_cons.1 hc with rfl | hc
      · exact hne
      · exact hseen c hc
    · rcases List.mem_cons.1 hc with rfl | hc
      · exact .inr (List.mem_append_left _ (mem_parents.2 hp))
      · rcases hclosed c hc p hp with hp | hp
        · exact .inl (List.mem_cons_of_mem _ hp)
        · rcases List.mem_cons.1 hp with rfl | hp
          · exact .inl List.mem_cons_self
          · exact .inr (List.mem_append_right _ hp)
    · rcases hc with hc | hc
      · exact .inl (List.mem_cons_of_mem _ hc)
      · rcases List.mem_cons.1 hc with rfl | hc
        · exact .inl List.mem_cons_self
        · exact .inr (List.mem_append_right _ hc)

/-- A class is a subclass of the root class and of what it inherits from. -/
theorem isSubclass_iff {sub sup : String} :
    h.isSubclass sub sup = true ↔ sup = objectClass ∨ h.Inherits sub sup := by
  rw [isSubclass, Bool.or_eq_true, decide_eq_true_eq]
  refine or_congr_right ⟨fun hfound => ?_, fun hinherits => ?_⟩
  · obtain ⟨c, hc, hinherits⟩ := inherits_of_search hfound
    rwa [List.mem_singleton.1 hc] at hinherits
  · rw [← Bool.not_eq_false]
    exact fun hmissing =>
      not_inherits_of_search hmissing (fun _ hc => absurd hc List.not_mem_nil)
      (fun _ hc => absurd hc List.not_mem_nil) (.inr List.mem_cons_self) hinherits

/-! ## The chain of superclasses -/

theorem extends_of_mem_chainOutside {seen : List String} {name c : String}
    (hc : c ∈ h.chainOutside seen name) : h.Extends name c := by
  fun_induction h.chainOutside seen name with
  | case1 => cases hc
  | case2 =>
    rw [List.mem_singleton.1 hc]
    exact .refl
  | case3 seen name _ parent hparent ih =>
    rcases List.mem_cons.1 hc with rfl | hc
    · exact .refl
    · exact .head hparent (ih hc)

/-- The chain misses nothing: it ends at a class that was seen before, and what was seen leads
only to itself and to where the chain begins. -/
theorem mem_chainOutside_of_extends {seen : List String} {name c : String}
    (hclosed : ∀ d ∈ seen, ∀ p, h.superclass? d = some p → p ∈ seen ∨ p = name)
    (hc : h.Extends name c) : c ∈ h.chainOutside seen name ∨ c ∈ seen := by
  fun_induction h.chainOutside seen name with
  | case1 seen name hmem =>
    right
    induction hc with
    | refl => exact hmem
    | tail _ hp ih => exact (hclosed _ ih _ hp).elim id fun heq => heq ▸ hmem
  | case2 seen name _ hnone =>
    rcases Relation.ReflTransGen.cases_head hc with rfl | ⟨p, hp, -⟩
    · exact .inl List.mem_cons_self
    · cases hnone.symm.trans hp
  | case3 seen name _ parent hparent ih =>
    rcases Relation.ReflTransGen.cases_head hc with rfl | ⟨p, hp, hpc⟩
    · exact .inl List.mem_cons_self
    · cases hparent.symm.trans hp
      have hclosed' : ∀ d ∈ name :: seen, ∀ p, h.superclass? d = some p →
          p ∈ name :: seen ∨ p = parent := by
        intro d hd q hq
        rcases List.mem_cons.1 hd with rfl | hd
        · exact .inr (Option.some.inj (hq.symm.trans hparent))
        · exact .inl (List.mem_cons.2 (hclosed d hd q hq).symm)
      rcases ih hclosed' hpc with hmem | hmem
      · exact .inl (List.mem_cons_of_mem _ hmem)
      · rcases List.mem_cons.1 hmem with rfl | hmem
        · exact .inl List.mem_cons_self
        · exact .inr hmem

theorem mem_superclassChain {name c : String} :
    c ∈ h.superclassChain name ↔ h.Extends name c :=
  ⟨extends_of_mem_chainOutside, fun hc =>
    (mem_chainOutside_of_extends (fun _ hd => absurd hd List.not_mem_nil) hc).resolve_right
      List.not_mem_nil⟩

/-- Each class of a chain extends all classes behind it. -/
theorem pairwise_chainOutside (seen : List String) (name : String) :
    (h.chainOutside seen name).Pairwise h.Extends := by
  fun_induction h.chainOutside seen name with
  | case1 => exact .nil
  | case2 => exact List.pairwise_singleton _ _
  | case3 seen name _ parent hparent ih =>
    exact .cons (fun c hc => .head hparent (extends_of_mem_chainOutside hc)) ih

theorem pairwise_superclassChain (name : String) :
    (h.superclassChain name).Pairwise h.Extends := pairwise_chainOutside [] name

/-! ## The lineage -/

theorem getElem?_lineageUpTo (limit n : Nat) (c : String) :
    (h.lineageUpTo limit c)[n]? = if n < limit then h.ancestor? n c else none := by
  induction limit generalizing n c with
  | zero => rfl
  | succ limit ih =>
    cases n with
    | zero => rfl
    | succ n =>
      rw [lineageUpTo, List.getElem?_cons_succ, ancestor?]
      cases hsuper : h.superclass? c with
      | none => simp
      | some parent => simp [ih]

/-- A lineage ends behind so many classes, wherever the superclasses end. -/
theorem getElem?_lineage (n : Nat) (c : String) :
    (h.lineage c)[n]? = if n < lineageLimit then h.ancestor? n c else none :=
  getElem?_lineageUpTo lineageLimit n c

end ClassHierarchy

end Jil
