/-
Jil.Proofs.Conservation — no register is lost, and a slot is the last resort.

At every moment of the walk the registers that are free and those of the values
that are held are the ones that the walk began with, each in its own pool
(`Conserved`). The actions of the walk keep this in balance (`Progress.Tallied`),
and since every value gets its location once (`Progress.pairwise_located`), the
registers of the values can be read off the finished allocation
(`Progress.get?_mapping_settled`).

A value gets a slot when the pools it may take from are empty. What is not in them
is then held by other values, which begin no later than this one and end no
earlier than it begins (`Progress.held_of_slot`).
-/
import Mathlib.Data.List.Basic
import Jil.Proofs.Counting

namespace Jil

/-! ## Taking -/

namespace Pools

variable {p after : Pools} {acrossCall : Bool} {r : Machine.Reg}

/-- Nothing is taken when the stacks that a value may take from are empty. -/
theorem take_eq_none (h : p.take acrossCall = none) :
    p.preserved = [] ∧ (acrossCall = false → p.temporaries = []) := by
  have hpreserved : p.takePreserved = none → p.preserved = [] := by
    intro hnone
    unfold takePreserved at hnone
    split at hnone
    · cases hnone
    · assumption
  unfold take at h
  cases acrossCall with
  | true => exact ⟨hpreserved h, nofun⟩
  | false =>
    simp only [Bool.false_eq_true, if_false] at h
    split at h
    · cases h
    · next hempty => exact ⟨hpreserved h, fun _ => hempty⟩

/-- The peak is raised to the number of registers that are now taken. -/
theorem peak_of_take (h : p.take acrossCall = some (r, after)) :
    after.peak = max p.peak after.inUse.toNat := by
  have hpreserved : ∀ {q : Pools}, p.takePreserved = some (r, q) →
      q.peak = max p.peak q.inUse.toNat := by
    intro q hq
    unfold takePreserved at hq
    split at hq
    · cases hq
      rfl
    · cases hq
  unfold take at h
  split at h
  · exact hpreserved h
  · split at h
    · cases h
      rfl
    · exact hpreserved h

end Pools

namespace Allocation

open Machine (Abi Reg)
open Pseudo (Instr Interval Liveness Location)

/-! ## Pools and the registers that are taken -/

/-- The free registers and the ones that are taken are those that the walk began with, each in
its own pool and each once. -/
structure Conserved (abi : Abi) (live : Liveness) (pools : Pools) (taken : List Reg) :
    Prop where
  temporaries : (pools.temporaries ++ taken.filter fun r => !abi.isPreserved r).Perm
    (temporaries abi live.touched)
  preserved : (pools.preserved ++ taken.filter abi.isPreserved).Perm abi.allocatablePreserved
  once : (pools.temporaries ++ pools.preserved ++ taken).Nodup
  counted : pools.inUse = taken.length

variable {abi : Abi} {live : Liveness}

theorem nodup_initialPool (habi : abi ∈ Abi.all) (live : Liveness) :
    (initialPool abi live).Nodup :=
  List.nodup_iff_count.2 (count_initialPool_le_one habi live)

theorem isPreserved_of_mem_allocatable {r : Reg} (hr : r ∈ abi.allocatablePreserved) :
    abi.isPreserved r = true := by
  have hmem := (List.mem_filter.1 hr).1
  simpa [Abi.isPreserved] using hmem

theorem Conserved.perm {pools : Pools} {taken other : List Reg}
    (h : Conserved abi live pools taken) (hperm : taken.Perm other) :
    Conserved abi live pools other where
  temporaries := ((hperm.symm.filter _).append_left _).trans h.temporaries
  preserved := ((hperm.symm.filter _).append_left _).trans h.preserved
  once := (hperm.append_left _).nodup_iff.1 h.once
  counted := by rw [← hperm.length_eq]; exact h.counted

/-- The offset of the slot of a value, when it has one. -/
def slotOf? (mapping : Table Nat Location) (i : Interval) : Option Int :=
  match mapping.get? i.pseudo.id with
  | some (.slot offset) => some offset
  | _ => none

theorem slotOf?_eq_some {mapping : Table Nat Location} {i : Interval} {offset : Int} :
    slotOf? mapping i = some offset ↔ mapping.get? i.pseudo.id = some (.slot offset) := by
  unfold slotOf?
  split
  · next x heq => simp [heq]
  · next hnot =>
    constructor
    · intro h
      cases h
    · intro h
      exact absurd h (hnot offset)

namespace Progress

variable {p : Progress} {held : List Interval} {code : List Instr}

/-! ## What the actions keep -/

/-- Registers are in balance and counted, and the peak is no more than there are. -/
structure Tallied (abi : Abi) (live : Liveness) (p : Progress) (held : List Interval) :
    Prop where
  balanced : Balanced abi live p held
  counted : Counted p held
  peak : p.pools.peak ≤ (initialPool abi live).length

/-- The free registers and those that are held are the initial ones. -/
theorem Balanced.perm_initialPool (h : Balanced abi live p held) :
    (p.pools.temporaries ++ p.pools.preserved ++ held.filterMap (registerOf? p.mapping)).Perm
      (initialPool abi live) := by
  refine List.perm_iff_count.2 fun r => ?_
  rw [List.count_append, List.count_append]
  exact h.conserved r

/-- No more registers are held than there are. -/
theorem Balanced.length_le (h : Balanced abi live p held) :
    (held.filterMap (registerOf? p.mapping)).length ≤ (initialPool abi live).length := by
  have hlength := h.perm_initialPool.length_eq
  rw [List.length_append] at hlength
  omega

theorem Tallied.perm {other : List Interval} (h : Tallied abi live p held)
    (hperm : held.Perm other) : Tallied abi live p other where
  balanced := h.balanced.perm hperm
  counted := h.counted.perm hperm
  peak := h.peak

theorem release_peak (p : Progress) (i : Interval) :
    (p.release abi i).pools.peak = p.pools.peak := by
  unfold release Pools.giveBack
  split
  · split <;> rfl
  · rfl

theorem Tallied.release {i : Interval} (h : Tallied abi live p (i :: held)) :
    Tallied abi live (p.release abi i) held where
  balanced := h.balanced.release
  counted := h.counted.release
  peak := by rw [release_peak]; exact h.peak

theorem Tallied.assign {i : Interval} (h : Tallied abi live p held)
    (hfresh : ∀ j ∈ held, j.pseudo.id ≠ i.pseudo.id) :
    Tallied abi live (p.assign abi live i) (i :: held) := by
  have hbalanced := h.balanced.assign hfresh
  have hcounted : Counted (p.assign abi live i) (i :: held) := h.counted.assign hfresh
  refine ⟨hbalanced, hcounted, ?_⟩
  have hpeak := h.peak
  rcases assign_cases abi live p i with ⟨r, pools, htake, -, hpools, -⟩ | ⟨-, -, -, hpools, -⟩
  · have hle := hbalanced.length_le
    have hraised := Pools.peak_of_take htake
    rw [Counted, hpools] at hcounted
    rw [hpools, hraised]
    omega
  · rw [hpools]
    exact hpeak

theorem Tallied.start (habi : abi ∈ Abi.all) :
    Tallied abi live (Progress.start abi live) [] := by
  have hnone : heldAt live 0 = [] := List.filter_eq_nil_iff.2 (by simp)
  have hbalanced : Balanced abi live (Progress.start abi live) (heldAt live 0) :=
    (Sound.start habi).balanced
  rw [hnone] at hbalanced
  exact ⟨hbalanced, rfl, Nat.zero_le _⟩

/-- At every moment of the walk. -/
theorem tallied_of_done (habi : abi ∈ Abi.all) (hlive : live.Spec code) {count : Nat}
    {done : List Action} (hdone : done <+: actions live count) :
    Tallied abi live (done.foldl (carryOut abi live) (Progress.start abi live))
      (heldBehind [] done) :=
  (feasible_actions hlive count).invariant (fun h hperm => h.perm hperm) (fun h => h.release)
    (fun h hfresh => h.assign hfresh) (Tallied.start habi) hdone

/-- Each pool has the registers of its kind, free or held. -/
theorem Tallied.conserved (h : Tallied abi live p held) (habi : abi ∈ Abi.all) :
    Conserved abi live p.pools (held.filterMap (registerOf? p.mapping)) := by
  have hperm := h.balanced.perm_initialPool
  have htemporary : ∀ r ∈ p.pools.temporaries, (!abi.isPreserved r) = true := fun r hr => by
    simpa using h.balanced.temporary r hr
  have hinitial : ∀ r ∈ temporaries abi live.touched, (!abi.isPreserved r) = true := by
    intro r hr
    simpa using isPreserved_of_mem_temporaries habi hr
  refine ⟨?_, ?_, hperm.nodup_iff.2 (nodup_initialPool habi live), h.counted⟩
  · have hfilter := hperm.filter fun r => !abi.isPreserved r
    have hnone : p.pools.preserved.filter (fun r => !abi.isPreserved r) = [] :=
      List.filter_eq_nil_iff.2 fun r hr => by simpa using h.balanced.preserved r hr
    have hnone' : abi.allocatablePreserved.filter (fun r => !abi.isPreserved r) = [] :=
      List.filter_eq_nil_iff.2 fun r hr => by simpa using isPreserved_of_mem_allocatable hr
    rwa [initialPool, List.filter_append, List.filter_append, List.filter_append,
      List.filter_eq_self.2 htemporary, hnone, List.append_nil, List.filter_eq_self.2 hinitial,
      hnone', List.append_nil] at hfilter
  · have hfilter := hperm.filter abi.isPreserved
    have hnone : p.pools.temporaries.filter abi.isPreserved = [] :=
      List.filter_eq_nil_iff.2 fun r hr => by simpa using htemporary r hr
    have hnone' : (temporaries abi live.touched).filter abi.isPreserved = [] :=
      List.filter_eq_nil_iff.2 fun r hr => by simpa using hinitial r hr
    rwa [initialPool, List.filter_append, List.filter_append, List.filter_append, hnone,
      List.nil_append, List.filter_eq_self.2 h.balanced.preserved, hnone', List.nil_append,
      List.filter_eq_self.2 fun r hr => isPreserved_of_mem_allocatable hr] at hfilter

/-! ## Locations stay -/

/-- The values that get a location, in order. -/
def located (actions : List Action) : List Interval :=
  actions.filterMap fun action => match action with
    | .assign i => some i
    | .release _ => none

theorem located_append (first second : List Action) :
    located (first ++ second) = located first ++ located second := List.filterMap_append

theorem located_releases (values : List Interval) :
    located (values.map .release) = [] := by
  rw [located, List.filterMap_map]
  exact List.filterMap_eq_nil_iff.2 fun i hi => rfl

theorem located_assigns (values : List Interval) : located (values.map .assign) = values := by
  rw [located, List.filterMap_map]
  exact List.filterMap_some

theorem located_actions (live : Liveness) (count : Nat) :
    located (actions live count) = (List.range count).flatMap (bornAt live) := by
  rw [located, actions, List.filterMap_flatMap]
  refine congrArg (List.flatMap · _) (funext fun index => ?_)
  have hat : located (actionsAt live index) = bornAt live index := by
    rw [actionsAt, located_append, located_append, located_releases, located_releases,
      located_assigns, List.nil_append, List.append_nil]
  exact hat

/-- What is held has got a location. -/
theorem mem_located_of_mem_heldBehind {actions : List Action} {i : Interval}
    (h : i ∈ heldBehind held actions) : i ∈ held ∨ i ∈ located actions := by
  induction actions generalizing held with
  | nil => exact .inl h
  | cons action rest ih =>
    cases action with
    | release j =>
      rcases ih h with hmem | hmem
      · exact .inl (List.mem_of_mem_erase hmem)
      · exact .inr hmem
    | assign j =>
      rcases ih h with hmem | hmem
      · rcases List.mem_cons.1 hmem with rfl | hmem
        · exact .inr List.mem_cons_self
        · exact .inl hmem
      · exact .inr (List.mem_cons_of_mem _ hmem)

/-- Values that get their locations in one walk have different numbers. -/
theorem pairwise_located (hlive : live.Spec code) (count : Nat) :
    (located (actions live count)).Pairwise (·.pseudo.id ≠ ·.pseudo.id) := by
  rw [located_actions, List.pairwise_flatMap]
  refine ⟨fun index _ => (hlive.ordered.filter _).imp fun hlt => Nat.ne_of_lt hlt, ?_⟩
  refine List.pairwise_lt_range.imp fun hlt i hi j hj hid => ?_
  have heq := hlive.ordered.eq_of_id (List.mem_filter.1 hi).1 (List.mem_filter.1 hj).1 hid
  simp only [bornAt, List.mem_filter, decide_eq_true_eq, heq] at hi hj
  omega

/-- Actions give a location only to values that they locate. -/
theorem get?_mapping_foldl (abi : Abi) (live : Liveness) {actions : List Action} {id : Nat}
    (h : ∀ i ∈ located actions, i.pseudo.id ≠ id) (p : Progress) :
    (actions.foldl (carryOut abi live) p).mapping.get? id = p.mapping.get? id := by
  induction actions generalizing p with
  | nil => rfl
  | cons action rest ih =>
    cases action with
    | release i =>
      have hrest := ih h (p.release abi i)
      rwa [release_mapping] at hrest
    | assign i =>
      have hne : i.pseudo.id ≠ id := h i List.mem_cons_self
      have hrest := ih (fun j hj => h j (List.mem_cons_of_mem _ hj)) (p.assign abi live i)
      rwa [get?_mapping_assign_of_ne p hne.symm] at hrest

/-- The location that a value gets is its location in the end. -/
theorem get?_mapping_settled (abi : Abi) (hlive : live.Spec code) {count : Nat}
    {done : List Action} (hdone : done <+: actions live count) {i : Interval}
    (hi : i ∈ located done) :
    (done.foldl (carryOut abi live) (Progress.start abi live)).mapping.get? i.pseudo.id
      = (Progress.after abi live count).mapping.get? i.pseudo.id := by
  obtain ⟨rest, hrest⟩ := hdone
  have hpairwise := pairwise_located hlive count
  rw [← hrest, located_append, List.pairwise_append] at hpairwise
  rw [after_eq_foldl, ← hrest, List.foldl_append,
    get?_mapping_foldl abi live fun j hj hid => hpairwise.2.2 i hi j hj hid.symm]

/-- The registers of the values that are held are those of the finished walk. -/
theorem registers_settled (hlive : live.Spec code) {count : Nat} {done : List Action}
    (hdone : done <+: actions live count) :
    (heldBehind [] done).filterMap
        (registerOf? (done.foldl (carryOut abi live) (Progress.start abi live)).mapping)
      = (heldBehind [] done).filterMap
        (registerOf? (Progress.after abi live count).mapping) := by
  refine List.filterMap_congr fun i hi => ?_
  rcases mem_located_of_mem_heldBehind hi with hi | hi
  · cases hi
  · simp only [registerOf?, get?_mapping_settled abi hlive hdone hi]

theorem prefix_actions {first second : Nat} (h : first ≤ second) :
    actions live first <+: actions live second := by
  obtain ⟨more, rfl⟩ := Nat.exists_eq_add_of_le h
  rw [actions, actions, List.range_add, List.flatMap_append]
  exact List.prefix_append _ _

/-! ## Slots -/

/-- A value that ends up in a slot found nothing to take. -/
theorem take_eq_none_of_slot (hlive : live.Spec code) {count : Nat} {done : List Action}
    {i : Interval} (hnext : done ++ [.assign i] <+: actions live count) {offset : Int}
    (hslot : (Progress.after abi live count).mapping.get? i.pseudo.id = some (.slot offset)) :
    (done.foldl (carryOut abi live) (Progress.start abi live)).pools.take (live.crossesCall i)
      = none := by
  have hlocated : i ∈ located (done ++ [.assign i]) := by
    rw [located_append]
    exact List.mem_append_right _ List.mem_cons_self
  have hsettled := get?_mapping_settled abi hlive hnext hlocated
  rw [List.foldl_append, hslot] at hsettled
  cases htake : (done.foldl (carryOut abi live) (Progress.start abi live)).pools.take
      (live.crossesCall i) with
  | none => rfl
  | some taken =>
    simp [carryOut, Progress.assign, htake, Table.get?_insert_self] at hsettled

/-- When there is nothing to take for a value, others hold all registers that it could get. -/
theorem Balanced.exists_held (h : Balanced abi live p held) {acrossCall : Bool}
    (hnone : p.pools.take acrossCall = none) {r : Reg}
    (hr : r ∈ abi.allocatablePreserved
      ∨ acrossCall = false ∧ r ∈ temporaries abi live.touched) :
    ∃ j ∈ held, registerOf? p.mapping j = some r := by
  obtain ⟨hpreserved, htemporaries⟩ := Pools.take_eq_none hnone
  have hfree : r ∉ p.pools.temporaries := by
    intro hmem
    rcases hr with hr | ⟨hacross, -⟩
    · have hnot := h.temporary r hmem
      rw [isPreserved_of_mem_allocatable hr] at hnot
      cases hnot
    · rw [htemporaries hacross] at hmem
      cases hmem
  have hinitial : r ∈ initialPool abi live := by
    rcases hr with hr | ⟨-, hr⟩
    · exact List.mem_append_right _ hr
    · exact List.mem_append_left _ hr
  have hmem := h.perm_initialPool.mem_iff.2 hinitial
  rw [hpreserved, List.append_nil, List.mem_append] at hmem
  exact List.mem_filterMap.1 (hmem.resolve_left hfree)

/-- A value gets a slot only if others that are held when it begins hold all registers that it
could have got. -/
theorem held_of_slot (habi : abi ∈ Abi.all) (hlive : live.Spec code) {count : Nat}
    {i : Interval} (hi : i ∈ live.intervals) (hcount : i.first < count) {offset : Int}
    (hslot : (Progress.after abi live count).mapping.get? i.pseudo.id = some (.slot offset))
    {r : Reg}
    (hr : r ∈ abi.allocatablePreserved
      ∨ live.crossesCall i = false ∧ r ∈ temporaries abi live.touched) :
    ∃ j ∈ live.intervals, j.pseudo.id ≠ i.pseudo.id ∧ j.first ≤ i.first ∧ i.first ≤ j.last
      ∧ (Progress.after abi live count).mapping.get? j.pseudo.id = some (.reg r) := by
  obtain ⟨before, behind, hborn⟩ :
      ∃ before behind, bornAt live i.first = before ++ i :: behind :=
    List.append_of_mem (List.mem_filter.2 ⟨hi, by simp⟩)
  -- the moment right before the value gets its location
  let done := actions live i.first ++ (dyingAt live i.first).map .release ++ before.map .assign
  have hnext : done ++ [.assign i] <+: actions live count := by
    refine List.IsPrefix.trans ?_ (prefix_actions hcount)
    refine ⟨behind.map .assign ++ (briefAt live i.first).map .release, ?_⟩
    simp [done, actions, List.range_succ, actionsAt, hborn]
  have hdone : done <+: actions live count := (List.prefix_append _ _).trans hnext
  have hdistinct := pairwise_bornAt hlive i.first
  rw [hborn, List.pairwise_append] at hdistinct
  have hbefore : ∀ j ∈ before, j ∈ bornAt live i.first := fun j hj =>
    hborn ▸ List.mem_append_left _ hj
  have hheld : (heldBehind [] done).Perm (before.reverse ++ stayingAt live i.first) :=
    Feasible.heldBehind_perm_after (((feasible_actions hlive i.first).append
      ((Feasible.releaseAll _ _).perm (heldAt_perm hlive i.first))).append
      (.assignAll (fun j hj k hk => id_ne_of_born_of_staying hlive (hbefore j hj) hk)
        hdistinct.1))
  obtain ⟨j, hj, hregister⟩ := (tallied_of_done habi hlive hdone).balanced.exists_held
    (take_eq_none_of_slot hlive hnext hslot) hr
  have hlocated := (mem_located_of_mem_heldBehind hj).resolve_left List.not_mem_nil
  rw [registerOf?_eq_some, get?_mapping_settled abi hlive hdone hlocated] at hregister
  have hborn_self : i ∈ bornAt live i.first := List.mem_filter.2 ⟨hi, by simp⟩
  rcases List.mem_append.1 (hheld.mem_iff.1 hj) with hj | hj
  · have hj := List.mem_reverse.1 hj
    obtain ⟨hmem, hfirst⟩ := List.mem_filter.1 (hbefore j hj)
    have hfirst : j.first = i.first := by simpa using hfirst
    have hle := hlive.first_le_last hmem
    exact ⟨j, hmem, hdistinct.2.2 j hj i List.mem_cons_self, by omega, by omega, hregister⟩
  · have hid := id_ne_of_born_of_staying hlive hborn_self hj
    simp only [stayingAt, List.mem_filter, Bool.and_eq_true, decide_eq_true_eq] at hj
    exact ⟨j, hj.1, hid, by omega, by omega, hregister⟩

theorem release_spillCount (p : Progress) (i : Interval) :
    (p.release abi i).spillCount = p.spillCount := by
  unfold release
  split <;> rfl

/-- A value that gets a slot is counted. -/
theorem assign_spillCount (abi : Abi) (live : Liveness) (p : Progress) (i : Interval) :
    (p.assign abi live i).spillCount
      = p.spillCount + ([i].filterMap (slotOf? (p.assign abi live i).mapping)).length := by
  unfold assign
  split <;> simp [slotOf?, Table.get?_insert_self]

/-- Slots are counted as they are handed out. -/
theorem spillCount_foldl (abi : Abi) (live : Liveness) {actions : List Action}
    (hdistinct : (located actions).Pairwise (·.pseudo.id ≠ ·.pseudo.id)) (p : Progress) :
    (actions.foldl (carryOut abi live) p).spillCount = p.spillCount
      + ((located actions).filterMap
        (slotOf? (actions.foldl (carryOut abi live) p).mapping)).length := by
  induction actions generalizing p with
  | nil => rfl
  | cons action rest ih =>
    cases action with
    | release i =>
      have hrest := ih hdistinct (p.release abi i)
      rwa [release_spillCount] at hrest
    | assign i =>
      obtain ⟨hfirst, hdistinct⟩ := List.pairwise_cons.1 hdistinct
      have hrest := ih hdistinct (p.assign abi live i)
      have hstays := get?_mapping_foldl abi live (fun j hj => (hfirst j hj).symm)
        (p.assign abi live i)
      have hself : slotOf? (rest.foldl (carryOut abi live) (p.assign abi live i)).mapping i
          = slotOf? (p.assign abi live i).mapping i := by
        simp only [slotOf?, hstays]
      have hcount := assign_spillCount abi live p i
      show (rest.foldl (carryOut abi live) (p.assign abi live i)).spillCount = p.spillCount
        + ((i :: located rest).filterMap
          (slotOf? (rest.foldl (carryOut abi live) (p.assign abi live i)).mapping)).length
      rw [hrest, hcount, List.filterMap_cons, List.filterMap_cons, hself]
      cases slotOf? (p.assign abi live i).mapping i with
      | none => simp
      | some offset =>
        simp only [List.filterMap_nil, List.length_cons, List.length_nil]
        omega

/-- All values get a location. -/
theorem located_perm (hlive : live.Spec code) :
    (located (actions live code.length)).Perm live.intervals := by
  have hnodup : (located (actions live code.length)).Nodup :=
    (pairwise_located hlive code.length).imp fun hne heq => hne (congrArg (·.pseudo.id) heq)
  refine (List.perm_ext_iff_of_nodup hnodup (nodup_intervals hlive)).2 fun i => ?_
  rw [located_actions]
  simp only [List.mem_flatMap, List.mem_range, bornAt, List.mem_filter, decide_eq_true_eq]
  constructor
  · rintro ⟨-, -, hi, -⟩
    exact hi
  · intro hi
    have := hlive.first_le_last hi
    have := hlive.inside i hi
    exact ⟨i.first, by omega, hi, rfl⟩

/-- The walk counts the values that have slots in the end. -/
theorem spillCount_after (abi : Abi) (hlive : live.Spec code) :
    (Progress.after abi live code.length).spillCount = (live.intervals.filterMap
      (slotOf? (Progress.after abi live code.length).mapping)).length := by
  have hcount :=
    spillCount_foldl abi live (pairwise_located hlive code.length) (start abi live)
  rw [← after_eq_foldl] at hcount
  have hlength := ((located_perm hlive).filterMap
    (slotOf? (Progress.after abi live code.length).mapping)).length_eq
  rw [hlength] at hcount
  exact hcount.trans (Nat.zero_add _)

end Progress

/-! ## Finished allocations -/

open Progress

/-- No register is lost or doubled at any moment of the walk, nor is one taken in the end, and
no more are taken at once than there are. A value has a slot only if all registers that it
could have got are held by others where it begins, and each slot is counted. -/
theorem registers_are_conserved (habi : abi ∈ Abi.all) {code : List Instr} {a : Allocation}
    (h : ofCode abi code = .ok a) :
    ∃ live, Liveness.ofCode code = .ok live
      ∧ (∀ done, done <+: actions live code.length →
        Conserved abi live (done.foldl (carryOut abi live) (start abi live)).pools
            ((heldBehind [] done).filterMap (registerOf? a.mapping))
          ∧ 0 ≤ (done.foldl (carryOut abi live) (start abi live)).pools.inUse)
      ∧ (∀ index ≤ code.length, Conserved abi live (Progress.after abi live index).pools
          ((heldAt live index).filterMap (registerOf? a.mapping)))
      ∧ (Progress.after abi live code.length).pools.inUse = 0
      ∧ a.peak ≤ a.poolSize
      ∧ (∀ id offset, a.mapping.get? id = some (.slot offset) →
        ∃ i ∈ live.intervals, i.pseudo.id = id
          ∧ ∀ r, (r ∈ abi.allocatablePreserved
              ∨ live.crossesCall i = false ∧ r ∈ temporaries abi live.touched) →
            ∃ j ∈ live.intervals, j.pseudo.id ≠ id ∧ j.first ≤ i.first ∧ i.first ≤ j.last
              ∧ a.mapping.get? j.pseudo.id = some (.reg r))
      ∧ (live.intervals.filterMap (slotOf? a.mapping)).Nodup
      ∧ a.spillCount = (live.intervals.filterMap (slotOf? a.mapping)).length := by
  obtain ⟨live, hlive, hspec⟩ := spec_of_ofCode habi h
  have hcode := Liveness.spec_of_ofCode hlive
  obtain rfl : ofLiveness abi live code.length = a := by
    unfold ofCode at h
    rw [hlive] at h
    cases h
    rfl
  have hmoment : ∀ done, done <+: actions live code.length →
      Conserved abi live (done.foldl (carryOut abi live) (start abi live)).pools
        ((heldBehind [] done).filterMap
          (registerOf? (Progress.after abi live code.length).mapping)) := by
    intro done hdone
    rw [← registers_settled hcode hdone]
    exact (tallied_of_done habi hcode hdone).conserved habi
  have hbetween :
      ∀ index ≤ code.length, Conserved abi live (Progress.after abi live index).pools
      ((heldAt live index).filterMap
        (registerOf? (Progress.after abi live code.length).mapping)) := by
    intro index hindex
    rw [after_eq_foldl abi live index]
    exact (hmoment _ (prefix_actions hindex)).perm
      ((feasible_actions hcode index).heldBehind_perm_after.filterMap _)
  refine ⟨live, hlive, fun done hdone => ⟨hmoment done hdone, ?_⟩, hbetween, ?_, ?_,
    fun id offset hslot => ?_, ?_, ?_⟩
  · exact inUse_nonneg abi hcode code.length hdone
  · have hnone : heldAt live code.length = [] := List.filter_eq_nil_iff.2 fun i hi => by
      have := hcode.inside i hi
      simp only [Bool.and_eq_true, decide_eq_true_eq]
      omega
    have hend := (hbetween code.length (Nat.le_refl _)).counted
    rw [hnone] at hend
    exact hend
  · have hpeak :=
      (tallied_of_done habi hcode (List.prefix_refl (actions live code.length))).peak
    rw [← after_eq_foldl, initialPool, List.length_append] at hpeak
    exact hpeak
  · obtain ⟨i, hi, rfl⟩ := (hspec.located id).1 ⟨_, hslot⟩
    have := hcode.first_le_last hi
    have := hcode.inside i hi
    exact ⟨i, hi, rfl, fun r hr => held_of_slot habi hcode hi (by omega) hslot hr⟩
  · rw [List.Nodup, List.pairwise_filterMap]
    refine hcode.ordered.imp_of_mem fun {i j} hi hj hlt x hx y hy => ?_
    have hapart := hspec.disjoint i hi j hj (Nat.ne_of_lt hlt) x y (slotOf?_eq_some.1 hx)
      (slotOf?_eq_some.1 hy)
    have := i.pseudo.size.bytes_pos
    have := j.pseudo.size.bytes_pos
    omega
  · exact spillCount_after abi hcode

/-- Six values that are needed behind a call: five fill the preserved registers,
and one is left over. -/
def crowd : List Instr :=
  (List.range 6).map (fun n => .mov .long (.imm n) (.pseudo ⟨n, .long⟩)) ++ .call "work"
    :: (List.range 6).map fun n => .mov .long (.pseudo ⟨n, .long⟩) (.fixed .rax)

/-- The sixth value gets the only slot, although the temporaries are free. -/
theorem crowd_is_conserved :
    ∃ a, ofCode .systemV crowd = .ok a ∧ a.spillCount = 1
      ∧ a.mapping.get? 5 = some (.slot (-4)) ∧ a.peak = 5 ∧ a.peak ≤ a.poolSize
      ∧ ∀ r ∈ Abi.systemV.allocatablePreserved, ∃ id, id ≠ 5
      ∧ a.mapping.get? id = some (.reg r) := by
  obtain ⟨a, ha⟩ : ∃ a, ofCode .systemV crowd = .ok a := ⟨_, rfl⟩
  have hcomputed : (ofCode .systemV crowd).toOption.map
      (fun a => (a.spillCount, a.mapping.get? 5, a.peak))
        = some (1, some (.slot (-4)), 5) := by
    decide +kernel
  rw [ha] at hcomputed
  obtain ⟨hcount, hslot, htop⟩ : a.spillCount = 1 ∧ a.mapping.get? 5 = some (.slot (-4))
      ∧ a.peak = 5 := by
    simpa [Except.toOption] using hcomputed
  obtain ⟨live, -, -, -, -, hpeak, hlast, -⟩ := registers_are_conserved (by decide) ha
  obtain ⟨i, -, -, hheld⟩ := hlast 5 (-4) hslot
  refine ⟨a, ha, hcount, hslot, htop, hpeak, fun r hr => ?_⟩
  obtain ⟨j, -, hne, -, -, hregister⟩ := hheld r (.inl hr)
  exact ⟨j.pseudo.id, hne, hregister⟩

end Allocation

end Jil
