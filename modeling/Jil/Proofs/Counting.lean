/-
Jil.Proofs.Counting — the allocator knows how many registers are taken.

An instruction makes the allocator give some registers back and hand some out.
Taken one by one these are the actions of the walk (`Progress.actions`), and the
walk is nothing else than carrying them out in order (`Progress.after_eq_foldl`).
They are feasible: a value that gives its register back is held, and one that gets
a location is not (`Progress.feasible_actions`). What such actions keep holds at
every moment of the walk, in the middle of an instruction as well as between two
(`Progress.Feasible.invariant`): the count of taken registers is the number of
values that are held in registers, and so it is never negative
(`Progress.inUse_nonneg`).
-/
import Jil.Proofs.Interference

namespace Jil.Allocation.Progress

open Machine (Abi Reg)
open Pseudo (Instr Interval Liveness Location)

variable {abi : Abi} {live : Liveness} {p : Progress} {held after : List Interval}

/-! ## The walk, action by action -/

/-- What the allocator does at once. -/
inductive Action where
  /-- A value that is no longer needed gives its register back. -/
  | release (i : Interval)
  /-- A value gets its location. -/
  | assign (i : Interval)

/-- Carries out an action. -/
def carryOut (abi : Abi) (live : Liveness) (p : Progress) : Action → Progress
  | .release i => p.release abi i
  | .assign i => p.assign abi live i

/-- The actions at an instruction. -/
def actionsAt (live : Liveness) (index : Nat) : List Action :=
  (dyingAt live index).map .release ++ (bornAt live index).map .assign
    ++ (briefAt live index).map .release

/-- The actions at the first `count` instructions. -/
def actions (live : Liveness) (count : Nat) : List Action :=
  (List.range count).flatMap (actionsAt live)

theorem step_eq_foldl (abi : Abi) (live : Liveness) (p : Progress) (index : Nat) :
    step abi live p index = (actionsAt live index).foldl (carryOut abi live) p := by
  simp only [actionsAt, List.foldl_append, List.foldl_map]
  rfl

/-- The walk carries out its actions in order. -/
theorem after_eq_foldl (abi : Abi) (live : Liveness) (count : Nat) :
    Progress.after abi live count
      = (actions live count).foldl (carryOut abi live) (start abi live) := by
  induction count with
  | zero => rfl
  | succ n ih =>
    rw [actions, List.range_succ, List.flatMap_append, List.foldl_append, ← actions, ← ih,
      List.flatMap_singleton, ← step_eq_foldl, Progress.after, List.range_succ,
      List.foldl_append]
    rfl

/-! ## Feasible actions -/

/-- Actions that can be carried out while the given values are held: values that are released
are held, and values that get a location are not. Behind them other values are held. -/
inductive Feasible : List Interval → List Action → List Interval → Prop
  | nil (held : List Interval) : Feasible held [] held
  | release {held after : List Interval} {i : Interval} {rest : List Action}
      (h : Feasible held rest after) : Feasible (i :: held) (.release i :: rest) after
  | assign {held after : List Interval} {i : Interval} {rest : List Action}
      (hfresh : ∀ j ∈ held, j.pseudo.id ≠ i.pseudo.id) (h : Feasible (i :: held) rest after) :
      Feasible held (.assign i :: rest) after
  | perm {held other after : List Interval} {actions : List Action} (hperm : held.Perm other)
      (h : Feasible other actions after) : Feasible held actions after

/-- The values that are held behind actions, the last one that got a location first. -/
def heldBehind (held : List Interval) (actions : List Action) : List Interval :=
  actions.foldl
    (fun held action => match action with
      | .release i => held.erase i
      | .assign i => i :: held)
    held

/-- A value that is released is no longer held. -/
theorem heldBehind_release (i : Interval) (held : List Interval) (rest : List Action) :
    heldBehind (i :: held) (.release i :: rest) = heldBehind held rest := by
  simp only [heldBehind, List.foldl_cons, List.erase_cons_head]

theorem heldBehind_perm {other : List Interval} (h : held.Perm other) (actions : List Action) :
    (heldBehind held actions).Perm (heldBehind other actions) := by
  induction actions generalizing held other with
  | nil => exact h
  | cons action rest ih =>
    cases action with
    | release i => exact ih (h.erase i)
    | assign i => exact ih (h.cons i)

namespace Feasible

/-- Behind feasible actions the values are held that feasibility tells. -/
theorem heldBehind_perm_after {actions : List Action} (h : Feasible held actions after) :
    (heldBehind held actions).Perm after := by
  induction h with
  | nil => exact .refl _
  | release _ ih =>
    rw [heldBehind_release]
    exact ih
  | assign _ _ ih => exact ih
  | perm hperm _ ih => exact (heldBehind_perm hperm _).trans ih

/-- What every action keeps holds at every moment of a feasible sequence of actions. -/
theorem invariant {P : Progress → List Interval → Prop}
    (hperm : ∀ {p held other}, P p held → held.Perm other → P p other)
    (hrelease : ∀ {p held i}, P p (i :: held) → P (p.release abi i) held)
    (hassign : ∀ {p held i}, P p held → (∀ j ∈ held, j.pseudo.id ≠ i.pseudo.id) →
      P (p.assign abi live i) (i :: held))
    {actions done : List Action} (hfeasible : Feasible held actions after) (h : P p held)
    (hdone : done <+: actions) :
    P (done.foldl (carryOut abi live) p) (heldBehind held done) := by
  induction hfeasible generalizing p done with
  | nil =>
    rw [List.prefix_nil.1 hdone]
    exact h
  | perm hheld _ ih => exact hperm (ih (hperm h hheld) hdone) (heldBehind_perm hheld done).symm
  | release _ ih =>
    rcases List.prefix_cons_iff.1 hdone with rfl | ⟨rest, rfl, hrest⟩
    · exact h
    · rw [heldBehind_release]
      exact ih (hrelease h) hrest
  | assign hfresh _ ih =>
    rcases List.prefix_cons_iff.1 hdone with rfl | ⟨rest, rfl, hrest⟩
    · exact h
    · exact ih (hassign h hfresh) hrest

theorem append {first second : List Action} {middle : List Interval}
    (h : Feasible held first middle) (h' : Feasible middle second after) :
    Feasible held (first ++ second) after := by
  induction h with
  | nil => exact h'
  | release _ ih => exact (ih h').release
  | assign hfresh _ ih => exact (ih h').assign hfresh
  | perm hperm _ ih => exact (ih h').perm hperm

theorem releaseAll (values held : List Interval) :
    Feasible (values ++ held) (values.map .release) held := by
  induction values with
  | nil => exact .nil held
  | cons i rest ih => exact ih.release

theorem assignAll {values : List Interval}
    (hfresh : ∀ i ∈ values, ∀ j ∈ held, j.pseudo.id ≠ i.pseudo.id)
    (hdistinct : values.Pairwise (·.pseudo.id ≠ ·.pseudo.id)) :
    Feasible held (values.map .assign) (values.reverse ++ held) := by
  induction values generalizing held with
  | nil => exact .nil held
  | cons i rest ih =>
    rw [List.pairwise_cons] at hdistinct
    rw [List.map_cons, List.reverse_cons, List.append_assoc]
    refine .assign (hfresh i List.mem_cons_self) (ih (fun j hj k hk => ?_) hdistinct.2)
    rcases List.mem_cons.1 hk with rfl | hk
    · exact hdistinct.1 j hj
    · exact hfresh j (List.mem_cons_of_mem _ hj) k hk

end Feasible

section Walk

variable {code : List Instr}

/-- Values that begin at one instruction have different numbers, -/
theorem pairwise_bornAt (hlive : live.Spec code) (index : Nat) :
    (bornAt live index).Pairwise (·.pseudo.id ≠ ·.pseudo.id) :=
  (hlive.ordered.filter _).imp fun hlt => Nat.ne_of_lt hlt

/-- and none has the number of a value that stays. -/
theorem id_ne_of_born_of_staying (hlive : live.Spec code) {index : Nat} {i j : Interval}
    (hi : i ∈ bornAt live index) (hj : j ∈ stayingAt live index) :
    j.pseudo.id ≠ i.pseudo.id := by
  intro hid
  have hij := hlive.ordered.eq_of_id (List.mem_filter.1 hj).1 (List.mem_filter.1 hi).1 hid
  simp only [bornAt, stayingAt, List.mem_filter, Bool.and_eq_true, decide_eq_true_eq,
    hij] at hi hj
  omega

/-- One instruction. -/
theorem feasible_actionsAt (hlive : live.Spec code) (index : Nat) :
    Feasible (heldAt live index) (actionsAt live index) (heldAt live (index + 1)) := by
  have hborn : Feasible (stayingAt live index) ((bornAt live index).map .assign)
      ((bornAt live index).reverse ++ stayingAt live index) := by
    refine .assignAll (fun i hi j hj => ?_) (pairwise_bornAt hlive index)
    exact id_ne_of_born_of_staying hlive hi hj
  have hbrief : Feasible ((bornAt live index).reverse ++ stayingAt live index)
      ((briefAt live index).map .release) (heldAt live (index + 1)) :=
    (Feasible.releaseAll _ _).perm (bornAt_perm hlive index)
  exact (((Feasible.releaseAll _ _).append hborn).append hbrief).perm (heldAt_perm hlive index)

/-- The whole walk. -/
theorem feasible_actions (hlive : live.Spec code) (count : Nat) :
    Feasible [] (actions live count) (heldAt live count) := by
  induction count with
  | zero =>
    have hnone : heldAt live 0 = [] := List.filter_eq_nil_iff.2 (by simp)
    rw [hnone]
    exact .nil []
  | succ n ih =>
    rw [actions, List.range_succ, List.flatMap_append, List.flatMap_singleton]
    exact ih.append (feasible_actionsAt hlive n)

end Walk

/-! ## Counting -/

/-- The count of taken registers is the number of values that are held in registers. -/
def Counted (p : Progress) (held : List Interval) : Prop :=
  p.pools.inUse = (held.filterMap (registerOf? p.mapping)).length

theorem Counted.perm (h : Counted p held) {other : List Interval} (hperm : held.Perm other) :
    Counted p other := by
  rw [Counted, ← (hperm.filterMap (registerOf? p.mapping)).length_eq]
  exact h

theorem Counted.release {i : Interval} (h : Counted p (i :: held)) :
    Counted (p.release abi i) held := by
  unfold Progress.release
  split
  · next r hr =>
    rw [Counted, List.filterMap_cons_some (registerOf?_eq_some.2 hr), List.length_cons] at h
    have hless : (p.pools.giveBack abi r).inUse = p.pools.inUse - 1 := by
      unfold Pools.giveBack
      split <;> rfl
    show (p.pools.giveBack abi r).inUse
        = ((held.filterMap (registerOf? p.mapping)).length : Int)
    omega
  · next hnot => rwa [Counted, List.filterMap_cons_none (registerOf?_eq_none hnot)] at h

/-- Taking a register adds one to the count. -/
theorem inUse_of_take {q pools : Pools} {acrossCall : Bool} {r : Reg}
    (h : q.take acrossCall = some (r, pools)) : pools.inUse = q.inUse + 1 := by
  have hpreserved : ∀ {after : Pools}, q.takePreserved = some (r, after) →
      after.inUse = q.inUse + 1 := by
    intro after hq
    unfold Pools.takePreserved at hq
    split at hq
    · cases hq
      rfl
    · cases hq
  unfold Pools.take at h
  split at h
  · exact hpreserved h
  · split at h
    · cases h
      rfl
    · exact hpreserved h

theorem Counted.assign {i : Interval} (h : Counted p held)
    (hfresh : ∀ j ∈ held, j.pseudo.id ≠ i.pseudo.id) :
    Counted (p.assign abi live i) (i :: held) := by
  have hheld := filterMap_registerOf?_assign abi live p hfresh
  rcases assign_cases abi live p i with
    ⟨r, pools, htake, hget, hpools, -⟩ | ⟨slotBytes, -, hget, hpools, -⟩
  · rw [Counted, List.filterMap_cons_some (registerOf?_eq_some.2 hget), hheld, hpools,
      inUse_of_take htake, h, List.length_cons]
    rfl
  · have hnone : registerOf? (p.assign abi live i).mapping i = none := by
      simp only [registerOf?, hget]
    rw [Counted, List.filterMap_cons_none hnone, hheld, hpools]
    exact h

/-- The count of taken registers is never negative, at no moment of the walk. -/
theorem inUse_nonneg (abi : Abi) {code : List Instr} (hlive : live.Spec code) (count : Nat)
    {done : List Action} (hdone : done <+: actions live count) :
    0 ≤ (done.foldl (carryOut abi live) (start abi live)).pools.inUse := by
  have hstart : Counted (start abi live) [] := rfl
  have hnow : Counted (done.foldl (carryOut abi live) (start abi live)) (heldBehind [] done) :=
    (feasible_actions hlive count).invariant (fun h hperm => h.perm hperm) Counted.release
      (fun h hfresh => h.assign hfresh) hstart hdone
  exact le_of_le_of_eq (Int.natCast_nonneg _) hnow.symm

end Jil.Allocation.Progress
