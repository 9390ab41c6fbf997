/-
Jil.Proofs.ClosedLifetimes — closing the intervals is the least way, in any order.

A value that is carried into a loop has to last to the end of the loop. The
rule is one step: `Extends` prolongs one interval that breaks off in one loop.
A step can enable another, across nested and overlapping loops, so three things
have to be said of it.

* It ends (`wellFounded_extends`): each step takes one jump behind the end of
  an interval away, and no step brings one back (`remaining_lt`).
* It keeps the goal (`Extends.map_close`): the ends that an interval may have
  (`MayEnd`) are the same before and after, and `Interval.close` finds the
  least of them (`isLeast_close`).
* So wherever it stops, it stops at the closed intervals
  (`eq_map_close_of_reaches`), whichever interval and loop come first.

`settle` is the loop that goes over all back edges and all intervals until
nothing changes; it is one way of making these steps (`settle_eq`).
-/
import Jil.Proofs.Lifetimes
import Mathlib.Logic.Relation
import Mathlib.Order.Bounds.Basic

namespace Jil.Pseudo

open Relation (ReflTransGen)

namespace Interval

variable {edges : List BackEdge}

/-! ## The ends that an interval may have -/

/-- Whether an interval may end at `last`: not before its end so far, and inside no loop that
it enters from outside. -/
def MayEnd (edges : List BackEdge) (i : Interval) (last : Nat) : Prop :=
  i.last ≤ last ∧ ∀ e ∈ edges, i.first < e.target → e.target ≤ last → e.jump ≤ last

theorem breaksOff_iff {i : Interval} {e : BackEdge} :
    i.breaksOff e = true ↔ i.first < e.target ∧ e.target ≤ i.last ∧ i.last < e.jump := by
  simp [breaksOff, and_assoc]

/-- Prolonging an interval to a jump that it has to reach leaves the ends that it may have. -/
theorem mayEnd_prolonged {i : Interval} {e : BackEdge} (he : e ∈ edges)
    (hb : i.breaksOff e = true) (last : Nat) :
    MayEnd edges { i with last := e.jump } last ↔ MayEnd edges i last := by
  obtain ⟨hfirst, htarget, hlast⟩ := breaksOff_iff.1 hb
  constructor
  · rintro ⟨hle, hloops⟩
    exact ⟨Nat.le_trans (Nat.le_of_lt hlast) hle, hloops⟩
  · rintro ⟨hle, hloops⟩
    exact ⟨hloops e he hfirst (Nat.le_trans htarget hle), hloops⟩

/-- Closing finds an end that the interval may have, -/
theorem mayEnd_close (edges : List BackEdge) (i : Interval) :
    i.MayEnd edges (i.close edges).last := by
  refine ⟨le_close_last edges i, fun e he hfirst htarget => ?_⟩
  have hopen := breaksOff_close edges i e he
  rw [← Bool.not_eq_true, breaksOff_iff, close_first] at hopen
  omega

/-- and no other is before it. -/
theorem close_last_le {i : Interval} {last : Nat} (h : i.MayEnd edges last) :
    (i.close edges).last ≤ last := by
  fun_induction close edges i with
  | case1 i e hfind ih =>
    exact ih
      ((mayEnd_prolonged (List.mem_of_find?_eq_some hfind) (List.find?_some hfind) last).2 h)
  | case2 i hfind => exact h.1

theorem isLeast_close (edges : List BackEdge) (i : Interval) :
    IsLeast {last | i.MayEnd edges last} (i.close edges).last :=
  ⟨mayEnd_close edges i, fun _ => close_last_le⟩

/-! ## What closing depends on -/

/-- Closing changes nothing but the end. -/
theorem close_eq (edges : List BackEdge) (i : Interval) :
    i.close edges = { i with last := (i.close edges).last } := by
  fun_induction close edges i with
  | case1 i e hfind ih => exact ih
  | case2 i hfind => rfl

/-- Intervals that begin together and may end at the same places are closed alike. -/
theorem close_last_congr {edges' : List BackEdge} {i j : Interval}
    (h : ∀ last, i.MayEnd edges last ↔ j.MayEnd edges' last) :
    (i.close edges).last = (j.close edges').last :=
  (isLeast_close edges i).unique (by simpa only [h] using isLeast_close edges' j)

/-- A step that has to be made does not change where closing ends. -/
theorem close_prolonged {i : Interval} {e : BackEdge} (he : e ∈ edges)
    (hb : i.breaksOff e = true) : close edges { i with last := e.jump } = i.close edges := by
  rw [close_eq edges i, close_eq edges { i with last := e.jump },
    close_last_congr (mayEnd_prolonged he hb)]

/-- The order of the loops does not matter, nor how often one is listed. -/
theorem close_congr {edges' : List BackEdge} (h : ∀ e, e ∈ edges' ↔ e ∈ edges) (i : Interval) :
    i.close edges' = i.close edges := by
  have hsame : ∀ last, i.MayEnd edges' last ↔ i.MayEnd edges last := fun last => by
    simp only [MayEnd, h]
  rw [close_eq edges i, close_eq edges' i, close_last_congr hsame]

/-- An interval that breaks off nowhere is closed. -/
theorem close_eq_self {i : Interval} (h : ∀ e ∈ edges, i.breaksOff e = false) :
    i.close edges = i := by
  have hfind : edges.find? i.breaksOff = none :=
    List.find?_eq_none.2 fun e he => by simp [h e he]
  unfold close
  split
  · next e hsome => rw [hfind] at hsome; cases hsome
  · rfl

/-! ## One step -/

/-- One interval that breaks off in one of the loops is prolonged to the jump. -/
inductive Extends (edges : List BackEdge) : List Interval → List Interval → Prop
  | head {i : Interval} {rest : List Interval} {e : BackEdge} (he : e ∈ edges)
      (hb : i.breaksOff e = true) :
      Extends edges (i :: rest) ({ i with last := e.jump } :: rest)
  | tail {i : Interval} {rest rest' : List Interval} (h : Extends edges rest rest') :
      Extends edges (i :: rest) (i :: rest')

/-- How many pairs of an interval and a loop there are such that the loop ends behind the
interval. -/
def remaining (edges : List BackEdge) : List Interval → Nat
  | [] => 0
  | i :: rest => (edges.countP fun e => i.last < e.jump) + remaining edges rest

/-- Each step leaves fewer of them. -/
theorem Extends.remaining_lt {before after : List Interval} (h : Extends edges before after) :
    remaining edges after < remaining edges before := by
  induction h with
  | @head i rest e he hb =>
    obtain ⟨-, -, hlast⟩ := breaksOff_iff.1 hb
    have hfewer : (edges.countP fun x => e.jump < x.jump) < edges.countP fun x =>
        i.last < x.jump :=
      countP_lt he (fun x hx => by simp only [decide_eq_true_eq] at hx ⊢; omega) (by simp)
        (by simpa using hlast)
    rw [remaining, remaining]
    exact Nat.add_lt_add_right hfewer _
  | tail h ih =>
    rw [remaining, remaining]
    exact Nat.add_lt_add_left ih _

/-- There is no endless sequence of steps. -/
theorem wellFounded_extends (edges : List BackEdge) :
    WellFounded fun after before => Extends edges before after :=
  Subrelation.wf (fun h => h.remaining_lt) (measure (remaining edges)).wf

/-- A step does not change what closing makes of the intervals. -/
theorem Extends.map_close {before after : List Interval} (h : Extends edges before after) :
    after.map (·.close edges) = before.map (·.close edges) := by
  induction h with
  | head he hb => simp only [List.map_cons, close_prolonged he hb]
  | tail h ih => simp only [List.map_cons, ih]

/-- Where no step can be made, every interval is closed. -/
theorem map_close_eq_self {intervals : List Interval}
    (h : ∀ next, ¬ Extends edges intervals next) :
    intervals.map (·.close edges) = intervals := by
  induction intervals with
  | nil => rfl
  | cons i rest ih =>
    have hi : ∀ e ∈ edges, i.breaksOff e = false := fun e he => by
      by_contra hb
      exact h _ (.head he (by simpa using hb))
    rw [List.map_cons, close_eq_self hi, ih fun next hnext => h _ (.tail hnext)]

/-! ## Many steps -/

section Runs

variable {before after : List Interval} (h : ReflTransGen (Extends edges) before after)

include h

theorem map_close_of_reaches : after.map (·.close edges) = before.map (·.close edges) := by
  induction h with
  | refl => rfl
  | tail _ hstep ih => rw [hstep.map_close, ih]

/-- Wherever steps come to an end, they have closed the intervals. -/
theorem eq_map_close_of_reaches (hend : ∀ next, ¬ Extends edges after next) :
    after = before.map (·.close edges) := by
  rw [← map_close_of_reaches h, map_close_eq_self hend]

theorem remaining_le_of_reaches : remaining edges after ≤ remaining edges before := by
  induction h with
  | refl => exact Nat.le_refl _
  | tail _ hstep ih => exact Nat.le_trans (Nat.le_of_lt hstep.remaining_lt) ih

theorem remaining_lt_of_reaches (hne : after ≠ before) :
    remaining edges after < remaining edges before := by
  rcases h.cases_head with heq | ⟨next, hstep, hrest⟩
  · exact absurd heq.symm hne
  · exact Nat.lt_of_le_of_lt (remaining_le_of_reaches hrest) hstep.remaining_lt

end Runs

/-! ## The loop -/

/-- One visit of a loop and an interval. -/
def visit (e : BackEdge) (i : Interval) : Interval :=
  if i.breaksOff e then { i with last := e.jump } else i

/-- One round: every loop, in some order, and for each of them every interval. -/
def round (order : List BackEdge) (intervals : List Interval) : List Interval :=
  order.foldl (fun intervals e => intervals.map (visit e)) intervals

theorem reaches_map_visit {e : BackEdge} (he : e ∈ edges) (intervals : List Interval) :
    ReflTransGen (Extends edges) intervals (intervals.map (visit e)) := by
  induction intervals with
  | nil => exact .refl
  | cons i rest ih =>
    have hrest : ReflTransGen (Extends edges) (i :: rest) (i :: rest.map (visit e)) :=
      ih.lift (i :: ·) fun _ _ => .tail
    rw [List.map_cons, visit]
    split
    · next hb => exact hrest.tail (.head he hb)
    · exact hrest

theorem reaches_round {order : List BackEdge} (horder : order ⊆ edges)
    (intervals : List Interval) :
    ReflTransGen (Extends edges) intervals (round order intervals) := by
  induction order generalizing intervals with
  | nil => exact .refl
  | cons e rest ih =>
    have hsub := List.cons_subset.1 horder
    exact (reaches_map_visit hsub.1 intervals).trans (ih hsub.2 _)

/-- A round that changes nothing has visited each loop without a change: what is
prolonged is never taken back. -/
theorem map_visit_of_round {order : List BackEdge} (horder : order ⊆ edges)
    {intervals : List Interval} (h : round order intervals = intervals) :
    ∀ e ∈ order, intervals.map (visit e) = intervals := by
  induction order with
  | nil => simp
  | cons e rest ih =>
    obtain ⟨he, hrest⟩ := List.cons_subset.1 horder
    have hhead : intervals.map (visit e) = intervals := by
      by_contra hne
      have hlt := remaining_lt_of_reaches (reaches_map_visit he intervals) hne
      have hle := remaining_le_of_reaches (reaches_round hrest (intervals.map (visit e)))
      rw [show round rest (intervals.map (visit e)) = intervals from h] at hle
      omega
    have hround : round rest intervals = intervals := by
      rw [round, List.foldl_cons, hhead] at h
      exact h
    exact List.forall_mem_cons.2 ⟨hhead, ih hrest hround⟩

/-- So it ends where no step can be made. -/
theorem not_extends_of_round {order : List BackEdge} {intervals : List Interval}
    (h : round order intervals = intervals) (next : List Interval) :
    ¬ Extends order intervals next := by
  have hvisit := map_visit_of_round (List.Subset.refl order) h
  clear h
  intro hstep
  induction hstep with
  | @head i rest e he hb =>
    have hsame : visit e i = i := (List.cons.inj (hvisit e he)).1
    have hjump : e.jump = i.last := by simpa [visit, hb] using congrArg Interval.last hsame
    have := (breaksOff_iff.1 hb).2.2
    omega
  | tail _ ih => exact ih fun e he => (List.cons.inj (hvisit e he)).2

/-- Rounds, until one changes nothing. -/
def settle (order : List BackEdge) (intervals : List Interval) : List Interval :=
  if _h : round order intervals = intervals then intervals
  else settle order (round order intervals)
termination_by remaining order intervals
decreasing_by exact remaining_lt_of_reaches (reaches_round (List.Subset.refl order) _) _h

/-- The rounds end at the closed intervals. -/
theorem settle_eq (order : List BackEdge) (intervals : List Interval) :
    settle order intervals = intervals.map (·.close order) := by
  fun_induction settle order intervals with
  | case1 intervals h => exact (map_close_eq_self (not_extends_of_round h)).symm
  | case2 intervals h ih =>
    rw [ih, map_close_of_reaches (reaches_round (List.Subset.refl order) intervals)]

/-- In whichever order loops and intervals are visited. -/
theorem perm_settle {order : List BackEdge} (horder : ∀ e, e ∈ order ↔ e ∈ edges)
    {start intervals : List Interval} (hstart : start.Perm intervals) :
    (settle order start).Perm (intervals.map (·.close edges)) := by
  rw [settle_eq, funext (close_congr horder)]
  exact hstart.map _

end Interval

/-! ## Lifetimes of a stream -/

/-- The instruction at `index` touches the pseudo-register `id`. -/
def TouchedAt (code : List Instr) (id index : Nat) : Prop :=
  ∃ instr, code[index]? = some instr ∧ instr.Touches id

/-- The instruction at `jump` jumps to a label, at `target`, that is not behind it. -/
def JumpsBack (code : List Instr) (jump target : Nat) : Prop :=
  target ≤ jump ∧ ∃ instr name, code[jump]? = some instr ∧ instr.jumpTarget? = some name ∧
    labelIndex? code name = some target

/-- The ends that the lifetime of `id` may have when it begins at `first`: behind every touch,
and behind every jump back into what comes after the beginning. -/
def Outlasts (code : List Instr) (id first last : Nat) : Prop :=
  (∀ k, TouchedAt code id k → k ≤ last) ∧
    ∀ jump target, JumpsBack code jump target → first < target → target ≤ last → jump ≤ last

theorem touchedAt_iff {code : List Instr} {id k : Nat} :
    TouchedAt code id k ↔ ∃ e p, (k, e) ∈ effectsFrom 0 code ∧ e.pseudo? = some p
    ∧ p.id = id := by
  simp only [TouchedAt, mem_effectsFrom, Nat.zero_add]
  constructor
  · rintro ⟨instr, hk, e, he, p, hp, hid⟩
    exact ⟨e, p, ⟨k, instr, hk, he, rfl⟩, hp, hid⟩
  · rintro ⟨e, p, ⟨n, instr, hn, he, rfl⟩, hp, hid⟩
    exact ⟨instr, hn, e, he, p, hp, hid⟩

/-- The back edges of a stream are its jumps back. -/
theorem mem_backEdges {code : List Instr} {edges : List BackEdge}
    (h : backEdges code = .ok edges) (e : BackEdge) :
    e ∈ edges ↔ JumpsBack code e.jump e.target := by
  obtain ⟨all, hall, rfl⟩ : ∃ all, jumps code = .ok all ∧
      all.filter (fun e => e.target ≤ e.jump) = edges := by
    cases hj : jumps code with
    | error failure => simp [backEdges, hj, bind, Except.bind] at h
    | ok all =>
      exact ⟨all, rfl, by simpa [backEdges, hj, bind, Except.bind, pure, Except.pure] using h⟩
  rw [List.mem_filter, mem_jumps hall, decide_eq_true_eq, and_comm, JumpsBack]

namespace Interval

variable {code : List Instr} {i : Interval}

/-- Before it is closed, an interval goes from the first touch -/
theorem isLeast_first_scan (hi : i ∈ scan 0 [] code) :
    IsLeast {k | TouchedAt code i.pseudo.id k} i.first := by
  have hsum := summarises_scan code
  obtain ⟨e, he, hp⟩ := hsum.begins i hi
  refine ⟨touchedAt_iff.2 ⟨e, _, he, hp, rfl⟩, fun k hk => ?_⟩
  obtain ⟨e', p, he', hp', hid⟩ := touchedAt_iff.1 hk
  obtain ⟨j, hj, hjid, hfirst, -⟩ := hsum.contains k e' p he' hp'
  rwa [hsum.ordered.eq_of_id hi hj (by rw [hjid, hid])]

/-- to the last. -/
theorem isGreatest_last_scan (hi : i ∈ scan 0 [] code) :
    IsGreatest {k | TouchedAt code i.pseudo.id k} i.last := by
  have hsum := summarises_scan code
  obtain ⟨e, p, he, hp, hid⟩ := hsum.ends i hi
  refine ⟨touchedAt_iff.2 ⟨e, p, he, hp, hid⟩, fun k hk => ?_⟩
  obtain ⟨e', q, he', hq, hqid⟩ := touchedAt_iff.1 hk
  obtain ⟨j, hj, hjid, -, hlast⟩ := hsum.contains k e' q he' hq
  rwa [hsum.ordered.eq_of_id hi hj (by rw [hjid, hqid])]

/-- Where it may end is told by the stream. -/
theorem mayEnd_iff_outlasts {edges : List BackEdge} (hedges : backEdges code = .ok edges)
    (hi : i ∈ scan 0 [] code) (last : Nat) :
    i.MayEnd edges last ↔ Outlasts code i.pseudo.id i.first last := by
  refine and_congr ⟨fun h k hk => ?_, fun h => h _ (isGreatest_last_scan hi).1⟩
    ⟨fun h jump target hback => ?_, fun h e he =>
      h e.jump e.target ((mem_backEdges hedges e).1 he)⟩
  · exact Nat.le_trans ((isGreatest_last_scan hi).2 hk) h
  · exact h ⟨target, jump⟩ ((mem_backEdges hedges _).2 hback)

end Interval

namespace Liveness

/-- The intervals of a stream that is accepted are the closed ones. -/
theorem intervals_of_ofCode {code : List Instr} {live : Liveness}
    (h : ofCode code = .ok live) :
    ∃ edges, backEdges code = .ok edges ∧
      live.intervals = (Interval.scan 0 [] code).map (·.close edges) := by
  obtain ⟨edges, hedges, rfl⟩ := eq_of_ofCode h
  exact ⟨_, by simp [backEdges, hedges, bind, Except.bind, pure, Except.pure], rfl⟩

/-- The intervals of a stream are the least ones: there is one for each number that is touched,
it begins at the first touch, and it ends at the least place that is behind every touch and
inside no loop that it enters from outside. Prolonging intervals one by one comes to an end in
every order, and the end is always this; the loop over back edges and intervals in particular
stops there, whichever order it visits them in. -/
theorem isLeast_intervals {code : List Instr} {live : Liveness} (h : ofCode code = .ok live) :
    (∀ i ∈ live.intervals,
      IsLeast {k | TouchedAt code i.pseudo.id k} i.first ∧
      IsLeast {last | Outlasts code i.pseudo.id i.first last} i.last) ∧
    Interval.Ordered live.intervals ∧
    (∀ id k, TouchedAt code id k → ∃ i ∈ live.intervals, i.pseudo.id = id) ∧
    ∃ edges, backEdges code = .ok edges ∧
      (∀ e, e ∈ edges ↔ JumpsBack code e.jump e.target) ∧
      WellFounded (fun after before => Interval.Extends edges before after) ∧
      (∀ start, start.Perm (Interval.scan 0 [] code) → ∀ final,
        ReflTransGen (Interval.Extends edges) start final →
        (∀ next, ¬ Interval.Extends edges final next) → final.Perm live.intervals) ∧
      ∀ order start, (∀ e, e ∈ order ↔ e ∈ edges) → start.Perm (Interval.scan 0 [] code) →
        (Interval.settle order start).Perm live.intervals := by
  have hspec := spec_of_ofCode h
  obtain ⟨edges, hedges, hlive⟩ := intervals_of_ofCode h
  refine ⟨fun i hi => ?_, hspec.ordered, fun id k hk => ?_, edges, hedges,
    mem_backEdges hedges,
    Interval.wellFounded_extends edges, fun start hstart final hreach hend => ?_,
    fun order start horder hstart => ?_⟩
  · obtain ⟨j, hj, rfl⟩ := List.mem_map.1 (hlive ▸ hi)
    simp only [Interval.close_first, Interval.close_pseudo,
      ← Interval.mayEnd_iff_outlasts hedges hj]
    exact ⟨Interval.isLeast_first_scan hj, Interval.isLeast_close edges j⟩
  · obtain ⟨instr, hinstr, htouches⟩ := hk
    obtain ⟨i, hi, hid, -⟩ := hspec.contains k instr id hinstr htouches
    exact ⟨i, hi, hid⟩
  · rw [Interval.eq_map_close_of_reaches hreach hend, hlive]
    exact hstart.map _
  · rw [hlive]
    exact Interval.perm_settle horder hstart

/-- Two loops that overlap: the value enters the second because the first keeps it that
long. -/
theorem isLeast_intervals_overlapping :
    let p (id : Nat) : Operand := .pseudo ⟨id, .long⟩
    let code : List Instr :=
      [.mov .long (.imm 0) (p 0), .label "first", .alu .add .long (p 0) (p 0), .label "second",
        .jmp "first", .mov .long (.imm 1) (p 1), .jmp "second"]
    ∃ live, ofCode code = .ok live ∧
      live.intervals = [⟨⟨0, .long⟩, 0, 6, true⟩, ⟨⟨1, .long⟩, 5, 5, true⟩] ∧
      IsLeast {last | Outlasts code 0 0 last} 6 := by
  intro p code
  obtain ⟨live, hlive, hintervals⟩ : ∃ live, ofCode code = .ok live ∧
      live.intervals = [⟨⟨0, .long⟩, 0, 6, true⟩, ⟨⟨1, .long⟩, 5, 5, true⟩] :=
    ⟨_, rfl, by decide +kernel⟩
  refine ⟨live, hlive, hintervals, ?_⟩
  have hleast := (isLeast_intervals hlive).1 ⟨⟨0, .long⟩, 0, 6, true⟩ (by simp [hintervals])
  exact hleast.2

end Liveness

end Jil.Pseudo
