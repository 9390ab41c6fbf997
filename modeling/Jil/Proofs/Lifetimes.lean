/-
Jil.Proofs.Lifetimes — what the computed intervals say about a stream.

`Interval.scan` is a fold over the effects of a stream with their indices
(`scan_eq_foldl`); `Summarises` is what holds of the intervals after any part
of that fold. `Liveness.Spec` collects what later proofs may use of a
successful `Liveness.ofCode`: one interval for each number that is touched,
which contains every touch and reaches to the end of every loop that it enters
from outside.

Intervals are built from the order of the text, liveness follows jumps.
`covers_iff` says when the first contains the second: exactly when no backward
jump goes in front of the first touch of a value that is live there. The
closing of intervals does not look at such jumps, and
`not_covers_of_late_store` is a stream where this loses a value.
-/
import Jil.Proofs.Flow
import Jil.Selection.Function
import Jil.Typing.Check

namespace Jil.Pseudo

/-! ## Effects with their indices -/

/-- The effects of a stream of which the first instruction has the given index. -/
def effectsFrom (index : Nat) : List Instr → List (Nat × Effect)
  | [] => []
  | i :: rest => i.effects.map (index, ·) ++ effectsFrom (index + 1) rest

theorem mem_effectsFrom {code : List Instr} {index k : Nat} {e : Effect} :
    (k, e) ∈ effectsFrom index code ↔
      ∃ n i, code[n]? = some i ∧ e ∈ i.effects ∧ k = index + n := by
  induction code generalizing index with
  | nil => simp [effectsFrom]
  | cons i rest ih =>
    simp only [effectsFrom, List.mem_append, List.mem_map, Prod.mk.injEq, ih]
    constructor
    · rintro (⟨e', he, rfl, rfl⟩ | ⟨n, j, hj, he, rfl⟩)
      · exact ⟨0, i, rfl, he, rfl⟩
      · exact ⟨n + 1, j, by simpa using hj, he, by omega⟩
    · rintro ⟨n, j, hj, he, rfl⟩
      cases n with
      | zero =>
        simp only [List.getElem?_cons_zero, Option.some.injEq] at hj
        subst hj
        exact Or.inl ⟨e, he, rfl, rfl⟩
      | succ n =>
        exact Or.inr ⟨n, j, by simpa using hj, he, by omega⟩

/-- The effects come in the order of their instructions. -/
theorem pairwise_effectsFrom (code : List Instr) (index : Nat) :
    (effectsFrom index code).Pairwise (·.1 ≤ ·.1) := by
  induction code generalizing index with
  | nil => exact List.Pairwise.nil
  | cons i rest ih =>
    rw [effectsFrom, List.pairwise_append]
    refine ⟨?_, ih (index + 1), ?_⟩
    · rw [List.pairwise_map]
      exact List.pairwise_of_forall fun _ _ => Nat.le_refl _
    · intro a ha b hb
      obtain ⟨e, -, rfl⟩ := List.mem_map.1 ha
      obtain ⟨n, j, -, -, hk⟩ := mem_effectsFrom.1 hb
      simp only [hk]
      omega

/-- The pseudo-registers of a stream in the order in which they are touched. -/
def touchesOf (effects : List (Nat × Effect)) : List Reg := effects.filterMap (·.2.pseudo?)

/-- The pseudo-register with a given number as the stream first touches it. -/
def firstTouch? (code : List Instr) (id : Nat) : Option Reg :=
  ((code.flatMap Instr.effects).filterMap Effect.pseudo?).find? (·.id = id)

theorem touchesOf_effectsFrom (code : List Instr) (index : Nat) :
    touchesOf (effectsFrom index code) = (code.flatMap Instr.effects).filterMap
      Effect.pseudo? := by
  induction code generalizing index with
  | nil => rfl
  | cons i rest ih =>
    have hhead :
        touchesOf (i.effects.map (index, ·)) = i.effects.filterMap Effect.pseudo? := by
      rw [touchesOf, List.filterMap_map]
      rfl
    simp only [effectsFrom, touchesOf, List.filterMap_append, List.flatMap_cons] at ih hhead ⊢
    rw [hhead, ih]

/-! ## Touching -/

namespace Interval

/-- Intervals in the order of their numbers, each number once. -/
def Ordered (intervals : List Interval) : Prop :=
  intervals.Pairwise (·.pseudo.id < ·.pseudo.id)

/-- In ordered intervals a number has one interval. -/
theorem Ordered.eq_of_id {intervals : List Interval} (h : Ordered intervals) {i j : Interval}
    (hi : i ∈ intervals) (hj : j ∈ intervals) (hid : i.pseudo.id = j.pseudo.id) : i = j := by
  induction intervals with
  | nil => simp at hi
  | cons v rest ih =>
    rw [Ordered, List.pairwise_cons] at h
    rcases List.mem_cons.1 hi with rfl | hi' <;> rcases List.mem_cons.1 hj with rfl | hj'
    · rfl
    · have := h.1 j hj'; omega
    · have := h.1 i hi'; omega
    · exact ih h.2 hi' hj'

/-- What touching makes of the interval of the touched number. -/
def prolong (i : Interval) (index : Nat) (writes : Bool) : Interval :=
  { i with last := max i.last index, written := i.written || writes }

/-- Touching changes the interval of one number, or adds it. -/
theorem mem_touch {p : Reg} {index : Nat} {writes : Bool} {intervals : List Interval}
    (h : Ordered intervals) {i : Interval} :
    i ∈ touch p index writes intervals ↔
      (i ∈ intervals ∧ i.pseudo.id ≠ p.id)
      ∨ (∃ j ∈ intervals, j.pseudo.id = p.id ∧ i = j.prolong index writes)
      ∨ ((∀ j ∈ intervals, j.pseudo.id ≠ p.id) ∧ i = ⟨p, index, index, writes⟩) := by
  induction intervals with
  | nil => simp [touch]
  | cons v rest ih =>
    rw [Ordered, List.pairwise_cons] at h
    obtain ⟨hv, hrest⟩ := h
    rw [touch]
    split
    · next heq =>
      have hother : ∀ j ∈ rest, j.pseudo.id ≠ p.id := fun j hj => by have := hv j hj; omega
      constructor
      · intro hi
        rcases List.mem_cons.1 hi with rfl | hi
        · exact Or.inr (Or.inl ⟨v, List.mem_cons_self, heq.symm, rfl⟩)
        · exact Or.inl ⟨List.mem_cons_of_mem _ hi, hother i hi⟩
      · rintro (⟨hi, hne⟩ | ⟨j, hj, hid, rfl⟩ | ⟨hnone, -⟩)
        · rcases List.mem_cons.1 hi with rfl | hi
          · exact absurd heq.symm hne
          · exact List.mem_cons_of_mem _ hi
        · rcases List.mem_cons.1 hj with rfl | hj
          · exact List.mem_cons_self
          · exact absurd hid (hother j hj)
        · exact absurd heq.symm (hnone v List.mem_cons_self)
    · next hne =>
      split
      · next hlt =>
        have hother : ∀ j ∈ v :: rest, j.pseudo.id ≠ p.id := fun j hj => by
          rcases List.mem_cons.1 hj with rfl | hj
          · omega
          · have := hv j hj; omega
        rw [List.mem_cons]
        constructor
        · rintro (rfl | hi)
          · exact Or.inr (Or.inr ⟨hother, rfl⟩)
          · exact Or.inl ⟨hi, hother i hi⟩
        · rintro (⟨hi, -⟩ | ⟨j, hj, hid, -⟩ | ⟨-, rfl⟩)
          · exact Or.inr hi
          · exact absurd hid (hother j hj)
          · exact Or.inl rfl
      · have hvne : v.pseudo.id ≠ p.id := fun heq => hne heq.symm
        rw [List.mem_cons, ih hrest]
        simp only [List.mem_cons, exists_eq_or_imp, forall_eq_or_imp]
        rw [or_and_right]
        constructor
        · rintro (rfl | h)
          · exact Or.inl (Or.inl ⟨rfl, hvne⟩)
          · rcases h with h | h | ⟨hnone, heq⟩
            · exact Or.inl (Or.inr h)
            · exact Or.inr (Or.inl (Or.inr h))
            · exact Or.inr (Or.inr ⟨⟨hvne, hnone⟩, heq⟩)
        · rintro ((⟨rfl, -⟩ | h) | (⟨hid, -⟩ | h) | ⟨⟨-, hnone⟩, heq⟩)
          · exact Or.inl rfl
          · exact Or.inr (Or.inl h)
          · exact absurd hid hvne
          · exact Or.inr (Or.inr (Or.inl h))
          · exact Or.inr (Or.inr (Or.inr ⟨hnone, heq⟩))

/-- Touching keeps the order. -/
theorem ordered_touch {intervals : List Interval} (h : Ordered intervals) (p : Reg)
    (index : Nat) (writes : Bool) : Ordered (touch p index writes intervals) := by
  induction intervals with
  | nil => simp [touch, Ordered]
  | cons v rest ih =>
    rw [Ordered, List.pairwise_cons] at h
    obtain ⟨hv, hrest⟩ := h
    rw [touch]
    split
    · exact List.pairwise_cons.2 ⟨hv, hrest⟩
    · next hne =>
      split
      · next hlt =>
        refine List.pairwise_cons.2 ⟨fun j hj => ?_, List.pairwise_cons.2 ⟨hv, hrest⟩⟩
        rcases List.mem_cons.1 hj with rfl | hj
        · exact hlt
        · have := hv j hj
          simp only
          omega
      · next hle =>
        refine List.pairwise_cons.2 ⟨fun j hj => ?_, ih hrest⟩
        rcases (mem_touch hrest).1 hj with ⟨hj, -⟩ | ⟨k, hk, -, rfl⟩ | ⟨-, rfl⟩
        · exact hv j hj
        · exact hv k hk
        · simp only
          omega

/-! ## Scanning -/

/-- Scanning records the effects one by one. -/
theorem scan_eq_foldl (index : Nat) (intervals : List Interval) (code : List Instr) :
    scan index intervals code =
      (effectsFrom index code).foldl (fun acc e => record e.1 acc e.2) intervals := by
  induction code generalizing index intervals with
  | nil => rfl
  | cons i rest ih =>
    rw [scan, ih, effectsFrom, List.foldl_append, List.foldl_map]

theorem record_of_pseudo?_eq_some {e : Effect} {p : Reg} (h : e.pseudo? = some p) (index : Nat)
    (intervals : List Interval) :
    ∃ writes, record index intervals e = touch p index writes intervals := by
  cases e with
  | uses q =>
    simp only [Effect.pseudo?, Option.some.injEq] at h
    exact ⟨false, by rw [record, h]⟩
  | defines q =>
    simp only [Effect.pseudo?, Option.some.injEq] at h
    exact ⟨true, by rw [record, h]⟩
  | touches r => simp [Effect.pseudo?] at h

theorem record_of_pseudo?_eq_none {e : Effect} (h : e.pseudo? = none) (index : Nat)
    (intervals : List Interval) : record index intervals e = intervals := by
  cases e with
  | touches r => rfl
  | _ => simp [Effect.pseudo?] at h

/-- What holds of the intervals once some effects are recorded. -/
structure Summarises (done : List (Nat × Effect)) (intervals : List Interval) : Prop where
  ordered : Ordered intervals
  /-- An interval begins where its number is touched, -/
  begins : ∀ i ∈ intervals, ∃ e, (i.first, e) ∈ done ∧ e.pseudo? = some i.pseudo
  /-- and ends where it is touched, -/
  ends : ∀ i ∈ intervals, ∃ e p, (i.last, e) ∈ done ∧ e.pseudo? = some p ∧ p.id = i.pseudo.id
  /-- and contains every touch of its number. -/
  contains : ∀ k e p, (k, e) ∈ done → e.pseudo? = some p →
    ∃ i ∈ intervals, i.pseudo.id = p.id ∧ i.first ≤ k ∧ k ≤ i.last
  /-- It has the size of the first touch. -/
  named : ∀ i ∈ intervals, (touchesOf done).find? (·.id = i.pseudo.id) = some i.pseudo

theorem Summarises.nil : Summarises [] [] where
  ordered := List.Pairwise.nil
  begins := by simp
  ends := by simp
  contains := by simp
  named := by simp

/-- A number that no effect touches has no interval. -/
theorem Summarises.find?_eq_none {done : List (Nat × Effect)} {intervals : List Interval}
    (h : Summarises done intervals) {id : Nat} (hnone : ∀ i ∈ intervals, i.pseudo.id ≠ id) :
    (touchesOf done).find? (·.id = id) = none := by
  rw [List.find?_eq_none]
  intro p hp
  obtain ⟨⟨k, e⟩, he, hep⟩ := List.mem_filterMap.1 hp
  obtain ⟨i, hi, hid, -⟩ := h.contains k e p he hep
  have := hnone i hi
  simpa [← hid] using this

/-- Recording one more effect, at an index not before the others. -/
theorem Summarises.record {done : List (Nat × Effect)} {intervals : List Interval}
    (h : Summarises done intervals) {index : Nat} (hle : ∀ e ∈ done, e.1 ≤ index)
    (e : Effect) :
    Summarises (done ++ [(index, e)]) (record index intervals e) := by
  cases hp : e.pseudo? with
  | none =>
    rw [record_of_pseudo?_eq_none hp]
    have htouches : touchesOf (done ++ [(index, e)]) = touchesOf done := by
      simp [touchesOf, hp]
    refine ⟨h.ordered, fun i hi => ?_, fun i hi => ?_, fun k e' p he hep => ?_, fun i hi => ?_⟩
    · obtain ⟨e', he, hep⟩ := h.begins i hi
      exact ⟨e', List.mem_append_left _ he, hep⟩
    · obtain ⟨e', p, he, hep, hid⟩ := h.ends i hi
      exact ⟨e', p, List.mem_append_left _ he, hep, hid⟩
    · rcases List.mem_append.1 he with he | he
      · exact h.contains k e' p he hep
      · rw [List.mem_singleton, Prod.mk.injEq] at he
        rw [he.2, hp] at hep
        exact absurd hep (by simp)
    · rw [htouches]
      exact h.named i hi
  | some p =>
    obtain ⟨writes, hrecord⟩ := record_of_pseudo?_eq_some hp index intervals
    rw [hrecord]
    have htouches : touchesOf (done ++ [(index, e)]) = touchesOf done ++ [p] := by
      simp [touchesOf, hp]
    have hfirst : ∀ i ∈ intervals, i.first ≤ index := fun i hi => by
      obtain ⟨e', he, -⟩ := h.begins i hi
      exact hle _ he
    refine ⟨ordered_touch h.ordered p index writes, fun i hi => ?_, fun i hi => ?_,
      fun k e' q he heq => ?_, fun i hi => ?_⟩
    · rcases (mem_touch h.ordered).1 hi with ⟨hi, -⟩ | ⟨j, hj, -, rfl⟩ | ⟨-, rfl⟩
      · obtain ⟨e', he, hep⟩ := h.begins i hi
        exact ⟨e', List.mem_append_left _ he, hep⟩
      · obtain ⟨e', he, hep⟩ := h.begins j hj
        exact ⟨e', List.mem_append_left _ he, hep⟩
      · exact ⟨e, by simp, hp⟩
    · rcases (mem_touch h.ordered).1 hi with ⟨hi, -⟩ | ⟨j, hj, hid, rfl⟩ | ⟨-, rfl⟩
      · obtain ⟨e', q, he, hep, hq⟩ := h.ends i hi
        exact ⟨e', q, List.mem_append_left _ he, hep, hq⟩
      · have hlast : max j.last index = index := by
          obtain ⟨e', q, he, -⟩ := h.ends j hj
          exact Nat.max_eq_right (hle _ he)
        exact ⟨e, p, by simp [prolong, hlast], hp, hid.symm⟩
      · exact ⟨e, p, by simp, hp, rfl⟩
    · rcases List.mem_append.1 he with he | he
      · obtain ⟨i, hi, hid, hfi, hli⟩ := h.contains k e' q he heq
        by_cases hip : i.pseudo.id = p.id
        · refine ⟨i.prolong index writes,
            (mem_touch h.ordered).2 (Or.inr (Or.inl ⟨i, hi, hip, rfl⟩)), hid, hfi, ?_⟩
          exact Nat.le_trans hli (Nat.le_max_left _ _)
        · exact ⟨i, (mem_touch h.ordered).2 (Or.inl ⟨hi, hip⟩), hid, hfi, hli⟩
      · rw [List.mem_singleton, Prod.mk.injEq] at he
        obtain ⟨rfl, rfl⟩ := he
        obtain rfl : p = q := by rw [hp] at heq; exact Option.some.inj heq
        by_cases hex : ∃ i ∈ intervals, i.pseudo.id = p.id
        · obtain ⟨i, hi, hip⟩ := hex
          exact ⟨i.prolong k writes,
            (mem_touch h.ordered).2 (Or.inr (Or.inl ⟨i, hi, hip, rfl⟩)),
            hip, hfirst i hi, Nat.le_max_right _ _⟩
        · refine ⟨⟨p, k, k, writes⟩, (mem_touch h.ordered).2 (Or.inr (Or.inr ⟨?_, rfl⟩)), rfl,
            Nat.le_refl _, Nat.le_refl _⟩
          exact fun i hi hip => hex ⟨i, hi, hip⟩
    · rw [htouches, List.find?_append]
      rcases (mem_touch h.ordered).1 hi with ⟨hi, -⟩ | ⟨j, hj, -, rfl⟩ | ⟨hnone, rfl⟩
      · exact Option.or_eq_some_iff.2 (Or.inl (h.named i hi))
      · exact Option.or_eq_some_iff.2 (Or.inl (h.named j hj))
      · simp [h.find?_eq_none hnone]

/-- The intervals of a whole stream. -/
theorem summarises_scan (code : List Instr) :
    Summarises (effectsFrom 0 code) (scan 0 [] code) := by
  have hfold : ∀ (rest done : List (Nat × Effect)) (intervals : List Interval),
      (done ++ rest).Pairwise (·.1 ≤ ·.1) → Summarises done intervals →
      Summarises (done ++ rest)
        (rest.foldl (fun acc e => Interval.record e.1 acc e.2) intervals) := by
    intro rest
    induction rest with
    | nil => intro done intervals _ h; simpa using h
    | cons e rest ih =>
      intro done intervals hpair h
      have hle : ∀ e' ∈ done, e'.1 ≤ e.1 := fun e' he' =>
        (List.pairwise_append.1 hpair).2.2 e' he' e List.mem_cons_self
      have := ih (done ++ [e]) _ (by simpa using hpair) (h.record hle e.2)
      simpa using this
  rw [scan_eq_foldl]
  simpa using hfold (effectsFrom 0 code) [] [] (by simpa using pairwise_effectsFrom code 0)
    .nil

/-! ## Closing -/

/-- Closing prolongs. -/
theorem le_close_last (edges : List BackEdge) (i : Interval) :
    i.last ≤ (i.close edges).last := by
  fun_induction close edges i with
  | case1 i e h ih =>
    have hb : i.breaksOff e = true := List.find?_some h
    simp only [breaksOff, Bool.and_eq_true, decide_eq_true_eq] at hb
    simp only at ih
    omega
  | case2 i h => exact Nat.le_refl _

/-- A closed interval ends where it ended, or at a jump. -/
theorem close_last (edges : List BackEdge) (i : Interval) :
    (i.close edges).last = i.last ∨ ∃ e ∈ edges, (i.close edges).last = e.jump := by
  fun_induction close edges i with
  | case1 i e h ih =>
    rcases ih with ih | ih
    · exact Or.inr ⟨e, List.mem_of_find?_eq_some h, ih⟩
    · exact Or.inr ih
  | case2 i h => exact Or.inl rfl

end Interval

/-! ## Jumps -/

/-- The jumps that are found, with the last places of their labels. -/
theorem mem_jumps {code : List Instr} {edges : List BackEdge} (h : jumps code = .ok edges)
    {target jump : Nat} :
    ⟨target, jump⟩ ∈ edges ↔ ∃ i name, code[jump]? = some i ∧ i.jumpTarget? = some name
      ∧ labelIndex? code name = some target := by
  obtain ⟨hlen, hget⟩ := getElem?_of_mapM_eq_ok h
  constructor
  · intro hmem
    obtain ⟨n, hn⟩ := List.getElem?_of_mem hmem
    have hlt : n < edges.length := (List.getElem?_eq_some_iff.1 hn).1
    obtain ⟨⟨name, index⟩, hsrc⟩ : ∃ a, (code.zipIdx.filterMap fun p =>
        p.1.jumpTarget?.map (·, p.2))[n]? = some a :=
      ⟨_, List.getElem?_eq_getElem (Nat.lt_of_lt_of_eq hlt hlen)⟩
    obtain ⟨b, hb, hok⟩ := hget n _ hsrc
    rw [hn, Option.some.injEq] at hb
    subst hb
    obtain ⟨⟨i, k⟩, hik, hmap⟩ := List.mem_filterMap.1 (List.mem_of_getElem? hsrc)
    rw [List.mem_zipIdx_iff_getElem?] at hik
    obtain ⟨name', hname, hpair⟩ := Option.map_eq_some_iff.1 hmap
    cases hpair
    simp only at hok
    split at hok
    · next t ht =>
      cases hok
      exact ⟨i, name, hik, hname, ht⟩
    · cases hok
  · rintro ⟨i, name, hi, hname, htarget⟩
    have hsrc : (name, jump) ∈ code.zipIdx.filterMap fun p =>
        p.1.jumpTarget?.map (·, p.2) := by
      refine List.mem_filterMap.2 ⟨(i, jump), List.mem_zipIdx_iff_getElem?.2 hi, ?_⟩
      simp [hname]
    obtain ⟨n, hn⟩ := List.getElem?_of_mem hsrc
    obtain ⟨b, hb, hok⟩ := hget n _ hn
    simp only [htarget, Except.ok.injEq] at hok
    subst hok
    exact List.mem_of_getElem? hb

/-! ## What the liveness of a stream says -/

namespace Liveness

/-- What an allocator may rely on. -/
structure Spec (code : List Instr) (live : Liveness) : Prop where
  ordered : Interval.Ordered live.intervals
  /-- An interval begins at an instruction that touches its pseudo-register. -/
  begins : ∀ i ∈ live.intervals, ∃ instr, code[i.first]? = some instr
    ∧ instr.Touches i.pseudo.id
  contains : ∀ (k : Nat) (instr : Instr) (id : Nat), code[k]? = some instr → instr.Touches id →
    ∃ i ∈ live.intervals, i.pseudo.id = id ∧ i.first ≤ k ∧ k ≤ i.last
  inside : ∀ i ∈ live.intervals, i.last < code.length
  /-- The size is that of the first touch. -/
  named : ∀ i ∈ live.intervals, firstTouch? code i.pseudo.id = some i.pseudo
  /-- An interval that contains the target of a backward jump, and does not begin
  there, contains the jump. -/
  closed : ∀ i ∈ live.intervals, ∀ jump target, target ∈ successors code jump → target ≤ jump →
    i.first < target → target ≤ i.last → jump ≤ i.last
  calls : ∀ k, k ∈ live.calls ↔ ∃ i, code[k]? = some i ∧ i.isCall = true
  touched : ∀ r, live.touched.contains r = true ↔ ∃ i ∈ code, r ∈ i.touched

/-- The parts of a successful computation. -/
theorem eq_of_ofCode {code : List Instr} {live : Liveness} (h : ofCode code = .ok live) :
    ∃ edges, jumps code = .ok edges ∧
      live =
        { intervals := (Interval.scan 0 [] code).map
            (·.close (edges.filter fun e => e.target ≤ e.jump))
          calls := callIndices code
          touched := touchedRegisters code } := by
  unfold ofCode at h
  simp only at h
  split at h
  · cases h
  · cases hj : jumps code with
    | error e => simp [backEdges, hj, bind, Except.bind] at h
    | ok edges =>
      refine ⟨edges, rfl, ?_⟩
      simpa [backEdges, hj, bind, Except.bind, pure, Except.pure] using h.symm

theorem mem_callIndices {code : List Instr} {k : Nat} :
    k ∈ callIndices code ↔ ∃ i, code[k]? = some i ∧ i.isCall = true := by
  simp [callIndices, List.mem_zipIdx_iff_getElem?]

theorem contains_touchedRegisters {code : List Instr} {r : Machine.Reg} :
    (touchedRegisters code).contains r = true ↔ ∃ i ∈ code, r ∈ i.touched := by
  have hfold : ∀ (l : List Machine.Reg) (s : Machine.RegSet),
      (l.foldl Machine.RegSet.insert s).contains r = true ↔ s.contains r = true ∨ r ∈ l := by
    intro l
    induction l with
    | nil => simp
    | cons x rest ih =>
      intro s
      rw [List.foldl_cons, ih, Machine.RegSet.contains_insert, List.mem_cons]
      simp only [Bool.or_eq_true, decide_eq_true_eq]
      constructor
      · rintro ((h | h) | h)
        · exact Or.inr (Or.inl h)
        · exact Or.inl h
        · exact Or.inr (Or.inr h)
      · rintro (h | h | h)
        · exact Or.inl (Or.inr h)
        · exact Or.inl (Or.inl h)
        · exact Or.inr h
  rw [touchedRegisters, hfold]
  simp [Machine.RegSet.contains, Machine.RegSet.empty]

/-- Every liveness that is computed meets the specification. -/
theorem spec_of_ofCode {code : List Instr} {live : Liveness} (h : ofCode code = .ok live) :
    Spec code live := by
  obtain ⟨edges, hedges, rfl⟩ := eq_of_ofCode h
  have hsum := Interval.summarises_scan code
  have hinside : ∀ i ∈ Interval.scan 0 [] code, i.last < code.length := fun i hi => by
    obtain ⟨e, p, he, -⟩ := hsum.ends i hi
    obtain ⟨n, instr, hn, -, heq⟩ := mem_effectsFrom.1 he
    have := (List.getElem?_eq_some_iff.1 hn).1
    omega
  refine ⟨?_, ?_, ?_, ?_, ?_, ?_, fun k => mem_callIndices, fun r => contains_touchedRegisters⟩
  · rw [Interval.Ordered, List.pairwise_map]
    refine List.Pairwise.imp ?_ hsum.ordered
    intro a b hab
    rw [Interval.close_pseudo, Interval.close_pseudo]
    exact hab
  · intro i hi
    obtain ⟨j, hj, rfl⟩ := List.mem_map.1 hi
    obtain ⟨e, he, hep⟩ := hsum.begins j hj
    obtain ⟨n, instr, hn, hein, heq⟩ := mem_effectsFrom.1 he
    rw [Interval.close_first, Interval.close_pseudo, heq, Nat.zero_add]
    exact ⟨instr, hn, e, hein, _, hep, rfl⟩
  · rintro k instr id hk ⟨e, he, p, hep, rfl⟩
    obtain ⟨j, hj, hid, hfirst, hlast⟩ := hsum.contains k e p
      (mem_effectsFrom.2 ⟨k, instr, hk, he, (Nat.zero_add k).symm⟩) hep
    refine ⟨_, List.mem_map_of_mem hj, ?_, ?_, ?_⟩
    · rw [Interval.close_pseudo]; exact hid
    · rw [Interval.close_first]; exact hfirst
    · exact Nat.le_trans hlast (Interval.le_close_last _ _)
  · intro i hi
    obtain ⟨j, hj, rfl⟩ := List.mem_map.1 hi
    rcases Interval.close_last (edges.filter fun e => e.target ≤ e.jump) j with hl
      | ⟨e, he, hl⟩
    · rw [hl]; exact hinside j hj
    · obtain ⟨instr, name, hget, -⟩ := (mem_jumps hedges).1 (List.mem_filter.1 he).1
      rw [hl]
      exact (List.getElem?_eq_some_iff.1 hget).1
  · intro i hi
    obtain ⟨j, hj, rfl⟩ := List.mem_map.1 hi
    rw [Interval.close_pseudo, firstTouch?, ← touchesOf_effectsFrom code 0]
    exact hsum.named j hj
  · intro i hi jump target hsucc hle hfirst hlast
    obtain ⟨j, hj, rfl⟩ := List.mem_map.1 hi
    obtain ⟨instr, hinstr⟩ := exists_of_mem_successors hsucc
    rcases jumpTarget?_of_mem_successors hinstr hsucc with rfl | ⟨name, hname, hlabel⟩
    · omega
    · have hmem : (⟨target, jump⟩ : BackEdge) ∈ edges.filter fun e => e.target ≤ e.jump := by
        refine List.mem_filter.2 ⟨(mem_jumps hedges).2 ⟨instr, name, hinstr, hname, hlabel⟩,
          ?_⟩
        simpa using hle
      have hopen := Interval.breaksOff_close _ j _ hmem
      simp only [Interval.breaksOff, Bool.and_eq_false_iff, decide_eq_false_iff_not] at hopen
      rw [Interval.close_first] at hfirst hopen
      omega

namespace Spec

variable {code : List Instr} {live : Liveness}

/-- An interval begins before it ends. -/
theorem first_le_last (h : Spec code live) {i : Interval} (hi : i ∈ live.intervals) :
    i.first ≤ i.last := by
  obtain ⟨instr, hinstr, htouches⟩ := h.begins i hi
  obtain ⟨j, hj, hid, hfirst, hlast⟩ := h.contains _ _ _ hinstr htouches
  obtain rfl := h.ordered.eq_of_id hj hi hid
  omega

/-- The interval of a number contains every touch. -/
theorem mem_of_touches (h : Spec code live) {i : Interval} (hi : i ∈ live.intervals) {k : Nat}
    {instr : Instr} (hk : code[k]? = some instr) (ht : instr.Touches i.pseudo.id) :
    i.first ≤ k ∧ k ≤ i.last := by
  obtain ⟨j, hj, hid, hfirst, hlast⟩ := h.contains k instr _ hk ht
  obtain rfl := h.ordered.eq_of_id hj hi hid
  exact ⟨hfirst, hlast⟩

end Spec

/-! ## What is written first -/

/-- Whether lists of numbers, one for each index, hold what the ways to the index have written:
nothing else is read there. -/
def WrittenFirst (code : List Instr) (written : Nat → List Nat) : Prop :=
  ∀ x ∈ code.zipIdx, (∀ p ∈ x.1.used, p.id ∈ written x.2) ∧
    ∀ j ∈ successors code x.2, ∀ id ∈ written j, id ∈ written x.2 ∨ id ∈ x.1.defined.map Reg.id

instance (code : List Instr) (written : Nat → List Nat) :
    Decidable (WrittenFirst code written) :=
  inferInstanceAs (Decidable (∀ x ∈ code.zipIdx, _))

/-- What is needed has been written. -/
theorem mem_of_liveIn_of_writtenFirst {code : List Instr} {written : Nat → List Nat}
    (h : WrittenFirst code written) {id index : Nat} (hlive : LiveIn code id index) :
    id ∈ written index := by
  induction hlive with
  | @read i instr hi huses =>
    obtain ⟨p, hp, rfl⟩ := List.mem_map.1 (Instr.uses_iff.1 huses)
    exact (h (instr, i) (List.mem_zipIdx_iff_getElem?.2 hi)).1 p hp
  | @carried i j instr hi hdef hj _ ih =>
    rcases (h (instr, i) (List.mem_zipIdx_iff_getElem?.2 hi)).2 j hj id ih with hmem | hmem
    · exact hmem
    · exact absurd (Instr.defines_iff.2 hmem) hdef

/-- When nothing has been written at the entry, nothing is needed there. -/
theorem not_liveIn_of_writtenFirst {code : List Instr} (written : Nat → List Nat)
    (h : WrittenFirst code written) (hentry : written 0 = []) (id : Nat) :
    ¬ LiveIn code id 0 := by
  intro hlive
  have := mem_of_liveIn_of_writtenFirst h hlive
  rw [hentry] at this
  exact absurd this List.not_mem_nil

/-! ## Covering -/

/-- Every value has its interval where it is needed. -/
def Covers (live : Liveness) (code : List Instr) : Prop :=
  ∀ id index, Reachable code index → LiveIn code id index →
    ∃ i ∈ live.intervals, i.pseudo.id = id ∧ i.first ≤ index ∧ index ≤ i.last

/-- No backward jump goes in front of the first touch of a value that is needed there. -/
def EntersLate (live : Liveness) (code : List Instr) : Prop :=
  ∀ i ∈ live.intervals, ∀ jump target, Reachable code jump → target ∈ successors code jump →
    target ≤ jump → LiveIn code i.pseudo.id target → i.first < target

namespace Spec

variable {code : List Instr} {live : Liveness}

/-- A value that is needed somewhere has an interval. -/
theorem exists_of_liveIn (h : Spec code live) {id index : Nat} (hlive : LiveIn code id index) :
    ∃ i ∈ live.intervals, i.pseudo.id = id := by
  obtain ⟨k, instr, hk, huses⟩ := hlive.exists_uses
  obtain ⟨i, hi, hid, -⟩ := h.contains k instr id hk huses.touches
  exact ⟨i, hi, hid⟩

/-- Following a path from the entry, an interval has begun where its value is needed. -/
theorem first_le_of_liveIn (h : Spec code live) (hentry : ∀ id, ¬ LiveIn code id 0)
    (hlate : live.EntersLate code) {i : Interval} (hi : i ∈ live.intervals) {index : Nat}
    (hreach : Reachable code index) (hlive : LiveIn code i.pseudo.id index) :
    i.first ≤ index := by
  induction hreach with
  | entry => exact absurd hlive (hentry _)
  | @step j k hj hk ih =>
    by_cases hback : k ≤ j
    · exact Nat.le_of_lt (hlate i hi j k hj hk hback hlive)
    · obtain ⟨instr, hinstr⟩ := exists_of_mem_successors hk
      by_cases hdef : instr.Defines i.pseudo.id
      · have := (h.mem_of_touches hi hinstr hdef.touches).1
        omega
      · have := ih (Needed.carried hinstr hdef hk hlive)
        omega

/-- Following a path to the read, an interval has not ended where its value is needed. -/
theorem le_last_of_liveIn (h : Spec code live) (hlate : live.EntersLate code) {i : Interval}
    (hi : i ∈ live.intervals) {index : Nat} (hreach : Reachable code index)
    (hlive : LiveIn code i.pseudo.id index) : index ≤ i.last := by
  induction hlive with
  | read hinstr huses => exact (h.mem_of_touches hi hinstr huses.touches).2
  | @carried j k instr hinstr hdef hk hlive ih =>
    have hlast := ih (hreach.step hk)
    by_cases hback : k ≤ j
    · exact h.closed i hi j k hk hback (hlate i hi j k hreach hk hback hlive) hlast
    · omega

/-- Where nothing jumps back, intervals cover what is needed. -/
theorem covers_of_forward (h : Spec code live) (hentry : ∀ id, ¬ LiveIn code id 0)
    (hforward : ∀ k < code.length, ∀ j ∈ successors code k, k < j) : live.Covers code := by
  have hlate : live.EntersLate code := by
    intro _ _ jump target _ hk hback _
    obtain ⟨instr, hinstr⟩ := exists_of_mem_successors hk
    have := hforward jump (List.getElem?_eq_some_iff.1 hinstr).1 target hk
    omega
  intro id index hreach hlive
  obtain ⟨i, hi, rfl⟩ := h.exists_of_liveIn hlive
  exact ⟨i, hi, rfl, h.first_le_of_liveIn hentry hlate hi hreach hlive,
    h.le_last_of_liveIn hlate hi hreach hlive⟩

/-- A value that is needed at the target of a jump is first touched elsewhere. -/
theorem first_ne_of_target (h : Spec code live) {i : Interval} (hi : i ∈ live.intervals)
    {jump target : Nat} (hk : target ∈ successors code jump) (hne : target ≠ jump + 1) :
    i.first ≠ target := by
  intro heq
  obtain ⟨instr, hinstr, htouches⟩ := h.begins i hi
  obtain ⟨name, hlabel⟩ := label_of_mem_successors hk hne
  rw [heq, hlabel, Option.some.injEq] at hinstr
  subst hinstr
  exact Instr.not_touches_label name _ htouches

end Spec

/-- When nothing is read on the way from the entry before it is written, intervals cover
liveness exactly when every backward jump to a place where a value is needed stays behind the
first touch of that value. -/
theorem covers_iff {code : List Instr} {live : Liveness} (hok : ofCode code = .ok live)
    (hentry : ∀ id, ¬ LiveIn code id 0) : live.Covers code ↔ live.EntersLate code := by
  have h := spec_of_ofCode hok
  constructor
  · intro hcovers i hi jump target hreach hk hback hlive
    obtain ⟨j, hj, hid, hfirst, -⟩ := hcovers _ target (hreach.step hk) hlive
    obtain rfl := h.ordered.eq_of_id hj hi hid
    have := h.first_ne_of_target hj hk (by omega)
    omega
  · intro hlate id index hreach hlive
    obtain ⟨i, hi, rfl⟩ := h.exists_of_liveIn hlive
    exact ⟨i, hi, rfl, h.first_le_of_liveIn hentry hlate hi hreach hlive,
      h.le_last_of_liveIn hlate hi hreach hlive⟩

/-- A loop that reads a value from outside keeps it to the jump back. -/
theorem covers_loop :
    let p (id : Nat) : Operand := .pseudo ⟨id, .long⟩
    let code : List Instr :=
      [.mov .long (.imm 0) (p 0), .label "top", .mov .long (.imm 1) (p 1),
        .alu .add .long (p 0) (p 1), .jmp "top"]
    ∃ live, ofCode code = .ok live ∧ (∀ id, ¬ LiveIn code id 0) ∧
      (live.Covers code ↔ live.EntersLate code) := by
  intro p code
  have hentry : ∀ id, ¬ LiveIn code id 0 :=
    not_liveIn_of_writtenFirst (fun | 0 => [] | 3 => [0, 1] | 4 => [0, 1] | _ => [0])
      (by decide) rfl
  exact ⟨_, rfl, hentry, covers_iff rfl hentry⟩

/-! ## A value that is lost -/

/-- A local variable is written at the end of the text and read, after a jump back, behind a
block that needs registers of its own. -/
def lateStore : Jil.Function :=
  ((do
      .startScope "x" .int
      let read ← .label
      let store ← .label
      .jump store
      .placeLabel read
      let seven ← .literal .int "7"
      let eight ← .literal .int "8"
      let _ ← .compare .less seven eight
      let value ← .getLocal "x"
      .returnValue value
      .placeLabel store
      let one ← .literal .int "1"
      .putLocal "x" one
      .jump read : Jil.Function.Build Unit).run
    { name := "late", kind := .static, params := [], returns := .int }).2

/-- The function with the types that its check finds. -/
def lateStoreChecked : Jil.Function :=
  { lateStore with
    registerTypes := some
      ⟨[(⟨0⟩, .int), (⟨1⟩, .int), (⟨2⟩, .boolean), (⟨3⟩, .int), (⟨4⟩, .int)]⟩ }

/-- The instructions of the function; the variable has number 6. -/
def lateStoreCode : List Instr :=
  let p (id : Nat) : Operand := .pseudo ⟨id, .long⟩
  [.mov .quad (.fixed .rdi) (.pseudo ⟨5, .quad⟩), .jmp ".LF0_1",
    .label ".LF0_0", .mov .long (.imm 7) (p 0), .mov .long (.imm 8) (p 1),
    .alu .cmp .long (p 1) (p 0), .setcc .less (.pseudo ⟨2, .byte⟩),
    .mov .long (p 6) (p 3), .mov .long (p 3) (.fixed .rax), .jmp ".LF0_exit",
    .label ".LF0_1", .mov .long (.imm 1) (p 4), .mov .long (p 4) (p 6), .jmp ".LF0_0",
    .label ".LF0_exit"]

/-- The variable is needed at the label that is jumped back to, and its interval begins only
where the text first touches it, behind that label. -/
theorem not_covers_of_late_store :
    ((ClassUnit.create "pkg/Late").addFunction lateStore).check.2 = .ok ()
    ∧ ((ClassUnit.create "pkg/Late").addFunction lateStore).check.1.functions
      = [lateStoreChecked]
    ∧ (Selection.ofFunction ((ClassUnit.create "pkg/Late").addFunction lateStore).check.1
      .systemV 0
        lateStoreChecked {}).1.map (·.code) = .ok lateStoreCode
    ∧ (∀ id, ¬ LiveIn lateStoreCode id 0)
    ∧ ∃ live, ofCode lateStoreCode = .ok live ∧ ¬ live.Covers lateStoreCode := by
  obtain ⟨live, hok⟩ : ∃ live, ofCode lateStoreCode = .ok live := ⟨_, rfl⟩
  refine ⟨rfl, rfl, rfl, ?_, live, hok, fun hcovers => ?_⟩
  · exact not_liveIn_of_writtenFirst
      (fun
        | 0 => [] | 1 => [5] | 10 => [5] | 11 => [5] | 12 => [5, 4] | 13 => [5, 4, 6]
        | 2 => [5, 4, 6] | 3 => [5, 4, 6] | 4 => [5, 4, 6, 0] | 5 => [5, 4, 6, 0, 1]
        | 6 => [5, 4, 6, 0, 1] | 7 => [5, 4, 6, 0, 1] | 8 => [3] | _ => [])
      (by decide) rfl
  · have hstore : Reachable lateStoreCode 10 :=
      (Reachable.entry.step (j := 1) (by decide)).step (by decide)
    have hback : Reachable lateStoreCode 13 :=
      ((hstore.step (j := 11) (by decide)).step (j := 12) (by decide)).step (by decide)
    have hread : LiveIn lateStoreCode 6 7 := .read rfl (by decide)
    have hcondition : LiveIn lateStoreCode 6 5 :=
      .carried rfl (by decide) (j := 6) (by decide)
        (.carried rfl (by decide) (by decide) hread)
    have hlabel : LiveIn lateStoreCode 6 2 :=
      .carried rfl (by decide) (j := 3) (by decide)
        (.carried rfl (by decide) (j := 4) (by decide)
          (.carried rfl (by decide) (by decide) hcondition))
    obtain ⟨i, hi, hid, hfirst, -⟩ := hcovers 6 2 (hback.step (by decide)) hlabel
    obtain ⟨instr, hinstr, htouches⟩ := (spec_of_ofCode hok).begins i hi
    have hnone : ∀ k ≤ 2, ∀ instr ∈ lateStoreCode[k]?, ¬ instr.Uses 6 ∧ ¬ instr.Defines 6 := by
      decide
    obtain ⟨huses, hdefines⟩ := hnone i.first hfirst instr hinstr
    rw [hid] at htouches
    rcases htouches.uses_or_defines with h | h
    · exact huses h
    · exact hdefines h

end Liveness

end Jil.Pseudo
