/-
Jil.Proofs.Merging — which copies a merge puts on which edges.

Control comes to the label in front of a merge along the edges of `EdgeInto`: a
statement that may jump to the label, or the one in front of it. On an edge
behind the definition of an operand one copy into the result is planned, and on
an edge in front of both definitions none is (`copies_into_merge`). That a
register is defined by one statement only, which both the choice of the operand
and the number of copies rest on, is a consequence of the check
(`Checked.definesOnce`).

`unfed_edge_has_no_copy` is a function with an edge in front of both operands:
planning accepts it, and the result of the merge is not written on that edge.
-/
import Jil.Proofs.Layout
import Jil.Proofs.Lowered

namespace Jil

/-! ## Registers are defined once -/

namespace Typing

open Pseudo (bind_eq_ok)

/-- The statements of a body that passes define registers that had no type, each once. -/
theorem nodup_of_checkBody {scope : Scope} {ctx last : Context} {l : List Located}
    (h : checkBody scope ctx l = .ok last) :
    (l.filterMap (·.statement.definedRegister?)).Nodup
      ∧ ∀ r ∈ l.filterMap (·.statement.definedRegister?), ctx.registers.get? r = none := by
  induction l generalizing ctx with
  | nil => exact ⟨List.nodup_nil, nofun⟩
  | cons s l ih =>
    rw [checkBody] at h
    split at h
    · next after hstep =>
      obtain ⟨hnodup, hfresh⟩ := ih h
      obtain ⟨e, heffect, happly⟩ := step_eq_none.1 hstep
      have hdefined := (judges_of_effect heffect).defined?
      have hhead : (s :: l).filterMap (·.statement.definedRegister?) =
          e.defined?.toList ++ l.filterMap (·.statement.definedRegister?) := by
        rw [List.filterMap_cons, hdefined]
        cases s.statement.definedRegister? <;> rfl
      have hbefore : ∀ r, after.registers.get? r = none → ctx.registers.get? r = none := by
        intro r hr
        cases hctx : ctx.registers.get? r with
        | none => rfl
        | some t =>
          rw [Context.grows_of_apply happly r t hctx] at hr
          cases hr
      cases e with
      | define r t =>
        have hafter : after.registers.get? r = some t := by
          rw [← (Prod.mk.inj happly).1]
          exact Table.get?_insert_self _ _ _
        rw [hhead]
        refine ⟨List.nodup_cons.2 ⟨fun hmem => ?_, hnodup⟩, fun r' hr' => ?_⟩
        · rw [hfresh r hmem] at hafter
          cases hafter
        · rcases List.mem_cons.1 hr' with rfl | hr'
          · exact Context.fresh_of_apply happly
          · exact hbefore r' (hfresh r' hr')
      | _ =>
        rw [hhead]
        exact ⟨hnodup, fun r hr => hbefore r (hfresh r hr)⟩
    · cases h

end Typing

/-- Each register of a checked function is defined by one statement. -/
theorem Checked.definesOnce {u : ClassUnit} {position : Nat} {f : Function}
    (h : Checked u position f) : f.DefinesOnce := by
  obtain ⟨source, hcheck, -, hf⟩ := h
  obtain ⟨-, -, -, -, hfunctions⟩ := ClassUnit.check_eq_ok hcheck
  obtain ⟨g, ctx, -, hbody, rfl⟩ := hfunctions position f hf
  have hnodup := (Typing.nodup_of_checkBody hbody).1
  rwa [Function.DefinesOnce, Function.definedRegisters, Function.statements,
    List.filterMap_map]

namespace Selection

open Pseudo (bind_eq_ok getElem?_of_mapM_eq_ok)

/-! ## Edges -/

/-- An edge into the label `join` that stands at `place`: a statement that may jump to the
label, or the label itself when control comes to it from the statement in front. -/
inductive EdgeInto (body : List Statement) (place : Nat) (join : Label) : Nat → Prop
  | jump {edge : Nat} {s : Statement} :
      body[edge]? = some s → s.jumpTarget? = some join → EdgeInto body place join edge
  | fall {before : Nat} {s : Statement} :
      place = before + 1 → body[before]? = some s → s.endsPath = false →
      EdgeInto body place join place

/-- The label at `place` is the last one in front of the statement at `index`. -/
structure JoinOf (body : List Statement) (index place : Nat) (join : Label) : Prop where
  before : place < index
  placed : body[place]? = some (.label join)
  last : ∀ k s, place < k → k < index → body[k]? = some s → s.placedLabel? = none

/-- A statement in front of an edge defines a register. -/
def DefinedBefore (body : List Statement) (r : Register) (edge : Nat) : Prop :=
  ∃ i s, i < edge ∧ body[i]? = some s ∧ s.definedRegister? = some r

variable {body : List Statement} {place index edge : Nat} {join : Label}

theorem mem_jumpsTo : edge ∈ jumpsTo body join ↔
    ∃ s, body[edge]? = some s ∧ s.jumpTarget? = some join := by
  simp only [jumpsTo, List.mem_map, List.mem_filter, Prod.exists, List.mem_zipIdx_iff_getElem?,
    decide_eq_true_eq, exists_eq_right]

theorem fallsThrough_iff : fallsThrough body place = true ↔
    ∃ before s, place = before + 1 ∧ body[before]? = some s ∧ s.endsPath = false := by
  cases place with
  | zero => simp [fallsThrough]
  | succ before =>
    simp only [fallsThrough, Option.any_eq_true, Bool.not_eq_eq_eq_not, Bool.not_true]
    constructor
    · rintro ⟨s, hs, hends⟩
      exact ⟨before, s, rfl, hs, hends⟩
    · rintro ⟨before', s, heq, hs, hends⟩
      cases heq
      exact ⟨s, hs, hends⟩

theorem mem_edgesInto : edge ∈ edgesInto body place join ↔ EdgeInto body place join edge := by
  rw [edgesInto, List.mem_append, mem_jumpsTo]
  constructor
  · rintro (⟨s, hs, htarget⟩ | hfall)
    · exact .jump hs htarget
    · split at hfall
      · next hfalls =>
        obtain ⟨before, s, hplace, hs, hends⟩ := fallsThrough_iff.1 hfalls
        rw [List.mem_singleton] at hfall
        subst hfall
        exact .fall hplace hs hends
      · exact absurd hfall List.not_mem_nil
  · rintro (⟨hs, htarget⟩ | ⟨hplace, hs, hends⟩)
    · exact .inl ⟨_, hs, htarget⟩
    · rw [if_pos (fallsThrough_iff.2 ⟨_, _, hplace, hs, hends⟩)]
      exact .inr List.mem_cons_self

/-- A label is no jump, so every edge into it is listed once. -/
theorem nodup_edgesInto (hplaced : body[place]? = some (.label join)) :
    (edgesInto body place join).Nodup := by
  have hjumps : (jumpsTo body join).Nodup := by
    refine List.Nodup.sublist (List.filter_sublist.map Prod.snd) ?_
    rw [List.zipIdx_map_snd]
    exact List.nodup_range'
  have hfall : (if fallsThrough body place then [place] else []).Nodup := by
    split
    · exact List.pairwise_singleton _ place
    · exact List.nodup_nil
  refine List.nodup_append.2 ⟨hjumps, hfall, fun a ha b hb heq => ?_⟩
  obtain rfl : b = place := by
    split at hb
    · exact List.mem_singleton.1 hb
    · exact absurd hb List.not_mem_nil
  obtain ⟨s, hs, htarget⟩ := mem_jumpsTo.1 ha
  rw [heq, hplaced, Option.some.injEq] at hs
  subst hs
  cases htarget

/-- The label that is looked up is the last one in front. -/
theorem joinOf_of_joinBefore? (h : joinBefore? body index = some (place, join)) :
    JoinOf body index place join := by
  obtain ⟨front, hlabels⟩ := List.getLast?_eq_some_iff.1 h
  have hmem : ∀ k l, (k, l) ∈ front ++ [(place, join)] ↔
      k < index ∧ ∃ s, body[k]? = some s ∧ s.placedLabel? = some l := by
    intro k l
    rw [← hlabels]
    simp only [List.mem_filterMap, Prod.exists, List.mem_zipIdx_iff_getElem?,
      Option.map_eq_some_iff, Prod.mk.injEq, List.getElem?_take]
    constructor
    · rintro ⟨s, k', hs, l', hl, rfl, rfl⟩
      split at hs
      · next hlt => exact ⟨hlt, s, hs, hl⟩
      · cases hs
    · rintro ⟨hlt, s, hs, hl⟩
      exact ⟨s, k, by rw [if_pos hlt, hs], l, hl, rfl, rfl⟩
  -- labels are listed in the order of their places
  have hordered : (front ++ [(place, join)]).Pairwise (·.1 < ·.1) := by
    rw [← hlabels, List.pairwise_filterMap]
    have hindices : ((body.take index).zipIdx.map Prod.snd).Pairwise (· < ·) := by
      rw [List.zipIdx_map_snd]
      exact List.pairwise_lt_range'
    refine (List.pairwise_map.1 hindices).imp ?_
    rintro ⟨s, a⟩ ⟨s', b⟩ hlt e he e' he'
    obtain ⟨l, -, rfl⟩ := Option.map_eq_some_iff.1 he
    obtain ⟨l', -, rfl⟩ := Option.map_eq_some_iff.1 he'
    exact hlt
  obtain ⟨hlt, s, hs, hl⟩ := (hmem place join).1 (by simp)
  obtain rfl : s = .label join := by
    cases s <;> cases hl
    rfl
  refine ⟨hlt, hs, fun k s hk hki hs => ?_⟩
  cases hl : s.placedLabel? with
  | none => rfl
  | some l =>
    have hkl := (hmem k l).2 ⟨hki, s, hs, hl⟩
    rcases List.mem_append.1 hkl with hfront | hlast
    · have : k < place := (List.pairwise_append.1 hordered).2.2 _ hfront _ List.mem_cons_self
      omega
    · cases List.mem_singleton.1 hlast
      omega

/-! ## The operand on an edge -/

/-- Each register is defined by one statement. -/
def Once (body : List Statement) : Prop := (body.filterMap Statement.definedRegister?).Nodup

theorem Once.eq_of_defined (h : Once body) {i j : Nat} {s s' : Statement} {r : Register}
    (hi : body[i]? = some s) (hs : s.definedRegister? = some r)
    (hj : body[j]? = some s') (hs' : s'.definedRegister? = some r) : i = j := by
  rw [Once, List.Nodup, List.pairwise_filterMap, List.pairwise_iff_getElem] at h
  obtain ⟨hli, rfl⟩ := List.getElem?_eq_some_iff.1 hi
  obtain ⟨hlj, rfl⟩ := List.getElem?_eq_some_iff.1 hj
  rcases Nat.lt_trichotomy i j with hlt | heq | hlt
  · exact absurd rfl (h i j hli hlj hlt r hs r hs')
  · exact heq
  · exact absurd rfl (h j i hlj hli hlt r hs' r hs)

theorem definedAt?_eq_some (hbody : Once body) {r : Register} {i : Nat} :
    definedAt? body r = some i ↔ ∃ s, body[i]? = some s ∧ s.definedRegister? = some r := by
  have hdefines : ∀ j, definedAt? body r = some j →
      ∃ s, body[j]? = some s ∧ s.definedRegister? = some r := by
    intro j hj
    obtain ⟨⟨s, j'⟩, hlast, rfl⟩ := Option.map_eq_some_iff.1 hj
    have hmem := List.mem_of_getLast? hlast
    rw [List.mem_filter, List.mem_zipIdx_iff_getElem?] at hmem
    exact ⟨s, hmem.1, by simpa using hmem.2⟩
  refine ⟨hdefines i, fun ⟨s, hs, hr⟩ => ?_⟩
  cases hlast : definedAt? body r with
  | some j =>
    obtain ⟨s', hs', hr'⟩ := hdefines j hlast
    rw [hbody.eq_of_defined hs' hr' hs hr]
  | none =>
    rw [definedAt?, Option.map_eq_none_iff, List.getLast?_eq_none_iff,
      List.filter_eq_nil_iff] at hlast
    exact absurd (by simpa using hr) (hlast (s, i) (List.mem_zipIdx_iff_getElem?.2 hs))

/-- The definition that counts on an edge stands in front of it. -/
theorem filter_definedAt? (hbody : Once body) {r : Register} :
    (∃ i, (definedAt? body r).filter (· < edge) = some i) ↔ DefinedBefore body r edge := by
  simp only [Option.filter_eq_some_iff, decide_eq_true_eq, definedAt?_eq_some hbody]
  constructor
  · rintro ⟨i, ⟨s, hs, hr⟩, hlt⟩
    exact ⟨i, s, hlt, hs, hr⟩
  · rintro ⟨i, s, hlt, hs, hr⟩
    exact ⟨i, ⟨s, hs, hr⟩, hlt⟩

variable {first second result : Register}

/-- The operand on a side. -/
def Side.operand (first second : Register) (side : Side) : Register :=
  if side = .first then first else second

theorem operand_eq (side : Side) :
    side.operand first second = first ∨ side.operand first second = second := by
  unfold Side.operand
  split
  · exact .inl rfl
  · exact .inr rfl

/-- Of the operands of a merge, `r` is the one that was defined last in front of an edge. -/
def DefinedLast (body : List Statement) (first second : Register) (edge : Nat) (r : Register) :
    Prop :=
  ∃ i s, i < edge ∧ body[i]? = some s ∧ s.definedRegister? = some r
    ∧ ∀ k s, i < k → k < edge → body[k]? = some s →
      s.definedRegister? ≠ some first ∧ s.definedRegister? ≠ some second

/-- The definition of `r` is the last one when those of both operands do not come between. -/
theorem definedLast_of (hbody : Once body) {r : Register} {i : Nat}
    (hr : (definedAt? body r).filter (· < edge) = some i)
    (hfirst : ∀ k, (definedAt? body first).filter (· < edge) = some k → k ≤ i)
    (hsecond : ∀ k, (definedAt? body second).filter (· < edge) = some k → k ≤ i) :
    DefinedLast body first second edge r := by
  simp only [Option.filter_eq_some_iff, decide_eq_true_eq, definedAt?_eq_some hbody] at *
  obtain ⟨⟨s, hs, hdefined⟩, hlt⟩ := hr
  refine ⟨i, s, hlt, hs, hdefined, fun k s hik hk hs =>
    ⟨fun hdefined => ?_, fun hdefined => ?_⟩⟩
  · have := hfirst k ⟨⟨s, hs, hdefined⟩, hk⟩
    omega
  · have := hsecond k ⟨⟨s, hs, hdefined⟩, hk⟩
    omega

/-- The operand that comes along an edge was defined last in front of it. -/
theorem definedLast_of_incoming? (hbody : Once body) {side : Side}
    (h : incoming? (definedAt? body first) (definedAt? body second) edge = some side) :
    DefinedLast body first second edge (side.operand first second) := by
  unfold incoming? at h
  split at h
  · next a b ha hb =>
    split at h <;> cases h
    · refine definedLast_of hbody ha (fun k hk => ?_) fun k hk => ?_
      · exact Nat.le_of_eq (Option.some.inj (hk.symm.trans ha))
      · have := Option.some.inj (hk.symm.trans hb)
        omega
    · refine definedLast_of hbody hb (fun k hk => ?_) fun k hk => ?_
      · have := Option.some.inj (hk.symm.trans ha)
        omega
      · exact Nat.le_of_eq (Option.some.inj (hk.symm.trans hb))
  · next a ha hb =>
    cases h
    refine definedLast_of hbody ha (fun k hk => ?_) fun k hk => ?_
    · exact Nat.le_of_eq (Option.some.inj (hk.symm.trans ha))
    · cases hk.symm.trans hb
  · next b ha hb =>
    cases h
    refine definedLast_of hbody hb (fun k hk => ?_) fun k hk => ?_
    · cases hk.symm.trans ha
    · exact Nat.le_of_eq (Option.some.inj (hk.symm.trans hb))
  · cases h

/-- No operand comes along an edge when none is defined in front of it. -/
theorem incoming?_eq_none (hbody : Once body) :
    incoming? (definedAt? body first) (definedAt? body second) edge = none ↔
      ¬ (DefinedBefore body first edge ∨ DefinedBefore body second edge) := by
  rw [← filter_definedAt? hbody, ← filter_definedAt? hbody]
  unfold incoming?
  split <;> simp_all

/-! ## Copies -/

/-- In a list without duplicates one member is mapped to the entries with its key. -/
theorem filter_keyed_of_nodup {β : Type} (g : Nat → Option β) {l : List Nat} (hl : l.Nodup)
    {e : Nat} (he : e ∈ l) :
    (l.filterMap fun x => (g x).map (x, ·)).filter (·.1 = e) = ((g e).map (e, ·)).toList := by
  have hother : ∀ l : List Nat, e ∉ l →
      (l.filterMap fun x => (g x).map (x, ·)).filter (·.1 = e) = [] := by
    intro l hnot
    rw [List.filter_eq_nil_iff]
    rintro ⟨x, y⟩ hmem
    obtain ⟨x', hx', hy⟩ := List.mem_filterMap.1 hmem
    obtain ⟨y', -, heq⟩ := Option.map_eq_some_iff.1 hy
    cases heq
    simp only [decide_eq_true_eq]
    exact fun heq => hnot (heq ▸ hx')
  obtain ⟨front, back, rfl⟩ := List.append_of_mem he
  have hparts := List.nodup_append.1 hl
  have hfront : e ∉ front := fun hmem => hparts.2.2 e hmem e List.mem_cons_self rfl
  have hback : e ∉ back := (List.nodup_cons.1 hparts.2.1).1
  rw [List.filterMap_append, List.filter_append, hother front hfront, List.nil_append,
    List.filterMap_cons]
  cases hg : g e with
  | none => simpa [hg] using hother back hback
  | some y => simp [hother back hback]

/-- The copies into a register on one edge. -/
def copiesInto (copies : List MergeCopy) (edge : Nat) (result : Register) : List MergeCopy :=
  copies.filter fun c => c.edge = edge ∧ c.dest = result

/-- The copies of one merge: a copy for each edge along which an operand comes. -/
theorem copiesOf_spec {origin : Origin} {copies : List MergeCopy}
    (h : copiesOf body index first second result origin = .ok copies) :
    ∃ place join, JoinOf body index place join
      ∧ (∀ c ∈ copies, EdgeInto body place join c.edge)
      ∧ ∀ edge, EdgeInto body place join edge → copiesInto copies edge result =
          ((incoming? (definedAt? body first) (definedAt? body second) edge).map fun side =>
            ⟨edge, side.operand first second, result⟩).toList := by
  unfold copiesOf at h
  split at h
  · cases h
  · next place join hjoin =>
    have hjoin := joinOf_of_joinBefore? hjoin
    simp only at h
    split at h
    · cases h
    · split at h
      · cases h
      · cases h
        refine ⟨place, join, hjoin, fun c hc => ?_, fun edge hedge => ?_⟩
        · obtain ⟨⟨edge, side⟩, hmem, rfl⟩ := List.mem_map.1 hc
          obtain ⟨edge', hedge, hside⟩ := List.mem_filterMap.1 hmem
          obtain ⟨side', -, heq⟩ := Option.map_eq_some_iff.1 hside
          cases heq
          exact mem_edgesInto.1 hedge
        · have hfilter := filter_keyed_of_nodup
            (incoming? (definedAt? body first) (definedAt? body second))
            (nodup_edgesInto hjoin.placed) (mem_edgesInto.2 hedge)
          have htest : ((fun c : MergeCopy => decide (c.edge = edge ∧ c.dest = result)) ∘
              fun e : Nat × Side => ⟨e.1, if e.2 = .first then first else second, result⟩) =
              fun e => decide (e.1 = edge) := by
            funext e
            simp
          rw [copiesInto, List.filter_map, htest, arrivals, hfilter]
          cases incoming? (definedAt? body first) (definedAt? body second) edge <;> rfl

/-- A plan is made up of the plans of the merges, statement by statement. -/
theorem exists_plans {f : Function} {copies : List MergeCopy}
    (h : mergeCopies f = .ok copies) :
    ∃ lists : List (List MergeCopy), copies = lists.flatten
      ∧ (∀ n list c, lists[n]? = some list → c ∈ list → ∃ first second origin,
        f.statements[n]? = some (.choose first second c.dest)
          ∧ copiesOf f.statements n first second c.dest origin = .ok list)
      ∧ ∀ (n : Nat) first second result, f.statements[n]?
        = some (.choose first second result) →
        ∃ list origin, lists[n]? = some list
          ∧ copiesOf f.statements n first second result origin = .ok list := by
  unfold mergeCopies at h
  obtain ⟨lists, hlists, h⟩ := bind_eq_ok.1 h
  cases h
  obtain ⟨hlength, hget⟩ := getElem?_of_mapM_eq_ok hlists
  have hbody : ∀ n, f.statements[n]? = (f.body[n]?).map Located.statement := fun n => by
    rw [Function.statements, List.getElem?_map]
  refine ⟨lists, rfl, fun n list c hlist hc => ?_, fun n first second result hs => ?_⟩
  · have hlt : n < f.body.length := by
      have := (List.getElem?_eq_some_iff.1 hlist).1
      rwa [hlength, List.length_zipIdx] at this
    obtain ⟨list', hlist', hcopies⟩ := hget n (f.body[n], n) (by simp [hlt])
    rw [hlist, Option.some.injEq] at hlist'
    subst hlist'
    simp only at hcopies
    split at hcopies
    · next first second result hchoose =>
      rw [(mem_copiesOf hcopies hc).2]
      refine ⟨first, second, _, ?_, hcopies⟩
      rw [hbody, List.getElem?_eq_getElem hlt, Option.map_some, hchoose]
    · cases hcopies
      exact absurd hc List.not_mem_nil
  · obtain ⟨s, hlocated, hstatement⟩ := Option.map_eq_some_iff.1 ((hbody n).symm.trans hs)
    obtain ⟨list, hlist, hcopies⟩ := hget n (s, n) (by simp [hlocated])
    simp only [hstatement] at hcopies
    exact ⟨list, s.origin, hlist, hcopies⟩

/-- Every copy belongs to a merge. -/
theorem exists_choose_of_mem {f : Function} {copies : List MergeCopy}
    (h : mergeCopies f = .ok copies) {c : MergeCopy} (hc : c ∈ copies) :
    ∃ (n : Nat) (first second : Register), f.statements[n]?
      = some (.choose first second c.dest)
      ∧ (c.src = first ∨ c.src = second) := by
  obtain ⟨lists, rfl, hmerge, -⟩ := exists_plans h
  obtain ⟨list, hlist, hc⟩ := List.mem_flatten.1 hc
  obtain ⟨n, hn⟩ := List.getElem?_of_mem hlist
  obtain ⟨first, second, origin, hs, hcopies⟩ := hmerge n list c hn hc
  exact ⟨n, first, second, hs, (mem_copiesOf hcopies hc).1⟩

/-- The copies into the result of a merge are planned by this merge. -/
theorem exists_copiesOf {f : Function} {copies : List MergeCopy} (hf : Once f.statements)
    (h : mergeCopies f = .ok copies)
    (hs : f.statements[index]? = some (.choose first second result)) :
    ∃ origin own, copiesOf f.statements index first second result origin = .ok own
      ∧ (∀ c ∈ copies, c.dest = result → c ∈ own)
      ∧ ∀ edge, copiesInto copies edge result = copiesInto own edge result := by
  obtain ⟨lists, rfl, hmerge, hplan⟩ := exists_plans h
  obtain ⟨own, origin, hown, hcopies⟩ := hplan index first second result hs
  have honly : ∀ n list c, lists[n]? = some list → c ∈ list → c.dest = result → n = index := by
    intro n list c hlist hc hdest
    obtain ⟨first', second', origin', hs', -⟩ := hmerge n list c hlist hc
    exact hf.eq_of_defined hs' (congrArg some hdest) hs rfl
  refine ⟨origin, own, hcopies, fun c hc hdest => ?_, fun edge => ?_⟩
  · obtain ⟨list, hlist, hc⟩ := List.mem_flatten.1 hc
    obtain ⟨n, hn⟩ := List.getElem?_of_mem hlist
    rw [honly n list c hn hc hdest, hown, Option.some.injEq] at hn
    exact hn ▸ hc
  · obtain ⟨hlt, hown⟩ := List.getElem?_eq_some_iff.1 hown
    have hothers : ∀ part : List (List MergeCopy), (∀ list ∈ part, ∃ n, n ≠ index ∧
        lists[n]? = some list) → copiesInto part.flatten edge result = [] := by
      intro part hpart
      rw [copiesInto, List.filter_eq_nil_iff]
      intro c hc
      obtain ⟨list, hlist, hc⟩ := List.mem_flatten.1 hc
      obtain ⟨n, hne, hn⟩ := hpart list hlist
      simp only [decide_eq_true_eq]
      exact fun h => hne (honly n list c hn hc h.2)
    have hsplit : lists = lists.take index ++ own :: lists.drop (index + 1) := by
      rw [← hown, List.getElem_cons_drop, List.take_append_drop]
    have hfront := hothers (lists.take index) fun list hlist => by
      obtain ⟨n, hn, rfl⟩ := List.mem_take_iff_getElem.1 hlist
      exact ⟨n, by omega, List.getElem?_eq_getElem (by omega)⟩
    have hback := hothers (lists.drop (index + 1)) fun list hlist => by
      obtain ⟨n, hn, rfl⟩ := List.mem_drop_iff_getElem.1 hlist
      exact ⟨index + 1 + n, by omega, List.getElem?_eq_getElem (by omega)⟩
    rw [copiesInto] at hfront hback ⊢
    rw [hsplit, List.flatten_append, List.flatten_cons, List.filter_append, List.filter_append,
      hfront, hback, List.nil_append, List.append_nil, copiesInto]

/-- An operand of a merge goes along an edge: the one copy into the result on this edge reads
the operand that was defined last in front of the edge. -/
def Carries (body : List Statement) (copies : List MergeCopy) (edge : Nat)
    (first second result : Register) : Prop :=
  ∃ src, (src = first ∨ src = second) ∧ DefinedLast body first second edge src
    ∧ copiesInto copies edge result = [⟨edge, src, result⟩]

/-- In a plan that succeeds, copies into the result of a merge are on edges into its
label only. An edge behind the definition of an operand carries an operand, and any
other edge has no copy. -/
theorem copies_into_merge {u : ClassUnit} {position : Nat} {f : Function}
    {copies : List MergeCopy} (hf : Checked u position f) (hplan : mergeCopies f = .ok copies)
    (hs : f.statements[index]? = some (.choose first second result)) :
    ∃ place join, JoinOf f.statements index place join
      ∧ (∀ c ∈ copies, c.dest = result → EdgeInto f.statements place join c.edge)
      ∧ ∀ edge, EdgeInto f.statements place join edge →
          (DefinedBefore f.statements first edge ∨ DefinedBefore f.statements second edge →
            Carries f.statements copies edge first second result)
          ∧ (¬ (DefinedBefore f.statements first edge
            ∨ DefinedBefore f.statements second edge) →
            copiesInto copies edge result = []) := by
  have hbody : Once f.statements := hf.definesOnce
  obtain ⟨origin, own, hown, hmem, heq⟩ := exists_copiesOf hbody hplan hs
  obtain ⟨place, join, hjoin, hedges, hspec⟩ := copiesOf_spec hown
  refine ⟨place, join, hjoin, fun c hc hdest => hedges c (hmem c hc hdest),
    fun edge hedge => ?_⟩
  rw [Carries, heq edge, hspec edge hedge]
  cases hin :
    incoming? (definedAt? f.statements first) (definedAt? f.statements second) edge with
  | none =>
    have hnone := (incoming?_eq_none hbody).1 hin
    exact ⟨fun h => absurd h hnone, fun _ => rfl⟩
  | some side =>
    refine ⟨fun _ => ⟨side.operand first second, operand_eq side,
      definedLast_of_incoming? hbody hin, rfl⟩, fun hnone => ?_⟩
    rw [(incoming?_eq_none hbody).2 hnone] at hin
    cases hin

/-! ## A merge with all its edges, and one without -/

/-- A function that chooses between two numbers: the first comes by a jump, the
second falls through. -/
def pick : Function :=
  ((do
      let c ← .getParam "c"
      let other ← .label
      let join ← .label
      .branch c false other
      let one ← .literal .int "1"
      .jump join
      .placeLabel other
      let two ← .literal .int "2"
      .placeLabel join
      .returnValue (← .choose one two) : Function.Build Unit).run
    { name := "pick", kind := .static, params := [⟨.boolean, "c"⟩], returns := .int }).2

/-- A function whose first branch comes to the merge in front of both operands. -/
def unfed : Function :=
  ((do
      let c ← .getParam "c"
      let join ← .label
      .branch c true join
      let one ← .literal .int "1"
      .branch c true join
      let two ← .literal .int "2"
      .placeLabel join
      .returnValue (← .choose one two) : Function.Build Unit).run
    { name := "unfed", kind := .static, params := [⟨.boolean, "c"⟩], returns := .int }).2

/-- The types that the check finds for the registers of either function. -/
def choiceTypes : Table Register Ty :=
  ⟨[(⟨0⟩, .boolean), (⟨1⟩, .int), (⟨2⟩, .int), (⟨3⟩, .int)]⟩

/-- The class of one function, after its check. -/
def unitOf (f : Function) : ClassUnit :=
  ((ClassUnit.create "pkg/Choice").addFunction f).check.1

theorem checked_pick :
    Checked (unitOf pick) 0 { pick with registerTypes := some choiceTypes } :=
  checked_of_single (n := "pkg/Choice") (f := pick) (by unfold Function.Drawn; decide) rfl rfl

theorem checked_unfed :
    Checked (unitOf unfed) 0 { unfed with registerTypes := some choiceTypes } :=
  checked_of_single (n := "pkg/Choice") (f := unfed) (by unfold Function.Drawn; decide) rfl rfl

/-- Both edges of `pick` carry an operand. -/
theorem copies_into_pick :
    mergeCopies pick = .ok [⟨3, ⟨1⟩, ⟨3⟩⟩, ⟨6, ⟨2⟩, ⟨3⟩⟩]
    ∧ ∃ place join, JoinOf pick.statements 7 place join
      ∧ ∀ edge, EdgeInto pick.statements place join edge →
          DefinedBefore pick.statements ⟨1⟩ edge ∨ DefinedBefore pick.statements ⟨2⟩ edge →
          Carries pick.statements [⟨3, ⟨1⟩, ⟨3⟩⟩, ⟨6, ⟨2⟩, ⟨3⟩⟩] edge ⟨1⟩ ⟨2⟩ ⟨3⟩ := by
  have hplan : mergeCopies pick = .ok [⟨3, ⟨1⟩, ⟨3⟩⟩, ⟨6, ⟨2⟩, ⟨3⟩⟩] := rfl
  obtain ⟨place, join, hjoin, -, hedges⟩ := copies_into_merge checked_pick hplan
    (show pick.statements[7]? = some (.choose ⟨1⟩ ⟨2⟩ ⟨3⟩) from rfl)
  exact ⟨hplan, place, join, hjoin, fun edge hedge => (hedges edge hedge).1⟩

/-- Planning accepts `unfed`, and its first branch carries nothing to the merge. -/
theorem unfed_edge_has_no_copy :
    Checked (unitOf unfed) 0 { unfed with registerTypes := some choiceTypes }
    ∧ ∃ copies, mergeCopies { unfed with registerTypes := some choiceTypes } = .ok copies
      ∧ unfed.statements[6]? = some (.choose ⟨1⟩ ⟨2⟩ ⟨3⟩)
      ∧ JoinOf unfed.statements 6 5 ⟨0⟩ ∧ EdgeInto unfed.statements 5 ⟨0⟩ 1
      ∧ copiesInto copies 1 ⟨3⟩ = [] := by
  refine ⟨checked_unfed, [⟨3, ⟨1⟩, ⟨3⟩⟩, ⟨5, ⟨2⟩, ⟨3⟩⟩], rfl, rfl, joinOf_of_joinBefore? rfl,
    .jump rfl rfl, rfl⟩

end Selection

end Jil
