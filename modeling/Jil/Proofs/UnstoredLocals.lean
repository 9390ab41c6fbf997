/-
Jil.Proofs.UnstoredLocals — what makes allocation fail.

An allocator refuses a stream that reads a number which nothing in it writes, or
that jumps to a label which nothing in it places (`Liveness.error_of_ofCode`). In
the stream of a checked function every label is placed. A register that code reads
is one that a statement defines, and the code of that statement writes it; where
the statement is a merge, the copies on the edges into its label do. What is drawn
for a statement is written by its code, and the environment, the receiver and the
parameters are written where the function begins.

A local variable has a number from the opening of its scope on, and nothing makes
a function store it before it is read. `allocation_fails_on_unstored_locals` says
that this is all that can go wrong.
-/
import Jil.Proofs.Failing
import Jil.Proofs.Interference
import Jil.Proofs.StatementAccounts

namespace Jil

open Pseudo (Instr Reg Writes bind_eq_ok ite_eq_ok placedLabels placedLabels_append)

/-! ## Streams that are refused -/

namespace Pseudo

namespace Interval

/-- The interval of a number records that it is written. -/
def Marked (intervals : List Interval) (id : Nat) : Prop :=
  ∃ i ∈ intervals, i.pseudo.id = id ∧ i.written = true

theorem Marked.touch {intervals : List Interval} {id : Nat} (h : Marked intervals id)
    (hordered : Ordered intervals) (p : Reg) (index : Nat) (writes : Bool) :
    Marked (touch p index writes intervals) id := by
  obtain ⟨i, hi, hid, hwritten⟩ := h
  by_cases hp : i.pseudo.id = p.id
  · refine ⟨i.prolong index writes, (mem_touch hordered).2 (.inr (.inl ⟨i, hi, hp, rfl⟩)), hid,
      ?_⟩
    simp [prolong, hwritten]
  · exact ⟨i, (mem_touch hordered).2 (.inl ⟨hi, hp⟩), hid, hwritten⟩

theorem marked_touch {intervals : List Interval} (hordered : Ordered intervals) (p : Reg)
    (index : Nat) : Marked (touch p index true intervals) p.id := by
  by_cases hold : ∃ i ∈ intervals, i.pseudo.id = p.id
  · obtain ⟨i, hi, hp⟩ := hold
    exact ⟨i.prolong index true, (mem_touch hordered).2 (.inr (.inl ⟨i, hi, hp, rfl⟩)), hp,
      by simp [prolong]⟩
  · refine ⟨⟨p, index, index, true⟩, (mem_touch hordered).2 (.inr (.inr ⟨?_, rfl⟩)), rfl, rfl⟩
    exact fun i hi hp => hold ⟨i, hi, hp⟩

/-- What was marked stays marked, and what an effect defines is marked. -/
theorem marked_foldl {effects : List (Nat × Effect)} {intervals : List Interval} {id : Nat}
    (hordered : Ordered intervals)
    (h : Marked intervals id ∨ ∃ k p, (k, .defines p) ∈ effects ∧ p.id = id) :
    Marked (effects.foldl (fun acc e => record e.1 acc e.2) intervals) id := by
  induction effects generalizing intervals with
  | nil => exact h.resolve_right (by rintro ⟨k, p, hp, -⟩; cases hp)
  | cons e effects ih =>
    obtain ⟨index, e⟩ := e
    rw [List.foldl_cons]
    cases hp : e.pseudo? with
    | none =>
      refine ih ?_ ?_ <;> rw [record_of_pseudo?_eq_none hp]
      · exact hordered
      · refine h.imp_right fun ⟨k, q, hq, hid⟩ =>
          ⟨k, q, (List.mem_cons.1 hq).resolve_left ?_, hid⟩
        rintro ⟨⟩
        cases hp
    | some p =>
      obtain ⟨writes, hrecord⟩ := record_of_pseudo?_eq_some hp index intervals
      refine ih ?_ ?_
      · rw [hrecord]
        exact ordered_touch hordered p index writes
      · rcases h with h | ⟨k, q, hq, hid⟩
        · rw [hrecord]
          exact .inl (h.touch hordered p index writes)
        · rcases List.mem_cons.1 hq with heq | hq
          · cases heq
            exact .inl (hid ▸ marked_touch hordered q index)
          · exact .inr ⟨k, q, hq, hid⟩

end Interval

/-- What an allocator refuses reads a number that nothing writes, or jumps to a
label that nothing places. -/
theorem Liveness.error_of_ofCode {code : List Instr} {e : AllocationFailure}
    (h : Liveness.ofCode code = .error e) :
    (∃ p, e = .neverDefined p ∧ (∃ i ∈ code, ∃ q ∈ i.used, q.id = p.id) ∧ ¬ Writes code p.id)
      ∨ ∃ name, e = .unknownLabel name ∧ (∃ i ∈ code, name ∈ i.jumpTarget?)
        ∧ name ∉ placedLabels code := by
  unfold Liveness.ofCode at h
  simp only at h
  split at h
  · next interval hfind =>
    cases h
    have hmem := List.mem_of_find?_eq_some hfind
    have hwritten : interval.written = false := by simpa using List.find?_some hfind
    have hsummary := Interval.summarises_scan code
    have hnot : ¬ Writes code interval.pseudo.id := by
      rintro ⟨i, hi, p, hp, hid⟩
      obtain ⟨n, hn⟩ := List.getElem?_of_mem hi
      have hmarked : Interval.Marked (Interval.scan 0 [] code) interval.pseudo.id := by
        rw [Interval.scan_eq_foldl]
        exact Interval.marked_foldl .nil
          (.inr ⟨0 + n, p, mem_effectsFrom.2 ⟨n, i, hn, hp, rfl⟩, hid⟩)
      obtain ⟨j, hj, hid, hmarked⟩ := hmarked
      rw [hsummary.ordered.eq_of_id hj hmem hid, hwritten] at hmarked
      cases hmarked
    refine .inl ⟨interval.pseudo, rfl, ?_, hnot⟩
    obtain ⟨e, he, hpseudo⟩ := hsummary.begins interval hmem
    obtain ⟨n, i, hi, he, -⟩ := mem_effectsFrom.1 he
    have hi := List.mem_of_getElem? hi
    have htouches : i.Touches interval.pseudo.id := ⟨e, he, interval.pseudo, hpseudo, rfl⟩
    rcases htouches.uses_or_defines with huses | hdefines
    · obtain ⟨q, hq, hid⟩ := List.mem_map.1 (Instr.uses_iff.1 huses)
      exact ⟨i, hi, q, hq, hid⟩
    · exact absurd ⟨i, hi, hdefines⟩ hnot
  · cases hjumps : jumps code with
    | ok edges =>
      rw [backEdges, hjumps] at h
      cases h
    | error e' =>
      rw [backEdges, hjumps] at h
      cases h
      obtain ⟨⟨name, index⟩, hmem, he⟩ := exists_of_mapM_eq_error hjumps
      obtain ⟨⟨i, n⟩, hi, hname⟩ := List.mem_filterMap.1 hmem
      obtain ⟨target, hjump, heq⟩ := Option.map_eq_some_iff.1 hname
      cases heq
      simp only at he
      split at he
      · cases he
      · next hnone =>
        cases he
        refine .inr ⟨name, rfl, ⟨i, ?_, hjump⟩, fun hplaced => ?_⟩
        · exact List.mem_of_getElem? (List.mem_zipIdx_iff_getElem?.1 hi)
        · obtain ⟨target, htarget⟩ := exists_labelIndex? hplaced
          rw [htarget] at hnone
          cases hnone

end Pseudo

/-! ## Local variables that are never stored -/

/-- Of the statements behind the opening of a scope those that lie in it: all in front of the
next marker of the name. -/
def localScope (name : String) (rest : List Located) : List Located :=
  rest.takeWhile fun s => s.statement.scopeMarker? ≠ some name

/-- The local variable whose scope opens behind `front` is read in its scope, and
stored nowhere in it. -/
def Function.Unstored (f : Function) (front : List Located) (name : String) : Prop :=
  ∃ opening rest type, f.body = front ++ opening :: rest
    ∧ opening.statement = .startScope name type
    ∧ (∃ s ∈ localScope name rest, ∃ result, s.statement = .getLocal name result)
    ∧ ∀ s ∈ localScope name rest, ∀ src, s.statement ≠ .putLocal name src

theorem exists_of_mem_localScope {name : String} {rest : List Located} {s : Located}
    (h : s ∈ localScope name rest) :
    ∃ front back, rest = front ++ s :: back
      ∧ ∀ s ∈ front, s.statement.scopeMarker? ≠ some name := by
  induction rest with
  | nil => cases h
  | cons d rest ih =>
    unfold localScope at h
    by_cases hd : d.statement.scopeMarker? = some name
    · rw [List.takeWhile_cons_of_neg (by simpa using hd)] at h
      cases h
    · rw [List.takeWhile_cons_of_pos (by simpa using hd)] at h
      rcases List.mem_cons.1 h with rfl | h
      · exact ⟨[], rest, rfl, List.forall_mem_nil _⟩
      · obtain ⟨front, back, rfl, hfront⟩ := ih h
        exact ⟨d :: front, back, rfl, List.forall_mem_cons.2 ⟨hd, hfront⟩⟩

namespace Selection

variable {scope : Scope}

/-! ## Checked functions -/

/-- The number that a local variable has which is read and never stored. -/
def UnstoredNumber (f : Function) (scope : Scope) (start : State) (id : Nat) : Prop :=
  ∃ front name part before, f.Unstored front name
    ∧ Yields scope (bodyCode 0 front) start part before ∧ id = before.drawn + 1

section

variable {u : ClassUnit} {abi : Machine.Abi} {position : Nat} {f : Function} {entry : Entry}

/-- A call whose result is wanted was accepted for a method that returns a value. -/
theorem fruitful_of_checked (hf : Checked u position f) {types : Table Register Ty}
    (hrecorded : f.registerTypes = some types) {s : Located} (hs : s ∈ f.body) :
    s.statement.Fruitful u types s.origin := by
  obtain ⟨tscope, functions, ctx, e, hunit, -, heffect, hknown, -⟩ :=
    hf.exists_effect hrecorded hs
  -- the method that the check has found is the one that is called
  have hreturns : ∀ {owner method : String} {args : List Register} {argTypes found : List Ty}
      {target reached : ResolvedMethod}, args.mapM types.get? = some argTypes →
      u.resolveMethod owner method argTypes s.origin = .ok target →
      args.mapM ctx.registers.get? = some found →
      tscope.unit.resolveMethod owner method found s.origin = .ok reached →
      reached = target := by
    intro owner method args argTypes found target reached hargs htarget hfound hreached
    obtain rfl : argTypes = found :=
      Option.some.inj (hargs.symm.trans (Typing.mapM_get?_of_known hknown hfound))
    rw [← hunit, ClassUnit.resolveMethod_functions, htarget] at hreached
    exact (Except.ok.inj hreached).symm
  generalize s.statement = statement at heffect ⊢
  cases Typing.judges_of_effect heffect with
  | @callActual _ _ _ _ result _ _ _ hfound hmethod hresult =>
    cases result with
    | none => trivial
    | some r =>
      intro argTypes target hargs htarget
      exact hreturns hargs htarget hfound hmethod ▸ hresult r rfl
  | @callVirtual _ _ _ _ result _ _ hobject hfound hmethod hresult =>
    cases result with
    | none => trivial
    | some r =>
      intro owner argTypes target hclass hargs htarget
      obtain rfl := Ty.classRef.inj (Option.some.inj (hclass.symm.trans (hknown _ _ hobject)))
      exact hreturns hargs htarget hfound hmethod ▸ hresult r rfl
  | _ => trivial

/-- The code of every statement of a checked function is accounted for. -/
theorem accountsAll_of_checked (hf : Checked u position f)
    (hscope : scopeOf u abi position f = .ok (scope, entry)) : AccountsAll scope 0 f.body := by
  obtain ⟨types, htyped⟩ := hf.typed
  obtain ⟨copies, -, rfl, -⟩ := scopeOf_eq_ok htyped.recorded hscope
  intro pre s post hbody before part mid hpart
  have hs : s ∈ f.body := hbody ▸ List.mem_append_right _ List.mem_cons_self
  have hstatements : f.statements = pre.map Located.statement
      ++ s.statement :: post.map Located.statement := by
    rw [Function.statements, hbody, List.map_append, List.map_cons]
  refine accounts_statementCode (fruitful_of_checked hf htyped.recorded hs)
    (fun name hname => .inl ?_) (fun l hl => .inl ?_) hpart
  · rw [← List.length_map Located.statement] at hname
    rw [show (Scope.function _).statements = _ from hstatements]
    exact mem_bodyLabels_of_mem hname
  · exact label_mem_bodyLabels (hf.label_mem_of_target (List.mem_map_of_mem hs) hl)

/-- The registers of which the check has recorded a type are defined. -/
theorem defined_of_checked (hf : Checked u position f) {types : Table Register Ty}
    (hrecorded : f.registerTypes = some types) {r : Register} {t : Ty}
    (hr : types.get? r = some t) : r ∈ f.definedRegisters := by
  obtain ⟨source, hcheck, -, hf⟩ := hf
  obtain ⟨-, -, -, -, hfunctions⟩ := ClassUnit.check_eq_ok hcheck
  obtain ⟨g, ctx, -, hbody, rfl⟩ := hfunctions position f hf
  cases hrecorded
  exact Function.mem_definedRegisters.2
    ((Typing.defined_of_checkBody hbody hr).resolve_left nofun)

/-- A merge that is planned has copies. -/
theorem exists_copy_into {copies : List MergeCopy} (hplan : mergeCopies f = .ok copies)
    {n : Nat} {first second result : Register}
    (hs : f.statements[n]? = some (.choose first second result)) :
    ∃ c ∈ copies, c.dest = result := by
  obtain ⟨lists, rfl, -, hplans⟩ := exists_plans hplan
  obtain ⟨list, origin, hlist, hcopies⟩ := hplans n first second result hs
  have hne : list ≠ [] := by
    unfold copiesOf at hcopies
    split at hcopies
    · cases hcopies
    · next place join hjoin =>
      simp only at hcopies
      split at hcopies
      · cases hcopies
      · next hfirst =>
        split at hcopies
        · cases hcopies
        · cases hcopies
          intro hnil
          rw [List.map_eq_nil_iff] at hnil
          simp [hnil] at hfirst
  obtain ⟨c, hc⟩ := List.exists_mem_of_ne_nil list hne
  exact ⟨c, List.mem_flatten.2 ⟨list, List.mem_of_getElem? hlist, hc⟩,
    (mem_copiesOf hcopies hc).2⟩

/-- Copies stand where a statement names a label. -/
theorem exists_mention_of_mem (hf : Checked u position f) {copies : List MergeCopy}
    (hplan : mergeCopies f = .ok copies) {c : MergeCopy} (hc : c ∈ copies) :
    ∃ pre s post l, f.body = pre ++ s :: post ∧ pre.length = c.edge
      ∧ s.statement.mentionedLabel? = some l := by
  obtain ⟨place, join, hjoin, hedge⟩ := edgeInto_of_mem hf hplan hc
  obtain ⟨statement, hstatement⟩ : ∃ statement, f.statements[c.edge]? = some statement := by
    cases hedge with
    | jump hs _ => exact ⟨_, hs⟩
    | fall _ _ _ => exact ⟨_, hjoin⟩
  obtain ⟨l, hl⟩ := mentions_of_edgeInto hjoin hedge hstatement
  rw [Function.statements, List.getElem?_map] at hstatement
  obtain ⟨s, hs, rfl⟩ := Option.map_eq_some_iff.1 hstatement
  obtain ⟨hlt, rfl⟩ := List.getElem?_eq_some_iff.1 hs
  refine ⟨f.body.take c.edge, _, f.body.drop (c.edge + 1), l, ?_,
    List.length_take_of_le (by omega), hl⟩
  rw [List.getElem_cons_drop, List.take_append_drop]

section Stream

variable {start last : State} {body : List Instr}
  (hf : Checked u position f) (hscope : scopeOf u abi position f = .ok (scope, entry))
  (hyields : Yields scope (bodyCode 0 f.body) start body last)

include hf hscope hyields

/-- The code of a statement in the code of its function. -/
theorem exists_accounts {pre post : List Located} {s : Located}
    (hbody : f.body = pre ++ s :: post) :
    ∃ front before part mid, Yields scope (bodyCode 0 pre) start front before
      ∧ Yields scope (statementCode pre.length s.statement s.origin) before part mid
      ∧ Accounts scope pre.length s.statement before part mid
      ∧ ∀ id, Writes part id → Writes body id := by
  rw [hbody] at hyields
  obtain ⟨front, before, part, mid, back, hfront, hpart, -, rfl⟩ := parts_of_bodyCode hyields
  rw [Nat.zero_add] at hpart
  have haccounts := accountsAll_of_checked hf hscope pre s post hbody before part mid
  rw [Nat.zero_add] at haccounts
  exact ⟨front, before, part, mid, hfront, hpart, haccounts hpart,
    fun id hid => (hid.right front).left back⟩

/-- A register that is defined is written, the result of a merge on an edge into its label. -/
theorem writes_register {r : Register} (hr : r ∈ f.definedRegisters) :
    Writes body r.index := by
  obtain ⟨s, hs, hr⟩ := Function.mem_definedRegisters.1 hr
  obtain ⟨pre, post, hbody⟩ := List.append_of_mem hs
  obtain ⟨_, _, _, _, -, -, haccounts, hall⟩ := exists_accounts hf hscope hyields hbody
  rcases haccounts.result r hr with hwrites | ⟨first, second, hchoose⟩
  · exact hall _ hwrites
  · obtain ⟨types, htyped⟩ := hf.typed
    obtain ⟨copies, hplan, hshape, -⟩ := scopeOf_eq_ok htyped.recorded hscope
    have hplace : f.statements[pre.length]? = some (.choose first second r) := by
      simp [Function.statements, hbody, hchoose]
    obtain ⟨c, hc, rfl⟩ := exists_copy_into hplan hplace
    obtain ⟨pre, s, post, l, hbody, hedge, hl⟩ := exists_mention_of_mem hf hplan hc
    obtain ⟨_, _, _, _, -, -, haccounts, hall⟩ := exists_accounts hf hscope hyields hbody
    have hat : c ∈ scope.copiesAt pre.length := by
      rw [hshape]
      exact List.mem_filter.2 ⟨hc, by simp [hedge]⟩
    exact hall _ (haccounts.merges l hl c hat)

/-- What stands for the whole function is written, by the entry or by the body. -/
theorem writes_standing {id : Nat} (hid : scope.Standing id) :
    Writes (entry.code ++ body) id := by
  obtain ⟨types, htyped⟩ := hf.typed
  obtain ⟨copies, -, hshape, hentry⟩ := scopeOf_eq_ok htyped.recorded hscope
  have hfills := fills_ofFunction hentry
  obtain ⟨w, hsound, -⟩ := arranged_start htyped hscope start.strings
  rcases hid with ⟨r, t, hr, rfl⟩ | rfl | ⟨name, p, hp, rfl⟩
  · rw [hshape] at hr
    exact (writes_register hf hscope hyields (defined_of_checked hf htyped.recorded hr)).right
      _
  · rw [hshape]
    exact (hfills _ (Nat.le_refl _) hsound.environment).left _
  · rw [hshape] at hp
    obtain ⟨⟨hle, -⟩, hlt⟩ := hsound.param hp
    rw [hsound.drawn] at hle
    exact (hfills _ (Nat.le_of_lt hlt) hle).left _

/-- A local variable whose number is read and not written is never stored. -/
theorem unstored_of_not_writes (hstart : start.locals = .empty) {pre post : List Located}
    {s : Located} (hbody : f.body = pre ++ s :: post) {front : List Instr} {before : State}
    (hfront : Yields scope (bodyCode 0 pre) start front before) {id : Nat}
    (hread : ReadsLocal before s.statement id) (hnot : ¬ Writes body id) :
    UnstoredNumber f scope start id := by
  have haccounts := accountsAll_of_checked hf hscope
  obtain ⟨name, result, p, hs, hp, rfl⟩ := hread
  have hopening := opening_of_bodyCode (haccounts.front hbody) hfront hp
  rw [hstart] at hopening
  obtain ⟨front', opening, rest, type, part, before', rfl, hopening, hname, hpart, hid⟩ :=
    hopening.resolve_left fun h => nomatch h.1
  have hsplit : f.body = front' ++ opening :: (rest ++ s :: post) := by simp [hbody]
  refine ⟨front', name, part, before',
    ⟨opening, rest ++ s :: post, type, hsplit, hopening, ?_, ?_⟩, hpart, hid⟩
  · refine ⟨s, ?_, result, hs⟩
    unfold localScope
    rw [List.takeWhile_append_of_pos (by simpa using hname), List.takeWhile_cons_of_pos]
    · exact List.mem_append_right _ List.mem_cons_self
    · simp [hs, Statement.scopeMarker?]
  · -- a store in the scope would write the number that the opening has drawn
    intro d hd src hput
    obtain ⟨inner, outer, hd, hinner⟩ := exists_of_mem_localScope hd
    have hsplit : f.body = (front' ++ opening :: inner) ++ d :: outer := by simp [hsplit, hd]
    obtain ⟨_, _, _, _, hfront, -, hstored, hall⟩ := exists_accounts hf hscope hyields hsplit
    obtain ⟨q, hq, hwrites⟩ := hstored.stores name src hput
    rw [get?_locals_of_opening (haccounts.front hsplit) hfront hopening hinner hpart] at hq
    obtain rfl := Option.some.inj hq
    exact hnot (hid ▸ hall _ hwrites)

/-- What the body reads is written, but for local variables that are never stored. -/
theorem writes_of_reads (hstart : start.locals = .empty) {i : Instr} (hi : i ∈ body) {p : Reg}
    (hp : p ∈ i.used) :
    Writes (entry.code ++ body) p.id ∨ UnstoredNumber f scope start p.id := by
  obtain ⟨pre, s, post, front, before, part, mid, hbody, hfront, hpart, hi⟩ :=
    exists_part_of_mem hyields hi
  have haccounts := accountsAll_of_checked hf hscope pre s post hbody before part mid hpart
  obtain ⟨front', before', part', mid', hfront', hpart', -, hall⟩ :=
    exists_accounts hf hscope hyields hbody
  obtain ⟨-, rfl⟩ := hfront.unique hfront'
  rw [Nat.zero_add] at hpart haccounts
  obtain ⟨rfl, rfl⟩ := hpart.unique hpart'
  rcases (haccounts.within i hi).2 p hp with (hstanding | ⟨hlt, hle⟩) | hlocal
  · exact .inl (writes_standing hf hscope hyields hstanding)
  · have hmarker : s.statement.scopeMarker? = none := by
      cases hname : s.statement.scopeMarker? with
      | none => rfl
      | some name =>
        rw [haccounts.silent name hname] at hi
        cases hi
    exact .inl ((hall _ (haccounts.temporaries hmarker _ hlt hle)).right _)
  · by_cases hwrites : Writes body p.id
    · exact .inl (hwrites.right _)
    · exact .inr (unstored_of_not_writes hf hscope hyields hstart hbody hfront hlocal hwrites)

end Stream

/-! ## Streams -/

/-- In the stream of a function control can come to every label that is jumped to, and
every number is written that anything can be read from, but for those of local variables
that are never stored. -/
structure Supplied (f : Function) (scope : Scope) (entry : Entry) (start : State)
    (code : List Instr) : Prop where
  /-- The registers that statements define, results of merges among them. -/
  registers : ∀ r ∈ f.definedRegisters, Writes code r.index
  environment : Writes code (Selection.environment f).id
  /-- The receiver and the parameters. -/
  params : ∀ name p, entry.params.get? name = some p → Writes code p.id
  /-- What is drawn for a statement that opens no scope. -/
  temporaries : ∀ pre s post front before part mid, f.body = pre ++ s :: post →
    Yields scope (bodyCode 0 pre) start front before →
    Yields scope (statementCode pre.length s.statement s.origin) before part mid →
    s.statement.scopeMarker? = none → ∀ id, before.drawn < id → id ≤ mid.drawn → Writes code id
  reads : ∀ i ∈ code, ∀ p ∈ i.used, Writes code p.id ∨ UnstoredNumber f scope start p.id
  labels : ∀ i ∈ code, ∀ name ∈ i.jumpTarget?, name ∈ placedLabels code

variable {strings interned : Assembly.StringTable} {p : Pseudo.Function}

/-- The stream of a checked function is supplied. -/
theorem supplied_of_ofFunction (hf : Checked u position f)
    (h : ofFunction u abi position f strings = (.ok p, interned)) :
    ∃ scope entry, scopeOf u abi position f = .ok (scope, entry)
      ∧ Supplied f scope entry { strings := strings, drawn := entry.drawn } p.code := by
  obtain ⟨types, htyped⟩ := hf.typed
  obtain ⟨scope, entry, body, last, hscope, hyields, rfl, rfl⟩ := ofFunction_eq_ok h
  obtain ⟨copies, -, hshape, hentry⟩ := scopeOf_eq_ok htyped.recorded hscope
  obtain ⟨w, hsound, -⟩ := arranged_start htyped hscope strings
  have hstanding : ∀ {id}, scope.Standing id →
      Writes (entry.code ++ body ++ [.label (exitLabel position)]) id := fun hid =>
    (writes_standing hf hscope hyields hid).left _
  -- neither the entry nor the exit reads a pseudo-register or jumps
  have hends : ∀ i ∈ entry.code ++ body ++ [.label (exitLabel position)],
      i ∈ body ∨ i.used = [] ∧ i.jumpTarget? = none := by
    intro i hi
    rcases List.mem_append.1 hi with hi | hi
    · rcases List.mem_append.1 hi with hi | hi
      · obtain ⟨r, q, -, -, rfl⟩ := hsound.receives i hi
        exact .inr ⟨rfl, rfl⟩
      · exact .inl hi
    · obtain rfl := List.mem_singleton.1 hi
      exact .inr ⟨rfl, rfl⟩
  refine ⟨scope, entry, hscope, fun r hr => ?_, ?_, fun name q hq => ?_, ?_,
    fun i hi q hq => ?_,
    fun i hi name hname => ?_⟩
  · exact ((writes_register hf hscope hyields hr).right _).left _
  · exact hstanding (.inr (.inl (by rw [hshape])))
  · exact hstanding (.inr (.inr ⟨name, q, by rw [hshape]; exact hq, rfl⟩))
  · intro pre s post front before part mid hbody hfront hpart hmarker id hlt hle
    obtain ⟨front', before', part', mid', hfront', hpart', haccounts, hall⟩ :=
      exists_accounts hf hscope hyields hbody
    obtain ⟨-, rfl⟩ := hfront.unique hfront'
    obtain ⟨rfl, rfl⟩ := hpart.unique hpart'
    exact ((hall id (haccounts.temporaries hmarker id hlt hle)).right _).left _
  · rcases hends i hi with hi | ⟨hnone, -⟩
    · exact (writes_of_reads hf hscope hyields rfl hi hq).imp_left fun hwrites =>
        hwrites.left _
    · rw [hnone] at hq
      cases hq
  · rcases hends i hi with hi | ⟨-, hnone⟩
    · obtain ⟨pre, s, post, front, before, part, mid, hbody, -, hpart, hi⟩ :=
        exists_part_of_mem hyields hi
      have haccounts := accountsAll_of_checked hf hscope pre s post hbody before part mid hpart
      simp only [placedLabels_append, placed_bodyCode hyields, List.mem_append]
      rcases (haccounts.within i hi).1 name hname with hplaced | rfl
      · rw [hshape] at hplaced
        exact .inl (.inr (by rw [hshape]; exact hplaced))
      · rw [hshape]
        exact .inr List.mem_cons_self
    · rw [hnone] at hname
      cases hname

/-- Allocation fails only on local variables that are never stored: every label that the stream
of a checked function jumps to is placed, every number that it reads is written unless it is
the number of such a variable, and the one error there can be names that number. -/
theorem allocation_fails_on_unstored_locals (hf : Checked u position f)
    (h : ofFunction u abi position f strings = (.ok p, interned)) :
    ∃ scope entry, scopeOf u abi position f = .ok (scope, entry)
      ∧ Supplied f scope entry { strings := strings, drawn := entry.drawn } p.code
      ∧ ∀ e, Allocation.ofCode abi p.code = .error e → ∃ q, e = .neverDefined q
        ∧ UnstoredNumber f scope { strings := strings, drawn := entry.drawn } q.id := by
  obtain ⟨scope, entry, hscope, hsupplied⟩ := supplied_of_ofFunction hf h
  refine ⟨scope, entry, hscope, hsupplied, fun e he => ?_⟩
  have hlive : Pseudo.Liveness.ofCode p.code = .error e := by
    cases hlive : Pseudo.Liveness.ofCode p.code with
    | ok live =>
      rw [Allocation.ofCode, hlive] at he
      cases he
    | error e' =>
      rw [Allocation.ofCode, hlive] at he
      cases he
      rfl
  rcases Pseudo.Liveness.error_of_ofCode hlive with
    ⟨q, rfl, ⟨i, hi, q', hused, hid⟩, hnot⟩ | ⟨name, -, ⟨i, hi, hname⟩, hnot⟩
  · rw [← hid] at hnot
    exact ⟨q, rfl, hid ▸ (hsupplied.reads i hi q' hused).resolve_left hnot⟩
  · exact absurd (hsupplied.labels i hi name hname) hnot

end

/-- A function that merges two numbers and calls itself, and of two local
variables stores one. -/
def forgetful : Function :=
  ((do
      .startScope "kept" .int
      .startScope "lost" .int
      let n ← .getParam "n"
      .putLocal "kept" n
      let join ← .label
      let done ← .compare .equal n n
      let one ← .literal .int "1"
      .branch done true join
      let two ← .literal .int "2"
      .placeLabel join
      let either ← .choose one two
      let _ ← .callActual none "pkg/Choice" "forgetful" [either] true
      .returnValue (← .binary .add either (← .getLocal "lost")) : Function.Build Unit).run
    { name := "forgetful", kind := .static, params := [⟨.int, "n"⟩], returns := .int }).2

/-- The types that the check finds for the registers of the function. -/
def forgetfulTypes : Table Register Ty :=
  ⟨[(⟨0⟩, .int), (⟨1⟩, .boolean), (⟨2⟩, .int), (⟨3⟩, .int), (⟨4⟩, .int), (⟨5⟩, .int),
    (⟨6⟩, .int), (⟨7⟩, .int)]⟩

/-- The function after its check. -/
def forgetfulChecked : Function := { forgetful with registerTypes := some forgetfulTypes }

theorem checked_forgetful : Checked (unitOf forgetful) 0 forgetfulChecked :=
  checked_of_single (n := "pkg/Choice") (f := forgetful) (by unfold Function.Drawn; decide)
    rfl rfl

/-- The result of the merge is written, and allocation stops at the variable
that is never stored. -/
theorem forgetful_is_refused :
    ∃ p interned q, ofFunction (unitOf forgetful) .systemV 0 forgetfulChecked {}
      = (.ok p, interned)
      ∧ Writes p.code 4
      ∧ Allocation.ofCode .systemV p.code = .error (.neverDefined q)
      ∧ ∃ front name, forgetfulChecked.Unstored front name := by
  have hrefused : (ofFunction (unitOf forgetful) .systemV 0 forgetfulChecked {}).1.toOption.any
      fun p => (Allocation.ofCode .systemV p.code).toOption.isNone := by
    decide +kernel
  obtain ⟨p, hp, hrefused⟩ := (Option.any_eq_true _ _).1 hrefused
  cases h : ofFunction (unitOf forgetful) .systemV 0 forgetfulChecked {} with
  | mk selected interned =>
    rw [h] at hp
    cases selected with
    | error e => cases hp
    | ok p' =>
      obtain rfl : p' = p := Option.some.inj hp
      obtain ⟨_, _, -, hsupplied, hfails⟩ :=
        allocation_fails_on_unstored_locals checked_forgetful h
      cases he : Allocation.ofCode .systemV p'.code with
      | ok allocation =>
        rw [he] at hrefused
        cases hrefused
      | error e =>
        obtain ⟨q, rfl, front, name, -, -, hunstored, -⟩ := hfails e he
        exact ⟨p', interned, q, rfl, hsupplied.registers ⟨4⟩ (by decide), he, front,
          name, hunstored⟩

end Selection

end Jil
