/-
Jil.Proofs.EdgeCopies — merges happen along edges, and at once.

Several copies on one edge go through pseudo-registers of their own, all of
which are written before any result is (`moved_of_moveAll`). So every result of
a merge holds what its source held in front of the edge, also when the source
is itself the result of another merge (`merged_of_edgeCode`). A branch makes its
copies on the taken edge only, behind an inverted condition and in front of a
label of its own.

`statement_takes_edge` puts this into the code of a whole function, where control
goes to the labels that are named.
-/
import Jil.Proofs.Computing
import Jil.Proofs.Labels
import Jil.Proofs.Merging
import Jil.Proofs.ScalarMeaning

namespace Jil.Pseudo

open Jil.Machine (Runtime Size)

/-! ## Runs -/

/-- A run of a stream. -/
inductive Reaches (rt : Runtime) (code : List Instr) : Nat × State → Nat × State → Prop
  | refl (p : Nat × State) : Reaches rt code p p
  | step {p q r : Nat × State} : step rt code p = .ok q → Reaches rt code q r →
      Reaches rt code p r

section

variable {rt : Runtime} {code : List Instr} {index : Nat} {st after : State} {i : Instr}

theorem Reaches.trans {p q r : Nat × State} (h : Reaches rt code p q)
    (h' : Reaches rt code q r) : Reaches rt code p r := by
  induction h with
  | refl _ => exact h'
  | step hstep _ ih => exact .step hstep (ih h')

/-- An instruction that has an effect is one that control only passes through. -/
theorem step_of_exec (hi : code[index]? = some i) (h : i.exec rt st = .ok after) :
    step rt code (index, st) = .ok (index + 1, after) := by
  unfold step
  simp only [hi]
  cases i <;> first | (simp only [h]; rfl) | cases h

/-- Code that has an effect is run from its beginning to its end. -/
theorem reaches_of_execAll {front part back : List Instr}
    (h : Instr.execAll rt st part = .ok after) :
    Reaches rt (front ++ part ++ back) (front.length, st) (front.length + part.length,
      after) := by
  induction part generalizing front st with
  | nil =>
    cases h
    exact .refl _
  | cons i part ih =>
    cases hexec : i.exec rt st with
    | error e =>
      rw [Instr.execAll, hexec] at h
      cases h
    | ok mid =>
      rw [Instr.execAll, hexec] at h
      have hi : (front ++ i :: part ++ back)[front.length]? = some i := by simp
      have hrest : Reaches rt (front ++ [i] ++ part ++ back) ((front ++ [i]).length, mid)
          ((front ++ [i]).length + part.length, after) := ih h
      simp only [List.append_assoc, List.length_append, List.singleton_append,
        List.length_cons] at hrest hi ⊢
      rw [show front.length + (part.length + 1) = front.length + 1 + part.length by omega]
      exact .step (step_of_exec hi hexec) hrest

end

/-! ## Moves at once -/

/-- Values have been moved, each from where it was in front of all moves. The other
pseudo-registers are kept, unless they are scratch. -/
structure Moved (scratch : Nat → Prop) (moves : List (Reg × Reg)) (st after : State) :
    Prop where
  moved : ∀ m ∈ moves, after.value m.2.size m.2.id = st.value m.2.size m.1.id
  kept : ∀ id, ¬ scratch id → (∀ m ∈ moves, m.2.id ≠ id) → after.pseudo id = st.pseudo id
  machine : after.toState = st.toState

/-- Moves whose destinations are no sources may be made one after the other. -/
theorem exists_execAll_moves (rt : Runtime) (moves : List (Reg × Reg))
    (hdests : (moves.map (·.2.id)).Nodup)
    (hapart : ∀ m ∈ moves, ∀ m' ∈ moves, m.1.id ≠ m'.2.id) (st : State) :
    ∃ after, Instr.execAll rt st (moves.map fun m => Selection.move m.2.size m.1 m.2)
      = .ok after
      ∧ Moved (fun _ => False) moves st after := by
  induction moves generalizing st with
  | nil => exact ⟨st, rfl, nofun, fun _ _ _ => rfl, rfl⟩
  | cons m moves ih =>
    obtain ⟨hhead, hdests⟩ := List.nodup_cons.1 hdests
    have hother : ∀ m' ∈ moves, m'.2.id ≠ m.2.id := fun m' hm' heq =>
      hhead (List.mem_map.2 ⟨m', hm', heq⟩)
    let mid : State := st.setPseudo m.2.size m.2.id (st.value m.2.size m.1.id)
    obtain ⟨after, hrun, hmoved⟩ := ih hdests
      (fun a ha b hb => hapart a (List.mem_cons_of_mem _ ha) b (List.mem_cons_of_mem _ hb)) mid
    refine ⟨after, hrun, fun m' hm' => ?_, fun id hid hne => ?_, hmoved.machine⟩
    · rcases List.mem_cons.1 hm' with rfl | hm'
      · have hkept : after.pseudo m'.2.id = mid.pseudo m'.2.id :=
          hmoved.kept _ nofun hother
        rw [State.value, hkept]
        exact st.value_setPseudo _
      · rw [hmoved.moved m' hm']
        exact st.value_setPseudo_of_ne _
          (hapart m' (List.mem_cons_of_mem _ hm') m List.mem_cons_self)
    · rw [hmoved.kept id hid fun m' hm' => hne m' (List.mem_cons_of_mem _ hm')]
      exact st.pseudo_setPseudo_of_ne _ (hne m List.mem_cons_self).symm

end Jil.Pseudo

namespace Jil.Selection

open Jil.Machine (Abi Runtime Size)
open Jil.Pseudo (Instr Moved Reaches Reg exists_execAll_moves labelIndex? placedLabels
  placedLabels_append reaches_of_execAll)

variable {scope : Scope} {st after : State} {code : List Instr} {origin : Origin}

/-! ## Staging -/

/-- Every moved value passes through a pseudo-register that was drawn for it. -/
structure Passes (first last : Nat) (moves : List (Reg × Reg))
    (staged : List (Reg × Reg × Reg)) : Prop where
  ends : staged.map (fun m => (m.1, m.2.2)) = moves
  drawn : ∀ m ∈ staged, first < m.2.1.id ∧ m.2.1.id ≤ last
  apart : (staged.map (·.2.1.id)).Nodup
  size : ∀ m ∈ staged, m.2.1.size = m.2.2.size

theorem passes_stage (drawn : Nat) (moves : List (Reg × Reg)) :
    Passes drawn (drawn + moves.length) moves (stage drawn moves) := by
  induction moves generalizing drawn with
  | nil => exact ⟨rfl, nofun, List.nodup_nil, nofun⟩
  | cons m moves ih =>
    obtain ⟨hends, hdrawn, hapart, hsize⟩ := ih (drawn + 1)
    refine ⟨congrArg (m :: ·) hends, List.forall_mem_cons.2 ⟨?_, fun m' hm' => ?_⟩, ?_,
      List.forall_mem_cons.2 ⟨rfl, hsize⟩⟩
    · simp only [List.length_cons]
      omega
    · obtain ⟨hlt, hle⟩ := hdrawn m' hm'
      simp only [List.length_cons]
      omega
    · refine List.nodup_cons.2 ⟨fun hmem => ?_, hapart⟩
      obtain ⟨m', hm', heq⟩ := List.mem_map.1 hmem
      obtain ⟨hlt, -⟩ := hdrawn m' hm'
      simp only at heq
      omega

/-- Moves with destinations of their own happen at once. -/
theorem moved_of_moveAll {moves : List (Reg × Reg)}
    (hknown : ∀ m ∈ moves, m.1.id ≤ st.drawn ∧ m.2.id ≤ st.drawn)
    (hdests : (moves.map (·.2.id)).Nodup) (h : Yields scope (moveAll moves) st code after)
    (rt : Runtime) (σ : Pseudo.State) :
    ∃ σ', Instr.execAll rt σ code = .ok σ' ∧ Moved (st.drawn < ·) moves σ σ' := by
  obtain ⟨src, dest, rfl, rfl, -⟩ | ⟨-, hcode, -⟩ := yields_moveAll.1 h
  · refine ⟨_, rfl, fun m hm => ?_, fun id _ hne => ?_, rfl⟩
    · rw [List.mem_singleton] at hm
      subst hm
      exact σ.value_setPseudo _
    · exact σ.pseudo_setPseudo_of_ne _ (hne _ List.mem_cons_self).symm
  · have hpasses := passes_stage st.drawn moves
    generalize stage st.drawn moves = staged at hpasses hcode
    have hends : ∀ m ∈ staged, (m.1, m.2.2) ∈ moves := fun m hm =>
      hpasses.ends ▸ List.mem_map.2 ⟨m, hm, rfl⟩
    -- first the sources are read
    obtain ⟨mid, hreads, hread⟩ := exists_execAll_moves rt
      (staged.map fun m => (m.1, m.2.1)) (by rw [List.map_map]; exact hpasses.apart)
      (by
        intro m hm m' hm'
        obtain ⟨a, ha, rfl⟩ := List.mem_map.1 hm
        obtain ⟨b, hb, rfl⟩ := List.mem_map.1 hm'
        have := (hknown _ (hends a ha)).1
        have := (hpasses.drawn b hb).1
        simp only at *
        omega) σ
    -- then the destinations are written
    obtain ⟨σ', hwrites, hwritten⟩ := exists_execAll_moves rt
      (staged.map fun m => (m.2.1, m.2.2))
      (by
        rw [← hpasses.ends, List.map_map] at hdests
        rw [List.map_map]
        exact hdests)
      (by
        intro m hm m' hm'
        obtain ⟨a, ha, rfl⟩ := List.mem_map.1 hm
        obtain ⟨b, hb, rfl⟩ := List.mem_map.1 hm'
        have := (hpasses.drawn a ha).1
        have := (hknown _ (hends b hb)).2
        simp only at *
        omega) mid
    have hcode : code = (staged.map fun m => (m.1, m.2.1)).map (fun m => move m.2.size m.1 m.2)
        ++ (staged.map fun m => (m.2.1, m.2.2)).map fun m => move m.2.size m.1 m.2 := by
      rw [hcode, List.map_map, List.map_map]
      refine congrArg (· ++ _) (List.map_congr_left fun m hm => ?_)
      simp only [Function.comp, hpasses.size m hm]
    refine ⟨σ', ?_, fun m hm => ?_, fun id hid hne => ?_, hwritten.machine.trans hread.machine⟩
    · rw [hcode, Pseudo.execAll_append_of_ok hreads, hwrites]
    · rw [← hpasses.ends] at hm
      obtain ⟨⟨src, ⟨held, size⟩, dest⟩, ha, rfl⟩ := List.mem_map.1 hm
      obtain rfl : size = dest.size := hpasses.size _ ha
      have hwrite := hwritten.moved _ (List.mem_map.2 ⟨_, ha, rfl⟩)
      exact hwrite.trans (hread.moved _ (List.mem_map.2 ⟨_, ha, rfl⟩))
    · rw [hwritten.kept id not_false fun m hm => ?_, hread.kept id not_false fun m hm => ?_]
      · obtain ⟨a, ha, rfl⟩ := List.mem_map.1 hm
        have := (hpasses.drawn a ha).1
        simp only
        omega
      · obtain ⟨a, ha, rfl⟩ := List.mem_map.1 hm
        exact hne (a.1, a.2.2) (hends a ha)

/-! ## The copies of one edge -/

/-- The copies of a scope are those of a checked function: sources and results have types of
one size, and at each edge every result is written once. -/
structure CopiesAgree (scope : Scope) : Prop where
  size : ∀ c ∈ scope.copies, ∃ t u, scope.types.get? c.src = some t
    ∧ scope.types.get? c.dest = some u ∧ sizeOf t = sizeOf u
  once : ∀ edge, ((scope.copiesAt edge).map (·.dest.index)).Nodup

/-- The results of the merges on an edge hold what their sources held, and the numbers up to
`drawn` that belong to no result are kept. -/
structure Merged (scope : Scope) (edge drawn : Nat) (before after : Pseudo.State) : Prop where
  carried : ∀ c ∈ scope.copiesAt edge, ∃ t u, scope.types.get? c.src = some t
    ∧ scope.types.get? c.dest = some u ∧ sizeOf t = sizeOf u
    ∧ after.value (sizeOf u) c.dest.index = before.value (sizeOf u) c.src.index
  kept : ∀ id, id ≤ drawn → (∀ c ∈ scope.copiesAt edge, c.dest.index ≠ id) →
    after.pseudo id = before.pseudo id
  machine : ∃ flags, after.toState = before.toState.setFlags flags

/-- The copies of an edge happen at once. -/
theorem merged_of_edgeCode (hagree : CopiesAgree scope)
    (hdrawn : ∀ r t, scope.types.get? r = some t → r.index ≤ st.drawn) {edge : Nat}
    (h : Yields scope (edgeCode edge origin) st code after) (rt : Runtime) (σ : Pseudo.State) :
    ∃ σ', Instr.execAll rt σ code = .ok σ' ∧ Merged scope edge st.drawn σ σ' := by
  obtain ⟨moves, hmoves, h⟩ := yields_edgeCode.1 h
  obtain ⟨hforth, hback⟩ := Pseudo.exists_of_mapM_eq_some hmoves
  have hknown : ∀ m ∈ moves, m.1.id ≤ st.drawn ∧ m.2.id ≤ st.drawn := by
    intro m hm
    obtain ⟨c, -, hmove⟩ := hback m hm
    obtain ⟨t, u, ht, hu, rfl⟩ := Scope.move?_eq_some.1 hmove
    exact ⟨hdrawn _ t ht, hdrawn _ u hu⟩
  have hdests : (moves.map (·.2.id)).Nodup := by
    rw [ids_of_moves hmoves]
    exact hagree.once edge
  obtain ⟨σ', hrun, hmoved⟩ := moved_of_moveAll hknown hdests h rt σ
  refine ⟨σ', hrun, fun c hc => ?_, fun id hid hne => ?_, σ.flags, ?_⟩
  · obtain ⟨m, hm, hmove⟩ := hforth c hc
    obtain ⟨t, u, ht, hu, rfl⟩ := Scope.move?_eq_some.1 hmove
    obtain ⟨t', u', ht', hu', hsize⟩ := hagree.size c (List.mem_filter.1 hc).1
    rw [ht, Option.some.injEq] at ht'
    rw [hu, Option.some.injEq] at hu'
    subst ht' hu'
    exact ⟨t, u, ht, hu, hsize, hmoved.moved _ hm⟩
  · refine hmoved.kept id (Nat.not_lt.2 hid) fun m hm => ?_
    obtain ⟨c, hc, hmove⟩ := hback m hm
    obtain ⟨t, u, -, -, rfl⟩ := Scope.move?_eq_some.1 hmove
    exact hne c hc
  · rw [hmoved.machine]
    rfl

/-! ## The copies of checked functions -/

end Jil.Selection

namespace Jil

/-- The common supertype of references is a reference. -/
theorem ClassHierarchy.isReference_of_commonSupertype? {h : ClassHierarchy} {a b t : Ty}
    (ha : a.isReference = true) (hb : b.isReference = true)
    (hok : h.commonSupertype? a b = some t) : t.isReference = true := by
  unfold commonSupertype? at hok
  split at hok
  · cases hok
    exact ha
  · split at hok
    · cases hok
    · split at hok <;> cases hok
      · exact hb
      · exact ha
      · rfl
      · rfl

end Jil

namespace Jil.Selection

open Jil.Machine (Abi Runtime Size)
open Jil.Pseudo (Instr Moved Reaches Reg exists_execAll_moves labelIndex? placedLabels
  placedLabels_append reaches_of_execAll)

variable {scope : Scope} {st after : State} {code : List Instr} {origin : Origin}

/-- What a merge gives has the size of what is merged. -/
theorem sizeOf_of_merged {scope : Typing.Scope} {first second : Register} {a b t : Ty}
    {origin : Origin} (hok : scope.merged first second a b origin = .ok t) :
    sizeOf a = sizeOf t ∧ sizeOf b = sizeOf t := by
  unfold Typing.Scope.merged at hok
  split at hok
  · split at hok
    · next heq =>
      cases hok
      exact ⟨rfl, congrArg sizeOf heq.symm⟩
    · cases hok
  · next hprimitive =>
    simp only [Ty.isPrimitive, Bool.or_eq_true, Bool.not_eq_true', not_or, Bool.not_eq_false]
      at hprimitive
    split at hok
    · next u hu =>
      cases hok
      have hreference :=
        ClassHierarchy.isReference_of_commonSupertype? hprimitive.1 hprimitive.2 hu
      rw [sizeOf_of_isReference hprimitive.1, sizeOf_of_isReference hprimitive.2,
        sizeOf_of_isReference hreference]
      exact ⟨rfl, rfl⟩
    · cases hok

/-- The operands and the result of a merge have types of one size. -/
theorem sizeOf_of_choose {u : ClassUnit} {position : Nat} {f : Function}
    {types : Table Register Ty} (h : Checked u position f)
    (htypes : f.registerTypes = some types) {first second result : Register}
    (hs : .choose first second result ∈ f.statements) :
    ∃ a b t, types.get? first = some a ∧ types.get? second = some b
      ∧ types.get? result = some t
      ∧ sizeOf a = sizeOf t ∧ sizeOf b = sizeOf t := by
  obtain ⟨located, hlocated, hchoose⟩ := List.mem_map.1 hs
  obtain ⟨scope, -, ctx, e, -, -, heffect, hknown, hnew⟩ := h.exists_effect htypes hlocated
  rw [hchoose] at heffect
  obtain ⟨a, ha, heffect⟩ := Pseudo.bind_eq_ok.1 heffect
  obtain ⟨b, hb, heffect⟩ := Pseudo.bind_eq_ok.1 heffect
  obtain ⟨t, hmerged, heffect⟩ := Pseudo.bind_eq_ok.1 heffect
  cases heffect
  exact ⟨a, b, t, hknown _ _ (Typing.Context.register_eq_ok.1 ha),
    hknown _ _ (Typing.Context.register_eq_ok.1 hb), hnew _ _ rfl, sizeOf_of_merged hmerged⟩

/-- On one edge every result is written once. -/
theorem nodup_dests {u : ClassUnit} {position : Nat} {f : Function} {copies : List MergeCopy}
    (hf : Checked u position f) (hplan : mergeCopies f = .ok copies) (edge : Nat) :
    ((copies.filter (·.edge = edge)).map MergeCopy.dest).Nodup := by
  have hbody : Once f.statements := hf.definesOnce
  rw [List.nodup_iff_count]
  intro result
  have hcount : List.count result ((copies.filter (·.edge = edge)).map MergeCopy.dest)
      = (copiesInto copies edge result).length := by
    rw [List.count_eq_countP, List.countP_map, List.countP_filter, copiesInto,
      List.countP_eq_length_filter]
    congr 2
    funext c
    rw [Bool.eq_iff_iff]
    simp [and_comm]
  rw [hcount]
  cases hinto : copiesInto copies edge result with
  | nil => exact Nat.zero_le 1
  | cons c rest =>
    rw [← hinto]
    have hc : c ∈ copiesInto copies edge result := hinto ▸ List.mem_cons_self
    rw [copiesInto, List.mem_filter, decide_eq_true_eq] at hc
    obtain ⟨hmem, rfl, rfl⟩ := hc
    obtain ⟨n, first, second, hs, -⟩ := exists_choose_of_mem hplan hmem
    obtain ⟨_, own, hown, hsub, heq⟩ := exists_copiesOf hbody hplan hs
    obtain ⟨place, join, -, hedges, hspec⟩ := copiesOf_spec hown
    rw [heq, hspec c.edge (hedges c (hsub c hmem rfl))]
    cases incoming? (definedAt? f.statements first) (definedAt? f.statements second)
      c.edge with
    | none => exact Nat.zero_le 1
    | some side => exact Nat.le_refl 1

/-- What leaves along an edge with copies is a jump, a branch or a label. -/
theorem edgeInto_of_mem {u : ClassUnit} {position : Nat} {f : Function}
    {copies : List MergeCopy} (hf : Checked u position f) (hplan : mergeCopies f = .ok copies)
    {c : MergeCopy} (hc : c ∈ copies) :
    ∃ place join, f.statements[place]? = some (.label join)
      ∧ EdgeInto f.statements place join c.edge := by
  obtain ⟨n, first, second, hs, -⟩ := exists_choose_of_mem hplan hc
  obtain ⟨_, own, hown, hsub, -⟩ := exists_copiesOf hf.definesOnce hplan hs
  obtain ⟨place, join, hjoin, hedges, -⟩ := copiesOf_spec hown
  exact ⟨place, join, hjoin.placed, hedges c (hsub c hc rfl)⟩

/-- A statement that leaves along an edge jumps to the label, or places it. -/
theorem mentions_of_edgeInto {body : List Statement} {place edge : Nat} {join : Label}
    {s : Statement} (hplace : body[place]? = some (.label join))
    (h : EdgeInto body place join edge) (hs : body[edge]? = some s) :
    ∃ l, s.mentionedLabel? = some l := by
  cases h with
  | jump hs' htarget =>
    rw [hs, Option.some.injEq] at hs'
    subst hs'
    cases s with
    | branch condition expected target | jump target => exact ⟨target, rfl⟩
    | _ => cases htarget
  | fall _ _ _ =>
    rw [hs, Option.some.injEq] at hplace
    exact ⟨join, by rw [hplace]; rfl⟩

/-- The copies that are planned for a checked function agree with its types. -/
theorem copiesAgree_of_scopeOf {u : ClassUnit} {abi : Abi} {position : Nat} {f : Function}
    {entry : Entry} (hf : Checked u position f)
    (hscope : scopeOf u abi position f = .ok (scope, entry)) : CopiesAgree scope := by
  obtain ⟨types, ht⟩ := hf.typed
  obtain ⟨copies, hplan, rfl, -⟩ := scopeOf_eq_ok ht.recorded hscope
  constructor
  · intro c hc
    obtain ⟨n, first, second, hs, hsrc⟩ := exists_choose_of_mem hplan hc
    obtain ⟨a, b, t, ha, hb, hresult, hsizeA, hsizeB⟩ :=
      sizeOf_of_choose hf ht.recorded (List.mem_of_getElem? hs)
    rcases hsrc with hsrc | hsrc
    · exact ⟨a, t, hsrc ▸ ha, hresult, hsizeA⟩
    · exact ⟨b, t, hsrc ▸ hb, hresult, hsizeB⟩
  · intro edge
    have hnodup := nodup_dests hf hplan edge
    have hindices : (copies.filter (·.edge = edge)).map (·.dest.index)
        = ((copies.filter (·.edge = edge)).map MergeCopy.dest).map Register.index := by
      rw [List.map_map]
      rfl
    show ((copies.filter (·.edge = edge)).map (·.dest.index)).Nodup
    rw [hindices]
    refine List.pairwise_map.2 (hnodup.imp fun hne heq => hne ?_)
    exact congrArg Register.mk heq

/-! ## Statements with copies -/

section Stream

variable {rt : Runtime} {code front back copies : List Instr} {target skip name : String}
  {place : Nat} {σ σ' : Pseudo.State}

/-- Straight code is run to its end. -/
theorem reaches_of_part {part : List Instr} (hcode : code = front ++ part ++ back)
    (h : Instr.execAll rt σ part = .ok σ') :
    Reaches rt code (front.length, σ) ((front ++ part).length, σ') := by
  rw [hcode, List.length_append]
  exact reaches_of_execAll h

/-- A jump goes to its target. -/
theorem reaches_of_jmp (hcode : code = front ++ .jmp target :: back)
    (htarget : labelIndex? code target = some place) :
    Reaches rt code (front.length, σ) (place, σ) := by
  have hi : code[front.length]? = some (.jmp target) := by simp [hcode]
  refine .step (q := (place, σ)) ?_ (.refl _)
  simp only [Pseudo.step, hi, Pseudo.jumpTo, htarget]

/-- Control goes on behind a label. -/
theorem reaches_of_label (hcode : code = front ++ .label name :: back) :
    Reaches rt code (front.length, σ) (front.length + 1, σ) := by
  have hi : code[front.length]? = some (.label name) := by simp [hcode]
  refine .step (q := (front.length + 1, σ)) ?_ (.refl _)
  simp only [Pseudo.step, hi]

/-- A conditional jump goes to its target when its condition holds, and on otherwise. -/
theorem reaches_of_jcc {cond : Machine.Condition} {flags : Machine.Flags}
    (hcode : code = front ++ .jcc cond target :: back) (hflags : σ.flags = some flags)
    (htarget : labelIndex? code target = some place) :
    Reaches rt code (front.length, σ)
      (if cond.holds flags then place else front.length + 1, σ) := by
  have hi : code[front.length]? = some (.jcc cond target) := by simp [hcode]
  refine .step (q := (if cond.holds flags then place else front.length + 1, σ)) ?_ (.refl _)
  simp only [Pseudo.step, hi, hflags, Pseudo.jumpTo, htarget]
  split <;> rfl

/-- Copies and a jump. -/
theorem reaches_of_copies_jmp (hcode : code = front ++ (copies ++ [.jmp target]) ++ back)
    (hcopies : Instr.execAll rt σ copies = .ok σ')
    (htarget : labelIndex? code target = some place) :
    Reaches rt code (front.length, σ) (place, σ') := by
  have hsplit : code = (front ++ copies) ++ .jmp target :: back := by simp [hcode]
  exact (reaches_of_part hsplit hcopies).trans (reaches_of_jmp hsplit htarget)

/-- Copies and a label. -/
theorem reaches_of_copies_label (hcode : code = front ++ (copies ++ [.label name]) ++ back)
    (hcopies : Instr.execAll rt σ copies = .ok σ') :
    Reaches rt code (front.length, σ) (front.length + (copies.length + 1), σ') := by
  have hsplit : code = (front ++ copies) ++ .label name :: back := by simp [hcode]
  rw [← Nat.add_assoc, ← List.length_append]
  exact (reaches_of_part hsplit hcopies).trans (reaches_of_label hsplit)

/-! ### Branches -/

/-- The inverse of the condition under which a branch is taken. -/
def inverted (expected : Bool) : Machine.Condition := if expected then .equal else .notEqual

/-- A branch with copies goes around them when it is not taken. -/
theorem branchCode_eq {condition : Reg} {expected : Bool} (h : copies ≠ []) :
    branchCode condition expected target skip copies =
      [.alu .cmp .byte (.imm 0) (.pseudo condition), .jcc (inverted expected) skip]
        ++ (copies ++ [.jmp target, .label skip]) := by
  cases copies with
  | nil => exact absurd rfl h
  | cons i copies => cases expected <;> simp [branchCode, inverted]

theorem holds_inverted (expected : Bool) (v : Machine.Value .byte) :
    (inverted expected).holds (.ofDifference 0 v) = !(decide (v ≠ 0) == expected) := by
  cases expected <;> simp [inverted, Machine.Condition.holds, Machine.Flags.zero_ofDifference]

/-- The test of a branch leaves its operand in the flags. -/
def tested (σ : Pseudo.State) (condition : Nat) : Pseudo.State :=
  σ.setFlags (some (.ofDifference 0 (σ.value .byte condition)))

/-- A branch that is taken makes its copies and goes to its target; one that is not taken
goes on behind its code. -/
theorem reaches_of_branchCode {condition : Nat} {size : Size} {expected : Bool}
    {part : List Instr} (hcode : code = front ++ part ++ back)
    (hpart : part = branchCode ⟨condition, size⟩ expected target skip copies)
    (hnonempty : copies ≠ []) (hskip : skip ∉ placedLabels back)
    (hcopies : Instr.execAll rt (tested σ condition) copies = .ok σ')
    (htarget : labelIndex? code target = some place) :
    if decide (σ.value .byte condition ≠ 0) = expected then
      Reaches rt code (front.length, σ) (place, σ')
    else
      Reaches rt code (front.length, σ) (front.length + part.length, tested σ condition) := by
  rw [branchCode_eq hnonempty] at hpart
  subst hpart
  let test : Instr := .alu .cmp .byte (.imm 0) (.pseudo ⟨condition, size⟩)
  let around : Instr := .jcc (inverted expected) skip
  let before : List Instr := front ++ [test, around] ++ copies ++ [.jmp target]
  have hcodeTest :
      code = front ++ [test] ++ (around :: copies ++ [.jmp target, .label skip] ++ back) := by
    simp [hcode, test, around]
  have hcodeAround : code = (front ++ [test]) ++ around ::
      (copies ++ [.jmp target, .label skip] ++ back) := by simp [hcode, test, around]
  have hcodeCopies : code = (front ++ [test, around]) ++ (copies ++ [.jmp target])
      ++ (.label skip :: back) := by simp [hcode, test, around]
  have hcodeSkip : code = before ++ .label skip :: back := by
    simp [hcode, test, around, before]
  have hend : labelIndex? code skip = some before.length := by
    rw [hcodeSkip, Pseudo.labelIndex?_eq hskip]
  have htest :
      Reaches rt code (front.length, σ) ((front ++ [test]).length, tested σ condition) :=
    reaches_of_part hcodeTest rfl
  have haround : Reaches rt code ((front ++ [test]).length, tested σ condition)
      (if (inverted expected).holds (.ofDifference 0 (σ.value .byte condition)) then
        before.length
        else (front ++ [test]).length + 1, tested σ condition) :=
    reaches_of_jcc hcodeAround rfl hend
  have hstart := htest.trans haround
  rw [holds_inverted] at hstart
  split
  · next htaken =>
    rw [htaken, beq_self_eq_true, Bool.not_true, if_neg Bool.false_ne_true] at hstart
    have hrest := reaches_of_copies_jmp hcodeCopies hcopies htarget
    have hlength : (front ++ [test, around]).length = (front ++ [test]).length + 1 := by simp
    rw [hlength] at hrest
    exact hstart.trans hrest
  · next hnot =>
    rw [beq_eq_false_iff_ne.2 hnot, Bool.not_false, if_pos rfl] at hstart
    have hrest := hstart.trans (reaches_of_label hcodeSkip)
    have hlength : before.length + 1 = front.length +
        ([test, around] ++ (copies ++ [Instr.jmp target, Instr.label skip])).length := by
      simp [before]
      omega
    rw [hlength] at hrest
    exact hrest

end Stream

/-! ## Functions -/

/-- What the code of a statement does with the copies at `index`, when control comes to its
beginning at `start`: a jump and a taken branch make them on the way to their target, a label
in front of what follows at `next`. A branch that is not taken changes the flags only. -/
def TakesEdge (rt : Runtime) (code : List Instr) (scope : Scope) (drawn index start next : Nat)
    (σ : Pseudo.State) : Statement → Prop
  | .jump target =>
    ∃ place σ', labelIndex? code (scope.label target) = some place
      ∧ Reaches rt code (start, σ) (place, σ') ∧ Merged scope index drawn σ σ'
  | .label _ => ∃ σ', Reaches rt code (start, σ) (next, σ') ∧ Merged scope index drawn σ σ'
  | .branch condition expected target =>
    if decide (σ.value .byte condition.index ≠ 0) = expected then
      ∃ place σ', labelIndex? code (scope.label target) = some place
        ∧ Reaches rt code (start, σ) (place, σ') ∧ Merged scope index drawn σ σ'
    else ∃ flags, Reaches rt code (start, σ) (next, σ.setFlags flags)
  | _ => False

/-- The test of a branch is no part of its copies. -/
theorem Merged.of_tested {edge drawn condition : Nat} {σ σ' : Pseudo.State}
    (h : Merged scope edge drawn (tested σ condition) σ') : Merged scope edge drawn σ σ' := by
  obtain ⟨flags, hmachine⟩ := h.machine
  exact ⟨h.carried, h.kept, flags, hmachine⟩

/-- The code of a statement that leaves along an edge with copies. -/
theorem takesEdge_of_statementCode (hagree : CopiesAgree scope)
    (hdrawn : ∀ r t, scope.types.get? r = some t → r.index ≤ st.drawn) {index : Nat}
    {s : Statement} {part : List Instr}
    (h : Yields scope (statementCode index s origin) st part after)
    (hcopies : scope.copiesAt index ≠ []) {front back : List Instr}
    (hcode : code = front ++ part ++ back) (hskip : scope.edgeLabel index ∉ placedLabels back)
    (htarget : ∀ target, s.jumpTarget? = some target →
      ∃ place, labelIndex? code (scope.label target) = some place)
    (hmention : ∃ l, s.mentionedLabel? = some l) (rt : Runtime) (σ : Pseudo.State) :
    TakesEdge rt code scope st.drawn index front.length (front.length + part.length) σ s := by
  cases gives_of_yields h with
  | @branch condition expected target t copies _ ht hedge =>
    obtain ⟨place, hplace⟩ := htarget target rfl
    obtain ⟨σ', hrun, hmerged⟩ :=
      merged_of_edgeCode hagree hdrawn hedge rt (tested σ condition.index)
    have hnonempty : copies ≠ [] := fun hnil => hcopies ((placed_edgeCode hedge).2.1 hnil)
    have hreaches := reaches_of_branchCode hcode rfl hnonempty hskip hrun hplace
    simp only [TakesEdge]
    split at hreaches
    · next htaken =>
      rw [if_pos htaken]
      exact ⟨place, σ', hplace, hreaches, hmerged.of_tested⟩
    · next hnot =>
      rw [if_neg hnot]
      exact ⟨_, hreaches⟩
  | @jump target _ _ hedge =>
    obtain ⟨place, hplace⟩ := htarget target rfl
    obtain ⟨σ', hrun, hmerged⟩ := merged_of_edgeCode hagree hdrawn hedge rt σ
    exact ⟨place, σ', hplace, reaches_of_copies_jmp hcode hrun hplace, hmerged⟩
  | label hedge =>
    obtain ⟨σ', hrun, hmerged⟩ := merged_of_edgeCode hagree hdrawn hedge rt σ
    refine ⟨σ', ?_, hmerged⟩
    rw [List.length_append, List.length_singleton]
    exact reaches_of_copies_label hcode hrun
  | _ =>
    obtain ⟨l, hl⟩ := hmention
    cases hl

/-- The code of a body around the code of one of its statements. -/
theorem parts_of_bodyCode {index : Nat} {pre post : List Located} {s : Located}
    (h : Yields scope (bodyCode index (pre ++ s :: post)) st code after) :
    ∃ front before part mid back, Yields scope (bodyCode index pre) st front before
      ∧ Yields scope (statementCode (index + pre.length) s.statement s.origin) before part mid
      ∧ Yields scope (bodyCode (index + pre.length + 1) post) mid back after
      ∧ code = front ++ part ++ back := by
  induction pre generalizing index st code with
  | nil =>
    obtain ⟨part, mid, back, hpart, hback, rfl⟩ := yields_bodyCode_cons.1 h
    exact ⟨[], st, part, mid, back, yields_pure.2 ⟨rfl, rfl⟩, hpart, hback, rfl⟩
  | cons s' pre ih =>
    obtain ⟨first, st', rest, hfirst, hrest, rfl⟩ := yields_bodyCode_cons.1 h
    obtain ⟨front, before, part, mid, back, hfront, hpart, hback, rfl⟩ := ih hrest
    have hindex : index + 1 + pre.length = index + (s' :: pre).length := by
      simp only [List.length_cons]
      omega
    rw [hindex] at hpart hback
    refine ⟨first ++ front, before, part, mid, back, ?_, hpart, hback, by simp⟩
    exact yields_bodyCode_cons.2 ⟨first, st', front, hfirst, hfront, rfl⟩

section

variable {u : ClassUnit} {abi : Abi} {position : Nat} {f : Function}
  {strings interned : Assembly.StringTable} {p : Pseudo.Function} {pre post : List Located}
  {s : Located}

/-- Where the code of a statement lies in the code of its function: the statements in
front of it have been selected up to the state `before`, and its own code begins at
`start` and ends at `next`. -/
def EmittedAt (u : ClassUnit) (abi : Abi) (position : Nat) (f : Function)
    (strings : Assembly.StringTable) (code : List Instr) (pre : List Located) (s : Located)
    (scope : Scope) (before : State) (start next : Nat) : Prop :=
  ∃ entry front part mid back, scopeOf u abi position f = .ok (scope, entry)
    ∧ Yields scope (bodyCode 0 pre) { strings := strings, drawn := entry.drawn } front before
    ∧ Yields scope (statementCode pre.length s.statement s.origin) before part mid
    ∧ code = entry.code ++ front ++ part ++ back
    ∧ start = (entry.code ++ front).length ∧ next = start + part.length

/-- Behind the statements in front of one, every place has its pseudo-register. -/
theorem arranged_of_front {types : Table Register Ty} {entry : Entry} {front : List Instr}
    {before : State} (habi : abi ∈ Abi.all) (ht : f.Typed u.name types)
    (hscope : scopeOf u abi position f = .ok (scope, entry))
    (hbody : f.body = pre ++ s :: post)
    (hfront : Yields scope (bodyCode 0 pre) { strings := strings, drawn := entry.drawn }
      front before) :
    ∃ w, Arranged scope (openLocals .empty pre) before w := by
  obtain ⟨w, -, hstart, -⟩ := arranged_start ht hscope strings
  have hfit := copiesFit_of_scopeOf ht hscope
  obtain ⟨copies, -, rfl, -⟩ := scopeOf_eq_ok ht.recorded hscope
  have hjudged : ∀ front s' back, pre = front ++ s' :: back → s'.statement.Judged types
      (openLocals .empty front) (f.paramTable u.name) := fun front s' back heq =>
    ht.judged front s' (back ++ s :: post) (by rw [hbody, heq, List.append_assoc]; rfl)
  obtain ⟨grown, hadvances⟩ := advances_bodyCode habi hfit hstart hjudged hfront
  exact ⟨grown, hadvances.arranged⟩

/-- In the code of a checked function, a statement with planned copies makes them
along its edge, at once and from any state. Only results are written, and numbers
above those of all places. -/
theorem statement_takes_edge (habi : abi ∈ Abi.all) (hf : Checked u position f)
    (h : ofFunction u abi position f strings = (.ok p, interned))
    (hbody : f.body = pre ++ s :: post) {copies : List MergeCopy}
    (hplan : mergeCopies f = .ok copies) (hedge : ∃ c ∈ copies, c.edge = pre.length) :
    ∃ scope before start next,
      EmittedAt u abi position f strings p.code pre s scope before start next
      ∧ scope.copies = copies
      ∧ (∀ place q, Place.pseudo? scope before place = some q → q.id ≤ before.drawn)
      ∧ ∀ rt σ, TakesEdge rt p.code scope before.drawn pre.length start next σ
        s.statement := by
  obtain ⟨types, ht⟩ := hf.typed
  unfold ofFunction at h
  split at h
  · cases h
  next scope entry hscope =>
  split at h
  · cases h
  next body last hrun =>
  have hcode : p.code = entry.code ++ body ++ [.label (exitLabel position)] := by
    rw [← Except.ok.inj (Prod.mk.inj h).1]
  have hyields :
    Yields scope (bodyCode 0 f.body) { strings := strings, drawn := entry.drawn } body
      last := hrun
  have hplaced := placed_bodyCode hyields
  rw [hbody] at hyields
  obtain ⟨front, before, part, mid, back, hfront, hpart, hback, rfl⟩ :=
    parts_of_bodyCode hyields
  rw [Nat.zero_add] at hpart hback
  have hsplit :
      p.code = (entry.code ++ front) ++ part ++ (back ++ [.label (exitLabel position)]) := by
    simp [hcode]
  have hagree := copiesAgree_of_scopeOf hf hscope
  -- the registers have been drawn in front of the statement
  obtain ⟨grown, harranged⟩ := arranged_of_front habi ht hscope hbody hfront
  obtain ⟨copies', hplan', hshape, -⟩ := scopeOf_eq_ok ht.recorded hscope
  have hcopies : scope.copies = copies := by
    rw [hshape]
    exact Except.ok.inj (hplan'.symm.trans hplan)
  have hposition : exitLabel position = exitLabel scope.position := by rw [hshape]
  have hs : f.statements[pre.length]? = some s.statement := by
    simp [Function.statements, hbody]
  obtain ⟨c, hc, hedge⟩ := hedge
  have htarget : ∀ target, s.statement.jumpTarget? = some target →
      ∃ place, labelIndex? p.code (scope.label target) = some place := by
    intro target htarget
    refine Pseudo.exists_labelIndex? ?_
    rw [hcode, placedLabels_append, placedLabels_append, hplaced]
    exact List.mem_append_left _ (List.mem_append_right _ (label_mem_bodyLabels
      (hf.label_mem_of_target (List.mem_of_getElem? hs) htarget)))
  have hmention : ∃ l, s.statement.mentionedLabel? = some l := by
    obtain ⟨place, join, hplace, hinto⟩ := edgeInto_of_mem hf hplan hc
    rw [hedge] at hinto
    exact mentions_of_edgeInto hplace hinto hs
  refine ⟨scope, before, _, _,
    ⟨entry, front, part, mid, _, hscope, hfront, hpart, hsplit, rfl, rfl⟩,
    hcopies, fun place q hq => ?_, fun rt σ => ?_⟩
  · rw [← harranged.drawn]
    exact (harranged.has place hq).1
  · refine takesEdge_of_statementCode hagree (fun r t hr => ?_) hpart ?_ hsplit ?_ htarget
      hmention rt σ
    · rw [← harranged.drawn]
      exact (harranged.has_register hr).1
    · rw [Scope.copiesAt, hcopies]
      exact List.ne_nil_of_mem (List.mem_filter.2 ⟨hc, by simpa using hedge⟩)
    · rw [placedLabels_append, placed_bodyCode hback, List.mem_append, not_or]
      refine ⟨edgeLabel_not_mem_bodyLabels (Nat.lt_succ_self _), fun hexit => ?_⟩
      rw [hposition] at hexit
      exact edgeLabel_ne_exitLabel (List.mem_singleton.1 hexit)

end

/-- A loop in which one merge trails the other: on its way back the second takes what the first
has held so far, while the first takes another value. -/
def trail : Function :=
  ((do
      let c ← .getParam "c"
      let one ← .literal .int "1"
      let join ← .label
      .branch c true join
      let two ← .literal .int "2"
      .placeLabel join
      let first ← .choose one two
      let second ← .choose one first
      .branch c true join
      .returnValue second : Function.Build Unit).run
    { name := "trail", kind := .static, params := [⟨.boolean, "c"⟩], returns := .int }).2

/-- The types that the check finds for the registers of the function. -/
def trailTypes : Table Register Ty :=
  ⟨[(⟨0⟩, .boolean), (⟨1⟩, .int), (⟨2⟩, .int), (⟨3⟩, .int), (⟨4⟩, .int)]⟩

/-- The function after its check. -/
def trailChecked : Function := { trail with registerTypes := some trailTypes }

theorem checked_trail : Checked (unitOf trail) 0 trailChecked :=
  checked_of_single (n := "pkg/Choice") (f := trail) (by unfold Function.Drawn; decide) rfl rfl

/-- Where the condition is true and the first merge has held 1. -/
def trailState : Pseudo.State where
  regs _ := 0
  memory _ := 0
  flags := none
  calls := 0
  pseudo
    | 0 | 1 | 3 | 4 => 1
    | 2 => 2
    | _ => 0

/-- The statement that goes back. -/
def trailBack : Located := ⟨.branch ⟨0⟩ true ⟨0⟩, .generated⟩

/-- The way back moves 2 into the first result and 1 into the second. -/
theorem trail_takes_edge :
    ∃ p interned scope before start next place σ',
      ofFunction (unitOf trail) .systemV 0 trailChecked {} = (.ok p, interned)
      ∧ EmittedAt (unitOf trail) .systemV 0 trailChecked {} p.code (trail.body.take 7)
        trailBack scope
        before start next
      ∧ Reaches quiet p.code (start, trailState) (place, σ')
      ∧ σ'.value .long 3 = 2 ∧ σ'.value .long 4 = 1 := by
  obtain ⟨p, interned, h⟩ : ∃ p interned, ofFunction (unitOf trail) .systemV 0 trailChecked {}
      = (.ok p, interned) := by
    have hok : (ofFunction (unitOf trail) .systemV 0 trailChecked {}).1.toOption.isSome
        = true := by
      decide +kernel
    obtain ⟨p, hp⟩ := Option.isSome_iff_exists.1 hok
    cases hselected : ofFunction (unitOf trail) .systemV 0 trailChecked {} with
    | mk r interned =>
      rw [hselected] at hp
      cases r with
      | ok p => exact ⟨p, interned, rfl⟩
      | error e => cases hp
  have hplan : mergeCopies trailChecked = .ok
      [⟨2, ⟨1⟩, ⟨3⟩⟩, ⟨7, ⟨2⟩, ⟨3⟩⟩, ⟨4, ⟨2⟩, ⟨3⟩⟩, ⟨2, ⟨1⟩, ⟨4⟩⟩, ⟨7, ⟨3⟩, ⟨4⟩⟩,
        ⟨4, ⟨1⟩, ⟨4⟩⟩] := rfl
  obtain ⟨scope, before, start, next, hemitted, hcopies, -, hedge⟩ :=
    statement_takes_edge (by decide) checked_trail h
      (show trailChecked.body = trail.body.take 7 ++ trailBack :: trail.body.drop 8 from rfl)
        hplan
      ⟨⟨7, ⟨2⟩, ⟨3⟩⟩, by decide, rfl⟩
  have htypes : scope.types = trailTypes := by
    obtain ⟨entry, _, _, _, _, hscope, -⟩ := hemitted
    obtain ⟨_, -, rfl, -⟩ := scopeOf_eq_ok
      (show trailChecked.registerTypes = some trailTypes from rfl) hscope
    rfl
  obtain ⟨place, σ', -, hreaches, hmerged⟩ := hedge quiet trailState
  have hcarried : ∀ src dest : Register, ⟨7, src, dest⟩ ∈ scope.copiesAt 7 →
      trailTypes.get? dest = some .int →
      σ'.value .long dest.index = trailState.value .long src.index := by
    intro src dest hmem hdest
    obtain ⟨t, u, -, hu, -, hvalue⟩ := hmerged.carried _ hmem
    rw [htypes, hdest] at hu
    cases hu
    exact hvalue
  have hfirst : σ'.value .long 3 = trailState.value .long 2 :=
    hcarried ⟨2⟩ ⟨3⟩ (by rw [Scope.copiesAt, hcopies]; decide) rfl
  have hsecond : σ'.value .long 4 = trailState.value .long 3 :=
    hcarried ⟨3⟩ ⟨4⟩ (by rw [Scope.copiesAt, hcopies]; decide) rfl
  exact ⟨p, interned, scope, before, start, next, place, σ', h, hemitted, hreaches,
    hfirst, hsecond⟩

end Jil.Selection
