/-
Jil.Proofs.Layout — where expanded instructions lie.

The expansion of a stream is that of its parts in order (`expandAll_append`).
`startOf` is the index where the expansion of an instruction begins; labels are
found there (`labelIndex?_of_expandAll`), and straight code runs from one start
to the next (`reaches_of_execAll`). All of this holds wherever the expansion is
put, behind code that sets up a frame and in front of code without labels.
-/
import Jil.Proofs.Expanding

namespace Jil

/-! ## Last occurrences -/

/-- The last member that satisfies a test, with its index. -/
theorem exists_of_getLast?_filter {α : Type} {p : α → Bool} {l : List α} {k j : Nat} {x : α}
    (h : ((l.zipIdx k).filter fun e => p e.1).getLast? = some (x, j)) :
    ∃ pre post, l = pre ++ x :: post ∧ k + pre.length = j ∧ p x = true
    ∧ ∀ y ∈ post, p y = false := by
  induction l generalizing k with
  | nil => cases h
  | cons a l ih =>
    rw [List.zipIdx_cons, List.filter_cons] at h
    cases hlast : ((l.zipIdx (k + 1)).filter fun e => p e.1).getLast? with
    | some e =>
      have heq : e = (x, j) := by
        split at h
        · rw [List.getLast?_cons, hlast] at h
          exact Option.some.inj h
        · rw [hlast] at h
          exact Option.some.inj h
      obtain ⟨pre, post, rfl, hlength, hx, hpost⟩ := ih (heq ▸ hlast)
      exact ⟨a :: pre, post, rfl, by simp only [List.length_cons]; omega, hx, hpost⟩
    | none =>
      split at h
      · next ha =>
        rw [List.getLast?_cons, hlast] at h
        cases h
        refine ⟨[], l, rfl, rfl, ha, fun y hy => ?_⟩
        obtain ⟨n, hn⟩ := List.getElem?_of_mem hy
        have hnil := List.getLast?_eq_none_iff.1 hlast
        rw [List.filter_eq_nil_iff] at hnil
        have hmem : (y, j + 1 + n) ∈ l.zipIdx (j + 1) := by
          rw [List.mem_zipIdx_iff_le_and_getElem?_sub]
          refine ⟨by simp, ?_⟩
          simpa using hn
        simpa using hnil _ hmem
      · rw [hlast] at h
        cases h

/-- A member with none behind it that satisfies the test is the last one. -/
theorem getLast?_filter_append {α : Type} {p : α → Bool} (pre : List α) {x : α} {post : List α}
    (hx : p x = true) (hpost : ∀ y ∈ post, p y = false) :
    ((pre ++ x :: post).zipIdx.filter fun e => p e.1).getLast? = some (x, pre.length) := by
  have hnone : ((post.zipIdx (pre.length + 1)).filter fun e => p e.1) = [] := by
    rw [List.filter_eq_nil_iff]
    rintro ⟨y, n⟩ hy
    have := hpost y (List.fst_mem_of_mem_zipIdx hy)
    simpa using this
  rw [List.zipIdx_append, List.filter_append, List.zipIdx_cons, List.filter_cons]
  simp only [hx, if_true, Nat.zero_add, hnone]
  rw [List.getLast?_append]
  rfl

end Jil

namespace Jil.Machine

/-- Whether an instruction computes: it neither directs control nor works on the stack. -/
def Instr.computes : Instr → Bool
  | .jcc _ _ | .jmp _ | .label _ | .call _ | .callIndirect _ _ | .push _ | .pop _ | .leave
    | .ret => false
  | _ => true

theorem Instr.isLabel_of_computes {i : Instr} (h : i.computes = true) : i.isLabel = false := by
  cases i <;> first | rfl | cases h

/-! ## Straight code -/

section

variable {rt : Runtime} {code : List Instr} {index : Nat} {st after : State} {i : Instr}

/-- An instruction that has an effect is one that control only passes through. -/
theorem step_of_exec (hi : code[index]? = some i) (h : i.exec rt st = .ok after) :
    step rt code (index, st) = .ok (index + 1, after) := by
  unfold step
  simp only [hi]
  cases i <;> first | (simp only [h]; rfl) | cases h

theorem step_of_exec_eq_divide (hi : code[index]? = some i)
    (h : i.exec rt st = .error .divide) :
    step rt code (index, st) = .error .divide := by
  unfold step
  simp only [hi]
  cases i <;> first | (simp only [h]; rfl) | cases h

/-- Code that has an effect is run from its beginning to its end. -/
theorem reaches_of_execAll {front part back : List Instr}
    (h : Instr.execAll rt st part = .ok after) :
    Reaches rt (front ++ part ++ back) (front.length, st) (front.length + part.length,
      after) := by
  induction part generalizing front st with
  | nil =>
    cases h
    exact .refl _
  | cons i part ih =>
    cases hexec : i.exec rt st with
    | error e =>
      rw [Instr.execAll, hexec] at h
      cases h
    | ok mid =>
      rw [Instr.execAll, hexec] at h
      have hi : (front ++ i :: part ++ back)[front.length]? = some i := by simp
      have hrest : Reaches rt (front ++ [i] ++ part ++ back) ((front ++ [i]).length, mid)
          ((front ++ [i]).length + part.length, after) := ih h
      simp only [List.append_assoc, List.length_append, List.singleton_append,
        List.length_cons] at hrest hi ⊢
      rw [show front.length + (part.length + 1) = front.length + 1 + part.length by omega]
      exact .step (step_of_exec hi hexec) hrest

/-- Code that divides by zero is run up to the division. -/
theorem stops_of_execAll {front part back : List Instr}
    (h : Instr.execAll rt st part = .error .divide) :
    ∃ q, Reaches rt (front ++ part ++ back) (front.length, st) q
      ∧ step rt (front ++ part ++ back) q = .error .divide := by
  induction part generalizing front st with
  | nil => cases h
  | cons i part ih =>
    have hi : (front ++ i :: part ++ back)[front.length]? = some i := by simp
    cases hexec : i.exec rt st with
    | error e =>
      rw [Instr.execAll, hexec] at h
      cases h
      exact ⟨_, .refl _, step_of_exec_eq_divide hi hexec⟩
    | ok mid =>
      rw [Instr.execAll, hexec] at h
      obtain ⟨q, hreaches, hstop⟩ : ∃ q,
          Reaches rt (front ++ [i] ++ part ++ back) ((front ++ [i]).length, mid) q
            ∧ step rt (front ++ [i] ++ part ++ back) q = .error .divide := ih h
      simp only [List.append_assoc, List.length_append, List.length_singleton,
        List.singleton_append] at hreaches hstop
      refine ⟨q, ?_, ?_⟩
      · refine .step (step_of_exec hi hexec) ?_
        simpa using hreaches
      · simpa using hstop

end

end Jil.Machine

namespace Jil.Pseudo

open Jil.Machine (AluOp Runtime Size Stop)

section

variable {a : Assignment} {code rest : List Instr} {body : List Machine.Instr} {i : Instr}
  {part : List Machine.Instr} {index : Nat}

/-! ## Expansions in order -/

theorem expandAll_cons : expandAll a (i :: code) = .ok body ↔
    ∃ part rest, i.expand a = .ok part ∧ expandAll a code = .ok rest
    ∧ body = part ++ rest := by
  unfold expandAll
  rw [List.mapM_cons]
  constructor
  · intro h
    obtain ⟨parts, hparts, h⟩ := bind_eq_ok.1 h
    obtain ⟨part, hpart, hparts⟩ := bind_eq_ok.1 hparts
    obtain ⟨others, hothers, hparts⟩ := bind_eq_ok.1 hparts
    cases hparts
    cases h
    exact ⟨part, others.flatten, hpart, by rw [hothers]; rfl, rfl⟩
  · rintro ⟨part, rest, hpart, h, rfl⟩
    obtain ⟨others, hothers, h⟩ := bind_eq_ok.1 h
    cases h
    rw [hpart, hothers]
    rfl

theorem expandAll_append : expandAll a (code ++ rest) = .ok body ↔
    ∃ front back, expandAll a code = .ok front ∧ expandAll a rest = .ok back
      ∧ body = front ++ back := by
  induction code generalizing body with
  | nil =>
    constructor
    · intro h
      exact ⟨[], body, rfl, h, rfl⟩
    · rintro ⟨front, back, hfront, hback, rfl⟩
      cases hfront
      exact hback
  | cons i code ih =>
    simp only [List.cons_append, expandAll_cons, ih]
    constructor
    · rintro ⟨part, _, hpart, ⟨front, back, hfront, hback, rfl⟩, rfl⟩
      exact ⟨_, back, ⟨part, front, hpart, hfront, rfl⟩, hback, (List.append_assoc ..).symm⟩
    · rintro ⟨_, back, ⟨part, front, hpart, hfront, rfl⟩, hback, rfl⟩
      exact ⟨part, _, hpart, ⟨front, back, hfront, hback, rfl⟩, List.append_assoc ..⟩

/-- A stream can be expanded when its instructions can. -/
theorem exists_expandAll (h : ∀ i ∈ code, ∃ part, i.expand a = .ok part) :
    ∃ body, expandAll a code = .ok body := by
  induction code with
  | nil => exact ⟨[], rfl⟩
  | cons i code ih =>
    obtain ⟨part, hpart⟩ := h i List.mem_cons_self
    obtain ⟨rest, hrest⟩ := ih fun j hj => h j (List.mem_cons_of_mem _ hj)
    exact ⟨part ++ rest, expandAll_cons.2 ⟨part, rest, hpart, hrest, rfl⟩⟩

/-- Where the expansion of the instruction at an index begins: behind those in front of it. -/
def startOf (a : Assignment) (code : List Instr) (index : Nat) : Nat :=
  match expandAll a (code.take index) with
  | .ok front => front.length
  | .error _ => 0

/-- The expansion of one instruction in that of a stream. -/
theorem exists_split (h : expandAll a code = .ok body) (hi : code[index]? = some i) :
    ∃ front part back, i.expand a = .ok part ∧ body = front ++ part ++ back
      ∧ startOf a code index = front.length
      ∧ startOf a code (index + 1) = front.length + part.length := by
  have hcode : code = code.take index ++ (i :: code.drop (index + 1)) := by
    obtain ⟨hlt, rfl⟩ := List.getElem?_eq_some_iff.1 hi
    rw [List.getElem_cons_drop, List.take_append_drop]
  rw [hcode] at h
  obtain ⟨front, _, hfront, hrest, rfl⟩ := expandAll_append.1 h
  obtain ⟨part, back, hpart, hback, rfl⟩ := expandAll_cons.1 hrest
  have hnext : expandAll a (code.take (index + 1)) = .ok (front ++ part) := by
    rw [List.take_add_one, hi]
    refine expandAll_append.2 ⟨front, part, hfront, ?_, rfl⟩
    exact expandAll_cons.2 ⟨part, [], hpart, rfl, (List.append_nil part).symm⟩
  refine ⟨front, part, back, hpart, (List.append_assoc ..).symm, ?_, ?_⟩
  · unfold startOf
    rw [hfront]
  · unfold startOf
    rw [hnext]
    exact List.length_append

/-! ## Parts that compute -/

theorem computes_of_resolve {o : Operand} {before : List Machine.Instr} {mo : Machine.Operand}
    (h : o.resolve a = .ok (before, mo)) : ∀ j ∈ before, j.computes = true := by
  intro j hj
  obtain ⟨offset, rfl⟩ := load_of_resolve h hj
  rfl

theorem computes_of_expandAlu {op : AluOp} {s : Size} {src dest : Machine.Operand} :
    ∀ j ∈ expandAlu op s src dest, j.computes = true := by
  intro j hj
  unfold expandAlu at hj
  split at hj
  · simp only [List.mem_cons, List.not_mem_nil, or_false] at hj
    rcases hj with rfl | rfl | rfl <;> rfl
  · split at hj
    · simp only [List.mem_cons, List.not_mem_nil, or_false] at hj
      rcases hj with rfl | rfl <;> rfl
    · rw [List.mem_singleton] at hj
      subst hj
      rfl

theorem computes_of_expandInto {s : Size} {operation : Machine.Reg → Machine.Instr}
    {dest : Machine.Operand} (h : ∀ r, (operation r).computes = true) :
    ∀ j ∈ expandInto s operation dest, j.computes = true := by
  intro j hj
  unfold expandInto at hj
  split at hj
  · rw [List.mem_singleton] at hj
    subst hj
    exact h _
  · simp only [List.mem_cons, List.not_mem_nil, or_false] at hj
    rcases hj with rfl | rfl
    · exact h _
    · rfl

theorem computes_of_expandUnary {o : Operand} {operation : Machine.Operand → Machine.Instr}
    (hpart : expandUnary a o operation = .ok part) (h : ∀ mo, (operation mo).computes = true) :
    ∀ j ∈ part, j.computes = true := by
  obtain ⟨⟨before, mo⟩, hresolve, hpart⟩ := bind_eq_ok.1 hpart
  cases hpart
  exact List.forall_mem_append.2
    ⟨computes_of_resolve hresolve, List.forall_mem_singleton.2 (h mo)⟩

/-- The parts of the expansion of an instruction with a source and a destination. -/
theorem computes_of_append {src dest : Operand} {before between rest : List Machine.Instr}
    {mo mo' : Machine.Operand} (hsrc : src.resolve a = .ok (before, mo))
    (hdest : dest.resolve a = .ok (between, mo')) (hrest : ∀ j ∈ rest, j.computes = true) :
    ∀ j ∈ before ++ between ++ rest, j.computes = true :=
  List.forall_mem_append.2
    ⟨List.forall_mem_append.2 ⟨computes_of_resolve hsrc, computes_of_resolve hdest⟩, hrest⟩

/-- Whether an instruction directs control. -/
def Instr.directs : Instr → Bool
  | .jcc _ _ | .jmp _ | .label _ | .call _ | .callIndirect _ _ => true
  | _ => false

/-- The other instructions are expanded to instructions that compute. -/
theorem computes_of_expand (hpart : i.expand a = .ok part) (hi : i.directs = false) :
    ∀ j ∈ part, j.computes = true := by
  cases i with
  | alu op s src dest =>
    obtain ⟨⟨before, mo⟩, hsrc, hpart⟩ := bind_eq_ok.1 hpart
    obtain ⟨⟨between, mo'⟩, hdest, hpart⟩ := bind_eq_ok.1 hpart
    cases hpart
    exact computes_of_append hsrc hdest computes_of_expandAlu
  | extend signed narrow wide src dest | lea src dest =>
    obtain ⟨⟨before, mo⟩, hsrc, hpart⟩ := bind_eq_ok.1 hpart
    obtain ⟨⟨between, mo'⟩, hdest, hpart⟩ := bind_eq_ok.1 hpart
    cases hpart
    exact computes_of_append hsrc hdest (computes_of_expandInto fun _ => rfl)
  | neg s dest | not s dest | shift op s dest | idiv s divisor | setcc cond dest =>
    exact computes_of_expandUnary hpart fun _ => rfl
  | signExtendAccumulator s =>
    cases hpart
    exact List.forall_mem_singleton.2 rfl
  | _ => cases hi

/-! ## Labels -/

/-- Only labels are expanded to labels. -/
theorem isLabel_of_expand (hpart : i.expand a = .ok part) (hi : i.placedLabel? = none) :
    ∀ j ∈ part, j.isLabel = false := by
  cases hdirects : i.directs with
  | false =>
    exact fun j hj =>
      Machine.Instr.isLabel_of_computes (computes_of_expand hpart hdirects j hj)
  | true =>
    cases i with
    | label name => cases hi
    | jcc cond target | jmp target | call symbol | callIndirect base disp =>
      cases hpart
      exact List.forall_mem_singleton.2 rfl
    | _ => cases hdirects

/-- A label that a stream does not place is not in its expansion. -/
theorem not_mem_expandAll {name : String} (h : expandAll a code = .ok body)
    (hcode : ∀ i ∈ code, i.placedLabel? ≠ some name) : .label name ∉ body := by
  induction code generalizing body with
  | nil =>
    cases h
    exact List.not_mem_nil
  | cons i code ih =>
    obtain ⟨part, rest, hpart, hrest, rfl⟩ := expandAll_cons.1 h
    intro hmem
    rcases List.mem_append.1 hmem with hmem | hmem
    · cases hplaced : i.placedLabel? with
      | none => cases isLabel_of_expand hpart hplaced _ hmem
      | some other =>
        cases i with
        | label name' =>
          cases hpart
          rw [List.mem_singleton] at hmem
          cases hmem
          exact hcode _ List.mem_cons_self rfl
        | _ => cases hplaced
    · exact ih hrest (fun j hj => hcode j (List.mem_cons_of_mem _ hj)) hmem

/-- Labels are found where their expansions begin. -/
theorem labelIndex?_of_expandAll {name : String} {front back : List Machine.Instr}
    (h : expandAll a code = .ok body) (hback : .label name ∉ back)
    (hindex : labelIndex? code name = some index) :
    Machine.labelIndex? (front ++ body ++ back) name
      = some (front.length + startOf a code index) := by
  obtain ⟨⟨i, k⟩, hlast, rfl⟩ := Option.map_eq_some_iff.1 hindex
  obtain ⟨pre, post, rfl, hlength, hi, hpost⟩ :=
    exists_of_getLast?_filter (p := fun i : Instr => decide (i.placedLabel? = some name)) hlast
  rw [Nat.zero_add] at hlength
  obtain ⟨before, _, hbefore, hrest, rfl⟩ := expandAll_append.1 h
  obtain ⟨part, after, hpart, hafter, rfl⟩ := expandAll_cons.1 hrest
  have hpart' : part = [.label name] := by
    cases i with
    | label name' =>
      have heq : name' = name := by simpa [Instr.placedLabel?] using hi
      rw [← heq]
      cases hpart
      rfl
    | _ => simp [Instr.placedLabel?] at hi
  subst hpart'
  have hafter' : .label name ∉ after :=
    not_mem_expandAll hafter fun j hj => by simpa using hpost j hj
  have hstart : startOf a (pre ++ i :: post) k = before.length := by
    unfold startOf
    rw [← hlength, List.take_left, hbefore]
  have hbody : front ++ (before ++ ([.label name] ++ after)) ++ back
      = (front ++ before) ++ Machine.Instr.label name :: (after ++ back) := by simp
  have hlabel : ∀ j ∈ after ++ back, decide (j = Machine.Instr.label name) = false := by
    intro j hj
    rw [decide_eq_false_iff_not]
    rintro rfl
    rcases List.mem_append.1 hj with hj | hj
    · exact hafter' hj
    · exact hback hj
  unfold Machine.labelIndex?
  rw [hstart, hbody, getLast?_filter_append _ (by simp) hlabel]
  simp

end

end Jil.Pseudo
