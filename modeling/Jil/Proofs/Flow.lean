/-
Jil.Proofs.Flow — control flow in streams of instructions.

`successors` are the indices where control can be after an instruction, and
`Reachable` is what they span from the entry. `Needed` is the backward view,
stated once for whatever an instruction can read and write: something is
needed at an index when some path from there reads it before writing it.
`LiveIn` is the instance for pseudo-registers.

A jump goes to the last place of its label, which is what `labelIndex?`
answers; `getElem?_of_labelIndex?` reads the label back from the stream.
-/
import Jil.Pseudo.Liveness

namespace Jil.Pseudo

/-! ## Results -/

/-- A computation in two parts. -/
theorem bind_eq_ok {ε α β : Type} {x : Except ε α} {f : α → Except ε β} {b : β} :
    x >>= f = .ok b ↔ ∃ a, x = .ok a ∧ f a = .ok b := by
  cases x with
  | error e | ok a => simp [bind, Except.bind]

/-- A computation that depends on a condition. -/
theorem ite_eq_ok {ε α : Type} {c : Prop} [Decidable c] {x y : Except ε α} {a : α} :
    (if c then x else y) = .ok a ↔ c ∧ x = .ok a ∨ ¬ c ∧ y = .ok a := by
  by_cases h : c <;> simp [h]

/-- When every member of a list gives a result, the results stand in the order of the
members. -/
theorem getElem?_of_mapM_eq_ok {ε α β : Type} {f : α → Except ε β} {l : List α}
    {results : List β} (h : l.mapM f = .ok results) :
    results.length = l.length ∧
      ∀ (n : Nat) (a : α), l[n]? = some a → ∃ b, results[n]? = some b ∧ f a = .ok b := by
  induction l generalizing results with
  | nil =>
    rw [List.mapM_nil] at h
    cases h
    exact ⟨rfl, by simp⟩
  | cons a rest ih =>
    rw [List.mapM_cons] at h
    cases hf : f a with
    | error e => rw [hf] at h; cases h
    | ok b =>
      cases hrest : rest.mapM f with
      | error e => rw [hf, hrest] at h; cases h
      | ok bs =>
        rw [hf, hrest] at h
        cases h
        obtain ⟨hlen, hget⟩ := ih hrest
        refine ⟨by simp [hlen], fun n x hx => ?_⟩
        cases n with
        | zero =>
          simp only [List.getElem?_cons_zero, Option.some.injEq] at hx
          exact ⟨b, rfl, by rw [← hx, hf]⟩
        | succ n =>
          rw [List.getElem?_cons_succ] at hx ⊢
          exact hget n x hx

/-- When every member of a list is found, what is found is what the members give. -/
theorem exists_of_mapM_eq_some {α β : Type} {f : α → Option β} {l : List α} {found : List β}
    (h : l.mapM f = some found) :
    (∀ a ∈ l, ∃ b ∈ found, f a = some b) ∧ ∀ b ∈ found, ∃ a ∈ l, f a = some b := by
  induction l generalizing found with
  | nil =>
    cases h
    exact ⟨List.forall_mem_nil _, List.forall_mem_nil _⟩
  | cons a l ih =>
    simp only [List.mapM_cons, bind, Option.bind_eq_some_iff, pure, Option.some.injEq] at h
    obtain ⟨b, hb, rest, hrest, rfl⟩ := h
    obtain ⟨hleft, hright⟩ := ih hrest
    constructor
    · refine List.forall_mem_cons.2 ⟨⟨b, List.mem_cons_self, hb⟩, fun a ha => ?_⟩
      obtain ⟨b, hb, hf⟩ := hleft a ha
      exact ⟨b, List.mem_cons_of_mem _ hb, hf⟩
    · refine List.forall_mem_cons.2 ⟨⟨a, List.mem_cons_self, hb⟩, fun b hb => ?_⟩
      obtain ⟨a, ha, hf⟩ := hright b hb
      exact ⟨a, List.mem_cons_of_mem _ ha, hf⟩

/-! ## Labels -/

/-- The index that a label is looked up at holds the label. -/
theorem getElem?_of_labelIndex? {code : List Instr} {name : String} {index : Nat}
    (h : labelIndex? code name = some index) : code[index]? = some (.label name) := by
  unfold labelIndex? at h
  obtain ⟨⟨i, k⟩, hlast, rfl⟩ := Option.map_eq_some_iff.1 h
  have hmem := List.mem_of_getLast? hlast
  simp only [List.mem_filter, List.mem_zipIdx_iff_getElem?, decide_eq_true_eq] at hmem
  obtain ⟨hget, hplaced⟩ := hmem
  cases i with
  | label name' =>
    simp only [Instr.placedLabel?, Option.some.injEq] at hplaced
    rw [hget, hplaced]
  | _ => simp [Instr.placedLabel?] at hplaced

/-! ## Successors -/

/-- Where control can be after the instruction at `index`. -/
def successors (code : List Instr) (index : Nat) : List Nat :=
  match code[index]? with
  | none => []
  | some (.jmp target) => (labelIndex? code target).toList
  | some (.jcc _ target) => (index + 1) :: (labelIndex? code target).toList
  | some _ => [index + 1]

/-- The indices that control can come to from the entry. -/
inductive Reachable (code : List Instr) : Nat → Prop
  | entry : Reachable code 0
  | step {i j : Nat} : Reachable code i → j ∈ successors code i → Reachable code j

/-- Control goes to the next index, unless the instruction jumps. -/
theorem jumpTarget?_of_mem_successors {code : List Instr} {i j : Nat} {instr : Instr}
    (hi : code[i]? = some instr) (hj : j ∈ successors code i) :
    j = i + 1 ∨ ∃ name, instr.jumpTarget? = some name ∧ labelIndex? code name = some j := by
  unfold successors at hj
  rw [hi] at hj
  cases instr with
  | jmp target => exact Or.inr ⟨target, rfl, by simpa using hj⟩
  | jcc cond target =>
    rcases List.mem_cons.1 hj with rfl | hj
    · exact Or.inl rfl
    · exact Or.inr ⟨target, rfl, by simpa using hj⟩
  | _ => exact Or.inl (by simpa using hj)

/-- An instruction that control leaves is there. -/
theorem exists_of_mem_successors {code : List Instr} {i j : Nat} (hj : j ∈ successors code i) :
    ∃ instr, code[i]? = some instr := by
  unfold successors at hj
  cases h : code[i]? with
  | none => rw [h] at hj; simp at hj
  | some instr => exact ⟨instr, rfl⟩

/-- A place that control comes to from elsewhere than the instruction in front of it is a
label. -/
theorem label_of_mem_successors {code : List Instr} {i j : Nat} (hj : j ∈ successors code i)
    (hne : j ≠ i + 1) : ∃ name, code[j]? = some (.label name) := by
  obtain ⟨instr, hi⟩ := exists_of_mem_successors hj
  rcases jumpTarget?_of_mem_successors hi hj with h | ⟨name, -, h⟩
  · exact absurd h hne
  · exact ⟨name, getElem?_of_labelIndex? h⟩

/-- Control comes to what is no label from the instruction in front of it. -/
theorem eq_succ_of_mem_successors {code : List Instr} {i j : Nat} (hj : j ∈ successors code i)
    (hlabel : ∀ name, code[j]? ≠ some (.label name)) : j = i + 1 := by
  apply Decidable.byContradiction
  intro hne
  obtain ⟨name, hname⟩ := label_of_mem_successors hj hne
  exact hlabel name hname

/-! ## What is read before it is written -/

/-- Some path from an index reads something before it writes it. -/
inductive Needed (code : List Instr) (reads writes : Nat → Instr → Prop) : Nat → Prop
  | read {i : Nat} {instr : Instr} :
      code[i]? = some instr → reads i instr → Needed code reads writes i
  | carried {i j : Nat} {instr : Instr} :
      code[i]? = some instr → ¬ writes i instr → j ∈ successors code i →
      Needed code reads writes j → Needed code reads writes i

/-! ## Pseudo-registers -/

namespace Instr

/-- The instruction reads the pseudo-register with this number. -/
def Uses (i : Instr) (id : Nat) : Prop := ∃ p, .uses p ∈ i.effects ∧ p.id = id

/-- The instruction writes the pseudo-register with this number. -/
def Defines (i : Instr) (id : Nat) : Prop := ∃ p, .defines p ∈ i.effects ∧ p.id = id

/-- The instruction reads or writes the pseudo-register with this number. -/
def Touches (i : Instr) (id : Nat) : Prop :=
  ∃ e ∈ i.effects, ∃ p, e.pseudo? = some p ∧ p.id = id

theorem uses_iff {i : Instr} {id : Nat} : i.Uses id ↔ id ∈ i.used.map Reg.id := by
  simp only [used, List.mem_map, List.mem_filterMap]
  constructor
  · rintro ⟨p, hp, hid⟩
    exact ⟨p, ⟨_, hp, rfl⟩, hid⟩
  · rintro ⟨p, ⟨e, he, hep⟩, hid⟩
    cases e <;> simp [Effect.used?] at hep
    subst hep
    exact ⟨_, he, hid⟩

theorem defines_iff {i : Instr} {id : Nat} : i.Defines id ↔ id ∈ i.defined.map Reg.id := by
  simp only [defined, List.mem_map, List.mem_filterMap]
  constructor
  · rintro ⟨p, hp, hid⟩
    exact ⟨p, ⟨_, hp, rfl⟩, hid⟩
  · rintro ⟨p, ⟨e, he, hep⟩, hid⟩
    cases e <;> simp [Effect.defined?] at hep
    subst hep
    exact ⟨_, he, hid⟩

instance (i : Instr) (id : Nat) : Decidable (i.Uses id) := decidable_of_iff' _ uses_iff

instance (i : Instr) (id : Nat) : Decidable (i.Defines id) := decidable_of_iff' _ defines_iff

theorem Uses.touches {i : Instr} {id : Nat} (h : i.Uses id) : i.Touches id := by
  obtain ⟨p, hp, hid⟩ := h
  exact ⟨_, hp, p, rfl, hid⟩

theorem Defines.touches {i : Instr} {id : Nat} (h : i.Defines id) : i.Touches id := by
  obtain ⟨p, hp, hid⟩ := h
  exact ⟨_, hp, p, rfl, hid⟩

theorem Touches.uses_or_defines {i : Instr} {id : Nat} (h : i.Touches id) :
    i.Uses id ∨ i.Defines id := by
  obtain ⟨e, he, p, hp, hid⟩ := h
  cases e with
  | uses q =>
    simp only [Effect.pseudo?, Option.some.injEq] at hp
    exact Or.inl ⟨q, he, by rw [hp, hid]⟩
  | defines q =>
    simp only [Effect.pseudo?, Option.some.injEq] at hp
    exact Or.inr ⟨q, he, by rw [hp, hid]⟩
  | touches r => simp [Effect.pseudo?] at hp

/-- A label touches nothing. -/
theorem not_touches_label (name : String) (id : Nat) : ¬ (Instr.label name).Touches id := by
  rintro ⟨e, he, -⟩
  simp [effects] at he

/-- A call touches no pseudo-register. -/
theorem not_touches_of_isCall {i : Instr} (h : i.isCall = true) (id : Nat) :
    ¬ i.Touches id := by
  rintro ⟨e, he, p, hp, -⟩
  cases i <;> simp [isCall] at h <;> simp [effects] at he
  subst he
  simp [Effect.pseudo?] at hp

end Instr

/-- Some path from an index reads the pseudo-register with number `id` before it writes it. -/
def LiveIn (code : List Instr) (id : Nat) : Nat → Prop :=
  Needed code (fun _ i => i.Uses id) (fun _ i => i.Defines id)

/-- A value that is needed somewhere is read somewhere. -/
theorem LiveIn.exists_uses {code : List Instr} {id i : Nat} (h : LiveIn code id i) :
    ∃ (k : Nat) (instr : Instr), code[k]? = some instr ∧ instr.Uses id := by
  induction h with
  | read hi hr => exact ⟨_, _, hi, hr⟩
  | carried _ _ _ _ ih => exact ih

end Jil.Pseudo
