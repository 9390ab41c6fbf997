/-
Jil.Proofs.Allocated — streams with an allocation.

`Allocated` collects what is known about a stream and an allocation for it, and
the lemmas below it say what the simulation needs. Some registers are never
handed out: those that expanded code needs for itself, the frame pointer, and
every register that the stream names, since arguments serve as temporaries only
behind the last one that is touched (`not_mem_initialPool`). Two values that
meet have places of their own (`register_apart`, `slot_apart`), and slots lie in
the frame (`frame_of_slot`).
-/
import Jil.Proofs.Confinement
import Jil.Proofs.Interference
import Jil.Proofs.Layout

namespace Jil

/-- A maximum is at least what it is taken of. -/
theorem le_foldl_max {l : List Nat} {start n : Nat} (h : n = start ∨ n ∈ l) :
    n ≤ l.foldl max start := by
  induction l generalizing start n with
  | nil =>
    rcases h with rfl | h
    · exact Nat.le_refl _
    · cases h
  | cons x l ih =>
    rw [List.foldl_cons]
    rcases h with rfl | h
    · exact Nat.le_trans (Nat.le_max_left n x) (ih (.inl rfl))
    · rcases List.mem_cons.1 h with rfl | h
      · exact Nat.le_trans (Nat.le_max_right start n) (ih (.inl rfl))
      · exact ih (.inr h)

/-! ## Registers that are not handed out -/

namespace Allocation

open Machine (Abi Reg)
open Pseudo (Liveness Named)

/-- An argument that is touched serves as no temporary. -/
theorem not_mem_temporaries {abi : Abi} (habi : abi ∈ Abi.all) {touched : Machine.RegSet}
    {r : Reg} (htouched : touched.contains r = true) (hr : r ∈ abi.arguments) :
    r ∉ temporaries abi touched := by
  have hall : ∀ abi ∈ Abi.all, ∀ r ∈ abi.arguments, r ∉ abi.temporaries
      ∧ (abi.argumentPosition? r).isSome = true
      ∧ r ∉ abi.arguments.drop ((abi.argumentPosition? r).getD 0) := by decide
  obtain ⟨hother, hsome, hdrop⟩ := hall abi habi r hr
  obtain ⟨position, hposition⟩ := Option.isSome_iff_exists.1 hsome
  rw [hposition] at hdrop
  have hmem : position ∈ touched.toList.filterMap abi.argumentPosition? :=
    List.mem_filterMap.2 ⟨r, (Machine.RegSet.mem_toList touched r).2 htouched, hposition⟩
  intro hmem'
  rcases List.mem_append.1 hmem' with h | h
  · exact hother h
  · exact hdrop ((List.drop_sublist_drop_left _ (le_foldl_max (.inr hmem))).subset h)

/-- Neither the frame pointer nor a register that expanded code uses is handed out. -/
theorem not_mem_initialPool_of_scratch {abi : Abi} (habi : abi ∈ Abi.all) (live : Liveness)
    {r : Reg} (hr : r = Machine.valueScratch ∨ r = Machine.addressScratch ∨ r = .rbp) :
    r ∉ initialPool abi live := by
  have hall : ∀ abi ∈ Abi.all, ∀ r ∈ [Machine.valueScratch, Machine.addressScratch, Reg.rbp],
      r ∉ abi.temporaries ++ abi.arguments ++ abi.allocatablePreserved := by decide
  intro hmem
  exact hall abi habi r (by simpa using hr) ((initialPool_sublist abi live).subset hmem)

/-- A register that streams name is not handed out when it is touched. -/
theorem not_mem_initialPool {abi : Abi} (habi : abi ∈ Abi.all) {live : Liveness} {r : Reg}
    (htouched : live.touched.contains r = true) (hr : Named abi r) :
    r ∉ initialPool abi live := by
  rcases hr with hr | hr | hr
  · have hall : ∀ abi ∈ Abi.all, ∀ r ∈ abi.arguments, r ∉ abi.allocatablePreserved := by decide
    intro hmem
    rcases List.mem_append.1 hmem with h | h
    · exact not_mem_temporaries habi htouched hr h
    · exact hall abi habi r hr h
  · exact not_mem_initialPool_of_scratch habi live (.inl hr)
  · exact not_mem_initialPool_of_scratch habi live (.inr (.inl hr))

namespace Spec

variable {abi : Abi} {live : Liveness} {a : Allocation} {id : Nat} {r : Reg}

/-- Registers that are touched hold no pseudo-register, -/
theorem ne_reg_of_touched (h : a.Spec abi live) (habi : abi ∈ Abi.all)
    (htouched : live.touched.contains r = true) (hr : Named abi r) :
    a.assignment id ≠ some (.reg r) := by
  intro ha
  obtain ⟨v, hv, rfl⟩ := (h.located id).1 ⟨_, ha⟩
  exact not_mem_initialPool habi htouched hr (h.drawn v hv r ha)

/-- and neither do those that expanded code needs. -/
theorem ne_reg_of_scratch (h : a.Spec abi live) (habi : abi ∈ Abi.all)
    (hr : r = Machine.valueScratch ∨ r = Machine.addressScratch ∨ r = .rbp) :
    a.assignment id ≠ some (.reg r) := by
  intro ha
  obtain ⟨v, hv, rfl⟩ := (h.located id).1 ⟨_, ha⟩
  exact not_mem_initialPool_of_scratch habi live hr (h.drawn v hv r ha)

theorem unscratched (h : a.Spec abi live) (habi : abi ∈ Abi.all) :
    Pseudo.Unscratched a.assignment := by
  refine fun id r ha => ⟨?_, ?_, ?_⟩
  · rintro rfl
    exact h.ne_reg_of_scratch habi (.inl rfl) ha
  · rintro rfl
    exact h.ne_reg_of_scratch habi (.inr (.inl rfl)) ha
  · rintro rfl
    exact h.ne_reg_of_scratch habi (.inr (.inr rfl)) ha

end Spec

end Allocation

namespace Pseudo

open Jil.Machine (Abi Memory Runtime Size Word addressScratch valueScratch)

/-! ## Registers that are touched -/

section

variable {i : Instr} {r : Machine.Reg} {s : Size} {abi : Abi} {K : Reg → Prop} {a : Assignment}

theorem Operand.touches_of_baseReads {o : Operand} (h : (r, s) ∈ o.baseReads) :
    .touches r ∈ o.readEffects ∧ .touches r ∈ o.writeEffects := by
  cases o with
  | fixedIndirect base disp =>
    simp only [Operand.baseReads, List.mem_singleton, Prod.mk.injEq] at h
    rw [h.1]
    exact ⟨List.mem_cons_self, List.mem_cons_self⟩
  | _ => cases h

theorem Operand.touches_of_fixedReads {o : Operand} {size : Size}
    (h : (r, s) ∈ o.fixedReads size) :
    .touches r ∈ o.readEffects := by
  cases o with
  | fixed x =>
    simp only [Operand.fixedReads, List.mem_singleton, Prod.mk.injEq] at h
    rw [h.1]
    exact List.mem_cons_self
  | _ => exact (Operand.touches_of_baseReads h).1

namespace Instr

theorem mem_touched : r ∈ i.touched ↔ .touches r ∈ i.effects := by
  unfold touched
  rw [List.mem_filterMap]
  constructor
  · rintro ⟨e, he, hr⟩
    cases e with
    | touches x =>
      cases hr
      exact he
    | _ => cases hr
  · intro h
    exact ⟨_, h, rfl⟩

/-- A hardware register that is read is touched. -/
theorem mem_touched_of_fixedReads (h : (r, s) ∈ i.fixedReads) : r ∈ i.touched := by
  rw [mem_touched]
  cases i with
  | alu op size src dest =>
    simp only [fixedReads, effects, List.mem_append] at h ⊢
    rcases h with h | h
    · exact .inl (.inl (Operand.touches_of_fixedReads h))
    · cases op <;> simp only [Machine.AluOp.readsDestination,
        Machine.AluOp.writesDestination] at h ⊢
      all_goals first
        | exact .inl (.inr (Operand.touches_of_fixedReads h))
        | exact .inr (Operand.touches_of_baseReads h).2
  | extend signed narrow wide src dest =>
    rcases List.mem_append.1 h with h | h
    · exact List.mem_append_left _ (Operand.touches_of_fixedReads h)
    · exact List.mem_append_right _ (Operand.touches_of_baseReads h).2
  | lea src dest =>
    rcases List.mem_append.1 h with h | h
    · exact List.mem_append_left _ (Operand.touches_of_baseReads h).1
    · exact List.mem_append_right _ (Operand.touches_of_baseReads h).2
  | neg size dest | not size dest =>
    exact List.mem_append_left _ (Operand.touches_of_fixedReads h)
  | shift op size dest =>
    simp only [fixedReads, effects, List.mem_cons, List.mem_append, Prod.mk.injEq] at h ⊢
    rcases h with ⟨rfl, -⟩ | h
    · exact .inl (.inl (.inl rfl))
    · exact .inl (.inr (Operand.touches_of_fixedReads h))
  | idiv size divisor =>
    simp only [fixedReads, effects, List.mem_cons, List.mem_append, Prod.mk.injEq] at h ⊢
    rcases h with ⟨rfl, -⟩ | ⟨rfl, -⟩ | h
    · exact .inl (.inl rfl)
    · exact .inl (.inr (.inl rfl))
    · exact .inr (Operand.touches_of_fixedReads h)
  | signExtendAccumulator size =>
    simp only [fixedReads, List.mem_singleton, Prod.mk.injEq] at h
    rw [h.1]
    exact List.mem_cons_self
  | setcc cond dest => exact (Operand.touches_of_baseReads h).2
  | callIndirect base disp =>
    simp only [fixedReads, List.mem_singleton, Prod.mk.injEq] at h
    rw [h.1]
    exact List.mem_cons_self
  | _ => cases h

/-- A hardware register that is written is touched. -/
theorem mem_touched_of_fixedWrite? (h : i.fixedWrite? r = some s) : r ∈ i.touched := by
  rw [mem_touched]
  unfold fixedWrite? at h
  split at h
  · next op size src d =>
    obtain ⟨⟨hwrites, rfl⟩, -⟩ := Option.ite_none_right_eq_some.1 h
    simp [effects, hwrites, Operand.writeEffects]
  · obtain ⟨rfl, -⟩ := Option.ite_none_right_eq_some.1 h
    simp [effects, Operand.writeEffects]
  · obtain ⟨rfl, -⟩ := Option.ite_none_right_eq_some.1 h
    simp [effects, Operand.writeEffects]
  · obtain ⟨rfl, -⟩ := Option.ite_none_right_eq_some.1 h
    simp [effects, Operand.writeEffects]
  · obtain ⟨rfl, -⟩ := Option.ite_none_right_eq_some.1 h
    simp [effects, Operand.writeEffects]
  · obtain ⟨rfl, -⟩ := Option.ite_none_right_eq_some.1 h
    simp [effects, Operand.writeEffects]
  · obtain ⟨rfl, -⟩ := Option.ite_none_right_eq_some.1 h
    simp [effects, Operand.writeEffects]
  · obtain ⟨rfl | rfl, -⟩ := Option.ite_none_right_eq_some.1 h
    · simp [effects]
    · simp [effects]
  · obtain ⟨rfl, -⟩ := Option.ite_none_right_eq_some.1 h
    simp [effects]
  · cases h

/-- A hardware register that a value is put into is touched. -/
theorem mem_touched_of_loads? (h : i.loads? = some (r, s)) : r ∈ i.touched := by
  rw [mem_touched]
  unfold loads? at h
  split at h
  · cases h
    simp [effects, Machine.AluOp.writesDestination, Operand.writeEffects]
  · cases h
    simp [effects, Operand.writeEffects]
  · cases h
    simp [effects, Operand.writeEffects]
  · cases h

/-- What expanded code needs for itself are the scratch registers. -/
theorem eq_scratch_of_spoils (h : i.spoils r = true) :
    r = valueScratch ∨ r = addressScratch := by
  unfold spoils at h
  split at h
  · simp only [Bool.or_eq_true, Bool.and_eq_true, decide_eq_true_eq] at h
    exact h.imp (fun h => h.1.1) fun h => h.1
  · simp only [Bool.or_eq_true, Bool.and_eq_true, decide_eq_true_eq] at h
    exact h.imp (fun h => h.1) fun h => h.1
  · simp only [Bool.or_eq_true, Bool.and_eq_true, decide_eq_true_eq] at h
    exact h.imp (fun h => h.1) fun h => h.1
  · cases h

end Instr

/-- A register that is awaited is touched somewhere. -/
theorem exists_touched_of_awaited {code : List Instr} {index : Nat}
    (h : Awaited abi code r s index) : ∃ i ∈ code, r ∈ i.touched := by
  induction h with
  | @read index i hi hread =>
    rcases hread with hread | ⟨-, k, -, hload, -⟩
    · exact ⟨i, List.mem_of_getElem? hi, Instr.mem_touched_of_fixedReads hread⟩
    · obtain ⟨j, hj, hload⟩ := Option.bind_eq_some_iff.1 hload
      exact ⟨j, List.mem_of_getElem? hj, Instr.mem_touched_of_loads? hload⟩
  | carried _ _ _ _ ih => exact ih

/-! ## Operands with locations -/

/-- The pseudo-register in an operand. -/
def Operand.pseudo? : Operand → Option Reg
  | .pseudo p | .indirect p _ => some p
  | _ => none

theorem exists_resolve {o : Operand}
    (h : ∀ p, o.pseudo? = some p → ∃ location, a p.id = some location) :
    ∃ result, o.resolve a = .ok result := by
  cases o with
  | pseudo p =>
    obtain ⟨location, ha⟩ := h p rfl
    exact ⟨_, resolve_pseudo ha⟩
  | indirect base disp =>
    obtain ⟨location, ha⟩ := h base rfl
    simp only [Operand.resolve, location_of_eq_some ha]
    cases location with
    | reg r | slot offset => exact ⟨_, rfl⟩
  | _ => exact ⟨_, rfl⟩

/-- The pseudo-register in an operand that is read or written is touched. -/
theorem Operand.mem_effects {o : Operand} {p : Reg} (h : o.pseudo? = some p) :
    (∃ e ∈ o.readEffects, e.pseudo? = some p) ∧ ∃ e ∈ o.writeEffects, e.pseudo? = some p := by
  cases o with
  | pseudo q | indirect q disp =>
    exact ⟨⟨_, List.mem_cons_self, h⟩, ⟨_, List.mem_cons_self, h⟩⟩
  | _ => cases h

namespace Instr

/-- The effects of an instruction include those of reading an operand. -/
def Reads (i : Instr) (o : Operand) : Prop := ∀ e ∈ o.readEffects, e ∈ i.effects

/-- The effects of an instruction include those of writing an operand. -/
def Writes (i : Instr) (o : Operand) : Prop := ∀ e ∈ o.writeEffects, e ∈ i.effects

/-- The operands of an instruction are read or written. -/
theorem reads_or_writes_of_mem_operands {o : Operand} (h : o ∈ i.operands) :
    i.Reads o ∨ i.Writes o := by
  cases i with
  | alu op size src dest =>
    rcases List.mem_cons.1 h with rfl | h
    · exact .inl fun e he => List.mem_append_left _ (List.mem_append_left _ he)
    · cases List.mem_singleton.1 h
      -- a destination that is not written is read: a comparison has two inputs
      cases op <;> first
        | exact .inr fun e he => List.mem_append_right _ he
        | exact .inl fun e he => List.mem_append_left _ (List.mem_append_right _ he)
  | extend _ _ _ src dest | lea src dest =>
    rcases List.mem_cons.1 h with rfl | h
    · exact .inl fun e he => List.mem_append_left _ he
    · cases List.mem_singleton.1 h
      exact .inr fun e he => List.mem_append_right _ he
  | neg size dest | not size dest =>
    cases List.mem_singleton.1 h
    exact .inl fun e he => List.mem_append_left _ he
  | shift op size dest =>
    cases List.mem_singleton.1 h
    exact .inr fun e he => List.mem_append_right _ he
  | setcc cond dest =>
    cases List.mem_singleton.1 h
    exact .inr fun e he => he
  | idiv size divisor =>
    cases List.mem_singleton.1 h
    exact .inl fun e he => List.mem_append_right _ he
  | _ => cases h

/-- The pseudo-register in an operand of an instruction is touched. -/
theorem touches_of_pseudo? {o : Operand} {p : Reg} (ho : o ∈ i.operands)
    (hp : o.pseudo? = some p) :
    i.Touches p.id := by
  obtain ⟨⟨e, he, hep⟩, e', he', hep'⟩ := Operand.mem_effects hp
  rcases reads_or_writes_of_mem_operands ho with h | h
  · exact ⟨e, h e he, p, hep, rfl⟩
  · exact ⟨e', h e' he', p, hep', rfl⟩

end Instr

/-- An instruction can be expanded when what it touches has locations. -/
theorem exists_expand (h : ∀ id, i.Touches id → ∃ location, a id = some location) :
    ∃ part, i.expand a = .ok part := by
  have hresolve : ∀ o ∈ i.operands, ∃ result, o.resolve a = .ok result := fun o ho =>
    exists_resolve fun p hp => h p.id (Instr.touches_of_pseudo? ho hp)
  cases i with
  | alu _ _ src dest | extend _ _ _ src dest | lea src dest =>
    obtain ⟨x, hx⟩ := hresolve src (by simp [Instr.operands])
    obtain ⟨y, hy⟩ := hresolve dest (by simp [Instr.operands])
    exact ⟨_, by simp only [Instr.expand, hx, hy]; rfl⟩
  | neg _ dest | not _ dest | shift _ _ dest | idiv _ dest | setcc _ dest =>
    obtain ⟨x, hx⟩ := hresolve dest (by simp [Instr.operands])
    exact ⟨_, by simp only [Instr.expand, expandUnary, hx]; rfl⟩
  | _ => exact ⟨_, rfl⟩

end

/-! ## Frames -/

/-- A frame lies right below the frame pointer. -/
structure Framed (rt : Runtime) (base : Word) (size : Nat) : Prop where
  /-- Its bytes have different addresses. -/
  fits : size ≤ 2 ^ 64
  frame : ∀ x, rt.frame x = true ↔ Memory.Within (base - BitVec.ofNat 64 size) size x

/-- The bytes of a slot, by their distance from the lower end of the frame. -/
theorem within_slot {base : Word} {size : Nat} (hsize : size ≤ 2 ^ 64) {offset : Int}
    {count : Nat} (hcount : 0 < count) (hlow : -(size : Int) ≤ offset)
    (hhigh : offset + count ≤ 0) {x : Word} :
    Memory.Within (base + BitVec.ofInt 64 offset) count x ↔
      offset + size ≤ ((x - (base - BitVec.ofNat 64 size)).toNat : Int)
        ∧ ((x - (base - BitVec.ofNat 64 size)).toNat : Int) < offset + size + count := by
  obtain ⟨k, hk⟩ : ∃ k : Nat, offset = (k : Int) + -(size : Int) :=
    ⟨(offset + size).toNat, by omega⟩
  have hstart : x - (base + BitVec.ofInt 64 offset)
      = x - (base - BitVec.ofNat 64 size) - BitVec.ofNat 64 k := by
    rw [hk, BitVec.ofInt_add, BitVec.ofInt_neg, BitVec.ofInt_natCast, BitVec.ofInt_natCast]
    generalize BitVec.ofNat 64 k = above
    generalize BitVec.ofNat 64 size = below
    bv_omega
  have hmod : k % 2 ^ 64 = k := Nat.mod_eq_of_lt (by omega)
  unfold Memory.Within
  rw [hstart, BitVec.toNat_sub, BitVec.toNat_ofNat, hmod]
  generalize x - (base - BitVec.ofNat 64 size) = distance
  have := distance.isLt
  omega

/-! ## Streams with an allocation -/

/-- In a stream that an allocator accepts every jump has a target. -/
theorem exists_target_of_ofCode {code : List Instr} {live : Liveness}
    (h : Liveness.ofCode code = .ok live) {index : Nat} {i : Instr} {name : String}
    (hi : code[index]? = some i) (hname : i.jumpTarget? = some name) :
    ∃ target, labelIndex? code name = some target := by
  obtain ⟨edges, hedges, -⟩ := Liveness.eq_of_ofCode h
  have hmem : (name, index) ∈ code.zipIdx.filterMap fun p => p.1.jumpTarget?.map (·, p.2) :=
    List.mem_filterMap.2 ⟨(i, index), List.mem_zipIdx_iff_getElem?.2 hi, by simp [hname]⟩
  obtain ⟨n, hn⟩ := List.getElem?_of_mem hmem
  obtain ⟨edge, -, hedge⟩ := (getElem?_of_mapM_eq_ok hedges).2 n _ hn
  simp only at hedge
  split at hedge
  · next target htarget => exact ⟨target, htarget⟩
  · cases hedge

/-- What is touched has a location. -/
theorem exists_location {abi : Abi} (habi : abi ∈ Abi.all) {code : List Instr} {a : Allocation}
    (h : Allocation.ofCode abi code = .ok a) {i : Instr} (hi : i ∈ code) {id : Nat}
    (ht : i.Touches id) : ∃ location, a.assignment id = some location := by
  obtain ⟨live, hlive, hmeets⟩ := Allocation.spec_of_ofCode habi h
  obtain ⟨index, hi⟩ := List.getElem?_of_mem hi
  obtain ⟨v, hv, hid, -⟩ := (Liveness.spec_of_ofCode hlive).contains index i id hi ht
  exact (hmeets.located id).2 ⟨v, hv, hid⟩

/-- A stream with an allocation can be expanded. -/
theorem exists_expandAll_of_ofCode {abi : Abi} (habi : abi ∈ Abi.all) {code : List Instr}
    {a : Allocation} (h : Allocation.ofCode abi code = .ok a) :
    ∃ body, expandAll a.assignment code = .ok body :=
  exists_expandAll fun _ hi => exists_expand fun _ ht => exists_location habi h hi ht

/-- In a stream whose pseudo-registers are of known sizes a number has the size of its first
touch. -/
theorem size_of_firstTouch {abi : Abi} {code : List Instr} {size : Nat → Size}
    (hallowed : ∀ i ∈ code, ∀ e ∈ i.effects, e.Allowed abi fun q => size q.id = q.size)
    {id : Nat} {p : Reg} (hp : firstTouch? code id = some p) :
    p.id = id ∧ size id = p.size := by
  have hid : p.id = id := by simpa using List.find?_some hp
  obtain ⟨e, he, hep⟩ := List.mem_filterMap.1 (List.mem_of_find?_eq_some hp)
  obtain ⟨i, hi, he⟩ := List.mem_flatMap.1 he
  have hsize := hallowed i hi e he
  refine ⟨hid, ?_⟩
  rw [← hid]
  cases e with
  | touches r => cases hep
  | _ =>
    cases hep
    exact hsize

/-- A stream that keeps the discipline, and an allocation for it whose intervals cover what is
needed. -/
structure Allocated (abi : Abi) (code : List Instr) (size : Nat → Size) (live : Liveness)
    (a : Allocation) : Prop where
  convention : abi ∈ Abi.all
  orderly : Orderly abi code size
  lives : live.Spec code
  meets : a.Spec abi live
  covers : live.Covers code
  targets : ∀ (index : Nat) (i : Instr) (name : String), code[index]? = some i →
    i.jumpTarget? = some name → ∃ target, labelIndex? code name = some target

namespace Allocated

variable {abi : Abi} {code : List Instr} {size : Nat → Size} {live : Liveness} {a : Allocation}
  {index : Nat} {i : Instr} {id other : Nat} {r : Machine.Reg} {p : Reg}

section

variable (h : Allocated abi code size live a)
include h

/-- What is touched has a location. -/
theorem located (hi : code[index]? = some i) (ht : i.Touches id) :
    ∃ location, a.assignment id = some location := by
  obtain ⟨v, hv, hid, -⟩ := h.lives.contains index i id hi ht
  exact (h.meets.located id).2 ⟨v, hv, hid⟩

/-- The stream can be expanded. -/
theorem exists_expandAll : ∃ body, expandAll a.assignment code = .ok body := by
  refine Pseudo.exists_expandAll fun i hi => exists_expand fun id ht => ?_
  obtain ⟨index, hi⟩ := List.getElem?_of_mem hi
  exact h.located hi ht

/-- The size of a number is that of its interval. -/
theorem size_of_interval {v : Interval} (hv : v ∈ live.intervals) :
    size v.pseudo.id = v.pseudo.size :=
  (size_of_firstTouch (fun i hi => (h.orderly.fits i hi).allowed h.convention)
    (h.lives.named v hv)).2

/-! ### Registers -/

/-- Registers that are touched hold no pseudo-register, -/
theorem ne_reg_of_touched (hr : ∃ i ∈ code, r ∈ i.touched) :
    a.assignment id ≠ some (.reg r) := by
  obtain ⟨i, hi, hmem⟩ := hr
  exact h.meets.ne_reg_of_touched h.convention ((h.lives.touched r).2 ⟨i, hi, hmem⟩)
    ((h.orderly.fits i hi).allowed h.convention _ (Instr.mem_touched.1 hmem))

/-- and neither do those that expanded code needs. -/
theorem ne_reg_of_scratch (hr : r = valueScratch ∨ r = addressScratch ∨ r = .rbp) :
    a.assignment id ≠ some (.reg r) := h.meets.ne_reg_of_scratch h.convention hr

theorem unscratched : Unscratched a.assignment := h.meets.unscratched h.convention

/-- The frame pointer is not touched. -/
theorem rbp_not_touched (hi : code[index]? = some i) : .rbp ∉ i.touched := by
  intro hmem
  have hnamed : Named abi .rbp :=
    (h.orderly.fits i (List.mem_of_getElem? hi)).allowed h.convention _
      (Instr.mem_touched.1 hmem)
  have hall : ∀ abi ∈ Abi.all, Machine.Reg.rbp ∉ abi.arguments := by decide
  rcases hnamed with hr | hr | hr
  · exact hall abi h.convention hr
  · cases hr
  · cases hr

/-! ### Values that meet -/

/-- At the entry nothing is needed. -/
theorem not_liveIn_entry : ¬ LiveIn code id 0 := by
  intro hlive
  obtain ⟨v, hv, rfl, hfirst, -⟩ := h.covers id 0 .entry hlive
  obtain ⟨i, hi, htouches⟩ := h.lives.begins v hv
  have hzero : v.first = 0 := by omega
  rw [hzero] at hi
  rcases htouches.uses_or_defines with huses | hdefines
  · exact h.orderly.entry i hi _ huses
  · cases hlive with
    | read hi' huses => exact h.orderly.entry _ hi' _ huses
    | carried hi' hdef _ _ =>
      rw [hi, Option.some.injEq] at hi'
      subst hi'
      exact hdef hdefines

/-- The interval of a value has begun before a place where the value is needed. -/
theorem first_lt_of_liveIn (hreach : Reachable code index) (hlive : LiveIn code id index)
    {v : Interval} (hv : v ∈ live.intervals) (hid : v.pseudo.id = id) : v.first < index := by
  subst hid
  obtain ⟨w, hw, hwid, hfirst, -⟩ := h.covers _ index hreach hlive
  obtain rfl := h.lives.ordered.eq_of_id hw hv hwid
  refine Nat.lt_of_le_of_ne hfirst fun heq => ?_
  obtain ⟨i, hi, htouches⟩ := h.lives.begins w hv
  rw [heq] at hi
  cases hreach with
  | entry => exact h.not_liveIn_entry hlive
  | @step k _ hk hstep =>
    -- what is touched here is no label, so control comes from the instruction in front
    have hnext := eq_succ_of_mem_successors hstep fun name hname => by
      rw [hi, Option.some.injEq] at hname
      subst hname
      exact Instr.not_touches_label name _ htouches
    obtain ⟨j, hj⟩ := exists_of_mem_successors hstep
    have hdef : ¬ j.Defines w.pseudo.id := fun hdef => by
      have := (h.lives.mem_of_touches hv hj hdef.touches).1
      omega
    obtain ⟨x, hx, hxid, hxfirst, -⟩ := h.covers _ k hk (.carried hj hdef hstep hlive)
    obtain rfl := h.lives.ordered.eq_of_id hx hv hxid
    omega

/-- What is written where a value is carried on goes to another register. -/
theorem register_apart (hreach : Reachable code index) (hlive : LiveIn code id index)
    (hreach' : Reachable code (index + 1)) (hlive' : LiveIn code id (index + 1))
    (hi : code[index]? = some i) (hother : i.Touches other) (hne : id ≠ other)
    (ha : a.assignment id = some (.reg r)) : a.assignment other ≠ some (.reg r) := by
  intro hb
  obtain ⟨v, hv, hvid, -, hlast⟩ := h.covers id (index + 1) hreach' hlive'
  have hfirst := h.first_lt_of_liveIn hreach hlive hv hvid
  obtain ⟨w, hw, hwid, hwfirst, hwlast⟩ := h.lives.contains index i other hi hother
  subst hvid hwid
  rcases h.meets.registers v hv w hw hne r ha hb with hfollows | hfollows
  · have := hfollows.2
    omega
  · have := hfollows.2
    omega

/-! ### Slots -/

/-- Slots lie in the frame. -/
theorem frame_of_slot {rt : Runtime} {base x : Word} {offset : Int}
    (hframe : Framed rt base a.frameSize) (ha : a.assignment id = some (.slot offset))
    (hx : Memory.Within (base + BitVec.ofInt 64 offset) (size id).bytes x) :
    rt.frame x = true := by
  obtain ⟨v, hv, rfl⟩ := (h.meets.located id).1 ⟨_, ha⟩
  obtain ⟨-, hlow, hhigh⟩ := h.meets.slots v hv offset ha
  rw [h.size_of_interval hv, within_slot hframe.fits v.pseudo.size.bytes_pos hlow hhigh] at hx
  rw [hframe.frame, Memory.Within]
  omega

/-- Slots do not overlap. -/
theorem slot_apart {rt : Runtime} {base x : Word} {offset offset' : Int}
    (hframe : Framed rt base a.frameSize) (hne : id ≠ other)
    (ha : a.assignment id = some (.slot offset))
    (hb : a.assignment other = some (.slot offset'))
    (hx : Memory.Within (base + BitVec.ofInt 64 offset) (size id).bytes x) :
    ¬ Memory.Within (base + BitVec.ofInt 64 offset') (size other).bytes x := by
  obtain ⟨v, hv, rfl⟩ := (h.meets.located id).1 ⟨_, ha⟩
  obtain ⟨w, hw, rfl⟩ := (h.meets.located other).1 ⟨_, hb⟩
  obtain ⟨-, hlow, hhigh⟩ := h.meets.slots v hv offset ha
  obtain ⟨-, hlow', hhigh'⟩ := h.meets.slots w hw offset' hb
  have hapart := h.meets.disjoint v hv w hw hne offset offset' ha hb
  rw [h.size_of_interval hv, within_slot hframe.fits v.pseudo.size.bytes_pos hlow hhigh] at hx
  rw [h.size_of_interval hw, within_slot hframe.fits w.pseudo.size.bytes_pos hlow' hhigh']
  omega

end

end Allocated

end Pseudo

end Jil
