/-
Jil.Proofs.Interference — values that are needed at the same time are kept apart.

The walk of the allocator keeps two things in balance. Registers: those in the
two pools and those of the values that are held make up the registers that the
walk began with (`Progress.Balanced`). Locations: what has been handed out lies
apart (`Progress.Placed`), since a register that is taken belongs to no value
that is held, and a slot lies behind all others.

`Sound.after` carries both through the walk; `spec_of_ofCode` collects what
they say about a finished allocation and is what other proofs use. The registers
that a frame saves are an even number: together with the frame pointer the ones
in use are made odd (`padToOdd_spec`).
-/
import Jil.Allocation
import Jil.Proofs.Lifetimes

namespace Jil

/-! ## Multiples -/

theorem dvd_alignUp (offset align : Nat) : align ∣ alignUp offset align := Nat.dvd_mul_left _ _

theorem le_alignUp (offset : Nat) {align : Nat} (h : 0 < align) :
    offset ≤ alignUp offset align := by
  have := Nat.lt_div_mul_add h (a := offset + align - 1)
  unfold alignUp
  omega

/-! ## Sets of registers -/

namespace Machine.RegSet

theorem nodup_toList (s : RegSet) : s.toList.Nodup :=
  List.Pairwise.filter _ (by decide : Reg.all.Nodup)

/-- A register that is added to a set is one more. -/
theorem size_insert {s : RegSet} {r : Reg} (h : s.contains r = false) :
    (s.insert r).size = s.size + 1 := by
  have hnot : r ∉ s.toList := by
    rw [mem_toList, h]
    exact nofun
  have hperm : (s.insert r).toList.Perm (r :: s.toList) := by
    refine (List.perm_ext_iff_of_nodup (nodup_toList _)
      (List.nodup_cons.2 ⟨hnot, nodup_toList s⟩)).2 fun x => ?_
    simp only [mem_toList, contains_insert, List.mem_cons, Bool.or_eq_true, decide_eq_true_eq]
  exact hperm.length_eq

/-- Without one of its members a set has one less. -/
theorem length_filter_ne {s : RegSet} {r : Reg} (h : s.contains r = true) :
    (s.toList.filter (· ≠ r)).length + 1 = s.size := by
  have hone : s.toList.countP (· = r) = 1 := by
    have hpos := List.count_pos_iff.2 ((mem_toList s r).2 h)
    have hle := List.nodup_iff_count.1 (nodup_toList s) r
    rw [show s.toList.countP (· = r) = s.toList.count r from List.countP_congr fun x _ =>
      by simp]
    omega
  have hsum := s.toList.length_eq_countP_add_countP (· = r)
  rw [hone] at hsum
  rw [← List.countP_eq_length_filter, size, hsum, Nat.add_comm]
  simp

end Machine.RegSet

/-! ## Pools -/

namespace Pools

/-- A register is taken from the top of one stack, for a value that has to survive a call from
the preserved registers. -/
theorem take_eq_some {p after : Pools} {acrossCall : Bool} {r : Machine.Reg}
    (h : p.take acrossCall = some (r, after)) :
    (acrossCall = false ∧ p.temporaries = r :: after.temporaries
      ∧ after.preserved = p.preserved)
      ∨ (p.preserved = r :: after.preserved ∧ after.temporaries = p.temporaries) := by
  have hpreserved : ∀ {q : Pools}, p.takePreserved = some (r, q) →
      p.preserved = r :: q.preserved ∧ q.temporaries = p.temporaries := by
    intro q hq
    unfold takePreserved at hq
    split at hq
    · next s rest heq =>
      obtain ⟨rfl, rfl⟩ : s = r ∧ _ = q := by simpa using hq
      exact ⟨heq, rfl⟩
    · cases hq
  unfold take at h
  cases acrossCall with
  | true => exact Or.inr (hpreserved (by simpa using h))
  | false =>
    simp only [Bool.false_eq_true, if_false] at h
    split at h
    · next s rest heq =>
      obtain ⟨rfl, rfl⟩ : s = r ∧ _ = after := by simpa using h
      exact Or.inl ⟨rfl, heq, rfl⟩
    · exact Or.inr (hpreserved h)

end Pools

namespace Allocation

open Machine (Abi Reg)
open Pseudo (Instr Interval Liveness Location)

/-- The registers that a walk begins with. -/
def initialPool (abi : Abi) (live : Liveness) : List Reg :=
  temporaries abi live.touched ++ abi.allocatablePreserved

theorem initialPool_sublist (abi : Abi) (live : Liveness) : (initialPool abi live).Sublist
    (abi.temporaries ++ abi.arguments ++ abi.allocatablePreserved) :=
  ((List.Sublist.refl _).append (List.drop_sublist _ _)).append (List.Sublist.refl _)

/-- The temporaries are registers that calls destroy. -/
theorem isPreserved_of_mem_temporaries {abi : Abi} (habi : abi ∈ Abi.all)
    {touched : Machine.RegSet} {r : Reg} (hr : r ∈ temporaries abi touched) :
    abi.isPreserved r = false := by
  have hall : ∀ abi ∈ Abi.all, ∀ r ∈ abi.temporaries ++ abi.arguments,
      abi.isPreserved r = false := by decide
  refine hall abi habi r ?_
  rcases List.mem_append.1 hr with hr | hr
  · exact List.mem_append_left _ hr
  · exact List.mem_append_right _ (List.mem_of_mem_drop hr)

/-- A walk begins with each register once. -/
theorem count_initialPool_le_one {abi : Abi} (habi : abi ∈ Abi.all) (live : Liveness)
    (r : Reg) :
    (initialPool abi live).count r ≤ 1 := by
  have hall : ∀ abi ∈ Abi.all,
      (abi.temporaries ++ abi.arguments ++ abi.allocatablePreserved).Nodup := by decide
  exact List.nodup_iff_count.1 ((initialPool_sublist abi live).nodup (hall abi habi)) r

/-- A walk begins without the registers that frames are built with. -/
theorem ne_of_mem_initialPool {abi : Abi} (habi : abi ∈ Abi.all) {live : Liveness} {r : Reg}
    (hr : r ∈ initialPool abi live) : r ≠ .rsp ∧ r ≠ .rbp := by
  have hall :
      ∀ abi ∈ Abi.all, ∀ r ∈ abi.temporaries ++ abi.arguments ++ abi.allocatablePreserved,
      r ≠ .rsp ∧ r ≠ .rbp := by decide
  exact hall abi habi r ((initialPool_sublist abi live).subset hr)

/-! ## What the walk keeps in balance -/

/-- The register of a value, when it has one. -/
def registerOf? (mapping : Table Nat Location) (i : Interval) : Option Reg :=
  match mapping.get? i.pseudo.id with
  | some (.reg r) => some r
  | _ => none

theorem registerOf?_eq_some {mapping : Table Nat Location} {i : Interval} {r : Reg} :
    registerOf? mapping i = some r ↔ mapping.get? i.pseudo.id = some (.reg r) := by
  unfold registerOf?
  split
  · next s heq => simp [heq]
  · next hnot =>
    constructor
    · intro h; cases h
    · intro h; exact absurd h (hnot r)

theorem registerOf?_eq_none {mapping : Table Nat Location} {i : Interval}
    (h : ∀ r, mapping.get? i.pseudo.id ≠ some (.reg r)) : registerOf? mapping i = none :=
  Option.eq_none_iff_forall_ne_some.2 fun r hr => h r (registerOf?_eq_some.1 hr)

/-- `j` begins after `i`, and not before `i` ends. -/
def Follows (i j : Interval) : Prop := i.first < j.first ∧ i.last ≤ j.first

namespace Progress

/-- The free registers and those of the values that are held are the initial ones. -/
structure Balanced (abi : Abi) (live : Liveness) (p : Progress) (held : List Interval) :
    Prop where
  conserved : ∀ r, p.pools.temporaries.count r + p.pools.preserved.count r
    + (held.filterMap (registerOf? p.mapping)).count r = (initialPool abi live).count r
  temporary : ∀ r ∈ p.pools.temporaries, abi.isPreserved r = false
  preserved : ∀ r ∈ p.pools.preserved, abi.isPreserved r = true

/-- What has been handed out lies apart. -/
structure Placed (abi : Abi) (live : Liveness) (p : Progress) (placed : List Interval) :
    Prop where
  located : ∀ id, (∃ location, p.mapping.get? id = some location) ↔
    ∃ i ∈ placed, i.pseudo.id = id
  drawn : ∀ i ∈ placed, ∀ r, registerOf? p.mapping i = some r → r ∈ initialPool abi live
  registers : ∀ i ∈ placed, ∀ j ∈ placed, i.pseudo.id ≠ j.pseudo.id → ∀ r,
    registerOf? p.mapping i = some r → registerOf? p.mapping j = some r →
    Follows i j ∨ Follows j i
  survives : ∀ i ∈ placed, live.crossesCall i = true → ∀ r, registerOf? p.mapping i = some r →
    abi.isPreserved r = true
  slots : ∀ i ∈ placed, ∀ offset, p.mapping.get? i.pseudo.id = some (.slot offset) →
    ∃ depth : Nat, offset = -depth ∧ i.pseudo.size.bytes ∣ depth
      ∧ i.pseudo.size.bytes ≤ depth ∧ depth ≤ p.slotBytes
  disjoint : ∀ i ∈ placed, ∀ j ∈ placed, i.pseudo.id ≠ j.pseudo.id → ∀ x y,
    p.mapping.get? i.pseudo.id = some (.slot x) → p.mapping.get? j.pseudo.id = some (.slot y) →
    x + i.pseudo.size.bytes ≤ y ∨ y + j.pseudo.size.bytes ≤ x
  /-- The frame pointer is saved, -/
  pointer : p.usedPreserved.contains .rbp = true
  /-- and so is every preserved register that has been handed out, -/
  saves : ∀ i ∈ placed, ∀ r, registerOf? p.mapping i = some r → abi.isPreserved r = true →
    p.usedPreserved.contains r = true
  /-- and no other register. -/
  used : ∀ r, p.usedPreserved.contains r = true → abi.isPreserved r = true

variable {abi : Abi} {live : Liveness} {p : Progress} {held placed : List Interval}

theorem Balanced.perm (h : Balanced abi live p held) {other : List Interval}
    (hperm : held.Perm other) : Balanced abi live p other where
  conserved r := by
    rw [← (hperm.filterMap (registerOf? p.mapping)).count_eq r]
    exact h.conserved r
  temporary := h.temporary
  preserved := h.preserved

theorem Placed.congr (h : Placed abi live p placed) {other : List Interval}
    (hmem : ∀ i, i ∈ placed ↔ i ∈ other) : Placed abi live p other where
  located id := by simp only [h.located, hmem]
  drawn i hi := h.drawn i ((hmem i).2 hi)
  registers i hi j hj := h.registers i ((hmem i).2 hi) j ((hmem j).2 hj)
  survives i hi := h.survives i ((hmem i).2 hi)
  slots i hi := h.slots i ((hmem i).2 hi)
  disjoint i hi j hj := h.disjoint i ((hmem i).2 hi) j ((hmem j).2 hj)
  pointer := h.pointer
  saves i hi := h.saves i ((hmem i).2 hi)
  used := h.used

/-! ## Giving back -/

/-- Giving back changes the pools only. -/
theorem release_mapping (p : Progress) (i : Interval) :
    (p.release abi i).mapping = p.mapping := by
  unfold release; split <;> rfl

theorem release_slotBytes (p : Progress) (i : Interval) :
    (p.release abi i).slotBytes = p.slotBytes := by
  unfold release; split <;> rfl

theorem release_usedPreserved (p : Progress) (i : Interval) :
    (p.release abi i).usedPreserved = p.usedPreserved := by
  unfold release; split <;> rfl

theorem Placed.release (h : Placed abi live p placed) (i : Interval) :
    Placed abi live (p.release abi i) placed where
  located id := by rw [release_mapping]; exact h.located id
  drawn := by rw [release_mapping]; exact h.drawn
  registers := by rw [release_mapping]; exact h.registers
  survives := by rw [release_mapping]; exact h.survives
  slots := by rw [release_mapping, release_slotBytes]; exact h.slots
  disjoint := by rw [release_mapping]; exact h.disjoint
  pointer := by rw [release_usedPreserved]; exact h.pointer
  saves := by rw [release_mapping, release_usedPreserved]; exact h.saves
  used := by rw [release_usedPreserved]; exact h.used

/-- A value that is no longer held gives its register back. -/
theorem Balanced.release {i : Interval} (h : Balanced abi live p (i :: held)) :
    Balanced abi live (p.release abi i) held := by
  unfold Progress.release
  split
  · next r hr =>
    have hcount := h.conserved
    rw [List.filterMap_cons_some (registerOf?_eq_some.2 hr)] at hcount
    unfold Pools.giveBack
    split
    · next hpreserved =>
      refine ⟨fun x => ?_, h.temporary, ?_⟩
      · have := hcount x
        show p.pools.temporaries.count x + (r :: p.pools.preserved).count x
          + (held.filterMap (registerOf? p.mapping)).count x = _
        rw [List.count_cons] at this ⊢
        omega
      · intro x hx
        rcases List.mem_cons.1 hx with rfl | hx
        · exact hpreserved
        · exact h.preserved x hx
    · next htemporary =>
      refine ⟨fun x => ?_, ?_, h.preserved⟩
      · have := hcount x
        show (r :: p.pools.temporaries).count x + p.pools.preserved.count x
          + (held.filterMap (registerOf? p.mapping)).count x = _
        rw [List.count_cons] at this ⊢
        omega
      · intro x hx
        rcases List.mem_cons.1 hx with rfl | hx
        · simpa using htemporary
        · exact h.temporary x hx
  · next hnot =>
    refine ⟨fun x => ?_, h.temporary, h.preserved⟩
    have := h.conserved x
    rwa [List.filterMap_cons_none (registerOf?_eq_none hnot)] at this

/-- Several values give their registers back. -/
theorem Balanced.releaseAll {values : List Interval}
    (h : Balanced abi live p (values ++ held)) :
    Balanced abi live (values.foldl (Progress.release abi) p) held := by
  induction values generalizing p with
  | nil => exact h
  | cons i rest ih => exact ih h.release

theorem Placed.releaseAll (h : Placed abi live p placed) (values : List Interval) :
    Placed abi live (values.foldl (Progress.release abi) p) placed := by
  induction values generalizing p with
  | nil => exact h
  | cons i rest ih => exact ih (h.release i)

/-! ## Handing out -/

/-- Handing out gives one value a location. -/
theorem get?_mapping_assign_of_ne (p : Progress) {i : Interval} {id : Nat}
    (h : id ≠ i.pseudo.id) :
    (p.assign abi live i).mapping.get? id = p.mapping.get? id := by
  unfold assign
  split <;> exact Table.get?_insert_of_ne _ _ h

theorem registerOf?_assign_of_ne (p : Progress) {i j : Interval}
    (h : j.pseudo.id ≠ i.pseudo.id) :
    registerOf? (p.assign abi live i).mapping j = registerOf? p.mapping j := by
  simp only [registerOf?, get?_mapping_assign_of_ne p h]

theorem filterMap_registerOf?_assign (abi : Abi) (live : Liveness) (p : Progress)
    {i : Interval} (hfresh : ∀ j ∈ held, j.pseudo.id ≠ i.pseudo.id) :
    held.filterMap (registerOf? (p.assign abi live i).mapping)
      = held.filterMap (registerOf? p.mapping) := by
  induction held with
  | nil => rfl
  | cons j rest ih =>
    rw [List.filterMap_cons, List.filterMap_cons,
      registerOf?_assign_of_ne p (hfresh j List.mem_cons_self),
      ih fun k hk => hfresh k (List.mem_cons_of_mem _ hk)]

/-- What handing out does: a register goes from one pool to the value, or the value gets a slot
behind all others. -/
theorem assign_cases (abi : Abi) (live : Liveness) (p : Progress) (i : Interval) :
    (∃ r pools, p.pools.take (live.crossesCall i) = some (r, pools)
      ∧ (p.assign abi live i).mapping.get? i.pseudo.id = some (.reg r)
      ∧ (p.assign abi live i).pools = pools
      ∧ (p.assign abi live i).slotBytes = p.slotBytes)
    ∨ (∃ slotBytes, slotBytes = alignUp (p.slotBytes + i.pseudo.size.bytes) i.pseudo.size.bytes
      ∧ (p.assign abi live i).mapping.get? i.pseudo.id = some (.slot (-slotBytes))
      ∧ (p.assign abi live i).pools = p.pools
      ∧ (p.assign abi live i).slotBytes = slotBytes) := by
  unfold assign
  split
  · next r pools heq => exact Or.inl ⟨r, pools, heq, Table.get?_insert_self _ _ _, rfl, rfl⟩
  · exact Or.inr ⟨_, rfl, Table.get?_insert_self _ _ _, rfl, rfl⟩

/-- A preserved register that is handed out is saved. -/
theorem contains_usedPreserved_assign (abi : Abi) (live : Liveness) (p : Progress)
    (i : Interval) (r : Reg) : (p.assign abi live i).usedPreserved.contains r = true ↔
      p.usedPreserved.contains r = true
        ∨ abi.isPreserved r = true ∧ registerOf? (p.assign abi live i).mapping i = some r := by
  rw [registerOf?_eq_some]
  unfold assign
  split
  · next x pools htake =>
    simp only [Table.get?_insert_self, Option.some.injEq, Location.reg.injEq]
    split
    · next hx =>
      rw [Machine.RegSet.contains_insert, Bool.or_eq_true, decide_eq_true_eq]
      constructor
      · rintro (rfl | h)
        · exact .inr ⟨hx, rfl⟩
        · exact .inl h
      · rintro (h | ⟨-, rfl⟩)
        · exact .inr h
        · exact .inl rfl
    · next hx =>
      refine ⟨.inl, fun h => h.resolve_right ?_⟩
      rintro ⟨hr, rfl⟩
      exact hx hr
  · simp [Table.get?_insert_self]

theorem Balanced.assign {i : Interval} (h : Balanced abi live p held)
    (hfresh : ∀ j ∈ held, j.pseudo.id ≠ i.pseudo.id) :
    Balanced abi live (p.assign abi live i) (i :: held) := by
  have hheld := filterMap_registerOf?_assign abi live p hfresh
  rcases assign_cases abi live p i with
    ⟨r, pools, htake, hget, hpools, -⟩ | ⟨slotBytes, -, hget, hpools, -⟩
  · have hcons := List.filterMap_cons_some (l := held) (registerOf?_eq_some.2 hget)
    rcases Pools.take_eq_some htake with ⟨-, htop, hsame⟩ | ⟨htop, hsame⟩
    · refine ⟨fun x => ?_, ?_, ?_⟩
      · have := h.conserved x
        rw [htop] at this
        rw [hcons, hheld, hpools, hsame]
        simp only [List.count_cons] at this ⊢
        omega
      · rw [hpools]
        exact fun x hx => h.temporary x (htop ▸ List.mem_cons_of_mem _ hx)
      · rw [hpools, hsame]
        exact h.preserved
    · refine ⟨fun x => ?_, ?_, ?_⟩
      · have := h.conserved x
        rw [htop] at this
        rw [hcons, hheld, hpools, hsame]
        simp only [List.count_cons] at this ⊢
        omega
      · rw [hpools, hsame]
        exact h.temporary
      · rw [hpools]
        exact fun x hx => h.preserved x (htop ▸ List.mem_cons_of_mem _ hx)
  · have hnone : registerOf? (p.assign abi live i).mapping i = none := by
      simp only [registerOf?, hget]
    refine ⟨fun x => ?_, ?_, ?_⟩
    · rw [List.filterMap_cons_none hnone, hheld, hpools]
      exact h.conserved x
    · rw [hpools]
      exact h.temporary
    · rw [hpools]
      exact h.preserved

/-- A register that is taken belongs to no value that is held. -/
theorem Balanced.not_held_of_take (h : Balanced abi live p held) (habi : abi ∈ Abi.all)
    {acrossCall : Bool} {r : Reg} {pools : Pools}
    (htake : p.pools.take acrossCall = some (r, pools)) {j : Interval}
    (hj : registerOf? p.mapping j = some r) : j ∉ held := by
  intro hmem
  have hheld : 0 < (held.filterMap (registerOf? p.mapping)).count r :=
    List.count_pos_iff.2 (List.mem_filterMap.2 ⟨j, hmem, hj⟩)
  have hsum := h.conserved r
  have hone := count_initialPool_le_one habi live r
  rcases Pools.take_eq_some htake with ⟨-, htop, -⟩ | ⟨htop, -⟩
  · rw [htop, List.count_cons_self] at hsum
    omega
  · rw [htop, List.count_cons_self] at hsum
    omega

/-- A register that is taken is one of the initial ones, and a preserved one for a value that
has to survive a call. -/
theorem Balanced.mem_of_take (h : Balanced abi live p held) {acrossCall : Bool} {r : Reg}
    {pools : Pools} (htake : p.pools.take acrossCall = some (r, pools)) :
    r ∈ initialPool abi live ∧ (acrossCall = true → abi.isPreserved r = true) := by
  have hsum := h.conserved r
  rcases Pools.take_eq_some htake with ⟨hacross, htop, -⟩ | ⟨htop, -⟩
  · rw [htop, List.count_cons_self] at hsum
    refine ⟨List.count_pos_iff.1 (by omega), fun hcross => ?_⟩
    rw [hacross] at hcross
    cases hcross
  · rw [htop, List.count_cons_self] at hsum
    refine ⟨List.count_pos_iff.1 (by omega), fun _ => h.preserved r ?_⟩
    rw [htop]
    exact List.mem_cons_self

/-- What is handed out to a value that begins when the values that are no
longer held have ended. -/
theorem Balanced.assign_spec {i : Interval} (h : Balanced abi live p held)
    (habi : abi ∈ Abi.all) (hgone : ∀ j ∈ placed, j ∉ held → Follows j i) :
    ∃ location, (p.assign abi live i).mapping.get? i.pseudo.id = some location
      ∧ p.slotBytes ≤ (p.assign abi live i).slotBytes
      ∧ (∀ r, location = .reg r → r ∈ initialPool abi live
        ∧ (live.crossesCall i = true → abi.isPreserved r = true)
        ∧ ∀ j ∈ placed, registerOf? p.mapping j = some r → Follows j i)
      ∧ (∀ offset, location = .slot offset → offset = -((p.assign abi live i).slotBytes : Int)
        ∧ i.pseudo.size.bytes ∣ (p.assign abi live i).slotBytes
        ∧ p.slotBytes + i.pseudo.size.bytes ≤ (p.assign abi live i).slotBytes) := by
  rcases assign_cases abi live p i with
    ⟨r, pools, htake, hget, -, hbytes⟩ | ⟨slotBytes, hslot, hget, -, hbytes⟩
  · refine ⟨.reg r, hget, Nat.le_of_eq hbytes.symm, fun s hs => ?_, fun offset hoffset => ?_⟩
    · cases hs
      obtain ⟨hmem, hcross⟩ := h.mem_of_take htake
      exact ⟨hmem, hcross, fun j hj hjr => hgone j hj (h.not_held_of_take habi htake hjr)⟩
    · cases hoffset
  · have hle := le_alignUp (p.slotBytes + i.pseudo.size.bytes) i.pseudo.size.bytes_pos
    have hdvd := dvd_alignUp (p.slotBytes + i.pseudo.size.bytes) i.pseudo.size.bytes
    refine ⟨_, hget, by omega, fun s hs => ?_, fun offset hoffset => ?_⟩
    · cases hs
    · cases hoffset
      rw [hbytes, hslot]
      exact ⟨rfl, hdvd, hle⟩

/-- A value that begins when the values that are no longer held have ended. -/
theorem Placed.assign {i : Interval} (h : Placed abi live p placed) (habi : abi ∈ Abi.all)
    (hbalanced : Balanced abi live p held) (hfresh : ∀ j ∈ placed, j.pseudo.id ≠ i.pseudo.id)
    (hgone : ∀ j ∈ placed, j ∉ held → Follows j i) :
    Placed abi live (p.assign abi live i) (i :: placed) := by
  have hsame : ∀ j ∈ placed, (p.assign abi live i).mapping.get? j.pseudo.id
      = p.mapping.get? j.pseudo.id := fun j hj => get?_mapping_assign_of_ne p (hfresh j hj)
  have hregister : ∀ j ∈ placed, registerOf? (p.assign abi live i).mapping j
      = registerOf? p.mapping j := fun j hj => registerOf?_assign_of_ne p (hfresh j hj)
  obtain ⟨location, hget, hmono, hreg, hslot⟩ := hbalanced.assign_spec habi hgone
  have hused := contains_usedPreserved_assign abi live p i
  refine ⟨fun id => ?_, ?_, ?_, ?_, ?_, ?_, (hused _).2 (.inl h.pointer), ?_, ?_⟩
  · by_cases hid : id = i.pseudo.id
    · subst hid
      exact ⟨fun _ => ⟨i, List.mem_cons_self, rfl⟩, fun _ => ⟨location, hget⟩⟩
    · rw [get?_mapping_assign_of_ne p hid, h.located]
      constructor
      · rintro ⟨j, hj, hjd⟩
        exact ⟨j, List.mem_cons_of_mem _ hj, hjd⟩
      · rintro ⟨j, hj, hjd⟩
        rcases List.mem_cons.1 hj with rfl | hj
        · exact absurd hjd.symm hid
        · exact ⟨j, hj, hjd⟩
  · intro j hj r hr
    rcases List.mem_cons.1 hj with rfl | hj
    · rw [registerOf?_eq_some, hget, Option.some.injEq] at hr
      exact (hreg r hr).1
    · rw [hregister j hj] at hr
      exact h.drawn j hj r hr
  · intro j hj k hk hne r hjr hkr
    rcases List.mem_cons.1 hj with rfl | hj' <;> rcases List.mem_cons.1 hk with rfl | hk'
    · exact absurd rfl hne
    · rw [registerOf?_eq_some, hget, Option.some.injEq] at hjr
      rw [hregister k hk'] at hkr
      exact Or.inr ((hreg r hjr).2.2 k hk' hkr)
    · rw [registerOf?_eq_some, hget, Option.some.injEq] at hkr
      rw [hregister j hj'] at hjr
      exact Or.inl ((hreg r hkr).2.2 j hj' hjr)
    · rw [hregister j hj'] at hjr
      rw [hregister k hk'] at hkr
      exact h.registers j hj' k hk' hne r hjr hkr
  · intro j hj hcross r hr
    rcases List.mem_cons.1 hj with rfl | hj
    · rw [registerOf?_eq_some, hget, Option.some.injEq] at hr
      exact (hreg r hr).2.1 hcross
    · rw [hregister j hj] at hr
      exact h.survives j hj hcross r hr
  · intro j hj offset hoffset
    rcases List.mem_cons.1 hj with rfl | hj
    · rw [hget, Option.some.injEq] at hoffset
      obtain ⟨heq, hdvd, hle⟩ := hslot offset hoffset
      exact ⟨_, heq, hdvd, by omega, Nat.le_refl _⟩
    · rw [hsame j hj] at hoffset
      obtain ⟨depth, heq, hdvd, hsize, hle⟩ := h.slots j hj offset hoffset
      exact ⟨depth, heq, hdvd, hsize, by omega⟩
  · intro j hj k hk hne x y hx hy
    rcases List.mem_cons.1 hj with rfl | hj' <;> rcases List.mem_cons.1 hk with rfl | hk'
    · exact absurd rfl hne
    · rw [hget, Option.some.injEq] at hx
      rw [hsame k hk'] at hy
      obtain ⟨heq, -, hle⟩ := hslot x hx
      obtain ⟨depth, hdepth, -, -, hlast⟩ := h.slots k hk' y hy
      omega
    · rw [hget, Option.some.injEq] at hy
      rw [hsame j hj'] at hx
      obtain ⟨heq, -, hle⟩ := hslot y hy
      obtain ⟨depth, hdepth, -, -, hlast⟩ := h.slots j hj' x hx
      omega
    · rw [hsame j hj'] at hx
      rw [hsame k hk'] at hy
      exact h.disjoint j hj' k hk' hne x y hx hy
  · intro j hj r hr hpreserved
    rcases List.mem_cons.1 hj with rfl | hj
    · exact (hused r).2 (.inr ⟨hpreserved, hr⟩)
    · rw [hregister j hj] at hr
      exact (hused r).2 (.inl (h.saves j hj r hr hpreserved))
  · intro r hr
    rcases (hused r).1 hr with hr | ⟨hpreserved, -⟩
    · exact h.used r hr
    · exact hpreserved

/-- Several values that begin at `index`, when all others that are placed and not held have
ended. -/
theorem Placed.assignAll (h : Placed abi live p placed) (habi : abi ∈ Abi.all)
    (hbalanced : Balanced abi live p held) {values : List Interval} (index : Nat)
    (hfirst : ∀ i ∈ values, i.first = index)
    (hfresh : ∀ i ∈ values, ∀ j ∈ placed, j.pseudo.id ≠ i.pseudo.id)
    (hdistinct : values.Pairwise (·.pseudo.id ≠ ·.pseudo.id))
    (hsub : ∀ j ∈ held, j ∈ placed)
    (hgone : ∀ j ∈ placed, j ∉ held → j.first < index ∧ j.last ≤ index) :
    Balanced abi live (values.foldl (Progress.assign abi live) p) (values.reverse ++ held) ∧
      Placed abi live (values.foldl (Progress.assign abi live) p)
        (values.reverse ++ placed) := by
  induction values generalizing p held placed with
  | nil => exact ⟨hbalanced, h⟩
  | cons i rest ih =>
    have hi : i.first = index := hfirst i List.mem_cons_self
    have hfollows : ∀ j ∈ placed, j ∉ held → Follows j i := fun j hj hnot => by
      rw [Follows, hi]
      exact hgone j hj hnot
    have hi_fresh := hfresh i List.mem_cons_self
    rw [List.pairwise_cons] at hdistinct
    have hnext := ih (h.assign habi hbalanced hi_fresh hfollows)
      (hbalanced.assign fun j hj => hi_fresh j (hsub j hj))
      (fun j hj => hfirst j (List.mem_cons_of_mem _ hj)) ?_ hdistinct.2 ?_ ?_
    · simpa using hnext
    · intro j hj k hk
      rcases List.mem_cons.1 hk with rfl | hk
      · exact hdistinct.1 j hj
      · exact hfresh j (List.mem_cons_of_mem _ hj) k hk
    · intro j hj
      rcases List.mem_cons.1 hj with rfl | hj
      · exact List.mem_cons_self
      · exact List.mem_cons_of_mem _ (hsub j hj)
    · intro j hj hnot
      rw [List.mem_cons, not_or] at hnot
      rcases List.mem_cons.1 hj with rfl | hj
      · exact absurd rfl hnot.1
      · exact hgone j hj hnot.2

/-! ## The walk -/

/-- The values that have begun before an instruction. -/
def begun (live : Liveness) (index : Nat) : List Interval :=
  live.intervals.filter fun i => i.first < index

/-- The values that have begun before an instruction and have not ended. -/
def heldAt (live : Liveness) (index : Nat) : List Interval :=
  live.intervals.filter fun i => i.first < index && index ≤ i.last

/-- Of these, the ones that end at the instruction, -/
def dyingAt (live : Liveness) (index : Nat) : List Interval :=
  live.intervals.filter fun i => i.last = index && i.first ≠ index

/-- and the ones that do not. -/
def stayingAt (live : Liveness) (index : Nat) : List Interval :=
  live.intervals.filter fun i => i.first < index && index < i.last

/-- The values that begin at an instruction, -/
def bornAt (live : Liveness) (index : Nat) : List Interval :=
  live.intervals.filter fun i => i.first = index

/-- and those that also end there. -/
def briefAt (live : Liveness) (index : Nat) : List Interval :=
  (bornAt live index).filter fun i => i.last = index

section Instruction

variable {code : List Instr} {index : Nat}

theorem nodup_intervals (hlive : live.Spec code) : live.intervals.Nodup :=
  hlive.ordered.imp fun hlt heq => by rw [heq] at hlt; omega

/-- What is held before an instruction ends there or stays. -/
theorem heldAt_perm (hlive : live.Spec code) (index : Nat) :
    (heldAt live index).Perm (dyingAt live index ++ stayingAt live index) := by
  have hnodup := nodup_intervals hlive
  refine (List.perm_ext_iff_of_nodup (hnodup.filter _) ?_).2 fun i => ?_
  · refine List.nodup_append.2 ⟨hnodup.filter _, hnodup.filter _, fun i hi j hj heq => ?_⟩
    simp only [dyingAt, stayingAt, List.mem_filter, Bool.and_eq_true,
      decide_eq_true_eq] at hi hj
    rw [heq] at hi
    omega
  · simp only [dyingAt, stayingAt, List.mem_append, List.mem_filter, Bool.and_eq_true,
      decide_eq_true_eq]
    constructor
    · rintro ⟨hi, h₁, h₂⟩
      rcases Nat.eq_or_lt_of_le h₂ with heq | hlt
      · exact Or.inl ⟨hi, heq.symm, by omega⟩
      · exact Or.inr ⟨hi, h₁, hlt⟩
    · rintro (⟨hi, h₁, h₂⟩ | ⟨hi, h₁, h₂⟩)
      · have := hlive.first_le_last hi
        exact ⟨hi, by omega, by omega⟩
      · exact ⟨hi, h₁, by omega⟩

/-- What begins at an instruction or stays either ends at once or is held after it. -/
theorem bornAt_perm (hlive : live.Spec code) (index : Nat) :
    ((bornAt live index).reverse ++ stayingAt live index).Perm
      (briefAt live index ++ heldAt live (index + 1)) := by
  have hnodup := nodup_intervals hlive
  refine (List.perm_ext_iff_of_nodup ?_ ?_).2 fun i => ?_
  · refine List.nodup_append.2 ⟨(List.reverse_perm _).nodup_iff.2 (hnodup.filter _),
      hnodup.filter _, fun i hi j hj heq => ?_⟩
    simp only [bornAt, stayingAt, List.mem_reverse, List.mem_filter, Bool.and_eq_true,
      decide_eq_true_eq] at hi hj
    rw [heq] at hi
    omega
  · refine List.nodup_append.2 ⟨(hnodup.filter _).filter _, hnodup.filter _,
      fun i hi j hj heq => ?_⟩
    simp only [briefAt, bornAt, heldAt, List.mem_filter, Bool.and_eq_true,
      decide_eq_true_eq] at hi hj
    rw [heq] at hi
    omega
  · simp only [bornAt, stayingAt, briefAt, heldAt, List.mem_append, List.mem_reverse,
      List.mem_filter, Bool.and_eq_true, decide_eq_true_eq]
    constructor
    · rintro (⟨hi, h₁⟩ | ⟨hi, h₁, h₂⟩)
      · have := hlive.first_le_last hi
        by_cases hlast : i.last = index
        · exact Or.inl ⟨⟨hi, h₁⟩, hlast⟩
        · exact Or.inr ⟨hi, by omega, by omega⟩
      · exact Or.inr ⟨hi, by omega, by omega⟩
    · rintro (⟨⟨hi, h₁⟩, -⟩ | ⟨hi, h₁, h₂⟩)
      · exact Or.inl ⟨hi, h₁⟩
      · by_cases hfirst : i.first = index
        · exact Or.inl ⟨hi, hfirst⟩
        · exact Or.inr ⟨hi, by omega, by omega⟩

/-- What holds before an instruction. -/
structure Sound (abi : Abi) (live : Liveness) (index : Nat) (p : Progress) : Prop where
  balanced : Balanced abi live p (heldAt live index)
  placed : Placed abi live p (begun live index)

theorem Sound.start (habi : abi ∈ Abi.all) : Sound abi live 0 (Progress.start abi live) where
  balanced :=
    { conserved := fun r => by
        have hnone : heldAt live 0 = [] := List.filter_eq_nil_iff.2 (by simp)
        simp [hnone, Progress.start, initialPool, List.count_append]
      temporary := fun r hr => isPreserved_of_mem_temporaries habi hr
      preserved := fun r hr => by
        have hr := (List.mem_filter.1 hr).1
        simpa [Abi.isPreserved] using hr }
  placed := by
    have hpointer : ∀ abi ∈ Abi.all, abi.isPreserved .rbp = true := by decide
    constructor <;>
      simp [begun, Progress.start, Machine.RegSet.contains_insert]
    simp [Machine.RegSet.empty, Machine.RegSet.contains, hpointer abi habi]

/-- One instruction. -/
theorem Sound.step (hlive : live.Spec code) (habi : abi ∈ Abi.all)
    (h : Sound abi live index p) :
    Sound abi live (index + 1) (Progress.step abi live p index) := by
  have hreleased := (h.balanced.perm (heldAt_perm hlive index)).releaseAll
  have hborn : ∀ i ∈ bornAt live index, i.first = index := fun i hi => by
    simpa using (List.mem_filter.1 hi).2
  have hassigned := (h.placed.releaseAll (dyingAt live index)).assignAll habi hreleased index
    hborn ?_ ?_ ?_ ?_
  · refine ⟨(hassigned.1.perm (bornAt_perm hlive index)).releaseAll,
      (hassigned.2.releaseAll (briefAt live index)).congr fun i => ?_⟩
    simp only [begun, bornAt, List.mem_append, List.mem_reverse, List.mem_filter,
      decide_eq_true_eq]
    constructor
    · rintro (⟨hi, h₁⟩ | ⟨hi, h₁⟩)
      · exact ⟨hi, by omega⟩
      · exact ⟨hi, by omega⟩
    · rintro ⟨hi, h₁⟩
      by_cases hfirst : i.first = index
      · exact Or.inl ⟨hi, hfirst⟩
      · exact Or.inr ⟨hi, by omega⟩
  · intro i hi j hj hid
    have hij := hlive.ordered.eq_of_id (List.mem_filter.1 hj).1 (List.mem_filter.1 hi).1 hid
    simp only [bornAt, begun, List.mem_filter, decide_eq_true_eq, hij] at hi hj
    omega
  · exact (hlive.ordered.filter _).imp fun hlt => Nat.ne_of_lt hlt
  · intro j hj
    simp only [stayingAt, begun, List.mem_filter, Bool.and_eq_true, decide_eq_true_eq] at hj ⊢
    exact ⟨hj.1, hj.2.1⟩
  · intro j hj hnot
    simp only [stayingAt, begun, List.mem_filter, Bool.and_eq_true,
      decide_eq_true_eq] at hj hnot
    exact ⟨hj.2, Nat.le_of_not_lt fun hlt => hnot ⟨hj.1, hj.2, hlt⟩⟩

theorem Sound.after (hlive : live.Spec code) (habi : abi ∈ Abi.all)
    (count : Nat) : Sound abi live count (Progress.after abi live count) := by
  induction count with
  | zero => exact Sound.start habi
  | succ n ih =>
    rw [Progress.after, List.range_succ, List.foldl_append]
    exact ih.step hlive habi

end Instruction

end Progress

/-! ## Finished allocations -/

/-- The registers in use, made odd: one argument may have been added. -/
theorem padToOdd_spec {abi : Abi} (habi : abi ∈ Abi.all) {used : Machine.RegSet}
    (hused : ∀ r, used.contains r = true → abi.isPreserved r = true) :
    (padToOdd abi used).size % 2 = 1
      ∧ (∀ r, used.contains r = true → (padToOdd abi used).contains r = true)
      ∧ ∀ r, (padToOdd abi used).contains r = true → used.contains r = true
      ∨ r ∈ abi.arguments := by
  have hall : ∀ abi ∈ Abi.all, ∃ r, abi.argument? 1 = some r ∧ r ∈ abi.arguments
      ∧ abi.isPreserved r = false := by decide
  obtain ⟨r, hr, hmem, hnot⟩ := hall abi habi
  unfold padToOdd
  simp only [hr]
  split
  · next heven =>
    have hfresh : used.contains r = false := by
      rw [Bool.eq_false_iff]
      intro h
      rw [hused r h] at hnot
      cases hnot
    rw [Machine.RegSet.size_insert hfresh]
    refine ⟨by omega, fun x hx => ?_, fun x hx => ?_⟩
    · rw [Machine.RegSet.contains_insert, hx, Bool.or_true]
    · rw [Machine.RegSet.contains_insert, Bool.or_eq_true, decide_eq_true_eq] at hx
      rcases hx with rfl | hx
      · exact .inr hmem
      · exact .inl hx
  · next hodd => exact ⟨by omega, fun _ h => h, fun _ h => .inl h⟩

/-- What may be relied on in an allocation for a stream of known liveness. -/
structure Spec (abi : Abi) (live : Liveness) (a : Allocation) : Prop where
  located : ∀ id, (∃ location, a.mapping.get? id = some location) ↔
    ∃ i ∈ live.intervals, i.pseudo.id = id
  drawn : ∀ i ∈ live.intervals, ∀ r, a.mapping.get? i.pseudo.id = some (.reg r) →
    r ∈ initialPool abi live
  /-- Of two values in one register, one begins after the other and not before it ends. -/
  registers : ∀ i ∈ live.intervals, ∀ j ∈ live.intervals, i.pseudo.id ≠ j.pseudo.id → ∀ r,
    a.mapping.get? i.pseudo.id = some (.reg r) → a.mapping.get? j.pseudo.id = some (.reg r) →
    Follows i j ∨ Follows j i
  survives : ∀ i ∈ live.intervals, live.crossesCall i = true → ∀ r,
    a.mapping.get? i.pseudo.id = some (.reg r) → abi.isPreserved r = true
  slots : ∀ i ∈ live.intervals, ∀ offset, a.mapping.get? i.pseudo.id = some (.slot offset) →
    (i.pseudo.size.bytes : Int) ∣ offset ∧ -(a.frameSize : Int) ≤ offset
      ∧ offset + i.pseudo.size.bytes ≤ 0
  disjoint : ∀ i ∈ live.intervals, ∀ j ∈ live.intervals, i.pseudo.id ≠ j.pseudo.id → ∀ x y,
    a.mapping.get? i.pseudo.id = some (.slot x) → a.mapping.get? j.pseudo.id = some (.slot y) →
    x + i.pseudo.size.bytes ≤ y ∨ y + j.pseudo.size.bytes ≤ x
  aligned : 16 ∣ a.frameSize
  /-- The preserved registers that hold values are saved. -/
  saves : ∀ i ∈ live.intervals, ∀ r, a.mapping.get? i.pseudo.id = some (.reg r) →
    abi.isPreserved r = true → r ∈ a.saved
  savable : ∀ r ∈ a.saved, r ≠ .rbp ∧ (abi.isPreserved r = true ∨ r ∈ abi.arguments)
  even : 2 ∣ a.saved.length

/-- Every allocation meets the specification. -/
theorem spec_of_ofCode {abi : Abi} (habi : abi ∈ Abi.all) {code : List Instr} {a : Allocation}
    (h : ofCode abi code = .ok a) :
    ∃ live, Liveness.ofCode code = .ok live ∧ Spec abi live a := by
  unfold ofCode at h
  cases hlive : Liveness.ofCode code with
  | error e => rw [hlive] at h; cases h
  | ok live =>
    rw [hlive] at h
    cases h
    refine ⟨live, rfl, ?_⟩
    have hspec := Liveness.spec_of_ofCode hlive
    have hframe := le_alignUp (Progress.after abi live code.length).slotBytes
      (show 0 < 16 by decide)
    have hall : ∀ i, i ∈ Progress.begun live code.length ↔ i ∈ live.intervals := fun i => by
      simp only [Progress.begun, List.mem_filter, decide_eq_true_eq, and_iff_left_iff_imp]
      intro hi
      have := hspec.first_le_last hi
      have := hspec.inside i hi
      omega
    have hplaced := (Progress.Sound.after hspec habi code.length).placed.congr hall
    obtain ⟨hodd, hkeeps, honly⟩ := padToOdd_spec habi hplaced.used
    refine ⟨hplaced.located, fun i hi r hr => ?_, fun i hi j hj hne r hir hjr => ?_,
      fun i hi hcross r hr => ?_, fun i hi offset hoffset => ?_, hplaced.disjoint,
      dvd_alignUp _ _, fun i hi r hr hpreserved => ?_, fun r hr => ?_, ?_⟩
    · exact hplaced.drawn i hi r (registerOf?_eq_some.2 hr)
    · exact hplaced.registers i hi j hj hne r (registerOf?_eq_some.2 hir)
        (registerOf?_eq_some.2 hjr)
    · exact hplaced.survives i hi hcross r (registerOf?_eq_some.2 hr)
    · obtain ⟨depth, rfl, hdvd, hsize, hle⟩ := hplaced.slots i hi offset hoffset
      refine ⟨Int.dvd_neg.2 (Int.natCast_dvd_natCast.2 hdvd), ?_, by omega⟩
      simp only [ofLiveness]
      omega
    · refine List.mem_filter.2 ⟨(Machine.RegSet.mem_toList _ r).2 (hkeeps r ?_), ?_⟩
      · exact hplaced.saves i hi r (registerOf?_eq_some.2 hr) hpreserved
      · have hdrawn := hplaced.drawn i hi r (registerOf?_eq_some.2 hr)
        exact decide_eq_true (ne_of_mem_initialPool habi hdrawn).2
    · obtain ⟨hmem, hne⟩ := List.mem_filter.1 hr
      refine ⟨of_decide_eq_true hne, ?_⟩
      exact (honly r ((Machine.RegSet.mem_toList _ r).1 hmem)).imp_left (hplaced.used r)
    · have hlength := Machine.RegSet.length_filter_ne (hkeeps .rbp hplaced.pointer)
      show 2 ∣ ((padToOdd abi _).toList.filter (· ≠ .rbp)).length
      omega

/-- Allocated values do not interfere: what the stream touches has a location,
values that share a register follow each other, and slots are aligned, lie in the
frame and do not overlap. -/
theorem values_lie_apart {abi : Abi} (habi : abi ∈ Abi.all) {code : List Instr}
    {a : Allocation} (h : ofCode abi code = .ok a) :
    ∃ live, Liveness.ofCode code = .ok live
      ∧ (∀ instr ∈ code, ∀ id, instr.Touches id →
        ∃ location, a.mapping.get? id = some location)
      ∧ (∀ id other r, id ≠ other → a.mapping.get? id = some (.reg r) →
          a.mapping.get? other = some (.reg r) →
          ∃ i ∈ live.intervals, ∃ j ∈ live.intervals, i.pseudo.id = id ∧ j.pseudo.id = other
            ∧ (i.first < j.first ∧ i.last ≤ j.first ∨ j.first < i.first ∧ j.last ≤ i.first))
      ∧ (∀ id other x, id ≠ other → a.mapping.get? id = some (.slot x) →
          a.mapping.get? other ≠ some (.slot x))
      ∧ (∀ id x, a.mapping.get? id = some (.slot x) →
          ∃ p, Pseudo.firstTouch? code id = some p ∧ (p.size.bytes : Int) ∣ x
            ∧ -(a.frameSize : Int) ≤ x ∧ x + p.size.bytes ≤ 0)
      ∧ (∀ id other x y p q, id ≠ other → a.mapping.get? id = some (.slot x) →
          a.mapping.get? other = some (.slot y) → Pseudo.firstTouch? code id = some p →
          Pseudo.firstTouch? code other = some q →
          x + p.size.bytes ≤ y ∨ y + q.size.bytes ≤ x)
      ∧ 16 ∣ a.frameSize := by
  obtain ⟨live, hlive, hspec⟩ := spec_of_ofCode habi h
  have hcode := Liveness.spec_of_ofCode hlive
  have hinterval : ∀ {id location}, a.mapping.get? id = some location →
      ∃ i ∈ live.intervals, i.pseudo.id = id := fun hget => (hspec.located _).1 ⟨_, hget⟩
  have hdisjoint : ∀ id other x y p q, id ≠ other → a.mapping.get? id = some (.slot x) →
      a.mapping.get? other = some (.slot y) → Pseudo.firstTouch? code id = some p →
      Pseudo.firstTouch? code other = some q →
      x + p.size.bytes ≤ y ∨ y + q.size.bytes ≤ x := by
    intro id other x y p q hne hx hy hp hq
    obtain ⟨i, hi, rfl⟩ := hinterval hx
    obtain ⟨j, hj, rfl⟩ := hinterval hy
    rw [hcode.named i hi, Option.some.injEq] at hp
    rw [hcode.named j hj, Option.some.injEq] at hq
    subst hp hq
    exact hspec.disjoint i hi j hj hne x y hx hy
  refine ⟨live, hlive, ?_, ?_, ?_, ?_, hdisjoint, hspec.aligned⟩
  · intro instr hinstr id htouches
    obtain ⟨k, hk⟩ := List.getElem?_of_mem hinstr
    obtain ⟨i, hi, hid, -⟩ := hcode.contains k instr id hk htouches
    exact (hspec.located id).2 ⟨i, hi, hid⟩
  · intro id other r hne hid hother
    obtain ⟨i, hi, rfl⟩ := hinterval hid
    obtain ⟨j, hj, rfl⟩ := hinterval hother
    exact ⟨i, hi, j, hj, rfl, rfl, hspec.registers i hi j hj hne r hid hother⟩
  · intro id other x hne hid hother
    obtain ⟨i, hi, rfl⟩ := hinterval hid
    obtain ⟨j, hj, rfl⟩ := hinterval hother
    have := hspec.disjoint i hi j hj hne x x hid hother
    have := i.pseudo.size.bytes_pos
    have := j.pseudo.size.bytes_pos
    omega
  · intro id x hid
    obtain ⟨i, hi, rfl⟩ := hinterval hid
    exact ⟨i.pseudo, hcode.named i hi, hspec.slots i hi x hid⟩

/-- The allocation of a value that is needed twice in a row. -/
theorem values_lie_apart_in_sequence :
    let p (id : Nat) : Pseudo.Operand := .pseudo ⟨id, .long⟩
    let code : List Instr :=
      [.mov .long (.imm 1) (p 0), .mov .long (p 0) (.fixed .rax), .mov .long (.imm 2) (p 1),
        .mov .long (p 1) (.fixed .rax)]
    Abi.systemV ∈ Abi.all ∧ ∃ a, ofCode .systemV code = .ok a
      ∧ (∃ location, a.mapping.get? 0 = some location) ∧ 16 ∣ a.frameSize := by
  intro p code
  obtain ⟨a, ha⟩ : ∃ a, ofCode .systemV code = .ok a := ⟨_, rfl⟩
  obtain ⟨live, -, hlocated, -, -, -, -, haligned⟩ := values_lie_apart (by decide) ha
  refine ⟨by decide, a, ha,
    hlocated (.mov .long (.imm 1) (p 0)) List.mem_cons_self 0 ?_, haligned⟩
  exact Instr.Defines.touches (by decide)

end Allocation

end Jil
