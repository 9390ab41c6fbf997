/-
Jil.Proofs.MemberLayout — where the members of a structure lie.

Members are laid out from front to back (`endFrom` is where they end), each
behind the one before it, so the bytes of two of them never overlap. The size of
a structure is the end of its last member. A member lies at the first multiple of
its alignment behind the member in front of it (`getElem?_layoutFrom`), so it
depends on nothing behind it. Types and offsets are searched for in different
lists, which agree on the first member of a name (`find?_members`).
-/
import Jil.Proofs.Interference
import Jil.Proofs.Resolved

namespace Jil.Structure

variable {offset place : Nat} {members : List Member} {m : Member}

/-- The end of members that lie behind the first `offset` bytes. -/
def endFrom (offset : Nat) : List Member → Nat
  | [] => offset
  | m :: rest => endFrom (alignUp offset m.type.align + m.type.size) rest

theorem le_endFrom (offset : Nat) (members : List Member) :
    offset ≤ endFrom offset members := by
  induction members generalizing offset with
  | nil => exact Nat.le_refl offset
  | cons m rest ih =>
    have := le_alignUp offset m.type.align_pos
    have := ih (alignUp offset m.type.align + m.type.size)
    rw [endFrom]
    omega

/-- The size of a structure is the end of its members. -/
theorem totalSize_eq (s : Structure) : s.totalSize = endFrom dispatchSlotSize s.members := by
  have hlast : ∀ (members : List Member) (offset : Nat),
      ((layoutFrom offset members).getLast?.elim offset fun p => p.2 + p.1.type.size)
        = endFrom offset members := by
    intro members
    induction members with
    | nil => exact fun offset => rfl
    | cons m rest ih =>
      intro offset
      rw [layoutFrom, endFrom, ← ih]
      cases rest with
      | nil | cons m' rest => rfl
  rw [← hlast, totalSize, layout]
  cases (layoutFrom dispatchSlotSize s.members).getLast? <;> rfl

/-- A member lies behind what is in front of it and ends where the members do. -/
theorem bounds_of_mem_layoutFrom (h : (m, place) ∈ layoutFrom offset members) :
    offset ≤ place ∧ place + m.type.size ≤ endFrom offset members := by
  induction members generalizing offset with
  | nil => cases h
  | cons m' rest ih =>
    have := le_alignUp offset m'.type.align_pos
    rcases List.mem_cons.1 h with h | h
    · cases h
      exact ⟨this, le_endFrom _ rest⟩
    · have := ih h
      rw [endFrom]
      omega

/-- A member begins where or behind where those before it end. -/
theorem pairwise_layoutFrom (offset : Nat) (members : List Member) :
    (layoutFrom offset members).Pairwise fun e e' => e.2 + e.1.type.size ≤ e'.2 := by
  induction members generalizing offset with
  | nil => exact List.Pairwise.nil
  | cons m rest ih =>
    exact List.Pairwise.cons (fun e' he' => (bounds_of_mem_layoutFrom he').1) (ih _)

variable {s : Structure} {name : String} {origin : Origin} {i j : Nat} {e e' : Member × Nat}

/-- The bytes of two members do not overlap. -/
theorem apart_of_ne (hi : s.layout[i]? = some e) (hj : s.layout[j]? = some e') (h : i ≠ j) :
    e.2 + e.1.type.size ≤ e'.2 ∨ e'.2 + e'.1.type.size ≤ e.2 := by
  obtain ⟨hi', rfl⟩ := List.getElem?_eq_some_iff.1 hi
  obtain ⟨hj', rfl⟩ := List.getElem?_eq_some_iff.1 hj
  have hpairwise :=
    List.pairwise_iff_getElem.1 (pairwise_layoutFrom dispatchSlotSize s.members)
  rcases Nat.lt_or_gt_of_ne h with hlt | hlt
  · exact .inl (hpairwise i j hi' hj' hlt)
  · exact .inr (hpairwise j i hj' hi' hlt)

/-- Members lie behind the dispatch slot and inside the structure. -/
theorem bounds_of_layout (h : s.layout[i]? = some e) :
    dispatchSlotSize ≤ e.2 ∧ e.2 + e.1.type.size ≤ s.totalSize := by
  rw [totalSize_eq]
  exact bounds_of_mem_layoutFrom (List.mem_of_getElem? h)

/-! ## The first member of a name -/

/-- The search among the members and that among their places stop at the same member. -/
theorem find?_members (s : Structure) (name : String) :
    s.members.find? (·.name = name) = (s.layout.find? (·.1.name = name)).map Prod.fst := by
  have hmap := map_fst_layoutFrom dispatchSlotSize s.members
  rw [← hmap, List.find?_map]
  rfl

/-- What is found under a name is its first member. -/
theorem first_of_find? (h : s.layout.find? (·.1.name = name) = some e) :
    ∃ j : Nat, s.layout[j]? = some e ∧ e.1.name = name
      ∧ ∀ i < j, ∀ e : Member × Nat, s.layout[i]? = some e → e.1.name ≠ name := by
  obtain ⟨hname, j, hj, hget, hfirst⟩ := List.find?_eq_some_iff_getElem.1 h
  refine ⟨j, by rw [List.getElem?_eq_getElem hj, hget], by simpa using hname,
    fun i hi e he hename => ?_⟩
  obtain ⟨hi', rfl⟩ := List.getElem?_eq_some_iff.1 he
  exact absurd hename (by simpa using hfirst i hi)

/-- An offset is that of the first member of the name, and so is a type. -/
theorem exists_of_fieldOffset {offset : Nat} (h : s.fieldOffset name origin = .ok offset) :
    ∃ (j : Nat) (m : Member), s.layout[j]? = some (m, offset) ∧ m.name = name
      ∧ (∀ i < j, ∀ e : Member × Nat, s.layout[i]? = some e → e.1.name ≠ name)
      ∧ ∀ {t origin}, s.fieldType name origin = .ok t → t = m.type := by
  unfold fieldOffset at h
  split at h
  · next m place hfind =>
    cases h
    obtain ⟨j, hget, hname, hfirst⟩ := first_of_find? hfind
    refine ⟨j, m, hget, hname, hfirst, fun {t origin} ht => ?_⟩
    unfold fieldType at ht
    rw [find?_members, hfind] at ht
    cases ht
    rfl
  · cases h

/-- Offset and type of a name are those of its first member, and a name without a member has
neither. -/
theorem lookup_cases (s : Structure) (name : String) (origin : Origin) :
    (s.contains name = true ∧ ∃ (j : Nat) (m : Member) (place : Nat),
      s.layout[j]? = some (m, place) ∧ m.name = name
        ∧ (∀ i < j, ∀ e : Member × Nat, s.layout[i]? = some e → e.1.name ≠ name)
        ∧ s.fieldOffset name origin = .ok place ∧ s.fieldType name origin = .ok m.type)
    ∨ (s.contains name = false
      ∧ s.fieldOffset name origin = .error (.layout s.name name (some origin))
      ∧ s.fieldType name origin = .error (.layout s.name name (some origin))) := by
  unfold fieldOffset fieldType contains
  rw [← List.isSome_find?, find?_members]
  cases hfind : s.layout.find? (·.1.name = name) with
  | none => exact .inr ⟨rfl, rfl, rfl⟩
  | some e =>
    obtain ⟨j, hget, hname, hfirst⟩ := first_of_find? hfind
    exact .inl ⟨rfl, j, e.1, e.2, hget, hname, hfirst, rfl, rfl⟩

/-! ## No byte is wasted -/

theorem alignUp_lt (offset : Nat) {align : Nat} (h : 0 < align) :
    alignUp offset align < offset + align := by
  have := Nat.div_mul_le_self (offset + align - 1) align
  unfold alignUp
  omega

theorem alignUp_le {align bound : Nat} (hle : offset ≤ bound) (hdvd : align ∣ bound)
    (h : 0 < align) : alignUp offset align ≤ bound := by
  obtain ⟨k, rfl⟩ := hdvd
  have hlt : alignUp offset align < align * (k + 1) := by
    have := alignUp_lt offset h
    rw [Nat.mul_succ]
    omega
  obtain ⟨l, hl⟩ := dvd_alignUp offset align
  rw [hl] at hlt ⊢
  exact Nat.mul_le_mul_left align (Nat.lt_succ_iff.1 (Nat.lt_of_mul_lt_mul_left hlt))

theorem endFrom_append (offset : Nat) (members more : List Member) :
    endFrom offset (members ++ more) = endFrom (endFrom offset members) more := by
  induction members generalizing offset with
  | nil => rfl
  | cons m rest ih => exact ih _

/-- Members that are added lie behind the others, which stay where they are. -/
theorem layoutFrom_append (offset : Nat) (members more : List Member) :
    layoutFrom offset (members ++ more)
      = layoutFrom offset members ++ layoutFrom (endFrom offset members) more := by
  induction members generalizing offset with
  | nil => rfl
  | cons m rest ih => exact congrArg (List.cons _) (ih _)

/-- A member lies at the next multiple of its alignment behind those in front of it. -/
theorem getElem?_layoutFrom (offset : Nat) (members : List Member) (i : Nat) :
    (layoutFrom offset members)[i]?
      = members[i]?.map fun m =>
      (m, alignUp (endFrom offset (members.take i)) m.type.align) := by
  induction members generalizing offset i with
  | nil => rfl
  | cons m rest ih =>
    cases i with
    | zero => rfl
    | succ i => exact ih _ i

/-- Where the member in front of a given index ends; the dispatch slot is in front of the
first. -/
def endBefore (s : Structure) : Nat → Nat
  | 0 => dispatchSlotSize
  | i + 1 => s.layout[i]?.elim dispatchSlotSize fun e => e.2 + e.1.type.size

theorem endBefore_eq (h : i ≤ s.members.length) :
    s.endBefore i = endFrom dispatchSlotSize (s.members.take i) := by
  cases i with
  | zero => rfl
  | succ i =>
    have hi : i < s.members.length := h
    rw [endBefore, layout, getElem?_layoutFrom, List.getElem?_eq_getElem hi,
      List.take_succ_eq_append_getElem hi, endFrom_append]
    rfl

/-- A structure ends where its last member does. -/
theorem totalSize_eq_endBefore (s : Structure) :
    s.totalSize = s.endBefore s.members.length := by
  rw [totalSize_eq, endBefore_eq (Nat.le_refl _), List.take_length]

/-- A member lies at a multiple of its alignment, less than one alignment behind
what is in front of it. -/
theorem tight_of_layout (h : s.layout[i]? = some (m, place)) :
    m.type.align ∣ place ∧ s.endBefore i ≤ place ∧ place < s.endBefore i + m.type.align := by
  rw [layout, getElem?_layoutFrom, Option.map_eq_some_iff] at h
  obtain ⟨m', hm', heq⟩ := h
  cases heq
  have hi : i < s.members.length := (List.getElem?_eq_some_iff.1 hm').1
  rw [endBefore_eq (Nat.le_of_lt hi)]
  exact ⟨dvd_alignUp _ _, le_alignUp _ m.type.align_pos, alignUp_lt _ m.type.align_pos⟩

/-- Every member takes at most eight bytes, what is left free in front of it included. -/
theorem endFrom_le (offset : Nat) (members : List Member) :
    endFrom offset members ≤ alignUp offset 8 + 8 * members.length := by
  induction members generalizing offset with
  | nil => exact le_alignUp offset (by decide)
  | cons m rest ih =>
    have hsize : m.type.size ≤ 8 := by cases m.type <;> simp [Ty.size]
    have halign : m.type.align ∣ 8 := by
      cases m.type <;> simp only [Ty.align, Ty.size] <;> decide
    have hplace : alignUp offset m.type.align ≤ alignUp offset 8 :=
      alignUp_le (le_alignUp offset (by decide)) (Nat.dvd_trans halign (dvd_alignUp offset 8))
        m.type.align_pos
    have hend : alignUp (alignUp offset m.type.align + m.type.size) 8 ≤ alignUp offset 8 + 8 :=
      alignUp_le (by omega) ((Nat.dvd_add_right (dvd_alignUp offset 8)).2 (Nat.dvd_refl 8))
        (by decide)
    have := ih (alignUp offset m.type.align + m.type.size)
    rw [endFrom, List.length_cons]
    omega

/-- Members lie in the order of declaration, behind the dispatch slot, aligned, apart from one
another and with no byte wasted. The structure ends with its last member, and a member that is
added moves none of the others. Offset and type of a name are those of the first member of that
name, and the names without a member have neither. -/
theorem layout_is_tight (s : Structure) :
    s.layout.map Prod.fst = s.members
    ∧ (∀ (i : Nat) (m : Member) (place : Nat), s.layout[i]? = some (m, place) →
      dispatchSlotSize ≤ place ∧ m.type.align ∣ place
        ∧ s.endBefore i ≤ place ∧ place < s.endBefore i + m.type.align)
    ∧ (∀ (i j : Nat) (e e' : Member × Nat),
      s.layout[i]? = some e → s.layout[j]? = some e' → i ≠ j →
        e.2 + e.1.type.size ≤ e'.2 ∨ e'.2 + e'.1.type.size ≤ e.2)
    ∧ s.totalSize = s.endBefore s.members.length
    ∧ s.totalSize ≤ 8 * (s.members.length + 1)
    ∧ (∀ more : List Member, s.layout <+: { s with members := s.members ++ more }.layout)
    ∧ ∀ (name : String) (origin : Origin),
      (s.contains name = true ∧ ∃ (j : Nat) (m : Member) (place : Nat),
        s.layout[j]? = some (m, place) ∧ m.name = name
          ∧ (∀ i < j, ∀ e : Member × Nat, s.layout[i]? = some e → e.1.name ≠ name)
          ∧ s.fieldOffset name origin = .ok place ∧ s.fieldType name origin = .ok m.type)
      ∨ (s.contains name = false
        ∧ s.fieldOffset name origin = .error (.layout s.name name (some origin))
        ∧ s.fieldType name origin = .error (.layout s.name name (some origin))) := by
  refine ⟨map_fst_layoutFrom dispatchSlotSize s.members, fun i m place h => ?_,
    fun i j e e' hi hj hne => apart_of_ne hi hj hne, totalSize_eq_endBefore s, ?_,
      fun more => ?_,
    lookup_cases s⟩
  · exact ⟨(bounds_of_layout h).1, tight_of_layout h⟩
  · have := endFrom_le dispatchSlotSize s.members
    have hslot : alignUp dispatchSlotSize 8 = 8 := by decide
    rw [totalSize_eq]
    omega
  · exact ⟨_, (layoutFrom_append dispatchSlotSize s.members more).symm⟩

/-- Members of five sizes, one of them without a byte, and a name that is declared twice. -/
def ragged : Structure :=
  { owner := "pkg/Main"
    kind := .perObject
    members :=
      [⟨.byte, "flag", none, .generated⟩, ⟨.long, "total", none, .generated⟩,
        ⟨.void, "gap", none, .generated⟩, ⟨.short, "flag", none, .generated⟩,
        ⟨.int, "limit", none, .generated⟩] }

/-- The second `flag` cannot be reached by its name, and two bytes in front of `limit` stay
free. -/
theorem layout_of_ragged :
    ragged.layout.map Prod.snd = [8, 16, 24, 24, 28] ∧ ragged.totalSize = 32
      ∧ ragged.fieldOffset "flag" .generated = .ok 8
      ∧ ragged.fieldType "flag" .generated = .ok .byte
      ∧ ragged.endBefore 4 ≤ 28 ∧ 28 < ragged.endBefore 4 + Ty.int.align
      ∧ (8 + 1 ≤ 24 ∨ 24 + 2 ≤ 8)
      ∧ ragged.layout <+: (ragged.add .long "more" none).layout := by
  obtain ⟨-, hplaces, hapart, -, -, hadd, -⟩ := layout_is_tight ragged
  refine ⟨by decide, by decide, rfl, rfl, ?_, ?_, ?_, hadd [⟨.long, "more", none, .generated⟩]⟩
  · exact (hplaces 4 ⟨.int, "limit", none, .generated⟩ 28 (by decide)).2.2.1
  · exact (hplaces 4 ⟨.int, "limit", none, .generated⟩ 28 (by decide)).2.2.2
  · exact hapart 0 3 (⟨.byte, "flag", none, .generated⟩, 8)
      (⟨.short, "flag", none, .generated⟩, 24) (by decide) (by decide) (by decide)

end Jil.Structure
