/-
Jil.Proofs.FieldAccess — members of the class itself stay apart.

A member is reached by one move: its displacement is the member's offset, and its
width is that of the register, which the check has compared with the member's
type. Values that can be stored where a type is declared have the width of that
type, because references are all equally wide (`Typing.Stores`); so the bytes
that are read or written are those of the member. Members do not overlap, and a
write leaves the others and the dispatch slot as they were.

Members of type `void` are excluded: they have no bytes, and the register that
such a member is read into is as wide as an address.
-/
import Jil.Proofs.MemberCode
import Jil.Proofs.MemberLayout
import Jil.Proofs.Places
import Jil.Proofs.StreamExecution

namespace Jil

open Machine (Abi Memory Size Word)

/-! ## Accesses -/

/-- A member of the class itself that a statement reads or writes. -/
structure Access where
  /-- The object that has the member; static members have none. -/
  object : Option Register
  field : String
  /-- The register that the value is moved into, or out of. -/
  value : Register
  writes : Bool
  deriving DecidableEq

namespace Access

/-- The kind of the member. -/
def kind (a : Access) : MemberKind := if a.object.isSome then .perObject else .static

/-- Where a member at an offset lies. -/
def place (a : Access) (abi : Abi) (owner : String) (offset : Nat) : Pseudo.Operand :=
  match a.object with
  | some r => .indirect ⟨r.index, .quad⟩ offset
  | none => .rip (Symbol.ofStatics abi owner) offset

/-- The move between the register and a place. -/
def move (a : Access) (size : Size) (place : Pseudo.Operand) : Pseudo.Instr :=
  if a.writes then .mov size (.pseudo ⟨a.value.index, size⟩) place
  else .mov size place (.pseudo ⟨a.value.index, size⟩)

/-- The address of the structure that has the member. -/
def base (a : Access) (rt : Machine.Runtime) (owner : String) (σ : Pseudo.State) : Word :=
  match a.object with
  | some r => σ.pseudo r.index
  | none => rt.symbol (Symbol.ofStatics rt.abi owner)

end Access

/-- The member of the class `owner` that a statement reads or writes, if it does. -/
def Statement.access? (owner : String) (types : Table Register Ty) : Statement → Option Access
  | .getStatic name field result =>
    if name = owner then some ⟨none, field, result, false⟩ else none
  | .putStatic name field src => if name = owner then some ⟨none, field, src, true⟩ else none
  | .getField object field result =>
    if types.get? object = some (.classRef owner) then some ⟨some object, field, result, false⟩
    else none
  | .putField object field src =>
    if types.get? object = some (.classRef owner) then some ⟨some object, field, src, true⟩
    else none
  | _ => none

/-! ## Types of members -/

namespace Typing

variable {scope : Scope} {ctx : Context} {origin : Origin} {types : Table Register Ty}
  {s : Statement} {e : Effect} {a : Access}

/-- The register of an access has a type that fits the type of the member. -/
theorem stores_of_effect (h : effect scope ctx s origin = .ok e)
    (hknown : ∀ r t, ctx.registers.get? r = some t → types.get? r = some t)
    (hnew : ∀ r t, e = .define r t → types.get? r = some t)
    (ha : s.access? scope.unit.name types = some a) :
    ∃ declared t, (scope.unit.structureOf a.kind).fieldType a.field origin = .ok declared
      ∧ types.get? a.value = some t ∧ Stores declared t := by
  have hclass : ∀ {object : Register} {owner : String},
      ctx.registers.get? object = some (.classRef owner) →
      types.get? object = some (.classRef scope.unit.name) → owner = scope.unit.name := by
    intro object owner h htype
    rw [hknown _ _ h] at htype
    cases htype
    rfl
  cases judges_of_effect h with
  | getStatic hfield =>
    obtain ⟨rfl, hsome⟩ := Option.ite_none_right_eq_some.1 ha
    cases hsome
    rw [ClassUnit.staticFieldType, if_pos rfl] at hfield
    exact ⟨_, _, hfield, hnew _ _ rfl, .inl rfl⟩
  | putStatic hsrc hfield hassign =>
    obtain ⟨rfl, hsome⟩ := Option.ite_none_right_eq_some.1 ha
    cases hsome
    rw [ClassUnit.staticFieldType, if_pos rfl] at hfield
    exact ⟨_, _, hfield, hknown _ _ hsrc, stores_of_canAssign hassign⟩
  | getField hobject hfield =>
    obtain ⟨htype, hsome⟩ := Option.ite_none_right_eq_some.1 ha
    cases hsome
    rw [ClassUnit.objectFieldType, if_pos (hclass hobject htype)] at hfield
    exact ⟨_, _, hfield, hnew _ _ rfl, .inl rfl⟩
  | putField hobject hsrc hfield hassign =>
    obtain ⟨htype, hsome⟩ := Option.ite_none_right_eq_some.1 ha
    cases hsome
    rw [ClassUnit.objectFieldType, if_pos (hclass hobject htype)] at hfield
    exact ⟨_, _, hfield, hknown _ _ hsrc, stores_of_canAssign hassign⟩
  | _ => cases ha

end Typing

/-- The register of an access to a member of a class that passed its check fits the member. -/
theorem Checked.stores_of_access {u : ClassUnit} {position : Nat} {f : Function}
    (h : Checked u position f) {types : Table Register Ty}
    (hrecorded : f.registerTypes = some types) {s : Located} (hs : s ∈ f.body) {a : Access}
    (ha : s.statement.access? u.name types = some a) :
    ∃ declared t, (u.structureOf a.kind).fieldType a.field s.origin = .ok declared
      ∧ types.get? a.value = some t ∧ Typing.Stores declared t := by
  obtain ⟨scope, functions, ctx, e, hunit, -, heffect, hknown, hnew⟩ :=
    h.exists_effect hrecorded hs
  have hname : scope.unit.name = u.name := (congrArg ClassUnit.name hunit).symm
  rw [← hname] at ha
  have hstores := Typing.stores_of_effect heffect hknown hnew ha
  rw [← hunit] at hstores
  exact hstores

/-- What fits a type of a value is as wide as the type. -/
theorem Typing.bytes_sizeOf_of_stores {declared t : Ty} (h : Stores declared t)
    (hsized : declared ≠ .void) : (Selection.sizeOf t).bytes = declared.size := by
  rcases h with rfl | ⟨hdeclared, ht⟩
  · cases declared <;> first | rfl | exact absurd rfl hsized
  · rw [Selection.sizeOf_of_isReference ht]
    cases declared <;> first | rfl | cases hdeclared

/-! ## Code of accesses -/

namespace Selection

open Pseudo (Instr)

variable {scope : Scope} {st after : State} {index : Nat} {s : Statement} {origin : Origin}
  {code : List Instr} {a : Access}

/-- An access is a single move, at the offset of the member and at the size of the register. -/
theorem code_of_access (ha : s.access? scope.unit.name scope.types = some a)
    (h : Yields scope (statementCode index s origin) st code after) :
    ∃ t offset, scope.types.get? a.value = some t
      ∧ (scope.unit.structureOf a.kind).fieldOffset a.field origin = .ok offset
      ∧ code = [a.move (sizeOf t) (a.place scope.abi scope.unit.name offset)] := by
  cases s with
  | getStatic name field result =>
    obtain ⟨hname, hsome⟩ := Option.ite_none_right_eq_some.1 ha
    cases hsome
    obtain ⟨t, ht, ⟨_, ⟨rfl, offset, hoffset, rfl⟩, hcode, -⟩ | ⟨hother, -⟩⟩ :=
      yields_getStatic h
    · exact ⟨t, offset, ht, hoffset, hcode⟩
    · exact absurd hname hother
  | putStatic name field src =>
    obtain ⟨hname, hsome⟩ := Option.ite_none_right_eq_some.1 ha
    cases hsome
    obtain ⟨t, ht, ⟨_, ⟨rfl, offset, hoffset, rfl⟩, hcode, -⟩ | ⟨hother, -⟩⟩ :=
      yields_putStatic h
    · exact ⟨t, offset, ht, hoffset, hcode⟩
    · exact absurd hname hother
  | getField object field result =>
    obtain ⟨htype, hsome⟩ := Option.ite_none_right_eq_some.1 ha
    cases hsome
    obtain ⟨owner, t, howner, ht, ⟨_, ⟨-, offset, hoffset, rfl⟩, hcode, -⟩ | ⟨hother, -⟩⟩ :=
      yields_getField h
    · exact ⟨t, offset, ht, hoffset, hcode⟩
    · rw [htype] at howner
      cases howner
      exact absurd rfl hother
  | putField object field src =>
    obtain ⟨htype, hsome⟩ := Option.ite_none_right_eq_some.1 ha
    cases hsome
    obtain ⟨owner, t, howner, ht, ⟨_, ⟨-, offset, hoffset, rfl⟩, hcode, -⟩ | ⟨hother, -⟩⟩ :=
      yields_putField h
    · exact ⟨t, offset, ht, hoffset, hcode⟩
    · rw [htype] at howner
      cases howner
      exact absurd rfl hother
  | _ => cases ha

end Selection

/-! ## Writing a member -/

/-- Places in a structure are apart when their offsets are. -/
theorem Machine.Memory.not_within_of_apart {base : Word} {offset count x : Nat}
    (hcount : offset + count ≤ 2 ^ 64) (hx : x < 2 ^ 64)
    (h : x < offset ∨ offset + count ≤ x) :
    ¬ Within (base + BitVec.ofNat 64 offset) count (base + BitVec.ofNat 64 x) := by
  unfold Within
  simp only [BitVec.toNat_sub, BitVec.toNat_add, BitVec.toNat_ofNat]
  omega

open Pseudo in
/-- A write puts the value into the member, and changes no other byte. -/
theorem Access.memory_of_execAll {a : Access} (hwrites : a.writes = true)
    {rt : Machine.Runtime} {owner : String} {size : Size} {offset : Nat} {σ σ' : State}
    (h : Instr.execAll rt σ [a.move size (a.place rt.abi owner offset)] = .ok σ') :
    σ'.memory = σ.memory.store (a.base rt owner σ + BitVec.ofNat 64 offset) size
      (σ.value size a.value.index) := by
  obtain ⟨object, field, value, writes⟩ := a
  cases hwrites
  have hstore : ∀ {x : Word} {v : Machine.Value size},
      (State.store σ rt size x v).map (·.setFlags σ.flags) = .ok σ' →
      σ'.memory = σ.memory.store x size v := by
    intro x v h
    unfold State.store at h
    split at h
    · cases h
    · cases h
      rfl
  have hrun : ∀ {i : Instr}, Instr.execAll rt σ [i] = .ok σ' → i.exec rt σ = .ok σ' := by
    intro i h
    rw [Instr.execAll] at h
    split at h
    · next after heq =>
      cases h
      exact heq
    · cases h
  cases object with
  | none | some r =>
    rw [hstore (hrun h), BitVec.ofInt_natCast]
    rfl

/-! ## Members stay apart -/

/-- The bytes of an access are those of the member at a place of the layout, the
first one of its name. -/
structure Access.Touches (a : Access) (s : Structure) (place offset : Nat) (size : Size) :
    Prop where
  member : ∃ m, s.layout[place]? = some (m, offset) ∧ m.name = a.field
    ∧ size.bytes = m.type.size
  first : ∀ i < place, ∀ e : Member × Nat, s.layout[i]? = some e → e.1.name ≠ a.field
  inside : dispatchSlotSize ≤ offset ∧ offset + size.bytes ≤ s.totalSize
  apart : ∀ i, ∀ e : Member × Nat, s.layout[i]? = some e → i ≠ place →
    e.2 + e.1.type.size ≤ offset ∨ offset + size.bytes ≤ e.2

/-- Two memories hold the same dispatch slot and the same members, but for the one at
a place of the layout. -/
structure Structure.SameBut (s : Structure) (place : Nat) (base : Word) (m m' : Memory) :
    Prop where
  slot : ∀ k < dispatchSlotSize, m' (base + BitVec.ofNat 64 k) = m (base + BitVec.ofNat 64 k)
  members : ∀ i, ∀ e : Member × Nat, s.layout[i]? = some e → i ≠ place → ∀ k < e.1.type.size,
    m' (base + BitVec.ofNat 64 (e.2 + k)) = m (base + BitVec.ofNat 64 (e.2 + k))

/-- Writing the bytes of an access changes no other member. -/
theorem Access.Touches.sameBut {a : Access} {s : Structure} {place offset : Nat} {size : Size}
    (h : a.Touches s place offset size) (hfits : s.totalSize ≤ 2 ^ 64) (base : Word)
    (m : Memory) (v : Machine.Value size) :
    s.SameBut place base m (m.store (base + BitVec.ofNat 64 offset) size v) := by
  have hinside := h.inside
  have hkeeps : ∀ x < 2 ^ 64, x < offset ∨ offset + size.bytes ≤ x →
      m.store (base + BitVec.ofNat 64 offset) size v (base + BitVec.ofNat 64 x)
        = m (base + BitVec.ofNat 64 x) := fun x hx hout =>
    Memory.store_of_not_within v (Memory.not_within_of_apart (by omega) hx hout)
  refine ⟨fun k hk => hkeeps k ?_ (.inl ?_), fun i e he hne k hk => hkeeps _ ?_ ?_⟩
  · exact Nat.lt_trans hk (by decide)
  · exact Nat.lt_of_lt_of_le hk hinside.1
  · have := (Structure.bounds_of_layout he).2
    omega
  · rcases h.apart i e he hne with h | h <;> omega

section

variable {u : ClassUnit} {abi : Abi} {position index : Nat} {f : Function}
  {scope : Selection.Scope} {entry : Selection.Entry} {s : Located}
  {st after : Selection.State} {code : List Pseudo.Instr} {a : Access}

/-- An access to a member of the class itself is a move of the bytes of the member, which lie
behind the dispatch slot and apart from all other members. Writing puts the value there, and
leaves the dispatch slot and all other members as they were. -/
theorem access_stays_inside_member (hf : Checked u position f)
    (hsized : ∀ m ∈ (u.structureOf a.kind).members, m.type ≠ .void)
    (hscope : Selection.scopeOf u abi position f = .ok (scope, entry)) (hs : s ∈ f.body)
    (ha : s.statement.access? u.name scope.types = some a)
    (hcode : Selection.Yields scope (Selection.statementCode index s.statement s.origin)
      st code after) :
    ∃ place offset size, code = [a.move size (a.place abi u.name offset)]
      ∧ a.Touches (u.structureOf a.kind) place offset size
      ∧ ∀ rt σ σ', rt.abi = abi → a.writes = true →
        (u.structureOf a.kind).totalSize ≤ 2 ^ 64 → Pseudo.Instr.execAll rt σ code = .ok σ' →
        σ'.memory.load (a.base rt u.name σ + BitVec.ofNat 64 offset) size
            = σ.value size a.value.index
          ∧ (u.structureOf a.kind).SameBut place (a.base rt u.name σ) σ.memory σ'.memory := by
  obtain ⟨types, ht⟩ := hf.typed
  obtain ⟨copies, -, rfl, -⟩ := Selection.scopeOf_eq_ok ht.recorded hscope
  obtain ⟨declared, t, hdeclared, hvalue, hstores⟩ := hf.stores_of_access ht.recorded hs ha
  obtain ⟨t', offset, hvalue', hoffset, rfl⟩ := Selection.code_of_access ha hcode
  obtain rfl : t = t' := Option.some.inj (hvalue.symm.trans hvalue')
  obtain ⟨place, m, hlaid, hname, hfirst, htype⟩ := Structure.exists_of_fieldOffset hoffset
  obtain rfl := htype hdeclared
  have hmember : m ∈ (u.structureOf a.kind).members := by
    rw [← Structure.map_fst_layoutFrom dispatchSlotSize (u.structureOf a.kind).members]
    exact List.mem_map_of_mem (List.mem_of_getElem? hlaid)
  have hsize := Typing.bytes_sizeOf_of_stores hstores (hsized m hmember)
  have htouches : a.Touches (u.structureOf a.kind) place offset (Selection.sizeOf t) := by
    refine ⟨⟨m, hlaid, hname, hsize⟩, hfirst, ?_, fun i e he hne => ?_⟩
    · rw [hsize]
      exact Structure.bounds_of_layout hlaid
    · rw [hsize]
      exact Structure.apart_of_ne he hlaid hne
  refine ⟨place, offset, _, rfl, htouches, fun rt σ σ' habi hwrites hfits hrun => ?_⟩
  subst habi
  rw [Access.memory_of_execAll hwrites hrun]
  exact ⟨Memory.load_store _ _ _ _, htouches.sameBut hfits _ _ _⟩

end

/-- A method that stores its parameter in a field of its object. -/
def deposit : Function :=
  ((do
      let account ← .getParam "this"
      let amount ← .getParam "amount"
      .putField account "total" amount
      .returnVoid : Function.Build Unit).run
    { name := "deposit", kind := .perObject, params := [⟨.long, "amount"⟩],
      returns := .void }).2

/-- The class of the method, with a flag in front of the field. -/
def depositSource : ClassUnit :=
  (((ClassUnit.create "pkg/Account").addField .perObject .boolean "open" none).addField
    .perObject
    .long "total" (some "5")).addFunction deposit

/-- The class after its check. -/
def depositUnit : ClassUnit := depositSource.check.1

/-- The method with the types that its check finds. -/
def depositChecked : Function :=
  { deposit with registerTypes := some ⟨[(⟨0⟩, .classRef "pkg/Account"), (⟨1⟩, .long)]⟩ }

theorem checked_deposit : Checked depositUnit 0 depositChecked := by
  refine ⟨depositSource, rfl, ?_, rfl⟩
  intro g hg
  simp only [depositSource, ClassUnit.addFunction, ClassUnit.addField, ClassUnit.create,
    ClassUnit.declareSelf, List.nil_append, List.mem_singleton] at hg
  subst hg
  unfold Function.Drawn
  decide

/-- The method writes the eight bytes at 16, and leaves the flag at 8 as it was. -/
theorem deposit_stays_inside_total :
    Checked depositUnit 0 depositChecked ∧ (∀ m ∈ depositUnit.fields.members, m.type ≠ .void)
    ∧ ∃ scope entry st code, Selection.scopeOf depositUnit .systemV 0 depositChecked
        = .ok (scope, entry)
      ∧ Selection.Yields scope
        (Selection.statementCode 2 (.putField ⟨0⟩ "total" ⟨1⟩) .generated) st
        code st
      ∧ code = [.mov .quad (.pseudo ⟨1, .quad⟩) (.indirect ⟨0, .quad⟩ 16)]
      ∧ ∀ rt σ σ', rt.abi = .systemV → Pseudo.Instr.execAll rt σ code = .ok σ' →
        σ'.memory (σ.pseudo 0 + 8) = σ.memory (σ.pseudo 0 + 8) := by
  let st : Selection.State := { strings := {}, drawn := 4 }
  obtain ⟨scope, entry, hscope, hyields, haccess⟩ : ∃ scope entry,
      Selection.scopeOf depositUnit .systemV 0 depositChecked = .ok (scope, entry)
      ∧ Selection.Yields scope
        (Selection.statementCode 2 (.putField ⟨0⟩ "total" ⟨1⟩) .generated) st
        [.mov .quad (.pseudo ⟨1, .quad⟩) (.indirect ⟨0, .quad⟩ 16)] st
      ∧ (Statement.putField ⟨0⟩ "total" ⟨1⟩).access? depositUnit.name scope.types
        = some ⟨some ⟨0⟩, "total", ⟨1⟩, true⟩ := ⟨_, _, rfl, rfl, rfl⟩
  have hsized : ∀ m ∈ depositUnit.fields.members, m.type ≠ .void := by decide +kernel
  obtain ⟨place, offset, size, hcode, htouches, hruns⟩ :=
    access_stays_inside_member (s := ⟨.putField ⟨0⟩ "total" ⟨1⟩, .generated⟩)
      (a := ⟨some ⟨0⟩, "total", ⟨1⟩, true⟩) checked_deposit hsized hscope (by decide +kernel)
      haccess hyields
  refine ⟨checked_deposit, hsized, scope, entry, st, _, hscope, hyields, rfl,
    fun rt σ σ' habi hrun => ?_⟩
  have hoffset : offset = 16 := by
    have hplace := List.head_eq_of_cons_eq hcode
    simp [Access.move, Access.place, Pseudo.Instr.mov] at hplace
    omega
  have hne : 0 ≠ place := by
    rintro rfl
    obtain ⟨m, hm, -⟩ := htouches.member
    rw [hoffset] at hm
    cases hm
  obtain ⟨-, hsame⟩ := hruns rt σ σ' habi rfl (by decide +kernel) hrun
  exact hsame.members 0 (⟨.boolean, "open", none, .generated⟩, 8) rfl hne 0 (by decide)

end Jil
