/-
Jil.Proofs.StaticBlock — the bytes of the static members of a class.

`assemble` reads lines of data the way an assembler does: `.byte`, `.short`,
`.long` and `.quad` hold a number, lowest byte first, and `.zero` a run of zero
bytes. Code reaches members by the offsets of the layout, so the block is right
when the bytes that its lines stand for lie where the layout has them
(`Structure.HeldBy`).

The directive is chosen by the size of a member, and a member without a size gets
that of eight bytes. The block is right exactly when no member has type `void`,
which sources can give to a member like any other type.
-/
import Jil.Proofs.Compiling
import Jil.Proofs.MemberLayout
import Jil.Proofs.Numbers
import Jil.Proofs.Numerals
import Jil.Proofs.Scanning

namespace Jil

open Pseudo (bind_eq_ok)

/-! ## Assembling data -/

/-- The bytes of a number in two's complement, the lowest first. -/
def littleEndian (count : Nat) (v : Int) : List (BitVec 8) :=
  (List.range count).map fun k => (BitVec.ofInt (8 * count) v).extractLsb' (8 * k) 8

@[simp] theorem length_littleEndian (count : Nat) (v : Int) :
    (littleEndian count v).length = count := by
  simp [littleEndian]

/-- Only the low part of a number shows. -/
theorem littleEndian_emod (count : Nat) (v : Int) :
    littleEndian count (v % 2 ^ (8 * count)) = littleEndian count v := by
  have hlow : BitVec.ofInt (8 * count) (v % 2 ^ (8 * count)) = BitVec.ofInt (8 * count) v := by
    apply BitVec.eq_of_toNat_eq
    rw [BitVec.toNat_ofInt, BitVec.toNat_ofInt, Int.natCast_pow]
    exact congrArg Int.toNat (Int.emod_emod_of_dvd v (Int.dvd_refl _))
  rw [littleEndian, littleEndian, hlow]

theorem littleEndian_zero (count : Nat) : littleEndian count 0 = List.replicate count 0 := by
  simp [littleEndian, List.map_const']

namespace Assembly

open Text (cut readNat? readSigned?)

/-- Bytes of the number behind a directive. -/
def valueWidth? (directive : List Char) : Option Nat :=
  if directive = "\t.byte".toList then some 1
  else if directive = "\t.short".toList then some 2
  else if directive = "\t.long".toList then some 4
  else if directive = "\t.quad".toList then some 8
  else none

/-- The bytes that a line of data stands for. A number has to fit into the bytes of its
directive, with or without a sign. -/
def assembleLine (line : List Char) : Option (List (BitVec 8)) :=
  (cut [' '] line).bind fun (directive, numeral) =>
    if directive = "\t.zero".toList then (readNat? 10 numeral).map fun n => List.replicate n 0
    else (valueWidth? directive).bind fun width =>
      (readSigned? 10 (8 * width + 1) numeral).map (littleEndian width)

/-- The bytes that lines of data stand for. -/
def assemble : List String → Option (List (BitVec 8))
  | [] => some []
  | line :: rest =>
    (assembleLine line.toList).bind fun bytes => (assemble rest).map (bytes ++ ·)

end Assembly

/-! ## Pieces of data -/

namespace DataItem

open Assembly (assemble assembleLine valueWidth?)

/-- Bytes of the directive for a value. -/
def width : Nat → Nat
  | 1 => 1
  | 2 => 2
  | 4 => 4
  | _ => 8

/-- The bytes that a piece of data is assembled to. -/
def bytes : DataItem → List (BitVec 8)
  | .value count bits => littleEndian (width count) bits
  | .zeros count => List.replicate count 0

/-- A value that is written in full has at most 64 bits. -/
def Fits : DataItem → Prop
  | .value count bits => width count = 8 → Literal.fitsSigned 64 bits = true
  | .zeros _ => True

variable {start : String} {count : Nat}

theorem assembleLine_value (directive : List Char) {v : Int}
    (hstart : start.toList = directive ++ [' ']) (hblank : ' ' ∉ directive)
    (hwidth : valueWidth? directive = some count)
    (hlower : -(2 ^ (8 * count) : Int) ≤ v) (hupper : v < 2 ^ (8 * count)) :
    assembleLine (start ++ toString v).toList = some (littleEndian count v) := by
  have hzero : directive ≠ "\t.zero".toList := by
    rintro rfl
    revert hwidth
    simp [valueWidth?]
  rw [String.toList_append, hstart, List.append_assoc, List.singleton_append, assembleLine,
    Text.cut_char hblank, Option.bind_some]
  simp only [if_neg hzero, hwidth, Option.bind_some]
  rw [Text.readSigned?_toString (by simpa using hlower) (by simpa using hupper),
    Option.map_some]

/-- A narrow value is written without its sign. -/
theorem assembleLine_narrow (directive : List Char) {modulus : Int} (v : Int)
    (hstart : start.toList = directive ++ [' ']) (hblank : ' ' ∉ directive)
    (hwidth : valueWidth? directive = some count) (hmodulus : modulus = 2 ^ (8 * count)) :
    assembleLine (start ++ toString (v % modulus)).toList = some (littleEndian count v) := by
  have hpos : (0 : Int) < 2 ^ (8 * count) := Int.pow_pos (by decide)
  rw [hmodulus, assembleLine_value directive hstart hblank hwidth, littleEndian_emod]
  · have := Int.emod_nonneg v (Int.ne_of_gt hpos)
    omega
  · exact Int.emod_lt_of_pos v hpos

theorem assembleLine_text {item : DataItem} (h : item.Fits) :
    assembleLine item.text.toList = some item.bytes := by
  unfold text
  split
  · next bits =>
    exact assembleLine_narrow "\t.byte".toList bits rfl (by decide) rfl rfl
  · next bits =>
    exact assembleLine_narrow "\t.short".toList bits rfl (by decide) rfl rfl
  · next bits =>
    exact assembleLine_narrow "\t.long".toList bits rfl (by decide) rfl rfl
  · next count bits hone htwo hfour =>
    have hwidth : width count = 8 := by
      unfold width
      split
      · exact absurd rfl hone
      · exact absurd rfl htwo
      · exact absurd rfl hfour
      · rfl
    have hrange := h hwidth
    rw [Literal.fitsSigned, Bool.and_eq_true, decide_eq_true_eq, decide_eq_true_eq] at hrange
    rw [bytes, hwidth]
    exact assembleLine_value "\t.quad".toList rfl (by decide) rfl (by omega) (by omega)
  · next count =>
    have hstart : "\t.zero ".toList = "\t.zero".toList ++ [' '] := rfl
    rw [String.toList_append, hstart, List.append_assoc, List.singleton_append, assembleLine,
      Text.cut_char (by decide), Option.bind_some, Text.toList_toString_nat]
    simp only [if_true, Text.readNat?_toDigits (by decide : 1 < 10) (by decide : 10 ≤ 16),
      Option.map_some]
    rfl

/-- Lines of data are assembled piece by piece. -/
theorem assemble_map_text {items : List DataItem} (h : ∀ item ∈ items, item.Fits) :
    assemble (items.map text) = some (items.flatMap bytes) := by
  induction items with
  | nil => rfl
  | cons item rest ih =>
    rw [List.map_cons, assemble, assembleLine_text (h item List.mem_cons_self),
      Option.bind_some,
      ih fun item hitem => h item (List.mem_cons_of_mem _ hitem), Option.map_some,
      List.flatMap_cons]

end DataItem

/-! ## The block of a structure -/

/-- The first value of a member fits into the directive that its size chooses. -/
theorem Member.fits_of_defaultBits {m : Member} {bits : Int} (h : m.defaultBits = .ok bits) :
    (DataItem.value m.type.size bits).Fits := by
  intro hwidth
  unfold defaultBits at h
  split at h
  · cases h
    decide
  · next value _ =>
    split at h
    · next bits' hbits =>
      cases h
      revert hbits hwidth
      generalize m.type = t
      intro hwidth hbits
      -- only types of eight bytes and `void` are left, and no literal has type `void`
      cases t with
      | long => exact Ty.fitsSigned_of_bits? rfl hbits (by decide)
      | double =>
        obtain ⟨pattern, -, rfl⟩ := Option.map_eq_some_iff.1 hbits
        have hlower := BitVec.le_toInt (BitVec.ofNat 64 pattern)
        have hupper := BitVec.toInt_lt (x := BitVec.ofNat 64 pattern)
        rw [Literal.fitsSigned, Literal.asSigned64, Bool.and_eq_true]
        exact ⟨decide_eq_true hlower, decide_eq_true hupper⟩
      | null | classRef name | array element =>
        exact Ty.fitsSigned_of_bits? (t := .null) rfl hbits (by decide)
      | void => cases hbits
      | _ => cases hwidth
    · cases h

namespace Structure

open DataItem (bytes width)

variable {offset place : Nat} {m : Member} {members : List Member} {items : List DataItem}
  {rest : List (Member × Nat)} {s : Structure}

/-- The bytes of placed members: zeros up to the first one, its value, and the others. -/
theorem dataFrom_cons_eq_ok (h : dataFrom offset ((m, place) :: rest) = .ok items) :
    ∃ bits following, m.defaultBits = .ok bits
      ∧ dataFrom (place + m.type.size) rest = .ok following
      ∧ items.flatMap bytes = List.replicate (place - offset) 0
          ++ (littleEndian (width m.type.size) bits ++ following.flatMap bytes)
      ∧ ∀ item ∈ items, item.Fits ∨ item ∈ following := by
  rw [dataFrom] at h
  obtain ⟨bits, hbits, h⟩ := bind_eq_ok.1 h
  obtain ⟨following, hfollowing, h⟩ := bind_eq_ok.1 h
  cases h
  have hvalue := Member.fits_of_defaultBits hbits
  refine ⟨bits, following, hbits, hfollowing, ?_, fun item hitem => ?_⟩
  · rw [List.flatMap_append, List.flatMap_cons, bytes]
    congr 1
    split
    · simp [bytes]
    · next hgap => rw [Nat.sub_eq_zero_of_le (Nat.le_of_not_lt hgap)]; rfl
  · rcases List.mem_append.1 hitem with hitem | hitem
    · left
      split at hitem
      · rw [List.mem_singleton.1 hitem]
        trivial
      · cases hitem
    · rcases List.mem_cons.1 hitem with rfl | hitem
      · exact .inl hvalue
      · exact .inr hitem

theorem fits_of_dataFrom {placed : List (Member × Nat)}
    (h : dataFrom offset placed = .ok items) :
    ∀ item ∈ items, item.Fits := by
  induction placed generalizing offset items with
  | nil =>
    cases h
    nofun
  | cons e rest ih =>
    obtain ⟨_, following, -, hfollowing, -, hall⟩ := dataFrom_cons_eq_ok h
    exact fun item hitem => (hall item hitem).elim id (ih hfollowing item)

/-- A directive is as wide as the member, but for members without a size. -/
theorem width_size (t : Ty) : width t.size = t.size + if t = .void then 8 else 0 := by
  cases t <;> rfl

/-- A block is too long by eight bytes for every member without a size. -/
theorem length_dataFrom (h : dataFrom offset (layoutFrom offset members) = .ok items) :
    offset + (items.flatMap bytes).length
      = endFrom offset members + 8 * members.countP (·.type = .void) := by
  induction members generalizing offset items with
  | nil =>
    cases h
    rfl
  | cons m rest ih =>
    obtain ⟨bits, following, -, hfollowing, hbytes, -⟩ := dataFrom_cons_eq_ok h
    have hle := le_alignUp offset m.type.align_pos
    have hrest := ih hfollowing
    rw [hbytes, List.length_append, List.length_append, List.length_replicate,
      length_littleEndian, width_size, endFrom, List.countP_cons]
    simp only [decide_eq_true_eq]
    split <;> omega

/-- The bytes of members behind some that are given, when all have sizes: each value lies where
the layout has it, and every byte between values is zero. -/
theorem members_of_dataFrom (h : dataFrom offset (layoutFrom offset members) = .ok items)
    (hsized : ∀ m ∈ members, m.type ≠ .void) {front : List (BitVec 8)}
    (hfront : front.length = offset) :
    (∀ e ∈ layoutFrom offset members, ∃ bits, e.1.defaultBits = .ok bits
      ∧ ((front ++ items.flatMap bytes).drop e.2).take e.1.type.size
        = littleEndian e.1.type.size bits)
    ∧ ∀ k, offset ≤ k → k < endFrom offset members →
      (∀ e ∈ layoutFrom offset members, ¬ (e.2 ≤ k ∧ k < e.2 + e.1.type.size)) →
      (front ++ items.flatMap bytes)[k]? = some 0 := by
  induction members generalizing offset items front with
  | nil => exact ⟨nofun, fun k hle hlt => absurd hlt (Nat.not_lt.2 hle)⟩
  | cons m rest ih =>
    obtain ⟨bits, following, hbits, hfollowing, hbytes, -⟩ := dataFrom_cons_eq_ok h
    have hle := le_alignUp offset m.type.align_pos
    have hwidth : width m.type.size = m.type.size := by
      rw [width_size, if_neg (hsized m List.mem_cons_self), Nat.add_zero]
    rw [hwidth] at hbytes
    -- what is in front of the others is as long as they are far from the beginning
    let gap : List (BitVec 8) := List.replicate (alignUp offset m.type.align - offset) 0
    let value := littleEndian m.type.size bits
    have hgap : (front ++ gap).length = alignUp offset m.type.align := by
      rw [List.length_append, List.length_replicate]
      omega
    have hlength :
        (front ++ gap ++ value).length = alignUp offset m.type.align + m.type.size := by
      rw [List.length_append, hgap, length_littleEndian]
    obtain ⟨hmembers, hpadding⟩ :=
      ih hfollowing (fun m hm => hsized m (List.mem_cons_of_mem _ hm)) hlength
    have hblock : front ++ items.flatMap bytes
        = front ++ gap ++ value ++ following.flatMap bytes := by
      rw [hbytes, List.append_assoc, List.append_assoc]
    rw [hblock]
    refine ⟨fun e he => ?_, fun k hk hend hbetween => ?_⟩
    · rcases List.mem_cons.1 he with rfl | he
      · refine ⟨bits, hbits, ?_⟩
        rw [List.append_assoc (front ++ gap), ← hgap, List.drop_left]
        exact List.take_left' (length_littleEndian _ _)
      · exact hmembers e he
    · by_cases hbehind : alignUp offset m.type.align + m.type.size ≤ k
      · exact hpadding k hbehind hend fun e he => hbetween e (List.mem_cons_of_mem _ he)
      · have hnot : ¬ (alignUp offset m.type.align ≤ k
            ∧ k < alignUp offset m.type.align + m.type.size) := hbetween _ List.mem_cons_self
        have hinside : k < (front ++ gap).length := by
          rw [hgap]
          omega
        rw [List.append_assoc (front ++ gap), List.getElem?_append_left hinside,
          List.getElem?_append_right (by omega)]
        exact List.getElem?_replicate_of_lt (by omega)

/-- A block of bytes holds the members of a structure where the layout has them. -/
structure HeldBy (s : Structure) (block : List (BitVec 8)) : Prop where
  length : block.length = s.totalSize
  slot : block.take dispatchSlotSize = List.replicate dispatchSlotSize 0
  members : ∀ e ∈ s.layout, ∃ bits, e.1.defaultBits = .ok bits
    ∧ (block.drop e.2).take e.1.type.size = littleEndian e.1.type.size bits
  padding : ∀ k, dispatchSlotSize ≤ k → k < s.totalSize →
    (∀ e ∈ s.layout, ¬ (e.2 ≤ k ∧ k < e.2 + e.1.type.size)) → block[k]? = some 0

/-- The lines of data of a structure that passed its check can be assembled. The bytes are
those of the layout when no member is without a size, and otherwise each such member moves all
that follow it eight bytes back. -/
theorem static_block_matches_layout_iff {s : Structure} (h : s.checkDefaults = .ok ()) :
    ∃ items block, s.data = .ok items ∧ Assembly.assemble (items.map DataItem.text)
      = some block
      ∧ block.length = s.totalSize + 8 * s.members.countP (·.type = .void)
      ∧ (s.HeldBy block ↔ ∀ m ∈ s.members, m.type ≠ .void) := by
  obtain ⟨items, hdata⟩ := exists_data h
  obtain ⟨following, hfollowing, heq⟩ := bind_eq_ok.1 hdata
  cases heq
  have hslot : (DataItem.value dispatchSlotSize 0).bytes = List.replicate dispatchSlotSize 0 :=
    littleEndian_zero 8
  have hfits : ∀ item ∈ DataItem.value dispatchSlotSize 0 :: following, item.Fits := by
    intro item hitem
    rcases List.mem_cons.1 hitem with rfl | hitem
    · intro _
      decide
    · exact fits_of_dataFrom hfollowing item hitem
  have hlength := length_dataFrom hfollowing
  refine ⟨_, _, hdata, DataItem.assemble_map_text hfits, ?_, fun hheld m hm hvoid => ?_,
    fun hsized => ?_⟩
  · rw [List.flatMap_cons, hslot, List.length_append, List.length_replicate,
      totalSize_eq, hlength]
  · have := hheld.length
    rw [List.flatMap_cons, hslot, List.length_append, List.length_replicate,
      totalSize_eq, hlength]
      at this
    have : 0 < s.members.countP (·.type = .void) :=
      List.countP_pos_iff.2 ⟨m, hm, decide_eq_true hvoid⟩
    omega
  · have hnone : s.members.countP (·.type = .void) = 0 :=
      List.countP_eq_zero.2 fun m hm => by simpa using hsized m hm
    obtain ⟨hmembers, hpadding⟩ := members_of_dataFrom hfollowing hsized
      (List.length_replicate (n := dispatchSlotSize) (a := (0 : BitVec 8)))
    rw [List.flatMap_cons, hslot]
    refine ⟨?_, ?_, hmembers, ?_⟩
    · rw [List.length_append, List.length_replicate, totalSize_eq, hlength, hnone,
        Nat.mul_zero, Nat.add_zero]
    · exact List.take_left' List.length_replicate
    · rw [totalSize_eq]
      exact hpadding

/-- A byte, a number of eight bytes and a char, with gaps between them. -/
def mixed : Structure :=
  { owner := "pkg/Mixed"
    kind := .static
    members :=
      [⟨.byte, "flag", some "-1", .generated⟩, ⟨.long, "total", some "5", .generated⟩,
        ⟨.char, "mark", some "'x'", .generated⟩] }

theorem mixed_block_matches_layout :
    mixed.checkDefaults = .ok () ∧ ∃ items block, mixed.data = .ok items
      ∧ Assembly.assemble (items.map DataItem.text) = some block ∧ block.length = 26
      ∧ mixed.HeldBy block := by
  have hchecked : mixed.checkDefaults = .ok () := rfl
  obtain ⟨items, block, hdata, hassembled, hlength, hheld⟩ :=
    static_block_matches_layout_iff hchecked
  exact ⟨hchecked, items, block, hdata, hassembled, hlength, hheld.2 (by decide)⟩

/-- A class with a static member of type `void` in front of another member. -/
def gappedText : String := "structure static\n\tV gap;\n\tI limit = 3;\nend structure\n"

/-- The static members of the class. -/
def gapped : Structure :=
  { owner := "pkg/Main"
    kind := .static
    members :=
      [⟨.void, "gap", none, ⟨"pkg/Main.jil", 2⟩⟩,
        ⟨.int, "limit", some "3", ⟨"pkg/Main.jil", 3⟩⟩]
    origin := ⟨"pkg/Main.jil", 3⟩ }

/-- The class passes its check. Its block is eight bytes longer than its layout, and holds zero
where the layout has the second member, which starts as three. -/
theorem void_member_shifts_block :
    (∃ u, checkText gappedText "pkg/Main.jil" = .ok u ∧ u.statics = gapped)
      ∧ gapped.checkDefaults = .ok () ∧ gapped.totalSize = 12
      ∧ gapped.fieldOffset "limit" .generated = .ok 8
      ∧ ∃ items block, gapped.data = .ok items
        ∧ Assembly.assemble (items.map DataItem.text) = some block ∧ block.length = 20
        ∧ (block.drop 8).take 4 = littleEndian 4 0 ∧ ¬ gapped.HeldBy block := by
  refine ⟨?_, rfl, rfl, rfl, [.value 8 0, .value 0 0, .value 4 3],
    littleEndian 8 0 ++ littleEndian 8 0 ++ littleEndian 4 3, rfl, by decide +kernel, rfl,
    by decide, fun hheld => absurd hheld.length (by decide)⟩
  have hread :
      (checkText gappedText "pkg/Main.jil").toOption.map (·.statics) = some gapped := by
    decide +kernel
  cases hu : checkText gappedText "pkg/Main.jil" with
  | error e =>
    rw [hu] at hread
    cases hread
  | ok u =>
    rw [hu] at hread
    exact ⟨u, rfl, Option.some.inj hread⟩

end Structure

end Jil
