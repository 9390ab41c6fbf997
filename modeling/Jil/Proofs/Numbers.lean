/-
Jil.Proofs.Numbers — the numbers that words stand for, and the operators on them.

A value of a type is a number: `Ty.number` reads it from the low part of a word,
chars and booleans without a sign, and `Ty.wrap` cuts a number off to a type.
`BinaryOp.result`, `UnaryOp.result` and `Comparison.holds` say what operators
compute, on numbers alone: operands are promoted to 32 bits, or 64 for longs,
and the result is cut off to its type. Literals lie in the range of their type;
the sign of one with a fraction is the highest bit of its pattern, so that a
`float` with a minus sign is no signed number of 32 bits (`fitsLong_float_iff`).
-/
import Jil.Literal
import Jil.Proofs.Execution
import Jil.Selection.Value

namespace Jil

open Machine (Size Value Word)

/-! ## Numbers of a type -/

namespace Ty

/-- Width of the values of a type in bits. -/
abbrev width (t : Ty) : Nat := (Selection.sizeOf t).bits

/-- Whether values of a type have no sign. -/
def isUnsigned : Ty → Bool
  | .boolean | .char => true
  | _ => false

/-- The number that bits stand for. -/
def ofBits (t : Ty) {n : Nat} (v : BitVec n) : Int := if t.isUnsigned then v.toNat else v.toInt

/-- The number in the low part of a word. -/
def number (t : Ty) (w : Word) : Int := t.ofBits (w.setWidth t.width)

/-- A number cut off to a type. -/
def wrap (t : Ty) (n : Int) : Int := t.number (BitVec.ofInt 64 n)

/-- Width to which operands are promoted. -/
def promoted (t : Ty) : Nat := if t = .long then 64 else 32

end Ty

/-! ## Operators on numbers -/

/-- Whether a comparison of two numbers holds. -/
def Comparison.holds (a b : Int) : Comparison → Bool
  | .equal => a = b
  | .notEqual => a ≠ b
  | .less => a < b
  | .lessEqual => a ≤ b
  | .greater => b < a
  | .greaterEqual => b ≤ a

/-- A binary operator on promoted operands. -/
def BinaryOp.apply {w : Nat} (a b : BitVec w) : BinaryOp → BitVec w
  | .add => a + b
  | .sub => a - b
  | .mul => a * b
  | .div => BitVec.ofInt w (a.toInt.tdiv b.toInt)
  | .rem => BitVec.ofInt w (a.toInt.tmod b.toInt)
  | .and => a &&& b
  | .or => a ||| b
  | .xor => a ^^^ b
  | .shl => a <<< (b.toNat % w)
  | .shr => a.sshiftRight (b.toNat % w)
  | .ushr => a >>> (b.toNat % w)

/-- What a binary operator makes of numbers. -/
def BinaryOp.result (op : BinaryOp) (t : Ty) (a b : Int) : Int :=
  t.wrap (op.apply (BitVec.ofInt t.promoted a) (BitVec.ofInt t.promoted b)).toInt

/-- Divisors are not zero, and quotients have to fit: the least number is not divided by -1. -/
def BinaryOp.Defined (op : BinaryOp) (w : Nat) (a b : Int) : Prop :=
  op = .div ∨ op = .rem → b ≠ 0 ∧ ¬ (a = -2 ^ (w - 1) ∧ b = -1)

/-- What a unary operator makes of a number; booleans are 0 or 1. -/
def UnaryOp.result (op : UnaryOp) (t : Ty) (a : Int) : Int :=
  match op with
  | .negate => t.wrap (-BitVec.ofInt t.promoted a).toInt
  | .complement => t.wrap (~~~BitVec.ofInt t.promoted a).toInt
  | .not => if a = 0 then 1 else 0

/-! ## Cutting off -/

theorem setWidth_ofInt {n m : Nat} (h : n ≤ m) (i : Int) :
    (BitVec.ofInt m i).setWidth n = BitVec.ofInt n i := by
  have hpos : ∀ k : Nat, ((2 ^ k : Nat) : Int) ≠ 0 := fun k =>
    Int.natCast_ne_zero.2 (Nat.ne_of_gt (Nat.two_pow_pos k))
  have hdvd : ((2 ^ n : Nat) : Int) ∣ ((2 ^ m : Nat) : Int) :=
    Int.natCast_dvd_natCast.2 (Nat.pow_dvd_pow 2 h)
  apply BitVec.eq_of_toNat_eq
  rw [BitVec.toNat_setWidth, BitVec.toNat_ofInt, BitVec.toNat_ofInt]
  apply Int.ofNat_inj.1
  rw [Int.natCast_emod, Int.toNat_of_nonneg (Int.emod_nonneg _ (hpos m)),
    Int.toNat_of_nonneg (Int.emod_nonneg _ (hpos n)), Int.emod_emod_of_dvd _ hdvd]

/-- The low bits of a number of more bits. -/
theorem ofInt_toInt_of_le {n m : Nat} (h : n ≤ m) (v : BitVec m) :
    BitVec.ofInt n v.toInt = v.setWidth n := by
  rw [← setWidth_ofInt h, BitVec.ofInt_toInt]

namespace Ty

variable {t : Ty}

theorem ofBits_ofInt (t : Ty) (n : Int) : t.ofBits (BitVec.ofInt t.width n) = t.wrap n := by
  unfold wrap number
  rw [setWidth_ofInt (Size.bits_le _)]

/-- The low bits of a result are the result cut off. -/
theorem ofBits_setWidth {m : Nat} (h : t.width ≤ m) (v : BitVec m) :
    t.ofBits (v.setWidth t.width) = t.wrap v.toInt := by
  rw [← ofBits_ofInt, ofInt_toInt_of_le h]

/-- A number of more bits than its type has: filled with zeros or with the sign. -/
theorem ofInt_number (t : Ty) (m : Nat) (w : Word) :
    BitVec.ofInt m (t.number w) =
      if t.isUnsigned then (w.setWidth t.width).setWidth m
      else (w.setWidth t.width).signExtend m := by
  unfold number ofBits
  split
  · rw [BitVec.ofInt_natCast, BitVec.ofNat_toNat]
  · rfl

/-- The bits of a number. -/
theorem ofInt_number_of_le {n : Nat} (h : n ≤ t.width) (w : Word) :
    BitVec.ofInt n (t.number w) = w.setWidth n := by
  rw [ofInt_number]
  split
  · exact Machine.setWidth_setWidth _ h
  · rw [BitVec.signExtend_eq_setWidth_of_le _ h, Machine.setWidth_setWidth _ h]

/-- A value that is extended with its sign, or with zeros, stands for its number. -/
theorem extension_eq_ofInt (t : Ty) (wide : Size) (w : Word) :
    Machine.extension (!t.isUnsigned) (Selection.sizeOf t) wide (w.setWidth t.width)
      = BitVec.ofInt wide.bits (t.number w) := by
  rw [ofInt_number]
  unfold Machine.extension
  cases t.isUnsigned <;> rfl

end Ty

/-! ## Literals -/

/-- What fits is not cut off. -/
theorem toInt_ofInt_of_fitsSigned {n : Nat} (hn : 0 < n) {i : Int}
    (h : Literal.fitsSigned n i = true) : (BitVec.ofInt n i).toInt = i := by
  unfold Literal.fitsSigned at h
  rw [Bool.and_eq_true, decide_eq_true_eq, decide_eq_true_eq] at h
  exact BitVec.toInt_ofInt_eq_self hn h.1 h.2

/-- Literals lie in the range of their type. -/
theorem Ty.wrap_of_bits? {t : Ty} (hfloating : t.isFloating = false) {text : List Char}
    {bits : Int} (h : Literal.bits? t text = some bits) : t.wrap bits = bits := by
  have hsigned : t.isUnsigned = false → Literal.fitsSigned t.width bits = true →
      t.wrap bits = bits := by
    intro hunsigned hfits
    have hwidth : 0 < t.width := Nat.mul_pos (by decide) (Selection.sizeOf t).bytes_pos
    rw [← ofBits_ofInt, ofBits, hunsigned, if_neg nofun]
    exact toInt_ofInt_of_fitsSigned hwidth hfits
  cases t with
  | boolean =>
    simp only [Literal.bits?] at h
    split at h
    · cases h
      rfl
    · split at h
      · cases h
        rfl
      · cases h
  | byte | short | int | long => exact hsigned rfl (Option.filter_eq_some_iff.1 h).2
  | char =>
    have hrange : 0 ≤ bits ∧ bits ≤ Literal.charMax := by
      simp only [Literal.bits?, Literal.char?] at h
      split at h
      · split at h
        · cases h
          omega
        · cases h
      · cases h
      · simpa using (Option.filter_eq_some_iff.1 h).2
    rw [← ofBits_ofInt]
    show ((BitVec.ofInt 16 bits).toNat : Int) = bits
    rw [BitVec.toNat_ofInt]
    have hmax : (Literal.charMax : Int) = 65535 := rfl
    omega
  | null =>
    simp only [Literal.bits?] at h
    split at h
    · cases h
      rfl
    · cases h
  | float | double => cases hfloating
  | void | classRef name | array element => cases h

/-- Literals fit into numbers that are as wide as their type, and wider where the type has no
sign. -/
theorem Ty.fitsSigned_of_bits? {t : Ty} (hfloating : t.isFloating = false) {text : List Char}
    {bits : Int} (h : Literal.bits? t text = some bits) {n : Nat}
    (hn : if t.isUnsigned then t.width < n else t.width ≤ n) :
    Literal.fitsSigned n bits = true := by
  have hwidth : 0 < t.width := Nat.mul_pos (by decide) (Selection.sizeOf t).bytes_pos
  rw [← t.wrap_of_bits? hfloating h, ← ofBits_ofInt, ofBits, Literal.fitsSigned,
    Bool.and_eq_true,
    decide_eq_true_eq, decide_eq_true_eq]
  generalize BitVec.ofInt t.width bits = v
  split
  · next hunsigned =>
    rw [if_pos hunsigned] at hn
    have hle : 2 ^ t.width ≤ 2 ^ (n - 1) := Nat.pow_le_pow_right (by decide) (by omega)
    have hlt := v.isLt
    have hpos : (0 : Int) ≤ 2 ^ (n - 1) := Int.pow_nonneg (by decide)
    refine ⟨by omega, ?_⟩
    exact_mod_cast Nat.lt_of_lt_of_le hlt hle
  · next hsigned =>
    rw [if_neg hsigned] at hn
    have hle : (2 ^ (t.width - 1) : Int) ≤ 2 ^ (n - 1) := by
      exact_mod_cast Nat.pow_le_pow_right (n := 2) (by decide) (by omega : t.width - 1 ≤ n - 1)
    have hlower := BitVec.le_toInt v
    have hupper := BitVec.toInt_lt (x := v)
    omega

/-! ## Widths of literals -/

namespace Numeric

theorem BinaryFormat.ofFraction_le (f : BinaryFormat) (num den : Nat) :
    f.ofFraction num den ≤ f.infinity := by
  unfold ofFraction
  split
  · exact Nat.zero_le _
  · exact Nat.min_le_left _ _

theorem Decimal.pattern_le (f : BinaryFormat) (d : Decimal) : d.pattern f ≤ f.infinity := by
  unfold Decimal.pattern
  repeat' split
  all_goals first
    | exact Nat.zero_le _
    | exact Nat.le_refl _
    | exact f.ofFraction_le _ _

/-- Without a sign the highest bit of a pattern is clear. -/
theorem Magnitude.pattern_lt (m : Magnitude) : m.pattern .single < 2 ^ 31 := by
  cases m with
  | finite d => exact Nat.lt_of_le_of_lt (d.pattern_le .single) (by decide)
  | infinite | undefinedValue => decide

/-- The highest bit of the pattern of a number is its sign. -/
theorem le_readFloat?_iff {s : List Char} {n : Nat} (h : readFloat? .single s = some n) :
    2 ^ 31 ≤ n ↔ s.head? = some '-' := by
  unfold readFloat? at h
  split at h <;> obtain ⟨m, -, rfl⟩ := Option.map_eq_some_iff.1 h
  · exact iff_of_true (Nat.le_add_right _ _) rfl
  · exact iff_of_false (Nat.not_le.2 m.pattern_lt) (by simp)
  · next hminus _ =>
    refine iff_of_false (Nat.not_le.2 m.pattern_lt) fun hhead => ?_
    obtain ⟨r, rfl⟩ := List.head?_eq_some_iff.1 hhead
    exact hminus r rfl

end Numeric

namespace Literal

open Numeric Text

/-- Dropping letters from the end keeps what the text begins with. -/
theorem head?_dropSuffix {letters s : List Char} {c : Char} (hc : c ∉ letters) :
    (dropSuffix letters s).head? = some c ↔ s.head? = some c := by
  have hsplit : s = dropSuffix letters s ++ (s.reverse.takeWhile (· ∈ letters)).reverse := by
    rw [dropSuffix, dropEndWhile, ← List.reverse_append, List.takeWhile_append_dropWhile,
      List.reverse_reverse]
  have hdropped : ∀ x ∈ (s.reverse.takeWhile (· ∈ letters)).reverse, x ∈ letters := by
    intro x hx
    simpa using List.all_eq_true.1 List.all_takeWhile x (List.mem_reverse.1 hx)
  cases hkept : dropSuffix letters s with
  | cons x kept =>
    rw [hkept] at hsplit
    rw [hsplit]
    rfl
  | nil =>
    rw [hkept, List.nil_append] at hsplit
    refine iff_of_false nofun fun hhead => hc (hdropped c ?_)
    rw [← hsplit]
    exact List.mem_of_head? hhead

/-- A literal of type `float` needs more than 32 bits when it has a minus sign. -/
theorem fitsLong_float_iff {s : List Char} {bits : Int} (h : bits? .float s = some bits) :
    Machine.fitsLong bits = true ↔ s.head? ≠ some '-' := by
  cases hn : readFloat? .single (dropSuffix ['F', 'f'] s) with
  | none =>
    rw [bits?, hn] at h
    cases h
  | some n =>
    rw [bits?, hn] at h
    obtain rfl : (n : Int) = bits := Option.some.inj h
    rw [ne_eq, ← head?_dropSuffix (by decide : '-' ∉ ['F', 'f']), ← le_readFloat?_iff hn,
      Machine.fitsLong, Bool.and_eq_true, decide_eq_true_eq, decide_eq_true_eq]
    omega

/-- Other literals need no more than the bits of their type. -/
theorem fitsLong_of_bits? {t : Ty} {s : List Char} {bits : Int} (h : bits? t s = some bits)
    (hnarrow : (Selection.sizeOf t).bytes ≠ 8) (hfloat : t ≠ .float) :
    Machine.fitsLong bits = true := by
  have hfits : t.isFloating = false → (if t.isUnsigned then t.width < 32 else t.width ≤ 32) →
      fitsSigned 32 bits = true :=
      fun hfloating hwidth => Ty.fitsSigned_of_bits? hfloating h hwidth
  cases t with
  | float => exact absurd rfl hfloat
  | byte | boolean | char | short | int => exact hfits rfl (by decide)
  | _ => exact absurd rfl hnarrow

end Literal

/-! ## Arithmetic of machines -/

open Selection (formOf)

/-- Operators that work on the low parts of their operands. -/
theorem setWidth_apply_of_plain {op : BinaryOp} {alu : Machine.AluOp}
    (hform : formOf op = .plain alu) {s : Size} {m : Nat} (h : s.bits ≤ m) (a b : BitVec m) :
    (op.apply a b).setWidth s.bits = alu.value (b.setWidth s.bits) (a.setWidth s.bits) := by
  cases op <;> cases hform
  · exact BitVec.setWidth_add a b h
  · show (a - b).setWidth s.bits = _
    rw [BitVec.sub_eq_add_neg, BitVec.setWidth_add _ _ h, BitVec.setWidth_neg_of_le h,
      ← BitVec.sub_eq_add_neg]
    rfl
  · exact BitVec.setWidth_and
  · exact BitVec.setWidth_or
  · exact BitVec.setWidth_xor

/-- The sign extension to double width stands for the same number. -/
theorem toInt_signFill_append {s : Size} (v : Value s) :
    (Machine.signFill v ++ v).toInt = v.toInt := by
  have hbits : s.bits ≠ 0 := by cases s <;> decide
  rw [BitVec.toInt_append, if_neg (by simpa using hbits)]
  unfold Machine.signFill
  cases hmsb : v.msb with
  | true =>
    rw [if_pos rfl, BitVec.toInt_allOnes, if_pos (Nat.pos_of_ne_zero hbits),
      BitVec.toInt_eq_msb_cond, if_pos hmsb]
    push_cast
    omega
  | false =>
    rw [if_neg nofun, BitVec.toInt_eq_toNat_of_msb hmsb]
    simp

/-- A quotient lies in the range of its dividend, unless the least number is divided by -1. -/
theorem tdiv_in_range {a d least : Int} (hd : d ≠ 0) (hlower : -least ≤ a) (hupper : a < least)
    (hover : ¬ (a = -least ∧ d = -1)) :
    -least ≤ a.tdiv d ∧ a.tdiv d < least := by
  have habs := Int.natAbs_tdiv_le_natAbs a d
  refine ⟨by omega, ?_⟩
  apply Int.lt_of_not_ge
  intro hge
  have ha : a = -least := by omega
  have hsmall : ¬ 1 < d.natAbs := by
    intro hone
    have hlt : (a.tdiv d).natAbs < a.natAbs := by
      rw [Int.natAbs_tdiv]
      exact Nat.div_lt_self (by omega) hone
    omega
  rcases (by omega : d = 1 ∨ d = -1) with rfl | rfl
  · rw [Int.tdiv_one] at hge
    omega
  · exact hover ⟨ha, rfl⟩

/-- Division of a number that was extended to double width. -/
theorem division_signFill {s : Size} (low divisor : Value s) (hzero : divisor.toInt ≠ 0)
    (hleast : ¬ (low.toInt = -2 ^ (s.bits - 1) ∧ divisor.toInt = -1)) :
    Machine.division (Machine.signFill low) low divisor =
      some (BitVec.ofInt _ (low.toInt.tdiv divisor.toInt),
        BitVec.ofInt _ (low.toInt.tmod divisor.toInt)) := by
  have hne : divisor ≠ 0 := by
    rintro rfl
    exact hzero (by simp)
  have hrange := tdiv_in_range hzero (BitVec.le_toInt low) (BitVec.toInt_lt (x := low)) hleast
  unfold Machine.division
  rw [toInt_signFill_append, if_neg (by
    rintro (h | h | h)
    · exact hne h
    · exact absurd h (Int.not_lt.2 hrange.1)
    · exact absurd hrange.2 (Int.not_lt.2 h))]

/-- Promoted operands have room for the numbers of their type. -/
theorem Ty.width_le_promoted {t : Ty} (h : t.isIntegral = true ∨ t = .boolean) :
    t.width ≤ t.promoted := by
  rcases h with h | rfl
  · cases t <;> first | decide | exact nomatch h
  · decide

/-- Promotion keeps the number. -/
theorem Ty.toInt_promote {t : Ty} (h : t.isIntegral = true) (w : Word) :
    (BitVec.ofInt t.promoted (t.number w)).toInt = t.number w := by
  have hwidth := Ty.width_le_promoted (.inl h)
  rw [Ty.ofInt_number]
  unfold Ty.number Ty.ofBits
  split
  · next hunsigned =>
    -- only chars have no sign, and they are narrower than what they are promoted to
    have hchar : t = .char := by
      revert h hunsigned
      cases t <;> simp [Ty.isIntegral, Ty.isUnsigned]
    subst hchar
    rw [BitVec.toInt_setWidth, BitVec.toNat_setWidth]
    have hlt : (BitVec.toNat w) % 2 ^ 16 < 2 ^ 16 := Nat.mod_lt _ (by decide)
    show Int.bmod ((BitVec.toNat w % 2 ^ 16 : Nat) : Int) (2 ^ 32) = _
    rw [Int.bmod_eq_of_le (by omega) (by omega)]
    rfl
  · exact BitVec.toInt_signExtend_of_le hwidth

/-- Bits stand for one number only. -/
theorem Ty.ofBits_inj {t u : Ty} (h : t.isUnsigned = u.isUnsigned) {n : Nat} {x y : BitVec n} :
    t.ofBits x = u.ofBits y ↔ x = y := by
  unfold Ty.ofBits
  rw [← h]
  split
  · exact Int.ofNat_inj.trans BitVec.toNat_inj
  · exact BitVec.toInt_inj

/-- The flags after a comparison tell how the numbers compare. -/
theorem holds_condition {op : Comparison} {t u : Ty} {s : Size} (x y : Value s)
    (hunsigned : t.isUnsigned = u.isUnsigned)
    (htyped : op.isEquality = true ∨ t.isNumeric = true) :
    (Selection.condition op (t = .char)).holds (Machine.Flags.ofDifference y x)
      = op.holds (t.ofBits x) (u.ofBits y) := by
  have hequal : (Machine.Flags.ofDifference y x).zero = decide (t.ofBits x = u.ofBits y) := by
    rw [Machine.Flags.zero_ofDifference, decide_eq_decide, Ty.ofBits_inj hunsigned]
  rcases htyped with htyped | htyped
  · cases op with
    | equal => exact hequal
    | notEqual => exact (congrArg (!·) hequal).trans (decide_not).symm
    | _ => cases htyped
  · by_cases hchar : t = .char
    · -- chars compare by the carry
      subst hchar
      have hless : (Machine.Flags.ofDifference y x).carry
          = decide (Ty.char.ofBits x < u.ofBits y) := by
        show x.ult y = _
        rw [Ty.ofBits, Ty.ofBits, ← hunsigned]
        simp [Ty.isUnsigned, BitVec.ult]
      cases op <;> simp only [Selection.condition, decide_true,
        Machine.Condition.holds, hequal,
        hless, Comparison.holds, ← decide_not, ← Bool.decide_or] <;>
        exact decide_eq_decide.2 (by omega)
    · -- other numbers compare by sign and overflow
      have hsigned : t.isUnsigned = false := by
        revert htyped hchar
        cases t <;> simp [Ty.isNumeric, Ty.isIntegral, Ty.isFloating, Ty.isUnsigned]
      have hless : ((Machine.Flags.ofDifference y x).sign
          != (Machine.Flags.ofDifference y x).overflow) = decide (t.ofBits x
            < u.ofBits y) := by
        rw [Machine.Flags.sign_ne_overflow, Ty.ofBits, Ty.ofBits, ← hunsigned, hsigned]
        exact BitVec.slt_eq_decide
      have hnotLess : ((Machine.Flags.ofDifference y x).sign
          == (Machine.Flags.ofDifference y x).overflow) = !decide (t.ofBits x
            < u.ofBits y) := by
        rw [← hless, bne, Bool.not_not]
      cases op <;> simp only [Selection.condition, decide_eq_false hchar,
        Machine.Condition.holds,
        hequal, hless, hnotLess, Comparison.holds, ← decide_not, ← Bool.decide_or] <;>
        exact decide_eq_decide.2 (by omega)

end Jil
