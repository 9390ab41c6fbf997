/-
Jil.Proofs.IntegerLiterals — integer literals are read exactly.

`Spells` are the ways to write an integer: the decimal numeral, and the
hexadecimal one behind `0x` or `0X`, with a minus sign in front of it when the
number is negated. The number passes through a read of 128 bits, the sign, and
two narrowings before it is the value. Each of these refuses what it cannot
hold, and a number that fits the narrower width fits the wider one with either
sign, so only the last of them counts: the literal has its value exactly when
that is in the range of its type (`bits?_of_spells`).
-/
import Jil.Literal
import Jil.Proofs.Numerals
import Jil.Proofs.Scanning

namespace Jil.Literal

open Jil.Text

/-! ## Spellings -/

/-- Hexadecimal digits of a number, in either case and behind any number of zeros. -/
def IsHex (n : Nat) (s : List Char) : Prop :=
  ∃ zeros, s.map Char.toLower = List.replicate zeros '0' ++ Nat.toDigits 16 n

/-- The ways to write an integer. -/
inductive Spells : Int → List Char → Prop
  | decimal (v : Int) : Spells v (toString v).toList
  | hex {n : Nat} {x : Char} {s : List Char} (hx : x = 'x' ∨ x = 'X') (hs : IsHex n s) :
    Spells n ('0' :: x :: s)
  | negativeHex {n : Nat} {x : Char} {s : List Char} (hx : x = 'x' ∨ x = 'X')
      (hs : IsHex n s) :
    Spells (-n) ('-' :: '0' :: x :: s)

theorem foldDigits?_zeros (radix zeros : Nat) :
    foldDigits? (radix + 1) 0 (List.replicate zeros '0') = some 0 := by
  induction zeros with
  | zero => rfl
  | succ k ih =>
    have hzero : digit? (radix + 1) '0' = some 0 := by simp [digit?]
    rw [List.replicate_succ, foldDigits?, hzero, Option.bind_some, Nat.zero_mul]
    exact ih

theorem IsHex.readNat? {n : Nat} {s : List Char} (h : IsHex n s) : readNat? 16 s = some n := by
  obtain ⟨zeros, hs⟩ := h
  have hfold : foldDigits? 16 0 s = some n := by
    rw [← foldDigits?_map_toLower, hs, foldDigits?_append, foldDigits?_zeros 15,
      Option.bind_some]
    exact foldDigits?_toDigits (by decide) (by decide) n
  cases s with
  | nil => simp [Nat.toDigits_ne_nil] at hs
  | cons c s => exact hfold

/-- Spellings hold nothing but digits, minus signs and the letter behind the zero. -/
theorem Spells.not_mem {v : Int} {s : List Char} (h : Spells v s) {c : Char}
    (hdecimal : c.isDigit = false) (hdigit : digit? 16 c = none)
    (hother : c ∉ ['-', 'x', 'X']) :
    c ∉ s := by
  simp only [List.mem_cons, List.not_mem_nil, or_false, not_or] at hother
  obtain ⟨hminus, hx, hX⟩ := hother
  have hzero : c ≠ '0' := by rintro rfl; cases hdecimal
  have hhex : ∀ {n x s}, x = 'x' ∨ x = 'X' → IsHex n s → c ∉ '0' :: x :: s := by
    rintro n x s hletter hs hc
    rcases List.mem_cons.1 hc with rfl | hc
    · exact hzero rfl
    · rcases List.mem_cons.1 hc with rfl | hc
      · exact hletter.elim hx hX
      · exact digit?_of_readNat? hs.readNat? c hc hdigit
  cases h with
  | decimal v =>
    cases v with
    | ofNat n =>
      rw [show (toString (Int.ofNat n)).toList = _ from toList_toString_nat n]
      exact not_mem_toDigits hdecimal
    | negSucc n =>
      rw [toList_toString_neg]
      exact List.not_mem_cons_of_ne_of_not_mem hminus (not_mem_toDigits hdecimal)
  | hex hletter hs => exact hhex hletter hs
  | negativeHex hletter hs => exact List.not_mem_cons_of_ne_of_not_mem hminus (hhex hletter hs)

/-! ## The number -/

/-- Whether a number is read before its range is looked at. -/
def isRead (v : Int) : Bool := -(2 ^ (readBits - 1) : Int) ≤ v ∧ v < 2 ^ (readBits - 1)

/-- What is not read is too large for 64 bits, with either sign. -/
theorem filter_fitsSigned (n : Nat) :
    ((some (n : Int)).filter isRead).filter (fitsSigned 64)
      = (some (n : Int)).filter (fitsSigned 64)
    ∧ (((some (n : Int)).filter isRead).map fun v => -v).filter (fitsSigned 64)
      = (some (-n : Int)).filter (fitsSigned 64) := by
  by_cases hread : isRead n = true
  · simp [Option.filter_some, hread]
  · have hlarge : (2 : Int) ^ 127 ≤ n := by
      simp [isRead, readBits] at hread
      omega
    have hnone : fitsSigned 64 n = false ∧ fitsSigned 64 (-n) = false := by
      simp [fitsSigned]
      omega
    simp [Option.filter_some, hread, hnone]

theorem magnitude?_of_hex {n : Nat} {x : Char} {s : List Char} (hx : x = 'x' ∨ x = 'X')
    (hs : IsHex n s) : magnitude? ('0' :: x :: s) = (some (n : Int)).filter isRead := by
  have hread := readSigned?_of_readNat? hs.readNat? readBits
  rcases hx with rfl | rfl <;> exact hread

theorem magnitude?_toDigits (n : Nat) :
    magnitude? (Nat.toDigits 10 n) = (some (n : Int)).filter isRead := by
  have hx : ∀ x, x.isDigit = false → stripStart? ['0', x] (Nat.toDigits 10 n)
      = none := fun x hx =>
    stripStart?_eq_none fun hpre => not_mem_toDigits hx (hpre.subset (by simp))
  rw [magnitude?, hx 'x' rfl, hx 'X' rfl]
  exact readSigned?_of_readNat? (readNat?_toDigits (by decide) (by decide) n) readBits

theorem integer?_of_spells {v : Int} {s : List Char} (h : Spells v s) :
    integer? s = (some v).filter (fitsSigned 64) := by
  have hminus : ∀ digits, integer? ('-' :: digits) =
      ((magnitude? digits).map fun v => -v).filter (fitsSigned 64) := fun _ => rfl
  cases h with
  | decimal v =>
    cases v with
    | ofNat n =>
      have hsign : stripStart? ['-'] (Nat.toDigits 10 n) = none :=
        stripStart?_eq_none fun hpre =>
          not_mem_toDigits (show '-'.isDigit = false from rfl) (hpre.subset (by simp))
      rw [show (toString (Int.ofNat n)).toList = _ from toList_toString_nat n, integer?, hsign,
        magnitude?_toDigits]
      exact (filter_fitsSigned n).1
    | negSucc n =>
      rw [toList_toString_neg, hminus, magnitude?_toDigits]
      exact (filter_fitsSigned (n + 1)).2
  | @hex n x s hx hs =>
    rw [integer?, show stripStart? ['-'] ('0' :: x :: s) = none from rfl,
      magnitude?_of_hex hx hs]
    exact (filter_fitsSigned n).1
  | @negativeHex n x s hx hs =>
    rw [hminus, magnitude?_of_hex hx hs]
    exact (filter_fitsSigned n).2

/-! ## Literals -/

/-- A test that is stricter than 64 bits is all that counts. -/
theorem filter_integer?_of_spells {v : Int} {s : List Char} (h : Spells v s) {p : Int → Bool}
    (hp : p v = true → fitsSigned 64 v = true) :
    (integer? s).filter p = if p v = true then some v else none := by
  rw [integer?_of_spells h, Option.filter_filter, Option.filter_some]
  refine if_congr ?_ rfl rfl
  rw [Bool.and_eq_true]
  exact ⟨And.right, fun hpv => ⟨hp hpv, hpv⟩⟩

theorem fitsSigned_iff {bits : Nat} {v : Int} :
    fitsSigned bits v = true ↔ -(2 ^ (bits - 1) : Int) ≤ v ∧ v < 2 ^ (bits - 1) := by
  simp [fitsSigned]

/-- The least and the largest value of a type of integers. -/
def range? : Ty → Option (Int × Int)
  | .byte => some (-128, 127)
  | .short => some (-32768, 32767)
  | .char => some (0, 65535)
  | .int => some (-2147483648, 2147483647)
  | .long => some (-9223372036854775808, 9223372036854775807)
  | _ => none

/-- However an integer is written, it is read as itself when it lies in the range of
the type, both ends included, and refused when it does not. A `long` may have letters
`L` or `l` behind it. -/
theorem bits?_of_spells {t : Ty} {low high v : Int} {s suffix : List Char}
    (ht : range? t = some (low, high)) (hs : Spells v s)
    (hsuffix : ∀ c ∈ suffix, t = .long ∧ (c = 'L' ∨ c = 'l')) :
    bits? t (s ++ suffix) = if low ≤ v ∧ v ≤ high then some v else none := by
  have hbare : t ≠ .long → suffix = [] := fun hne =>
    List.eq_nil_iff_forall_not_mem.2 fun c hc => hne (hsuffix c hc).1
  have hsigned : ∀ bits ≤ 64, (integer? s).filter (fitsSigned bits) =
      if fitsSigned bits v = true then some v else none := fun bits hbits =>
    filter_integer?_of_spells hs fun hv => by
      have hpow : (2 : Int) ^ (bits - 1) ≤ 2 ^ (64 - 1) :=
        by exact_mod_cast Nat.pow_le_pow_right (by decide) (by omega)
      rw [fitsSigned_iff] at hv ⊢
      omega
  cases t with
  | byte =>
    cases ht
    rw [hbare nofun, List.append_nil, bits?, hsigned 8 (by decide)]
    exact if_congr (by rw [fitsSigned_iff]; omega) rfl rfl
  | short =>
    cases ht
    rw [hbare nofun, List.append_nil, bits?, hsigned 16 (by decide)]
    exact if_congr (by rw [fitsSigned_iff]; omega) rfl rfl
  | char =>
    cases ht
    have hquote : unquote? s = none := by
      rw [unquote?, stripStart?_eq_none fun hpre =>
        hs.not_mem (c := '\'') (by decide) (by decide) (by decide) (hpre.subset (by simp))]
      rfl
    have hmax : (charMax : Int) = 65535 := rfl
    rw [hbare nofun, List.append_nil, bits?, char?, hquote]
    simp only
    rw [filter_integer?_of_spells hs fun hv => by
      simp only [Bool.and_eq_true, decide_eq_true_eq, hmax] at hv
      rw [fitsSigned_iff]
      omega]
    refine if_congr ?_ rfl rfl
    rw [Bool.and_eq_true, decide_eq_true_eq, decide_eq_true_eq, hmax]
  | int =>
    cases ht
    rw [hbare nofun, List.append_nil, bits?, hsigned 32 (by decide)]
    exact if_congr (by rw [fitsSigned_iff]; omega) rfl rfl
  | long =>
    cases ht
    have hdrop : dropSuffix ['L', 'l'] (s ++ suffix) = s := by
      rw [dropSuffix, dropEndWhile_append fun c hc => by simpa using (hsuffix c hc).2]
      refine dropEndWhile_eq_self fun c hc => ?_
      have hmem := List.mem_of_mem_getLast? hc
      have hL : c ≠ 'L' := fun h => hs.not_mem (by decide) (by decide) (by decide) (h ▸ hmem)
      have hl : c ≠ 'l' := fun h => hs.not_mem (by decide) (by decide) (by decide) (h ▸ hmem)
      simp [hL, hl]
    rw [bits?, hdrop, integer?_of_spells hs, Option.filter_some]
    exact if_congr (by rw [fitsSigned_iff]; omega) rfl rfl
  | _ => cases ht

/-- The least `long` in hexadecimal, and the first number behind the largest one. -/
theorem bits?_of_spells_long_ends :
    bits? .long "-0x8000000000000000L".toList = some (-9223372036854775808) ∧
      bits? .long "9223372036854775808".toList = none := by
  have hleast : Spells (-(0x8000000000000000 : Nat)) "-0x8000000000000000".toList :=
    .negativeHex (.inl rfl) ⟨0, by decide +kernel⟩
  have hbehind : Spells 9223372036854775808 "9223372036854775808".toList := .decimal _
  have hread := bits?_of_spells (t := .long) rfl hleast (by simp : ∀ c ∈ ['L'], _)
  have hrefused := bits?_of_spells (t := .long) rfl hbehind (by simp : ∀ c ∈ [], _)
  exact ⟨hread.trans (if_pos (by omega)), hrefused.trans (if_neg (by omega))⟩

end Jil.Literal
