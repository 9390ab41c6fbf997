/-
Jil.Proofs.Numerals — numerals are read as the numbers that they stand for.

`readNat?` reads digits from the left, `Nat.toDigits` makes them from the
right: the two meet in the last digit (`foldDigits?_append`), so the induction
is on the number, divided by the radix at each step. Signs come after that. A
run of digits begins with no sign (`readSigned?_of_readNat?`), and a minus sign
in front of one negates it.
-/
import Jil.Text.Integer
import Mathlib.Data.Nat.Basic

namespace Jil.Text

/-! ## Digits -/

/-- A digit is read as its value, letters in lower case. -/
theorem digit?_digitChar {radix d : Nat} (hd : d < radix) (hradix : radix ≤ 16) :
    digit? radix d.digitChar = some d := by
  have hcode : ∀ d < 16, d.digitChar.toNat = if d < 10 then 48 + d else 87 + d := by decide
  have hd16 := hcode d (by omega)
  simp only [digit?, hd16]
  by_cases hten : d < 10
  · rw [if_pos hten, if_pos (by omega)]
    simpa using hd
  · rw [if_neg hten, if_neg (by omega), if_pos (by omega)]
    simpa using hd

/-- Upper case letters have the values of those in lower case. -/
theorem digit?_toLower (radix : Nat) (c : Char) : digit? radix c.toLower = digit? radix c := by
  unfold Char.toLower
  split
  · next h =>
    have hrange : 65 ≤ c.toNat ∧ c.toNat ≤ 90 := h
    have hcode : (c.val + ('a'.val - 'A'.val)).toNat = c.toNat + 32 := by
      rw [UInt32.toNat_add]
      exact Nat.mod_eq_of_lt (show c.toNat + 32 < 2 ^ 32 by omega)
    have hcode' : ∀ h, (Char.mk (c.val + ('a'.val - 'A'.val)) h).toNat = c.toNat + 32 :=
      fun _ => hcode
    simp only [digit?, hcode']
    split_ifs <;> first | omega | rfl
  · rfl

/-- No sign is a digit. -/
theorem not_sign_of_digit? {radix : Nat} {c : Char} (h : digit? radix c ≠ none) :
    c ≠ '+' ∧ c ≠ '-' := by
  constructor <;> rintro rfl <;> exact h rfl

variable {radix n : Nat}

theorem foldDigits?_append (radix acc : Nat) (a b : List Char) :
    foldDigits? radix acc (a ++ b) =
      (foldDigits? radix acc a).bind fun n => foldDigits? radix n b := by
  induction a generalizing acc with
  | nil => rfl
  | cons c a ih =>
    rw [List.cons_append, foldDigits?, foldDigits?, Option.bind_assoc]
    simp only [ih]

theorem foldDigits?_map_toLower (radix acc : Nat) (s : List Char) :
    foldDigits? radix acc (s.map Char.toLower) = foldDigits? radix acc s := by
  induction s generalizing acc with
  | nil => rfl
  | cons c s ih => simp only [List.map_cons, foldDigits?, digit?_toLower, ih]

/-- Only digits are read. -/
theorem digit?_of_foldDigits? {acc : Nat} {s : List Char}
    (h : foldDigits? radix acc s = some n) :
    ∀ c ∈ s, digit? radix c ≠ none := by
  induction s generalizing acc with
  | nil => nofun
  | cons c s ih =>
    obtain ⟨d, hd, hrest⟩ := Option.bind_eq_some_iff.1 h
    rintro x (_ | ⟨_, hx⟩)
    · simp [hd]
    · exact ih hrest x hx

/-- The digits of a number are worth the number. -/
theorem foldDigits?_toDigits (hradix : 1 < radix) (hletters : radix ≤ 16) (n : Nat) :
    foldDigits? radix 0 (Nat.toDigits radix n) = some n := by
  induction n using Nat.strong_induction_on with
  | h n ih =>
    rw [Nat.toDigits_eq_if hradix]
    split
    · next hlt => simp [foldDigits?, digit?_digitChar hlt hletters]
    · next hle =>
      have hdiv : n / radix < n := Nat.div_lt_self (by omega) hradix
      have hmod : n % radix < radix := Nat.mod_lt n (by omega)
      rw [foldDigits?_append, ih _ hdiv, Option.bind_some]
      simp [foldDigits?, digit?_digitChar hmod hletters, Nat.div_add_mod']

/-- A numeral is read as the number that it is the numeral of. -/
theorem readNat?_toDigits (hradix : 1 < radix) (hletters : radix ≤ 16) (n : Nat) :
    readNat? radix (Nat.toDigits radix n) = some n := by
  have hfold := foldDigits?_toDigits hradix hletters n
  cases hs : Nat.toDigits radix n with
  | nil => exact absurd hs Nat.toDigits_ne_nil
  | cons c s => rwa [hs] at hfold

theorem digit?_of_readNat? {s : List Char} (h : readNat? radix s = some n) :
    ∀ c ∈ s, digit? radix c ≠ none := by
  cases s with
  | nil => nofun
  | cons c s => exact digit?_of_foldDigits? h

/-! ## Signs -/

theorem readUnsigned?_of_readNat? {high : Nat} {s : List Char} (h : readNat? 10 s = some n) :
    readUnsigned? high s = (some n).filter (· ≤ high) := by
  have hdigits := digit?_of_readNat? h
  unfold readUnsigned?
  split
  · exact absurd rfl (not_sign_of_digit? (hdigits '+' List.mem_cons_self)).1
  · exact congrArg (Option.filter (· ≤ high)) h

theorem readUnsigned?_toDigits {high : Nat} (h : n ≤ high) :
    readUnsigned? high (Nat.toDigits 10 n) = some n := by
  rw [readUnsigned?_of_readNat? (readNat?_toDigits (by decide) (by decide) n)]
  simpa using h

theorem le_of_readUnsigned? {high : Nat} {s : List Char} (h : readUnsigned? high s = some n) :
    n ≤ high := by
  simpa using (Option.filter_eq_some_iff.1 h).2

/-- Without a sign, the number has to lie in the range. -/
theorem readSigned?_of_readNat? {s : List Char} (h : readNat? radix s = some n) (bits : Nat) :
    readSigned? radix bits s =
      (some (n : Int)).filter fun v => -(2 ^ (bits - 1) : Int) ≤ v ∧ v < 2 ^ (bits - 1) := by
  have hdigits := digit?_of_readNat? h
  unfold readSigned?
  split
  · exact absurd rfl (not_sign_of_digit? (hdigits '+' List.mem_cons_self)).1
  · exact absurd rfl (not_sign_of_digit? (hdigits '-' List.mem_cons_self)).2
  · rw [h]
    rfl

/-- Behind a minus sign, its negative has to. -/
theorem readSigned?_neg {s : List Char} (h : readNat? radix s = some n) (bits : Nat) :
    readSigned? radix bits ('-' :: s) =
      (some (-(n : Int))).filter fun v => -(2 ^ (bits - 1) : Int) ≤ v
      ∧ v < 2 ^ (bits - 1) := by
  simp only [readSigned?, h]
  rfl

theorem toList_toString_nat (n : Nat) : (toString n).toList = Nat.toDigits 10 n := by simp

/-- The numeral of a negative integer is a minus sign and that of its absolute value. -/
theorem toList_toString_neg (n : Nat) :
    (toString (Int.negSucc n)).toList = '-' :: Nat.toDigits 10 (n + 1) := by
  rw [← toList_toString_nat]
  exact String.toList_append

/-- An integer is read as itself when its range is large enough. -/
theorem readSigned?_toString {bits : Nat} {v : Int} (hlower : -(2 ^ (bits - 1) : Int) ≤ v)
    (hupper : v < 2 ^ (bits - 1)) : readSigned? 10 bits (toString v).toList = some v := by
  cases v with
  | ofNat n =>
    have htext : (toString (Int.ofNat n)).toList = Nat.toDigits 10 n := toList_toString_nat n
    rw [htext, readSigned?_of_readNat? (readNat?_toDigits (by decide) (by decide) n)]
    simpa using ⟨hlower, hupper⟩
  | negSucc n =>
    rw [toList_toString_neg,
      readSigned?_neg (readNat?_toDigits (by decide) (by decide) (n + 1))]
    exact Option.filter_eq_some_iff.2 ⟨rfl, decide_eq_true ⟨hlower, hupper⟩⟩

/-! ## Fixed places -/

/-- A numeral of fixed length consists of digits. -/
theorem mem_fixedDigits {places : Nat} (hradix : 0 < radix) {c : Char}
    (h : c ∈ fixedDigits radix places n) : ∃ d < radix, c = digitChar d := by
  induction places generalizing n with
  | zero => cases h
  | succ places ih =>
    rw [fixedDigits, List.mem_append, List.mem_singleton] at h
    obtain h | rfl := h
    · exact ih h
    · exact ⟨n % radix, Nat.mod_lt _ hradix, rfl⟩

end Jil.Text
