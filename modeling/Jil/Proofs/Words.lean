/-
Jil.Proofs.Words — words, operands of each size, and memory.

A register holds a word of 64 bits, an operand of a size class as many bits as
the class is wide (`Value`). Writing a long fills the rest of a register with
zeros, writing less keeps it (`merge`). Memory maps addresses to bytes, values
lie there with the lowest byte first: what was written is read again
(`load_store`), and the bytes elsewhere stay (`store_of_not_within`).
-/
import Jil.Machine.Register

namespace Jil.Machine

/-! ## Values -/

/-- A word of the machine. -/
abbrev Word := BitVec 64

/-- Width in bits. -/
abbrev Size.bits (s : Size) : Nat := 8 * s.bytes

/-- An operand of a size class. -/
abbrev Value (s : Size) := BitVec s.bits

theorem Size.bytes_le (s : Size) : s.bytes ≤ 8 := by cases s <;> decide

theorem Size.bits_le (s : Size) : s.bits ≤ 64 := by cases s <;> decide

/-- The low bits of low bits. -/
theorem setWidth_setWidth {n m k : Nat} (x : BitVec n) (h : k ≤ m) :
    (x.setWidth m).setWidth k = x.setWidth k := by
  apply BitVec.eq_of_getLsbD_eq
  intro i hi
  simp only [BitVec.getLsbD_setWidth]
  have : i < m := by omega
  simp [this]

/-- What a register holds after its low part was written. -/
def merge (s : Size) (old : Word) (v : Value s) : Word :=
  if 4 ≤ s.bytes then v.setWidth 64 else (old >>> s.bits <<< s.bits) ||| v.setWidth 64

/-- The part that was written. -/
theorem setWidth_merge (s : Size) (old : Word) (v : Value s) :
    (merge s old v).setWidth s.bits = v := by
  have hbits := s.bits_le
  apply BitVec.eq_of_getLsbD_eq
  intro i hi
  unfold merge
  split
  · have : i < 64 := by omega
    simp [this, hi]
  · have : i < 64 := by omega
    simp [this, hi]

/-- Writing at least a long leaves nothing of what was there. -/
theorem merge_of_le {s : Size} (h : 4 ≤ s.bytes) (old : Word) (v : Value s) :
    merge s old v = v.setWidth 64 := if_pos h

/-! ## Memory -/

/-- The bytes by address. -/
abbrev Memory := Word → BitVec 8

namespace Memory

/-- The value of `count` bytes, the lowest first. -/
def loadBytes (m : Memory) (a : Word) : (count : Nat) → BitVec (8 * count)
  | 0 => 0
  | count + 1 => (loadBytes m (a + 1) count ++ m a : BitVec (8 * count + 8))

/-- The value of a size class at an address. -/
def load (m : Memory) (a : Word) (s : Size) : Value s := loadBytes m a s.bytes

/-- Memory after a value was written. -/
def store (m : Memory) (a : Word) (s : Size) (v : Value s) : Memory := fun x =>
  if (x - a).toNat < s.bytes then v.extractLsb' (8 * (x - a).toNat) 8 else m x

/-- A bit of a value is one of a byte. -/
theorem getLsbD_loadBytes (m : Memory) (a : Word) (count i : Nat) (h : i < 8 * count) :
    (loadBytes m a count).getLsbD i = (m (a + BitVec.ofNat 64 (i / 8))).getLsbD (i % 8) := by
  induction count generalizing a i with
  | zero => omega
  | succ count ih =>
    rw [loadBytes, BitVec.getLsbD_append]
    by_cases hi : i < 8
    · have hdiv : i / 8 = 0 := by omega
      have hmod : i % 8 = i := by omega
      simp [hi, hdiv, hmod]
    · have hdiv : i / 8 = (i - 8) / 8 + 1 := by omega
      have hmod : i % 8 = (i - 8) % 8 := by omega
      rw [if_neg hi, ih (a + 1) (i - 8) (by omega), hdiv, hmod]
      congr 2
      rw [BitVec.add_assoc, BitVec.ofNat_add, BitVec.add_comm (BitVec.ofNat 64 _) 1#64]
      rfl

theorem getLsbD_load (m : Memory) (a : Word) (s : Size) (i : Nat) (h : i < s.bits) :
    (m.load a s).getLsbD i = (m (a + BitVec.ofNat 64 (i / 8))).getLsbD (i % 8) :=
  getLsbD_loadBytes m a s.bytes i h

/-- Whether an address is that of a byte of `count` from `a` on. -/
def Within (a : Word) (count : Nat) (x : Word) : Prop := (x - a).toNat < count

instance (a : Word) (count : Nat) (x : Word) : Decidable (Within a count x) :=
  inferInstanceAs (Decidable (_ < _))

theorem within_add (a : Word) {count k : Nat} (hk : k < count) (hcount : count ≤ 2 ^ 64) :
    Within a count (a + BitVec.ofNat 64 k) := by
  unfold Within
  rw [BitVec.add_comm, BitVec.add_sub_cancel, BitVec.toNat_ofNat, Nat.mod_eq_of_lt (by omega)]
  exact hk

/-- Values read alike where memories hold the same bytes. -/
theorem load_congr {m m' : Memory} {a : Word} {s : Size}
    (h : ∀ x, Within a s.bytes x → m x = m' x) : m.load a s = m'.load a s := by
  have hbytes := s.bytes_le
  apply BitVec.eq_of_getLsbD_eq
  intro i hi
  have hi : i < 8 * s.bytes := hi
  rw [getLsbD_load m a s i hi, getLsbD_load m' a s i hi,
    h _ (within_add a (k := i / 8) (by omega) (by omega))]

/-- The low part of a value is the value of the first bytes. -/
theorem setWidth_load (m : Memory) (a : Word) {s t : Size} (h : t.bytes ≤ s.bytes) :
    (m.load a s).setWidth t.bits = m.load a t := by
  apply BitVec.eq_of_getLsbD_eq
  intro i hi
  have hwide : i < s.bits := Nat.lt_of_lt_of_le hi (Nat.mul_le_mul_left 8 h)
  rw [BitVec.getLsbD_setWidth, getLsbD_load m a s i hwide, getLsbD_load m a t i hi]
  simp only [hi, decide_true, Bool.true_and]

/-- What was written is read. -/
theorem load_store (m : Memory) (a : Word) (s : Size) (v : Value s) :
    (m.store a s v).load a s = v := by
  have hbytes := s.bytes_le
  apply BitVec.eq_of_getLsbD_eq
  intro i hi
  have hi : i < 8 * s.bytes := hi
  have hoffset : (a + BitVec.ofNat 64 (i / 8) - a).toNat = i / 8 := by
    rw [BitVec.add_comm, BitVec.add_sub_cancel, BitVec.toNat_ofNat,
      Nat.mod_eq_of_lt (by omega)]
  rw [getLsbD_load _ _ _ _ hi]
  unfold store
  rw [hoffset, if_pos (by omega), BitVec.getLsbD_extractLsb']
  have : i % 8 < 8 := by omega
  simp only [this, decide_true, Bool.true_and]
  congr 1
  omega

/-- Writing changes the bytes of the value only. -/
theorem store_of_not_within {m : Memory} {a x : Word} {s : Size} (v : Value s)
    (h : ¬ Within a s.bytes x) : m.store a s v x = m x := if_neg h

end Memory

end Jil.Machine
