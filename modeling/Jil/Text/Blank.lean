/-
Jil.Text.Blank — white space, trimming and words.

A text is scanned as a list of characters. `isBlank` is the Unicode property
White_Space; `trim` removes blanks at both ends and `words` are the maximal
runs without a blank.
-/
namespace Jil.Text

/-! ## White space -/

/-- Code points of the Unicode property White_Space, as closed ranges. -/
def blankRanges : List (Nat × Nat) :=
  [(0x09, 0x0D), (0x20, 0x20), (0x85, 0x85), (0xA0, 0xA0), (0x1680, 0x1680),
   (0x2000, 0x200A), (0x2028, 0x2029), (0x202F, 0x202F), (0x205F, 0x205F),
   (0x3000, 0x3000)]

/-- Whether a character is white space. -/
def isBlank (c : Char) : Bool :=
  blankRanges.any fun (low, high) => low ≤ c.toNat && c.toNat ≤ high

/-! ## Trimming -/

/-- The text without its leading blanks. -/
def trimStart (s : List Char) : List Char := s.dropWhile isBlank

/-- The text without its trailing characters of the class `p`. -/
def dropEndWhile (p : Char → Bool) (s : List Char) : List Char :=
  (s.reverse.dropWhile p).reverse

/-- The text without its trailing blanks. -/
def trimEnd (s : List Char) : List Char := dropEndWhile isBlank s

/-- The text without blanks at either end. -/
def trim (s : List Char) : List Char := trimEnd (trimStart s)

/-! ## Words -/

theorem length_dropWhile_le (p : Char → Bool) (s : List Char) :
    (s.dropWhile p).length ≤ s.length := by
  induction s with
  | nil => simp
  | cons c r ih =>
    rw [List.dropWhile_cons]
    split
    · simp only [List.length_cons]; omega
    · exact Nat.le_refl _

/-- The blank-free runs of a text, in order. -/
def words (s : List Char) : List (List Char) :=
  match _h : trimStart s with
  | [] => []
  | c :: r =>
    (c :: r.takeWhile fun d => !isBlank d) :: words (r.dropWhile fun d => !isBlank d)
termination_by s.length
decreasing_by
  have h₁ := length_dropWhile_le (fun d => !isBlank d) r
  have h₂ := length_dropWhile_le isBlank s
  rw [show s.dropWhile isBlank = c :: r from _h, List.length_cons] at h₂
  omega

end Jil.Text
