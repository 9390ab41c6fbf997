/-
Jil.Proofs.Scanning — texts are taken apart where they were put together.

Reading cuts a text at separators and trims what it gets. These are the
conditions under which that undoes writing: a part that is trimmed has no
blanks at its ends (`Bare`), a separator does not occur in what stands in front
of a first one or behind a last one, nor reach into it (`cut_append`,
`cutLast_append`), and an item of a list holds no separator of the list. The
other way round, `mem_pieces`, `mem_words` and their like tell what the parts
are that a text was taken apart into.
-/
import Jil.Text.Blank
import Jil.Text.Integer
import Jil.Text.Quoted

namespace Jil.Text

/-! ## Blanks at the ends -/

/-- A text without blanks at its ends. -/
structure Bare (s : List Char) : Prop where
  first : ∀ c ∈ s.head?, isBlank c = false
  last : ∀ c ∈ s.getLast?, isBlank c = false

theorem dropWhile_eq_self {p : Char → Bool} {s : List Char} (h : ∀ c ∈ s.head?, p c = false) :
    s.dropWhile p = s := by
  cases s with
  | nil => rfl
  | cons c s => simp [h c rfl]

theorem head?_dropWhile (p : Char → Bool) (s : List Char) :
    ∀ c ∈ (s.dropWhile p).head?, p c = false := by
  induction s with
  | nil => nofun
  | cons c s ih =>
    rw [List.dropWhile_cons]
    split
    · exact ih
    · next hc =>
      intro d hd
      cases hd
      simpa using hc

/-- What `dropWhile` drops. -/
theorem exists_dropWhile (p : Char → Bool) (s : List Char) :
    ∃ front, s = front ++ s.dropWhile p ∧ ∀ c ∈ front, p c = true :=
  ⟨s.takeWhile p, List.takeWhile_append_dropWhile.symm, List.all_eq_true.1 List.all_takeWhile⟩

theorem trimStart_eq_self {s : List Char} (h : ∀ c ∈ s.head?, isBlank c = false) :
    trimStart s = s :=
  dropWhile_eq_self h

theorem dropEndWhile_eq_self {p : Char → Bool} {s : List Char}
    (h : ∀ c ∈ s.getLast?, p c = false) : dropEndWhile p s = s := by
  rw [dropEndWhile, dropWhile_eq_self, List.reverse_reverse]
  simpa using h

theorem dropEndWhile_append {p : Char → Bool} {s back : List Char}
    (h : ∀ c ∈ back, p c = true) :
    dropEndWhile p (s ++ back) = dropEndWhile p s := by
  rw [dropEndWhile, List.reverse_append, List.dropWhile_append_of_pos (by simpa using h)]
  rfl

theorem trimEnd_eq_self {s : List Char} (h : ∀ c ∈ s.getLast?, isBlank c = false) :
    trimEnd s = s :=
  dropEndWhile_eq_self h

theorem Bare.trim_eq {s : List Char} (h : Bare s) : trim s = s := by
  rw [trim, trimStart_eq_self h.first, trimEnd_eq_self h.last]

theorem exists_trimEnd (s : List Char) :
    ∃ back, s = trimEnd s ++ back ∧ ∀ c ∈ back, isBlank c = true := by
  obtain ⟨back, hback, hblank⟩ := exists_dropWhile isBlank s.reverse
  refine ⟨back.reverse, ?_, by simpa using hblank⟩
  rw [trimEnd, dropEndWhile, ← List.reverse_append, ← hback, List.reverse_reverse]

/-- Trimming takes blanks away at either end. -/
theorem exists_trim (s : List Char) :
    ∃ front back, s = front ++ trim s ++ back ∧ (∀ c ∈ front, isBlank c = true)
      ∧ ∀ c ∈ back, isBlank c = true := by
  obtain ⟨front, hfront, hblank⟩ := exists_dropWhile isBlank s
  obtain ⟨back, hback, hblank'⟩ := exists_trimEnd (trimStart s)
  refine ⟨front, back, ?_, hblank, hblank'⟩
  rw [List.append_assoc, trim, ← hback]
  exact hfront

theorem bare_trim (s : List Char) : Bare (trim s) := by
  constructor
  · intro c hc
    obtain ⟨back, hback, -⟩ := exists_trimEnd (trimStart s)
    refine head?_dropWhile isBlank s c ?_
    rw [show s.dropWhile isBlank = trim s ++ back from hback, List.head?_append]
    simp [Option.mem_def.1 hc]
  · rw [trim, trimEnd, dropEndWhile, List.getLast?_reverse]
    exact head?_dropWhile _ _

theorem bare_iff {s : List Char} : Bare s ↔ trim s = s :=
  ⟨Bare.trim_eq, fun h => h ▸ bare_trim s⟩

instance (s : List Char) : Decidable (Bare s) := decidable_of_iff' _ bare_iff

theorem infix_trim (s : List Char) : trim s <:+: s := by
  obtain ⟨front, back, h, -⟩ := exists_trim s
  exact ⟨front, back, h.symm⟩

theorem trimStart_append {front s : List Char} (h : ∀ c ∈ front, isBlank c = true) :
    trimStart (front ++ s) = trimStart s :=
  List.dropWhile_append_of_pos h

theorem trimEnd_append {s back : List Char} (h : ∀ c ∈ back, isBlank c = true) :
    trimEnd (s ++ back) = trimEnd s :=
  dropEndWhile_append h

/-- Blanks around a bare text are taken away. -/
theorem Bare.trim_append {a s b : List Char} (h : Bare s) (ha : ∀ c ∈ a, isBlank c = true)
    (hb : ∀ c ∈ b, isBlank c = true) : trim (a ++ s ++ b) = s := by
  cases s with
  | nil =>
    have hblank : ∀ c ∈ a ++ b, isBlank c = true := by
      intro c hc
      exact (List.mem_append.1 hc).elim (ha c) (hb c)
    have hnil := trimStart_append (s := []) hblank
    rw [List.append_nil] at hnil
    rw [trim, List.append_nil, hnil]
    rfl
  | cons c rest =>
    have hstart : trimStart (c :: rest ++ b) = c :: rest ++ b :=
      trimStart_eq_self (by simpa using h.first)
    rw [trim, List.append_assoc, trimStart_append ha, hstart, trimEnd_append hb,
      trimEnd_eq_self h.last]

/-- Blanks at the ends make no difference to trimming. -/
theorem trim_append {a s b : List Char} (ha : ∀ c ∈ a, isBlank c = true)
    (hb : ∀ c ∈ b, isBlank c = true) : trim (a ++ s ++ b) = trim s := by
  obtain ⟨front, back, hs, hfront, hback⟩ := exists_trim s
  have hregroup : a ++ s ++ b = (a ++ front) ++ trim s ++ (back ++ b) := by
    rw [congrArg (a ++ · ++ b) hs]
    simp
  rw [hregroup]
  refine (bare_trim s).trim_append ?_ ?_
  · intro c hc
    exact (List.mem_append.1 hc).elim (ha c) (hfront c)
  · intro c hc
    exact (List.mem_append.1 hc).elim (hback c) (hb c)

theorem trim_cons_space (s : List Char) : trim (' ' :: s) = trim s := by
  simpa using trim_append (a := [' ']) (s := s) (b := []) (by simp; decide) nofun

theorem Bare.trim_cons {s : List Char} (h : Bare s) : trim (' ' :: s) = s :=
  (trim_cons_space s).trans h.trim_eq

theorem bare_nil : Bare [] := ⟨nofun, nofun⟩

theorem getLast?_append_of_ne_nil {a b : List Char} (h : b ≠ []) :
    (a ++ b).getLast? = b.getLast? := by
  rw [List.getLast?_append, List.getLast?_eq_some_getLast h]
  rfl

/-- A text is bare when its first part begins and its last part ends without a blank. -/
theorem bare_append {a m b : List Char} (ha : a ≠ []) (hb : b ≠ [])
    (hfirst : ∀ c ∈ a.head?, isBlank c = false) (hlast : ∀ c ∈ b.getLast?, isBlank c = false) :
    Bare (a ++ m ++ b) := by
  constructor
  · cases a with
    | nil => exact absurd rfl ha
    | cons c a => simpa using hfirst
  · rw [getLast?_append_of_ne_nil hb]
    exact hlast

/-- A text without blanks is bare. -/
theorem bare_of_forall {s : List Char} (h : ∀ c ∈ s, isBlank c = false) : Bare s :=
  ⟨fun c hc => h c (List.mem_of_mem_head? hc), fun c hc => h c (List.mem_of_mem_getLast? hc)⟩

/-- A text that is not empty and has no blanks at all. -/
structure IsWord (s : List Char) : Prop where
  ne_nil : s ≠ []
  blank : ∀ c ∈ s, isBlank c = false

instance (s : List Char) : Decidable (IsWord s) :=
  decidable_of_iff (s ≠ [] ∧ (s.all fun c => !isBlank c) = true)
    ⟨fun ⟨ne_nil, blank⟩ => ⟨ne_nil, by simpa using blank⟩,
      fun ⟨ne_nil, blank⟩ => ⟨ne_nil, by simpa using blank⟩⟩

theorem IsWord.space_not_mem {s : List Char} (h : IsWord s) : ' ' ∉ s := by
  intro hin
  exact absurd (h.blank ' ' hin) (by decide)

theorem IsWord.bare {s : List Char} (h : IsWord s) : Bare s := bare_of_forall h.blank

/-- A text is bare when it begins and ends with words. -/
theorem IsWord.bare_append {a b : List Char} (ha : IsWord a) (m : List Char) (hb : IsWord b) :
    Bare (a ++ m ++ b) :=
  Text.bare_append ha.ne_nil hb.ne_nil ha.bare.first hb.bare.last

/-! ## Occurrences -/

/-- A text holds each character at least as often as a separator that occurs in it. -/
theorem not_infix_of_count_lt {sep s : List Char} {c : Char} (h : s.count c < sep.count c) :
    ¬ sep <:+: s := by
  intro hin
  have := hin.sublist.count_le c
  omega

theorem not_infix_of_not_mem {sep s : List Char} {c : Char} (hc : c ∈ sep) (hs : c ∉ s) :
    ¬ sep <:+: s :=
  fun hin => hs (hin.subset hc)

/-- A separator does not reach across a character that it does not hold. -/
theorem infix_split {sep a b : List Char} {c : Char} (hc : c ∉ sep)
    (h : sep <:+: a ++ c :: b) : sep <:+: a ∨ sep <:+: b := by
  obtain ⟨x, y, hxy⟩ := h
  rw [List.append_assoc] at hxy
  obtain ⟨z, rfl, hz⟩ | ⟨z, rfl, hz⟩ := List.append_eq_append_iff.1 hxy
  · -- the separator begins in front of the character, so it ends there too
    obtain ⟨w, rfl, hw⟩ | ⟨w, rfl, hw⟩ := List.append_eq_append_iff.1 hz
    · exact .inl ⟨x, w, by simp⟩
    · cases w with
      | nil => exact .inl ⟨x, [], by simp⟩
      | cons d w =>
        obtain ⟨rfl, -⟩ := List.cons.inj hw
        exact absurd (by simp) hc
  · cases z with
    | nil =>
      cases sep with
      | nil => exact .inl (List.nil_infix)
      | cons d sep =>
        obtain ⟨rfl, -⟩ := List.cons.inj hz
        exact absurd (by simp) hc
    | cons d z =>
      obtain ⟨-, rfl⟩ := List.cons.inj hz
      exact .inr ⟨z, y, by simp⟩

/-- A separator does not begin in front of its first character. -/
theorem infix_behind {c : Char} {s a b : List Char} (hc : c ∉ a) (h : (c :: s) <:+: a ++ b) :
    (c :: s) <:+: b := by
  induction a with
  | nil => exact h
  | cons d a ih =>
    rw [List.mem_cons, not_or] at hc
    obtain hpre | hin := List.infix_cons_iff.1 h
    · exact absurd (List.cons_prefix_cons.1 hpre).1 hc.1
    · exact ih hc.2 hin

/-- A prefix does not reach behind a character that it does not hold. -/
theorem prefix_of_prefix_append {a b s : List Char} {c : Char} (hc : c ∉ a)
    (h : a <+: b ++ c :: s) :
    a <+: b := by
  induction a generalizing b with
  | nil => exact List.nil_prefix
  | cons d a ih =>
    rw [List.mem_cons, not_or] at hc
    cases b with
    | nil => exact absurd (List.cons_prefix_cons.1 h).1.symm hc.1
    | cons e b =>
      obtain ⟨rfl, htail⟩ := List.cons_prefix_cons.1 h
      exact List.cons_prefix_cons.2 ⟨rfl, ih hc.2 htail⟩

theorem infix_of_mem {s : List Char} {c : Char} (h : c ∈ s) : [c] <:+: s := by
  obtain ⟨a, b, rfl⟩ := List.append_of_mem h
  exact ⟨a, b, by simp⟩

/-! ## Fixed beginnings and ends -/

theorem stripStart?_eq_none {start s : List Char} (h : ¬ start <+: s) :
    stripStart? start s = none := by
  cases hs : stripStart? start s with
  | none => rfl
  | some rest => exact absurd ⟨rest, (eq_append_of_stripStart? hs).symm⟩ h

theorem not_prefix_of_stripStart? {start s : List Char} (h : stripStart? start s = none) :
    ¬ start <+: s := by
  rintro ⟨rest, rfl⟩
  rw [stripStart?_append] at h
  cases h

theorem eq_append_of_stripEnd? {stop s rest : List Char} (h : stripEnd? stop s = some rest) :
    s = rest ++ stop := by
  obtain ⟨r, hr, rfl⟩ := Option.map_eq_some_iff.1 h
  rw [← List.reverse_reverse s, eq_append_of_stripStart? hr, List.reverse_append,
    List.reverse_reverse]

theorem suffix_of_stripStart? {start s rest : List Char}
    (h : stripStart? start s = some rest) :
    rest <:+ s := by
  rw [eq_append_of_stripStart? h]
  exact List.suffix_append _ _

/-! ## One separator -/

theorem cut_eq_none {sep s : List Char} (h : ¬ sep <:+: s) : cut sep s = none := by
  cases hs : cut sep s with
  | none => rfl
  | some r => exact absurd ⟨r.1, r.2, (eq_append_of_cut hs).symm⟩ h

theorem cutLast_eq_none {sep s : List Char} (h : ¬ sep <:+: s) : cutLast sep s = none := by
  cases hs : cutLast sep s with
  | none => rfl
  | some r => exact absurd ⟨r.1, r.2, (eq_append_of_cutLast hs).symm⟩ h

theorem cut_of_stripStart? {sep s rest : List Char} (h : stripStart? sep s = some rest) :
    cut sep s = some ([], rest) := by
  cases s with
  | nil => rw [cut, h]; rfl
  | cons c s => rw [cut, h]

/-- The sides of a cut are the beginning and the end of the text. -/
theorem within_of_cut {sep s a b : List Char} (h : cut sep s = some (a, b)) :
    a <+: s ∧ b <:+ s := by
  rw [eq_append_of_cut h]
  exact ⟨List.append_assoc a sep b ▸ List.prefix_append _ _, List.suffix_append _ _⟩

theorem within_of_cutLast {sep s a b : List Char} (h : cutLast sep s = some (a, b)) :
    a <+: s ∧ b <:+ s := by
  rw [eq_append_of_cutLast h]
  exact ⟨List.append_assoc a sep b ▸ List.prefix_append _ _, List.suffix_append _ _⟩

/-- The first separator is found when it neither occurs in front nor begins there. -/
theorem cut_append {sep t a : List Char} {c : Char} (hsep : sep = t ++ [c])
    (h : ¬ sep <:+: a ++ t) (b : List Char) : cut sep (a ++ sep ++ b) = some (a, b) := by
  induction a with
  | nil => exact cut_of_stripStart? (stripStart?_append _ _)
  | cons d a ih =>
    have hnone : stripStart? sep (d :: (a ++ sep ++ b)) = none := by
      refine stripStart?_eq_none fun hpre => h (List.IsPrefix.isInfix ?_)
      refine List.prefix_of_prefix_length_le hpre ⟨[c] ++ b, by simp [hsep]⟩ ?_
      simp [hsep]
    have htail : ¬ sep <:+: a ++ t := fun hin => h (List.infix_cons hin)
    rw [List.cons_append, List.cons_append, cut, hnone, ih htail]
    rfl

theorem cut_char {c : Char} {a : List Char} (h : c ∉ a) (b : List Char) :
    cut [c] (a ++ c :: b) = some (a, b) := by
  have hnone : ¬ [c] <:+: a ++ [] :=
    not_infix_of_not_mem (List.mem_singleton_self c) (by simpa using h)
  simpa using cut_append (t := []) rfl hnone b

/-- The last separator is found when it neither occurs behind nor ends there. -/
theorem cutLast_append {c : Char} {s b : List Char} (h : ¬ (c :: s) <:+: s ++ b)
    (a : List Char) : cutLast (c :: s) (a ++ c :: s ++ b) = some (a, b) := by
  induction a with
  | nil =>
    rw [List.nil_append, List.cons_append, cutLast, cutLast_eq_none h]
    simp only
    rw [← List.cons_append, stripStart?_append]
    rfl
  | cons d a ih => rw [List.cons_append, List.cons_append, cutLast, ih]

theorem cutLast_char {c : Char} {b : List Char} (h : c ∉ b) (a : List Char) :
    cutLast [c] (a ++ c :: b) = some (a, b) := by
  have hnone : ¬ [c] <:+: [] ++ b :=
    not_infix_of_not_mem (List.mem_singleton_self c) h
  simpa using cutLast_append hnone a

theorem not_infix_of_cut {sep s : List Char} (h : cut sep s = none) : ¬ sep <:+: s := by
  rintro ⟨x, y, rfl⟩
  induction x with
  | nil =>
    rw [List.nil_append, cut_of_stripStart? (stripStart?_append _ _)] at h
    cases h
  | cons d x ih =>
    rw [List.cons_append, List.cons_append, cut] at h
    split at h
    · cases h
    · exact ih (Option.map_eq_none_iff.1 h)

theorem not_infix_of_cutLast {sep s : List Char} (h : cutLast sep s = none) :
    ¬ sep <:+: s := by
  rintro ⟨x, y, rfl⟩
  induction x with
  | nil =>
    have hstrip := stripStart?_append sep y
    rw [List.nil_append] at h
    cases hs : sep ++ y with
    | nil => rw [hs] at h hstrip; rw [cutLast, hstrip] at h; cases h
    | cons d s =>
      rw [hs] at h hstrip
      rw [cutLast, hstrip] at h
      split at h <;> cases h
  | cons d x ih =>
    rw [List.cons_append, List.cons_append, cutLast] at h
    split at h
    · cases h
    · next hnone => exact ih hnone

/-- A first separator does not occur in front of itself. -/
theorem not_infix_before_cut {sep s a b : List Char} (hsep : sep ≠ [])
    (h : cut sep s = some (a, b)) :
    ¬ sep <:+: a := by
  induction s generalizing a with
  | nil =>
    obtain ⟨rest, hrest, heq⟩ := Option.map_eq_some_iff.1 h
    cases heq
    simpa using hsep
  | cons d s ih =>
    rw [cut] at h
    split at h
    · cases h
      simpa using hsep
    · next hnone =>
      obtain ⟨⟨a', b'⟩, hcut, heq⟩ := Option.map_eq_some_iff.1 h
      cases heq
      intro hin
      obtain hpre | hin := List.infix_cons_iff.1 hin
      · refine not_prefix_of_stripStart? hnone (hpre.trans ?_)
        rw [eq_append_of_cut hcut]
        exact ⟨sep ++ b, by simp⟩
      · exact ih hcut hin

theorem not_mem_before_cut {s a b : List Char} {c : Char} (h : cut [c] s = some (a, b)) :
    c ∉ a :=
  fun hin => not_infix_before_cut (by simp) h (infix_of_mem hin)

/-- A last separator does not occur behind itself. -/
theorem not_infix_after_cutLast {sep s a b : List Char} (hsep : sep ≠ [])
    (h : cutLast sep s = some (a, b)) : ¬ sep <:+: b := by
  induction s generalizing a with
  | nil =>
    obtain ⟨rest, hrest, heq⟩ := Option.map_eq_some_iff.1 h
    cases sep with
    | nil => exact absurd rfl hsep
    | cons c sep => cases eq_append_of_stripStart? hrest
  | cons d s ih =>
    rw [cutLast] at h
    split at h
    · next a' b' hs =>
      cases h
      exact ih hs
    · next hnone =>
      obtain ⟨rest, hrest, heq⟩ := Option.map_eq_some_iff.1 h
      cases heq
      cases sep with
      | nil => exact absurd rfl hsep
      | cons c sep =>
        obtain ⟨-, rfl⟩ := List.cons.inj (eq_append_of_stripStart? hrest)
        exact fun hin =>
          not_infix_of_cutLast hnone (hin.trans (List.suffix_append _ _).isInfix)

theorem cutSpace_append {w : List Char} (h : ' ' ∉ w) (s : List Char) :
    cutSpace (w ++ ' ' :: s) = (w, s) := by
  rw [cutSpace, cut_char h]
  rfl

theorem trim_trimEnd (s : List Char) : trim (trimEnd s) = trim s := by
  obtain ⟨back, hback, hblank⟩ := exists_trimEnd s
  have htrim := trim_append (a := []) (s := trimEnd s) nofun hblank
  rw [List.nil_append, ← hback] at htrim
  exact htrim.symm

/-- Trimming a line leaves its first word, and the space behind it only if something
follows. -/
theorem trim_word_append {w : List Char} (hw : IsWord w) (s : List Char) :
    trim (w ++ ' ' :: s) = if trimEnd s = [] then w else w ++ ' ' :: trimEnd s := by
  have hfirst : ∀ x : List Char, ∀ c ∈ (w ++ x).head?, isBlank c = false := by
    intro x
    cases w with
    | nil => exact absurd rfl hw.ne_nil
    | cons d w => simpa using hw.blank d
  obtain ⟨back, hback, hblank⟩ := exists_trimEnd s
  split
  · next hs =>
    have hall : ∀ c ∈ ' ' :: back, isBlank c = true := by
      simpa using ⟨by decide, hblank⟩
    rw [hback, hs, trim, trimStart_eq_self (hfirst _), List.nil_append, trimEnd_append hall,
      trimEnd_eq_self hw.bare.last]
  · next hs =>
    have hbare : Bare (w ++ [' '] ++ trimEnd s) := by
      refine bare_append hw.ne_nil hs (by simpa using hfirst []) ?_
      rw [trimEnd, dropEndWhile, List.getLast?_reverse]
      exact head?_dropWhile _ _
    have hline : w ++ ' ' :: s = [] ++ (w ++ [' '] ++ trimEnd s) ++ back := by
      rw [congrArg (w ++ ' ' :: ·) hback]
      simp
    rw [hline, hbare.trim_append (by simp) hblank]
    simp

theorem cutSpace_of_not_mem {w : List Char} (h : ' ' ∉ w) : cutSpace w = (w, []) := by
  rw [cutSpace, cut_eq_none (not_infix_of_not_mem (by simp) h)]
  rfl

theorem cutSpace_within (s : List Char) : (cutSpace s).1 <+: s ∧ (cutSpace s).2 <:+ s := by
  rw [cutSpace]
  cases hcut : cut [' '] s with
  | none => exact ⟨List.prefix_rfl, List.nil_suffix⟩
  | some parts => exact within_of_cut hcut

theorem cutSpace_trim {w : List Char} (hw : IsWord w) (s : List Char) :
    cutSpace (trim (w ++ ' ' :: s)) = (w, trimEnd s) := by
  rw [trim_word_append hw]
  split
  · next hs => rw [cutSpace_of_not_mem hw.space_not_mem, hs]
  · exact cutSpace_append hw.space_not_mem _

/-! ## Every separator -/

theorem pieces_of_not_mem {sep : Char} {s : List Char} (h : sep ∉ s) : pieces sep s = [s] := by
  induction s with
  | nil => rfl
  | cons c s ih =>
    rw [List.mem_cons, not_or] at h
    rw [pieces, if_neg (Ne.symm h.1), ih h.2]

theorem pieces_append {sep : Char} {a : List Char} (h : sep ∉ a) (s : List Char) :
    pieces sep (a ++ sep :: s) = a :: pieces sep s := by
  induction a with
  | nil => simp [pieces]
  | cons c a ih =>
    rw [List.mem_cons, not_or] at h
    rw [List.cons_append, pieces, if_neg (Ne.symm h.1), ih h.2]

theorem pieces_ne_nil (sep : Char) (s : List Char) : pieces sep s ≠ [] := by
  cases s with
  | nil => simp [pieces]
  | cons c s =>
    rw [pieces]
    split
    · simp
    · split <;> simp

/-- A piece is a part of the text without separators. -/
theorem mem_pieces {sep : Char} {s p : List Char} (h : p ∈ pieces sep s) :
    sep ∉ p ∧ p <:+: s := by
  by_cases hs : sep ∈ s
  · obtain ⟨a, b, rfl, ha⟩ := List.eq_append_cons_of_mem hs
    rw [pieces_append ha, List.mem_cons] at h
    obtain rfl | h := h
    · exact ⟨ha, (List.prefix_append _ _).isInfix⟩
    · have hp := mem_pieces h
      exact ⟨hp.1, hp.2.trans ⟨a ++ [sep], [], by simp⟩⟩
  · rw [pieces_of_not_mem hs, List.mem_singleton] at h
    subst h
    exact ⟨hs, List.infix_rfl⟩
termination_by s.length
decreasing_by
  subst s
  simp only [List.length_append, List.length_cons]
  omega

/-- What stands behind the last separator belongs to the last piece. -/
theorem pieces_append_of_not_mem {sep : Char} (s : List Char) {b : List Char} (h : sep ∉ b) :
    ∃ front last, pieces sep s = front ++ [last]
    ∧ pieces sep (s ++ b) = front ++ [last ++ b] := by
  induction s with
  | nil => exact ⟨[], [], rfl, pieces_of_not_mem h⟩
  | cons c s ih =>
    obtain ⟨front, last, hs, hb⟩ := ih
    rw [List.cons_append, pieces, pieces, hs, hb]
    split
    · exact ⟨[] :: front, last, rfl, rfl⟩
    · cases front with
      | nil => exact ⟨[], c :: last, rfl, rfl⟩
      | cons p front => exact ⟨(c :: p) :: front, last, rfl, rfl⟩

/-- Pieces that are trimmed do not tell whether the text was. -/
theorem map_trim_pieces_trim {sep : Char} (hsep : isBlank sep = false) (s : List Char) :
    (pieces sep (trimEnd s)).map trim = (pieces sep s).map trim := by
  obtain ⟨back, hback, hblank⟩ := exists_trimEnd s
  have hmem : sep ∉ back := fun hin => by simp [hblank sep hin] at hsep
  obtain ⟨front, last, hs, hb⟩ := pieces_append_of_not_mem (trimEnd s) hmem
  have hlast : trim (last ++ back) = trim last := by
    simpa using trim_append (a := []) (s := last) nofun hblank
  rw [hback, hb, ← hback, hs]
  simp [hlast]

/-- What a list that is written consists of. -/
theorem mem_intercalate {sep : List Char} {items : List (List Char)} {c : Char}
    (h : c ∈ List.intercalate sep items) : c ∈ sep ∨ ∃ x ∈ items, c ∈ x := by
  induction items with
  | nil => cases h
  | cons x rest ih =>
    cases rest with
    | nil => exact .inr ⟨x, by simpa using h⟩
    | cons y rest =>
      rw [List.intercalate_cons_cons, List.mem_append, List.mem_append] at h
      obtain (h | h) | h := h
      · exact .inr ⟨x, by simp, h⟩
      · exact .inl h
      · obtain h | ⟨z, hz, h⟩ := ih h
        · exact .inl h
        · exact .inr ⟨z, List.mem_cons_of_mem _ hz, h⟩

/-- A list that is written with a separator and a space between its items has the items as
pieces. -/
theorem map_trim_pieces_intercalate {sep : Char} (hsep : isBlank sep = false) {x : List Char}
    {rest : List (List Char)} (h : ∀ y ∈ x :: rest, Bare y ∧ sep ∉ y) :
    (pieces sep (List.intercalate [sep, ' '] (x :: rest))).map trim = x :: rest := by
  induction rest generalizing x with
  | nil =>
    have hx := h x (by simp)
    simp [pieces_of_not_mem hx.2, hx.1.trim_eq]
  | cons y rest ih =>
    have hx := h x (by simp)
    have hy := ih fun z hz => h z (List.mem_cons_of_mem _ hz)
    have hne : (' ' = sep) ↔ False := by
      constructor
      · rintro rfl
        simp [isBlank, blankRanges] at hsep
      · exact False.elim
    rw [List.intercalate_cons_cons, List.append_assoc, List.cons_append, pieces_append hx.2,
      List.map_cons, hx.1.trim_eq, List.cons_append, List.nil_append, pieces,
      if_neg (by simp [hne])]
    cases hp : pieces sep (List.intercalate [sep, ' '] (y :: rest)) with
    | nil => exact absurd hp (pieces_ne_nil _ _)
    | cons p ps =>
      rw [hp] at hy
      simpa [trim_cons_space] using hy

/-! ## Words -/

theorem words_of_trimStart {s : List Char} (h : trimStart s = []) : words s = [] := by
  rw [words]
  split
  · rfl
  · next heq => rw [h] at heq; cases heq

theorem words_cons_of_trimStart {s r : List Char} {c : Char} (h : trimStart s = c :: r) :
    words s = (c :: r.takeWhile fun d => !isBlank d) :: words (r.dropWhile fun d =>
      !isBlank d) := by
  rw [words]
  split
  · next heq => rw [h] at heq; cases heq
  · next heq => rw [h] at heq; cases heq; rfl

theorem words_cons_blank {b : Char} (hb : isBlank b = true) (s : List Char) :
    words (b :: s) = words s := by
  have hstart : trimStart (b :: s) = trimStart s := List.dropWhile_cons_of_pos hb
  cases hs : trimStart s with
  | nil => rw [words_of_trimStart hs, words_of_trimStart (hstart.trans hs)]
  | cons c r => rw [words_cons_of_trimStart hs, words_cons_of_trimStart (hstart.trans hs)]

/-- The word in front of a text. -/
theorem words_append {w s : List Char} (h : IsWord w) (hs : ∀ b ∈ s.head?, isBlank b = true) :
    words (w ++ s) = w :: words s := by
  cases w with
  | nil => exact absurd rfl h.ne_nil
  | cons c r =>
    have hstart : trimStart (c :: r ++ s) = c :: (r ++ s) :=
      trimStart_eq_self (by simpa using h.blank c)
    have hr : ∀ d ∈ r, (!isBlank d) = true := fun d hd => by
      simp [h.blank d (List.mem_cons_of_mem _ hd)]
    have hstop : ∀ b ∈ s.head?, (!isBlank b) = false := fun b hb => by simp [hs b hb]
    have htake : s.takeWhile (fun d => !isBlank d) = [] := by
      cases s with
      | nil => rfl
      | cons b s => simp [hs b rfl]
    rw [words_cons_of_trimStart hstart, List.takeWhile_append_of_pos hr,
      List.dropWhile_append_of_pos hr, htake, dropWhile_eq_self hstop, List.append_nil]

/-- Words that are written with spaces between them. -/
theorem words_intercalate {ws : List (List Char)} (h : ∀ w ∈ ws, IsWord w) :
    words (List.intercalate [' '] ws) = ws := by
  have hnil : words [] = [] := words_of_trimStart rfl
  induction ws with
  | nil => exact hnil
  | cons w rest ih =>
    have hw := h w (by simp)
    cases rest with
    | nil => simpa [hnil] using words_append hw (s := []) nofun
    | cons v rest =>
      have hspace : isBlank ' ' = true := by decide
      rw [List.intercalate_cons_cons, List.append_assoc, words_append hw (by simp [hspace]),
        List.singleton_append, words_cons_blank hspace,
        ih fun u hu => h u (List.mem_cons_of_mem _ hu)]

theorem mem_words {s w : List Char} (h : w ∈ words s) : IsWord w ∧ w <:+: s := by
  fun_induction words s with
  | case1 => cases h
  | case2 s c r hs ih =>
    have hsuffix : c :: r <:+ s := hs ▸ List.dropWhile_suffix isBlank
    obtain rfl | h := List.mem_cons.1 h
    · refine ⟨⟨by simp, ?_⟩, ?_⟩
      · intro d hd
        obtain rfl | hd := List.mem_cons.1 hd
        · exact head?_dropWhile isBlank s d
            (by rw [show s.dropWhile isBlank = d :: r from hs]; rfl)
        · simpa using List.all_eq_true.1 List.all_takeWhile d hd
      · exact (List.cons_prefix_cons.2 ⟨rfl, List.takeWhile_prefix _⟩).isInfix.trans
          hsuffix.isInfix
    · have hw := ih h
      refine ⟨hw.1, hw.2.trans ?_⟩
      exact ((List.dropWhile_suffix _).trans ((List.suffix_cons c r).trans hsuffix)).isInfix

/-! ## Numbers -/

/-- A number has no letters. -/
theorem not_mem_toDigits {n : Nat} {c : Char} (hc : c.isDigit = false) :
    c ∉ Nat.toDigits 10 n := by
  intro h
  have hdigit : c.isDigit = true := Nat.isDigit_of_mem_toDigits (by decide) (by decide) h
  rw [hc] at hdigit
  cases hdigit

theorem isBlank_of_mem_toDigits {n : Nat} {c : Char} (h : c ∈ Nat.toDigits 10 n) :
    isBlank c = false := by
  have hdigit : c.isDigit = true := Nat.isDigit_of_mem_toDigits (by decide) (by decide) h
  rw [Char.isDigit, Bool.and_eq_true, decide_eq_true_eq, decide_eq_true_eq] at hdigit
  have hrange : 48 ≤ c.toNat ∧ c.toNat ≤ 57 := hdigit
  simp [isBlank, blankRanges]
  omega

end Jil.Text
