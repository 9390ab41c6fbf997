/-
Jil.Proofs.QuotedConstants — string constants survive quoting.

An assembler reads a constant byte by byte: a backslash and what it spells, or a
byte that stands for itself, up to the closing quote (`constant?`). Quoting puts an
escape of its own in front of every byte that would be read otherwise. So each byte
is read back on its own (`byte?_escape`), whatever is behind it: an octal escape has
three digits, and no more than three are read, so a digit that follows it is not
taken for a part of it. The bytes of a text come back in the end
(`constant?_ofText`), and texts that differ have different constants.
-/
import Jil.Proofs.Compiled
import Jil.Proofs.NameFamilies
import Jil.Proofs.ServiceCounts

namespace Jil

/-! ## Bytes -/

/-- The bytes of a byte array, one after the other. -/
theorem toList_byteArray (bytes : ByteArray) : bytes.toList = bytes.data.toList := by
  have hloop : ∀ (i : Nat) (front : List UInt8),
      ByteArray.toList.loop bytes i front = front.reverse ++ bytes.data.toList.drop i := by
    intro i front
    induction i, front using ByteArray.toList.loop.induct bytes with
    | case1 i front hlt ih =>
      have hi : i < bytes.data.toList.length := by simpa using hlt
      have hget : bytes.get! i = bytes.data.toList[i] := by
        simp only [ByteArray.get!, Array.getElem_toList]
        exact getElem!_pos bytes.data i (by simpa using hlt)
      rw [ByteArray.toList.loop, if_pos hlt, ih, List.drop_eq_getElem_cons hi, hget]
      simp
    | case2 i front hge =>
      have hi : bytes.data.toList.length ≤ i := by simpa using hge
      rw [ByteArray.toList.loop, if_neg hge, List.drop_eq_nil_of_le hi, List.append_nil]
  exact hloop 0 []

namespace Assembly.Quoted

open Text (digitChar fixedDigits)

/-- ASCII characters as bytes. -/
def ascii (text : List Char) : List UInt8 := text.map fun c => UInt8.ofNat c.toNat

theorem ascii_append (text rest : List Char) :
    ascii (text ++ rest) = ascii text ++ ascii rest :=
  List.map_append

/-- The encoding of ASCII text has a byte for each character. -/
theorem utf8_ofList {text : List Char} (h : ∀ c ∈ text, c ≤ '~') :
    (String.ofList text).toUTF8.toList = ascii text := by
  have hone : ∀ c ∈ text, String.utf8EncodeChar c = [UInt8.ofNat c.toNat] := fun c hc => by
    have hle : c.toNat ≤ 126 := h c hc
    have hle' : c.val.toNat ≤ 127 := by
      have : c.val.toNat = c.toNat := rfl
      omega
    simp only [String.utf8EncodeChar, hle', if_true]
    rfl
  have hall : text.flatMap String.utf8EncodeChar = ascii text := by
    rw [ascii, List.map_eq_flatMap, List.flatMap_def, List.flatMap_def]
    exact congrArg List.flatten (List.map_congr_left hone)
  rw [String.toUTF8, toList_byteArray, String.toByteArray_ofList, List.utf8Encode,
    List.data_toByteArray, hall]

/-! ## How an assembler reads a constant

Among bytes a quote is 34 and a backslash 92. -/

/-- The value of an octal digit. -/
def octal? (b : UInt8) : Option Nat := if 48 ≤ b && b ≤ 55 then some (b.toNat - 48) else none

/-- A number continued by at most `count` octal digits, and what follows them. -/
def octals : Nat → Nat → List UInt8 → Nat × List UInt8
  | 0, value, text => (value, text)
  | _ + 1, value, [] => (value, [])
  | count + 1, value, b :: rest =>
    match octal? b with
    | some d => octals count (value * 8 + d) rest
    | none => (value, b :: rest)

/-- The byte that a character behind a backslash stands for, digits excepted. -/
def single? (b : UInt8) : Option UInt8 :=
  if b = 34 then some 34
  else if b = 92 then some 92
  else if b = 110 then some 10
  else if b = 116 then some 9
  else none

/-- The byte that is spelled behind a backslash, and what follows. -/
def escaped? : List UInt8 → Option (UInt8 × List UInt8)
  | [] => none
  | b :: rest =>
    match single? b, octal? b with
    | some value, _ => some (value, rest)
    | none, some d =>
      let (value, behind) := octals 2 d rest
      some (UInt8.ofNat value, behind)
    | none, none => none

/-- The byte that is spelled at the beginning of a text, and what follows. -/
def byte? : List UInt8 → Option (UInt8 × List UInt8)
  | [] => none
  | b :: rest => if b = 92 then escaped? rest else some (b, rest)

theorem length_octals_le (count value : Nat) (text : List UInt8) :
    (octals count value text).2.length ≤ text.length := by
  fun_induction octals count value text with
  | case1 | case2 | case4 => exact Nat.le_refl _
  | case3 count value b rest d hd ih => exact Nat.le_succ_of_le ih

/-- Something is read. -/
theorem length_lt_of_byte? {text rest : List UInt8} {b : UInt8}
    (h : byte? text = some (b, rest)) :
    rest.length < text.length := by
  cases text with
  | nil => cases h
  | cons first text =>
    rw [byte?] at h
    split at h
    · revert h
      fun_cases escaped? text with
      | case1 | case4 => nofun
      | case2 c text value hvalue =>
        intro h
        cases h
        simp only [List.length_cons]
        omega
      | case3 c text d hsingle hd value behind hoctals =>
        intro h
        cases h
        have hle := length_octals_le 2 d text
        rw [hoctals] at hle
        exact Nat.lt_succ_of_lt (Nat.lt_succ_of_le hle)
    · cases h
      exact Nat.lt_succ_self _

/-- The bytes of a constant up to its closing quote, and what follows. -/
def contents? (text : List UInt8) : Option (List UInt8 × List UInt8) :=
  match text with
  | [] => none
  | b :: rest =>
    if b = 34 then some ([], rest)
    else
      match _hbyte : byte? (b :: rest) with
      | none => none
      | some (value, behind) =>
        (contents? behind).map fun (values, behind) => (value :: values, behind)
termination_by text.length
decreasing_by exact length_lt_of_byte? (by assumption)

/-- The bytes of the constant at the beginning of a text, and what follows. -/
def constant? : List UInt8 → Option (List UInt8 × List UInt8)
  | [] => none
  | b :: rest => if b = 34 then contents? rest else none

/-! ## Reading a byte back -/

/-- An octal digit is read as its value. -/
theorem octal?_digitChar {d : Nat} (hd : d < 8) :
    octal? (UInt8.ofNat (digitChar d).toNat) = some d := by
  have hall : ∀ d < 8, octal? (UInt8.ofNat (digitChar d).toNat) = some d := by decide
  exact hall d hd

/-- A digit behind a backslash stands for no byte of its own. -/
theorem single?_digitChar {d : Nat} (hd : d < 8) :
    single? (UInt8.ofNat (digitChar d).toNat) = none := by
  have hall : ∀ d < 8, single? (UInt8.ofNat (digitChar d).toNat) = none := by decide
  exact hall d hd

/-- Three octal digits spell a byte; a fourth one would stand for itself. -/
theorem escaped?_fixedDigits (b : UInt8) (rest : List UInt8) :
    escaped? (ascii (fixedDigits 8 3 b.toNat) ++ rest) = some (b, rest) := by
  have hb := b.toNat_lt
  have hdigits : fixedDigits 8 3 b.toNat = [digitChar (b.toNat / 8 / 8 % 8),
      digitChar (b.toNat / 8 % 8), digitChar (b.toNat % 8)] := rfl
  have hvalue : (b.toNat / 8 / 8 % 8 * 8 + b.toNat / 8 % 8) * 8 + b.toNat % 8 = b.toNat := by
    omega
  have hlt : ∀ n, n % 8 < 8 := fun n => Nat.mod_lt n (by decide)
  rw [hdigits]
  simp only [ascii, List.map_cons, List.map_nil, List.cons_append, List.nil_append, escaped?,
    octals, single?_digitChar (hlt _), octal?_digitChar (hlt _), hvalue, UInt8.ofNat_toNat]

/-- A byte is read back from its spelling, whatever is behind it, and no spelling begins with a
quote. -/
theorem exists_escape (b : UInt8) :
    ∃ first text, ascii (escape b) = first :: text ∧ first ≠ 34
      ∧ ∀ rest, byte? (first :: (text ++ rest)) = some (b, rest) := by
  have hbackslash : (92 : UInt8) ≠ 34 := by decide
  fun_cases escape b with
  | case1 hb =>
    subst hb
    exact ⟨92, [34], rfl, hbackslash, fun _ => rfl⟩
  | case2 _ hb =>
    subst hb
    exact ⟨92, [92], rfl, hbackslash, fun _ => rfl⟩
  | case3 _ _ hb =>
    subst hb
    exact ⟨92, [110], rfl, hbackslash, fun _ => rfl⟩
  | case4 _ _ _ hb =>
    subst hb
    exact ⟨92, [116], rfl, hbackslash, fun _ => rfl⟩
  | case5 hquote hplain _ _ hrange =>
    have hupper :=
      UInt8.le_iff_toNat_le.1 (of_decide_eq_true (Bool.and_eq_true_iff.1 hrange).2)
    have hcode : ∀ n < 127, (Char.ofNat n).toNat = n := by decide
    have hascii : ascii [Char.ofNat b.toNat] = [b] := by
      rw [ascii, List.map_singleton, hcode b.toNat (Nat.lt_succ_of_le hupper),
        UInt8.ofNat_toNat]
    exact ⟨b, [], hascii, hquote, fun rest => by simp [byte?, hplain]⟩
  | case6 =>
    exact ⟨92, ascii (fixedDigits 8 3 b.toNat), rfl, hbackslash, escaped?_fixedDigits b⟩

/-! ## Reading a constant back -/

theorem contents?_of_byte? {first b : UInt8} {text rest : List UInt8} (hfirst : first ≠ 34)
    (hb : byte? (first :: text) = some (b, rest)) :
    contents? (first :: text) = (contents? rest).map fun (values, behind) =>
    (b :: values, behind) := by
  rw [contents?, if_neg hfirst]
  split
  · next hnone =>
    rw [hb] at hnone
    cases hnone
  · next value behind hsome =>
    rw [hb] at hsome
    cases hsome
    rfl

/-- Bytes are read back up to the closing quote. -/
theorem contents?_escapes (bytes behind : List UInt8) :
    contents? (ascii (bytes.flatMap escape) ++ 34 :: behind) = some (bytes, behind) := by
  induction bytes with
  | nil =>
    rw [List.flatMap_nil, ascii, List.map_nil, List.nil_append, contents?]
    rfl
  | cons b bytes ih =>
    obtain ⟨first, text, hspelled, hfirst, hread⟩ := exists_escape b
    rw [List.flatMap_cons, ascii_append, hspelled, List.append_assoc, List.cons_append,
      contents?_of_byte? hfirst (hread _), ih]
    rfl

/-- A text is read back from its quoted form. -/
theorem constant?_ofText (s : String) (behind : List UInt8) :
    constant? ((ofText s).toUTF8.toList ++ behind) = some (s.toUTF8.toList, behind) := by
  have hascii : ∀ c ∈ encode s.toUTF8.toList, c ≤ '~' := fun c hc =>
    (printable_of_mem_quoted (s := s) (by rwa [ofText, String.toList_ofList])).2
  have hquoted : ascii (encode s.toUTF8.toList) ++ behind
      = 34 :: (ascii (s.toUTF8.toList.flatMap escape) ++ 34 :: behind) := by
    rw [encode, ascii, List.map_cons, List.map_append]
    simp only [List.cons_append, List.append_assoc]
    rfl
  rw [ofText, utf8_ofList hascii, hquoted, constant?, if_pos rfl, contents?_escapes]

/-- Texts are told apart by their quoted forms. -/
theorem ofText_inj {s t : String} (h : ofText s = ofText t) : s = t := by
  have hs := constant?_ofText s []
  rw [h, constant?_ofText t []] at hs
  have hbytes : t.toUTF8.toList = s.toUTF8.toList := congrArg Prod.fst (Option.some.inj hs)
  rw [toList_byteArray, toList_byteArray] at hbytes
  exact (String.toByteArray_inj.1 (ByteArray.ext (Array.toList_inj.1 hbytes))).symm

/-! ## The spelling of a constant -/

/-- Texts in which quotes and backslashes stand in escapes only. -/
inductive Escaped : List Char → Prop
  | nil : Escaped []
  | plain {c : Char} {rest : List Char} (hquote : c ≠ '"') (hbackslash : c ≠ '\\')
      (h : Escaped rest) : Escaped (c :: rest)
  | escape {c : Char} {rest : List Char} (hc : c ∈ "\"\\nt01234567".toList)
      (h : Escaped rest) :
      Escaped ('\\' :: c :: rest)

namespace Escaped

variable {rest : List Char}

theorem of_plain {text : List Char} (htext : ∀ c ∈ text, c ≠ '"' ∧ c ≠ '\\')
    (h : Escaped rest) :
    Escaped (text ++ rest) := by
  induction text with
  | nil => exact h
  | cons c text ih =>
    obtain ⟨⟨hquote, hbackslash⟩, htext⟩ := List.forall_mem_cons.1 htext
    exact .plain hquote hbackslash (ih htext)

/-- Three octal digits behind a backslash: the first is escaped, the others are plain. -/
theorem octal (h : Escaped rest) (n : Nat) : Escaped ('\\' :: fixedDigits 8 3 n ++ rest) := by
  have hfirst : ∀ d < 8, digitChar d ∈ "\"\\nt01234567".toList := by decide
  have hplain : ∀ d < 8, digitChar d ≠ '"' ∧ digitChar d ≠ '\\' := by decide
  have hlt : ∀ n, n % 8 < 8 := fun n => Nat.mod_lt n (by decide)
  have hdigits : fixedDigits 8 3 n = digitChar (n / 8 / 8 % 8) :: fixedDigits 8 2 n := rfl
  rw [hdigits]
  refine .escape (hfirst _ (hlt _)) (h.of_plain fun c hc => ?_)
  obtain ⟨d, hd, rfl⟩ := Text.mem_fixedDigits (by decide) hc
  exact hplain d hd

/-- A byte is spelled with an escape only where it needs one. -/
theorem byte (h : Escaped rest) (b : UInt8) : Escaped (Quoted.escape b ++ rest) := by
  fun_cases Quoted.escape b with
  | case1 | case2 | case3 | case4 => exact .escape (by decide) h
  | case5 hquote hplain _ _ hrange =>
    have hupper :=
      UInt8.le_iff_toNat_le.1 (of_decide_eq_true (Bool.and_eq_true_iff.1 hrange).2)
    have hcode : ∀ n < 127, Char.ofNat n = '"' → n = 34 := by decide
    have hcode' : ∀ n < 127, Char.ofNat n = '\\' → n = 92 := by decide
    have hlt := Nat.lt_succ_of_le hupper
    refine .plain (fun heq => hquote ?_) (fun heq => hplain ?_) h
    · exact UInt8.toNat_inj.1 (hcode _ hlt heq)
    · exact UInt8.toNat_inj.1 (hcode' _ hlt heq)
  | case6 => exact h.octal b.toNat

theorem bytes (bytes : List UInt8) : Escaped (bytes.flatMap Quoted.escape) := by
  induction bytes with
  | nil => exact .nil
  | cons b bytes ih => exact ih.byte b

end Escaped

end Assembly.Quoted

/-! ## Constants of a class -/

open Assembly (Quoted.ofText Quoted.constant? Quoted.Escaped StringTable)

/-- The constants of a table, in order. -/
theorem Assembly.StringTable.map_snd_entries (t : StringTable) :
    t.entries.map Prod.snd = t.texts :=
  List.ext_getElem (by simp [entries]) fun n _ _ => by simp [entries]

/-- Functions that are compiled one after the other never ask for a text twice. -/
theorem ClassUnit.nodup_texts_of_compileFunctions {u : ClassUnit} {session after : Session}
    {position : Nat} {strings : StringTable} {functions : List Function}
    {compiled : List Assembly.Function × StringTable}
    (h : u.compileFunctions position session strings functions = (after, .ok compiled))
    (hstrings : strings.texts.Nodup) : compiled.2.texts.Nodup := by
  induction functions generalizing position session strings compiled with
  | nil =>
    cases h
    exact hstrings
  | cons f functions ih =>
    obtain ⟨p, interned, g, rest, hselect, -, hrest, rfl⟩ := compileFunctions_cons h
    show rest.2.texts.Nodup
    exact ih hrest ((Selection.tallies_ofFunction hselect).2 hstrings)

/-- A class with two constants: a line feed, and the two characters that a line feed is written
with. -/
def feedText : String :=
  "function static say() returns V\n\tstring \"\\n\" -> %r0;\n\tstring \"\\\\n\" -> %r1;\n"
    ++ "\treturn;\nend function\n"

end Jil
