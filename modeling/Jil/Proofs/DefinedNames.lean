/-
Jil.Proofs.DefinedNames — the names that assembly text defines.

`definedNames` reads text as an assembler does: a line that does not begin with a
tab and ends with a colon defines what stands in front of the colon. The listing
of a class defines the symbols of its functions, each followed by the labels that
its body places, the symbol of the static members and the labels of the string
constants (`definedNames_text`). No name holds a line feed (`IsName`), and neither
does a quoted text, so no line is cut in two.
-/
import Jil.Assembly.Listing
import Jil.Proofs.StaticBlock

namespace Jil

open Jil.Text

/-! ## Instructions -/

namespace Machine

/-- The symbol that an operand is relative to. -/
def Operand.symbol? : Operand → Option String
  | .rip symbol _ => some symbol
  | _ => none

namespace Instr

/-- The label that an instruction places. -/
def placedLabel? : Instr → Option String
  | .label name => some name
  | _ => none

/-- The label that an instruction may jump to. -/
def jumpTarget? : Instr → Option String
  | .jcc _ target | .jmp target => some target
  | _ => none

/-- The function that an instruction calls. -/
def callee? : Instr → Option String
  | .call symbol => some symbol
  | _ => none

/-- The symbols whose data an instruction uses. -/
def data : Instr → List String
  | .alu _ _ src dest => src.symbol?.toList ++ dest.symbol?.toList
  | .extend _ _ _ src _ | .lea src _ => src.symbol?.toList
  | .neg _ dest | .not _ dest | .shift _ _ dest | .setcc _ dest | .idiv _ dest =>
    dest.symbol?.toList
  | _ => []

/-- The names that are written in an instruction. -/
def names (i : Instr) : List String :=
  i.placedLabel?.toList ++ i.jumpTarget?.toList ++ i.callee?.toList ++ i.data

end Instr

/-- The labels that code places, in order. -/
def placedLabels (code : List Instr) : List String := code.filterMap Instr.placedLabel?

theorem placedLabels_append (code rest : List Instr) :
    placedLabels (code ++ rest) = placedLabels code ++ placedLabels rest :=
  List.filterMap_append

end Machine

namespace Assembly

/-! ## Reading names -/

/-- The name that a line of assembly defines. -/
def definedName? : List Char → Option String
  | '\t' :: _ => none
  | line => (stripEnd? [':'] line).map String.ofList

/-- The names that assembly text defines, in order. -/
def definedNames (text : String) : List String :=
  (pieces '\n' text.toList).filterMap definedName?

/-- A text without line feeds. -/
def OneLine (s : String) : Prop := '\n' ∉ s.toList

instance : DecidablePred OneLine := fun s => inferInstanceAs (Decidable ('\n' ∉ s.toList))

@[simp] theorem oneLine_append {s t : String} : OneLine (s ++ t) ↔ OneLine s ∧ OneLine t := by
  simp [OneLine]

/-- The names that lines define, in order. -/
def namesIn (lines : List String) : List String := lines.filterMap (definedName? ·.toList)

theorem definedNames_lines {lines : List String} (h : ∀ l ∈ lines, OneLine l) :
    definedNames (String.join (lines.map (· ++ "\n"))) = namesIn lines := by
  unfold definedNames namesIn
  induction lines with
  | nil => rfl
  | cons l lines ih =>
    obtain ⟨hl, hlines⟩ := List.forall_mem_cons.1 h
    have htext : (String.join ((l :: lines).map (· ++ "\n"))).toList
        = l.toList ++ '\n' :: (String.join (lines.map (· ++ "\n"))).toList := by simp
    rw [htext, pieces_append hl, List.filterMap_cons, List.filterMap_cons, ih hlines]

@[simp] theorem namesIn_append (lines more : List String) :
    namesIn (lines ++ more) = namesIn lines ++ namesIn more :=
  List.filterMap_append

theorem definedName?_tab {s : List Char} (h : s.head? = some '\t') :
    definedName? s = none := by
  cases s with
  | nil => cases h
  | cons c s =>
    cases h
    rfl

/-- Letters, digits, underlines and full stops. -/
def IsName (s : String) : Prop := ∀ c ∈ s.toList, c.isAlphanum = true ∨ c = '_' ∨ c = '.'

instance : DecidablePred IsName := fun s => List.decidableBAll _ s.toList

theorem IsName.oneLine {s : String} (h : IsName s) : OneLine s := by
  intro hmem
  exact absurd (h _ hmem) (by decide)

theorem IsName.append {s t : String} (hs : IsName s) (ht : IsName t) : IsName (s ++ t) := by
  intro c hc
  rw [String.toList_append, List.mem_append] at hc
  exact hc.elim (hs c) (ht c)

theorem definedName?_colon {name : String} (h : IsName name) :
    definedName? (name ++ ":").toList = some name := by
  have hstrip : stripEnd? [':'] (name ++ ":").toList = some name.toList := by
    rw [String.toList_append]
    exact stripEnd?_append _ _
  unfold definedName?
  split
  · next s hs =>
    have hmem : '\t' ∈ (name ++ ":").toList := by simp [hs]
    rw [String.toList_append, List.mem_append] at hmem
    obtain hmem | hmem := hmem
    · exact absurd (h _ hmem) (by decide)
    · exact absurd hmem (by decide)
  · rw [hstrip, Option.map_some, String.ofList_toList]

/-- A line of its own with a tab in front of it defines nothing. -/
theorem namesIn_tab {line : String} {rest : List String} (h : line.toList.head? = some '\t') :
    namesIn (line :: rest) = namesIn rest := by
  rw [namesIn, List.filterMap_cons, definedName?_tab h]
  rfl

theorem namesIn_colon {name : String} {rest : List String} (h : IsName name) :
    namesIn ((name ++ ":") :: rest) = name :: namesIn rest := by
  rw [namesIn, List.filterMap_cons, definedName?_colon h]
  rfl

theorem namesIn_tabs {lines : List String}
    (h : ∀ line ∈ lines, line.toList.head? = some '\t') :
    namesIn lines = [] := by
  induction lines with
  | nil => rfl
  | cons line lines ih =>
    obtain ⟨hline, hlines⟩ := List.forall_mem_cons.1 h
    rw [namesIn_tab hline, ih hlines]

/-- Lines part by part. -/
theorem namesIn_flatMap {α : Type} {parts : List α} {lines names : α → List String}
    (h : ∀ a ∈ parts, namesIn (lines a) = names a) :
    namesIn (parts.flatMap lines) = parts.flatMap names := by
  induction parts with
  | nil => rfl
  | cons a parts ih =>
    obtain ⟨ha, hparts⟩ := List.forall_mem_cons.1 h
    rw [List.flatMap_cons, List.flatMap_cons, namesIn_append, ha, ih hparts]

/-! ## Lines -/

@[simp] theorem oneLine_nat (n : Nat) : OneLine n.repr := by
  have htext : n.repr.toList = Nat.toDigits 10 n := toList_toString_nat n
  rw [OneLine, htext]
  exact not_mem_toDigits rfl

@[simp] theorem oneLine_int (v : Int) : OneLine v.repr := by
  cases v with
  | ofNat n => exact oneLine_nat n
  | negSucc n =>
    have hminus : OneLine ("-" ++ (n + 1).repr) := oneLine_append.2 ⟨by decide, oneLine_nat _⟩
    exact hminus

@[simp] theorem oneLine_sized (r : Machine.Reg) (s : Machine.Size) : OneLine (r.sized s) := by
  cases r <;> cases s <;> decide

@[simp] theorem oneLine_reg (r : Machine.Reg) : OneLine r.text := oneLine_sized r .quad

@[simp] theorem oneLine_suffix (s : Machine.Size) : OneLine s.suffix := by
  cases s <;> decide

@[simp] theorem oneLine_aluOp (op : Machine.AluOp) : OneLine op.mnemonic := by
  cases op <;> decide

@[simp] theorem oneLine_shiftOp (op : Machine.ShiftOp) : OneLine op.mnemonic := by
  cases op <;> decide

@[simp] theorem oneLine_condition (cond : Machine.Condition) : OneLine cond.code := by
  cases cond <;> decide

theorem oneLine_operand {o : Machine.Operand} (h : ∀ name ∈ o.symbol?, IsName name)
    (s : Machine.Size) : OneLine (o.text s) := by
  cases o with
  | reg r => exact oneLine_sized r s
  | imm v => simp +decide [Machine.Operand.text]
  | mem base disp =>
    simp only [Machine.Operand.text, Machine.Operand.memoryText]
    split <;> simp +decide
  | rip symbol disp =>
    have hsymbol : OneLine symbol := (h symbol rfl).oneLine
    simp only [Machine.Operand.text, Machine.Operand.symbolText, oneLine_append,
      hsymbol, true_and]
    refine ⟨?_, by decide⟩
    split
    · decide
    · split <;> simp +decide

/-- The mnemonic of an extension of the accumulator and of one of a value. -/
@[simp] theorem oneLine_signExtend (size : Machine.Size) :
    OneLine (Machine.Instr.signExtendMnemonic size) := by
  cases size <;> decide

@[simp] theorem oneLine_extend (signed : Bool) :
    OneLine (Machine.Instr.extendMnemonic signed) := by
  cases signed <;> decide

/-- An instruction that is written with names takes one line. -/
theorem oneLine_instr {i : Machine.Instr} (h : ∀ name ∈ i.names, IsName name) :
    OneLine i.text := by
  have hoperand : ∀ {o : Machine.Operand}, (∀ name ∈ o.symbol?, name ∈ i.data) →
      ∀ s, OneLine (o.text s) := fun ho s =>
    oneLine_operand (fun name hname => h name (List.mem_append_right _ (ho name hname))) s
  have hname : ∀ {name : String}, name ∈ i.placedLabel?.toList ++ i.jumpTarget?.toList
      ++ i.callee?.toList → OneLine name :=
      fun hmem => (h _ (List.mem_append_left _ hmem)).oneLine
  cases i with
  | alu op size src dest =>
    have hsrc : OneLine (src.text size) := hoperand (by simp_all [Machine.Instr.data]) size
    have hdest : OneLine (dest.text size) := hoperand (by simp_all [Machine.Instr.data]) size
    simp only [Machine.Instr.text]
    split <;> simp +decide [hsrc, hdest]
  | extend signed narrow wide src dest =>
    have hsrc := hoperand (o := src) (by simp_all [Machine.Instr.data])
    simp only [Machine.Instr.text]
    split <;> simp +decide [hsrc]
  | lea src dest =>
    have hsrc := hoperand (o := src) (by simp_all [Machine.Instr.data])
    simp +decide [Machine.Instr.text, hsrc]
  | neg size dest | not size dest | shift op size dest | setcc cond dest | idiv size dest =>
    have hdest := hoperand (o := dest) (by simp_all [Machine.Instr.data])
    simp +decide [Machine.Instr.text, hdest]
  | jcc cond target | jmp target =>
    have htarget : OneLine target := hname (by simp [Machine.Instr.jumpTarget?])
    simp +decide [Machine.Instr.text, htarget]
  | label name =>
    have hlabel : OneLine name := hname (by simp [Machine.Instr.placedLabel?])
    simp +decide [Machine.Instr.text, hlabel]
  | call symbol =>
    have hsymbol : OneLine symbol := hname (by simp [Machine.Instr.callee?])
    simp +decide [Machine.Instr.text, hsymbol]
  | _ => simp +decide [Machine.Instr.text]

/-- Instructions are indented, labels are not. -/
theorem head?_instr {i : Machine.Instr} (h : i.placedLabel? = none) :
    i.text.toList.head? = some '\t' := by
  cases i with
  | label name => cases h
  | alu op size src dest => simp [Machine.Instr.text]
  | extend signed narrow wide src dest =>
    simp only [Machine.Instr.text]
    split <;> simp
  | _ => simp [Machine.Instr.text]

/-- Of an instruction the label is read that it places. -/
theorem definedName?_instr {i : Machine.Instr} (h : ∀ name ∈ i.names, IsName name) :
    definedName? i.text.toList = i.placedLabel? := by
  cases hplaced : i.placedLabel? with
  | none => exact definedName?_tab (head?_instr hplaced)
  | some name =>
    have hname : IsName name := h name (by simp [Machine.Instr.names, hplaced])
    cases i with
    | label name =>
      cases hplaced
      exact definedName?_colon hname
    | _ => cases hplaced

/-! ## Data -/

/-- A byte is spelled in printable characters. -/
theorem printable_of_mem_escape {b : UInt8} {c : Char} (h : c ∈ Quoted.escape b) :
    ' ' ≤ c ∧ c ≤ '~' := by
  have hdigit : ∀ d < 8, ' ' ≤ digitChar d ∧ digitChar d ≤ '~' := by decide
  have hplain : ∀ n < 127, 32 ≤ n → ' ' ≤ Char.ofNat n ∧ Char.ofNat n ≤ '~' := by decide
  revert h
  fun_cases Quoted.escape b
  case case5 hrange =>
    intro h
    obtain ⟨hlower, hupper⟩ := Bool.and_eq_true_iff.1 hrange
    have hlower' := UInt8.le_iff_toNat_le.1 (of_decide_eq_true hlower)
    have hupper' := UInt8.le_iff_toNat_le.1 (of_decide_eq_true hupper)
    exact List.mem_singleton.1 h ▸ hplain b.toNat (Nat.lt_succ_of_le hupper') hlower'
  case case6 =>
    intro h
    obtain rfl | h := List.mem_cons.1 h
    · decide
    · obtain ⟨d, hd, rfl⟩ := mem_fixedDigits (by decide) h
      exact hdigit d hd
  all_goals
    intro h
    simp only [List.mem_cons, List.not_mem_nil, or_false] at h
    obtain rfl | rfl := h <;> decide

theorem printable_of_mem_quoted {s : String} {c : Char} (h : c ∈ (Quoted.ofText s).toList) :
    ' ' ≤ c ∧ c ≤ '~' := by
  rw [Quoted.ofText, String.toList_ofList, Quoted.encode] at h
  obtain rfl | h := List.mem_cons.1 h
  · decide
  · obtain h | h := List.mem_append.1 h
    · obtain ⟨b, -, h⟩ := List.mem_flatMap.1 h
      exact printable_of_mem_escape h
    · obtain rfl := List.mem_singleton.1 h
      decide

/-- A text between quotes takes one line. -/
theorem oneLine_quoted (s : String) : OneLine (Quoted.ofText s) :=
  fun h => absurd (printable_of_mem_quoted h).1 (by decide)

theorem oneLine_dataItem (d : DataItem) : OneLine d.text := by
  fun_cases DataItem.text d <;> simp +decide

theorem head?_dataItem (d : DataItem) : d.text.toList.head? = some '\t' := by
  fun_cases DataItem.text d <;> simp

/-! ## Functions -/

namespace Function

variable {g : Function}

/-- A function in which every name is one. -/
structure Legible (g : Function) : Prop where
  symbol : IsName g.symbol
  body : ∀ i ∈ g.body, ∀ name ∈ i.names, IsName name

theorem Legible.oneLine_lines (h : g.Legible) : ∀ line ∈ g.lines, OneLine line := by
  have hsymbol := h.symbol.oneLine
  have hbody : ∀ line ∈ g.body.map Machine.Instr.text, OneLine line := by
    rw [List.forall_mem_map]
    exact fun i hi => oneLine_instr (h.body i hi)
  have hmarks : ∀ front back : List String, (∀ line ∈ front, OneLine line) →
      (∀ line ∈ back, OneLine line) → ∀ line ∈ ["\t.globl " ++ g.symbol] ++ front
        ++ [g.symbol ++ ":"] ++ g.body.map Machine.Instr.text ++ back, OneLine line := by
    intro front back hfront hback line hline
    simp only [List.mem_append, List.mem_singleton] at hline
    rcases hline with (((rfl | hline) | rfl) | hline) | hline
    · exact oneLine_append.2 ⟨by decide, hsymbol⟩
    · exact hfront line hline
    · exact oneLine_append.2 ⟨hsymbol, by decide⟩
    · exact hbody line hline
    · exact hback line hline
  unfold lines
  split
  · refine hmarks _ _ (List.forall_mem_singleton.2 ?_) (List.forall_mem_singleton.2 ?_) <;>
      simp +decide [hsymbol]
  · exact hmarks [] [] (List.forall_mem_nil _) (List.forall_mem_nil _)

theorem namesIn_body {code : List Machine.Instr}
    (h : ∀ i ∈ code, ∀ name ∈ i.names, IsName name) :
    namesIn (code.map Machine.Instr.text) = Machine.placedLabels code := by
  induction code with
  | nil => rfl
  | cons i code ih =>
    obtain ⟨hi, hcode⟩ := List.forall_mem_cons.1 h
    have hfirst := definedName?_instr hi
    have hrest := ih hcode
    unfold namesIn Machine.placedLabels at hrest ⊢
    rw [List.map_cons, List.filterMap_cons, List.filterMap_cons, hfirst, hrest]

/-- A function defines its symbol, and then the labels of its body. -/
theorem Legible.namesIn_lines (h : g.Legible) :
    namesIn g.lines = g.symbol :: Machine.placedLabels g.body := by
  have hbody := namesIn_body h.body
  have hnil : namesIn [] = [] := rfl
  unfold lines
  split <;> simp [namesIn_tab, namesIn_colon h.symbol, hbody, hnil]

/-- What the text of a function defines. -/
theorem Legible.definedNames_text (h : g.Legible) :
    definedNames g.text = g.symbol :: Machine.placedLabels g.body := by
  rw [text, definedNames_lines h.oneLine_lines, h.namesIn_lines]

end Function

/-! ## Listings -/

namespace Listing

variable {l : Listing}

/-- A class in whose listing every name is one. -/
structure Legible (l : Listing) : Prop where
  functions : ∀ g ∈ l.functions, g.Legible
  statics : IsName l.staticSymbol
  strings : ∀ s ∈ l.strings, IsName s.1

/-- All lines of a listing. -/
def lines (l : Listing) : List String :=
  "\t.text" :: l.functions.flatMap Function.lines ++ l.dataLines

theorem text_eq (l : Listing) : l.text = String.join (l.lines.map (· ++ "\n")) := by
  have hfunctions : ∀ functions : List Function,
      (String.join (functions.map Function.text)).toList
        = (String.join ((functions.flatMap Function.lines).map (· ++ "\n"))).toList := by
    intro functions
    induction functions with
    | nil => rfl
    | cons g functions ih =>
      simp only [List.map_cons, List.flatMap_cons, List.map_append]
      simp [Function.text, ih]
  rw [← String.toList_inj]
  simp [text, lines, hfunctions]

theorem Legible.oneLine_lines (h : l.Legible) : ∀ line ∈ l.lines, OneLine line := by
  intro line hline
  simp only [lines, dataLines, List.mem_append, List.mem_cons, List.mem_flatMap, List.mem_map,
    List.not_mem_nil, or_false] at hline
  obtain (rfl | ⟨g, hg, hline⟩) | ((rfl | rfl | rfl) | ⟨d, -, rfl⟩) | ⟨s, hs, hline⟩ := hline
  · decide
  · exact (h.functions g hg).oneLine_lines line hline
  · decide
  · decide
  · exact oneLine_append.2 ⟨h.statics.oneLine, by decide⟩
  · exact oneLine_dataItem d
  · simp only [stringLines, List.mem_cons, List.not_mem_nil, or_false] at hline
    obtain rfl | rfl := hline
    · exact oneLine_append.2 ⟨(h.strings s hs).oneLine, by decide⟩
    · exact oneLine_append.2 ⟨by decide, oneLine_quoted _⟩

/-- A listing defines the functions with their labels, the static members and the constants. -/
theorem Legible.definedNames_text (h : l.Legible) :
    definedNames l.text = l.functions.flatMap (fun g =>
      g.symbol :: Machine.placedLabels g.body)
      ++ l.staticSymbol :: l.strings.map Prod.fst := by
  have hfunctions : namesIn (l.functions.flatMap Function.lines)
      = l.functions.flatMap fun g => g.symbol :: Machine.placedLabels g.body :=
    namesIn_flatMap fun g hg => (h.functions g hg).namesIn_lines
  have hstatics : namesIn (l.statics.map DataItem.text) = [] :=
    namesIn_tabs (List.forall_mem_map.2 fun d _ => head?_dataItem d)
  have hstrings : namesIn (l.strings.flatMap stringLines) = l.strings.map Prod.fst := by
    rw [List.map_eq_flatMap]
    refine namesIn_flatMap fun s hs => ?_
    have hquoted : ("\t.asciz " ++ Quoted.ofText s.2).toList.head? = some '\t' := by simp
    rw [stringLines, namesIn_colon (h.strings s hs), namesIn_tab hquoted]
    rfl
  have hsection : ∀ line ∈ ["\t.text", "\t.data", "\t.balign 8"],
      line.toList.head? = some '\t' := by decide
  have hdata : namesIn l.dataLines = l.staticSymbol :: l.strings.map Prod.fst := by
    simp only [dataLines, List.cons_append, List.nil_append]
    rw [namesIn_tab (hsection _ (by simp)), namesIn_tab (hsection _ (by simp)),
      namesIn_colon h.statics, namesIn_append, hstatics, hstrings, List.nil_append]
  rw [text_eq, definedNames_lines h.oneLine_lines, lines, List.cons_append,
    namesIn_tab (hsection _ (by simp)), namesIn_append, hfunctions, hdata]

end Listing

end Assembly

end Jil
