/-
Jil.Proofs.EncodableText — what is compiled can be encoded, but for one kind of literal.

The machine instructions of a compiled function are encodable exactly when its
frame is smaller than 2 gigabytes and none of its statements is a literal of
type `float` with a minus sign (`ClassUnit.encodable_iff_of_compile`). Such a
literal is moved by `movabsl`, which does not exist; a `double` is moved by
`movabsq`.
-/
import Jil.Proofs.Compiling
import Jil.Proofs.EdgeCopies
import Jil.Proofs.RegularCode

namespace Jil

open Machine (Abi fitsLong)
open Pseudo (Instr Reg bind_eq_ok ite_eq_ok)

/-! ## Functions -/

namespace Selection

variable {scope : Scope} {st after : State} {index : Nat} {origin : Origin} {code : List Instr}
  {a : Pseudo.Assignment}

/-- The move of a negative literal of type `float` becomes nothing that can be encoded. -/
theorem not_encodes_of_isNegativeFloat {s : Statement} (hsized : s.Sized scope.types)
    (hnegative : s.isNegativeFloat = true)
    (h : Yields scope (statementCode index s origin) st code after)
    (hexpand : ∀ i ∈ code, ∃ part, i.expand a = .ok part) : ∃ i ∈ code, ¬ i.Encodes a := by
  cases s with
  | literal type value result =>
    cases type with
    | float =>
      obtain ⟨bits, hbits, rfl⟩ := code_of_literal hsized h
      have hwide : fitsLong bits = false := by
        rw [← Bool.not_eq_true, Literal.fitsLong_float_iff hbits]
        simpa [Statement.isNegativeFloat] using hnegative
      obtain ⟨part, hpart⟩ := hexpand _ List.mem_cons_self
      exact ⟨_, List.mem_cons_self, Instr.not_encodes_of_wide hwide (by decide) hpart⟩
    | _ => cases hnegative
  | _ => cases hnegative

variable {u : ClassUnit} {abi : Abi} {position : Nat} {f : Function}
  {strings interned : Assembly.StringTable} {p : Pseudo.Function}

/-- The stream of a checked function becomes what can be encoded, wherever values are kept,
unless there is a negative literal of type `float` in the function. -/
theorem encodes_iff_of_ofFunction (hf : Checked u position f)
    (h : ofFunction u abi position f strings = (.ok p, interned))
    (hexpand : ∀ i ∈ p.code, ∃ part, i.expand a = .ok part) :
    (∀ i ∈ p.code, i.Encodes a) ↔ ∀ s ∈ f.body, s.statement.isNegativeFloat = false := by
  obtain ⟨types, ht⟩ := hf.typed
  obtain ⟨scope, entry, body, state, hscope, hbody, rfl, rfl⟩ := ofFunction_eq_ok h
  obtain ⟨copies, -, rfl, hentry⟩ := scopeOf_eq_ok ht.recorded hscope
  have hsized : ∀ s ∈ f.body, s.statement.Sized types := fun s hs => hf.sized ht.recorded hs
  constructor
  · intro hencodes s hs
    refine Bool.eq_false_iff.2 fun hnegative => ?_
    obtain ⟨pre, post, heq⟩ := List.append_of_mem hs
    rw [heq] at hbody
    obtain ⟨front, before, part, mid, back, -, hpart, -, rfl⟩ := parts_of_bodyCode hbody
    have hmem : ∀ i ∈ part, i ∈ entry.code ++ (front ++ part ++ back)
        ++ [.label (exitLabel position)] := fun i hi => by simp [hi]
    obtain ⟨i, hi, hnot⟩ := not_encodes_of_isNegativeFloat (hsized s hs) hnegative hpart
      fun i hi => hexpand i (hmem i hi)
    exact hnot (hencodes i (hmem i hi))
  · intro hpositive i hi
    have hregular := regular_bodyCode hsized (Entry.size_of_ofFunction hentry) hpositive hbody
    have hall := ((Entry.regular_ofFunction hentry).append hregular).append
      (show Pseudo.Regular [.label (exitLabel position)] from rfl)
    exact Instr.encodes_of_regular (List.all_eq_true.1 hall i hi)

end Selection

/-- A compiled function can be encoded when its frame is not too large and no literal is a
negative number of type `float`. -/
def Function.EncodedAs (f : Function) (g : Assembly.Function) : Prop :=
  (∀ i ∈ g.body, i.Encodable) ↔
    g.allocation.frameSize < 2 ^ 31 ∧ ∀ s ∈ f.body, s.statement.isNegativeFloat = false

/-- Functions are compiled one by one, and what can be encoded of them is known. -/
structure EncodedAll (functions : List Function) (compiled : List Assembly.Function) :
    Prop where
  length : compiled.length = functions.length
  encoded : ∀ p ∈ functions.zip compiled, p.1.EncodedAs p.2

theorem EncodedAll.cons {f : Function} {g : Assembly.Function} {functions : List Function}
    {compiled : List Assembly.Function} (h : f.EncodedAs g)
    (hrest : EncodedAll functions compiled) : EncodedAll (f :: functions) (g :: compiled) where
  length := congrArg (· + 1) hrest.length
  encoded := List.forall_mem_cons.2 ⟨h, hrest.encoded⟩

namespace ClassUnit

variable {u : ClassUnit} {abi : Abi}

theorem encodedAs_of_ofPseudo (habi : abi ∈ Abi.all) {position : Nat} {f : Function}
    (hf : Checked u position f) {strings interned : Assembly.StringTable} {p : Pseudo.Function}
    (hselect : Selection.ofFunction u abi position f strings = (.ok p, interned))
    {g : Assembly.Function} (h : Assembly.Function.ofPseudo abi p = .ok g) :
    f.EncodedAs g := by
  obtain ⟨a, -, hof⟩ := Assembly.Function.ofPseudo_eq_ok h
  obtain ⟨rfl, hexpand⟩ := Assembly.Function.exists_expand_of_ofAllocation hof
  exact (Assembly.Function.encodable_ofAllocation_iff habi hof).trans
    (and_congr_right fun _ => Selection.encodes_iff_of_ofFunction hf hselect hexpand)

/-- The functions of a class, one after the other. -/
theorem encodedAll_of_compileFunctions {session after : Session} (habi : session.abi ∈ Abi.all)
    {position : Nat} {strings : Assembly.StringTable} {functions : List Function}
    (hchecked : ∀ (n : Nat) (f : Function), functions[n]? = some f →
      Checked u (position + n) f)
    {compiled : List Assembly.Function × Assembly.StringTable}
    (h : u.compileFunctions position session strings functions = (after, .ok compiled)) :
    EncodedAll functions compiled.1 := by
  induction functions generalizing position session strings compiled with
  | nil =>
    cases h
    exact ⟨rfl, List.forall_mem_nil _⟩
  | cons f functions ih =>
    obtain ⟨p, interned, g, rest, hselect, hg, hrest, rfl⟩ := compileFunctions_cons h
    refine .cons (encodedAs_of_ofPseudo habi (hchecked 0 f rfl) hselect hg) (ih ?_ ?_ hrest)
    · exact habi
    · intro n f' hf'
      have := hchecked (n + 1) f' hf'
      rwa [show position + (n + 1) = position + 1 + n by omega] at this

/-! ## Classes -/

/-- Every instruction of a compiled class can be encoded where no frame is too large and there
is no negative literal of type `float`, and nowhere else: so it is for every class whose
registers have been drawn, in whatever session it is compiled, and for every text. -/
theorem encodable_iff_of_compile {abi : Abi} (habi : abi ∈ Abi.all) :
    (∀ {source u : ClassUnit} {session after : Session} {listing : Assembly.Listing},
        session.abi = abi → (∀ f ∈ source.functions, f.Drawn) →
        source.compile session = (u, after, .ok listing) →
        EncodedAll u.functions listing.functions)
    ∧ ∀ {text source : String} {compiled : Compiled},
        compileText abi text source = .ok compiled →
        EncodedAll compiled.unit.functions compiled.listing.functions := by
  have hunits : ∀ {source u : ClassUnit} {session after : Session}
      {listing : Assembly.Listing}, session.abi = abi → (∀ f ∈ source.functions, f.Drawn) →
      source.compile session = (u, after, .ok listing) →
      EncodedAll u.functions listing.functions := by
    rintro source u session after listing rfl hdrawn h
    obtain ⟨hcheck, strings, hcompiled, -⟩ := compile_eq_ok h
    exact encodedAll_of_compileFunctions habi (checked_of_check hdrawn hcheck) hcompiled
  refine ⟨hunits, fun {text source compiled} h => ?_⟩
  -- a text gives its registers their numbers as it draws them
  obtain ⟨read, session, hread, hcompile, -⟩ := compileText_eq_ok h
  have hdrawn : ∀ f ∈ read.functions, f.Drawn := fun f hf => (functions_of_read hread f hf).1
  exact hunits rfl hdrawn hcompile

end ClassUnit

/-- A class with constants that need whole registers, and positive ones that do not. -/
def constantsText : String :=
  "function static constants() returns V\n\tliteral J -4294967296 -> %r0;\n"
    ++ "\tliteral D -1.5 -> %r1;\n\tliteral F 1.5 -> %r2;\n\tliteral I -1 -> %r3;\n"
    ++ "\treturn;\nend function\n"

/-- The `double` is moved by an instruction of its own, and everything can be encoded. -/
theorem constants_can_be_encoded :
    Abi.microsoft ∈ Abi.all ∧ ∃ compiled f g read,
      compileText .microsoft constantsText "pkg/Main.jil" = .ok compiled
        ∧ ClassUnit.read constantsText "pkg/Main.jil" = .ok read
        ∧ (∀ f ∈ read.functions, f.Drawn)
        ∧ (∃ session, read.compile { abi := .microsoft }
          = (compiled.unit, session, .ok compiled.listing))
        ∧ EncodedAll compiled.unit.functions compiled.listing.functions
        ∧ compiled.unit.functions = [f] ∧ compiled.listing.functions = [g]
        ∧ .mov .double (.imm (-4613937818241073152)) (.reg .r10) ∈ g.body
        ∧ ∀ i ∈ g.body, i.Encodable := by
  obtain ⟨hread, hplaced⟩ :
      (compileText .microsoft constantsText "pkg/Main.jil").toOption.map (fun compiled =>
          compiled.unit.functions.map (·.body.all fun s => !s.statement.isNegativeFloat))
          = some [true]
        ∧ (compileText .microsoft constantsText "pkg/Main.jil").toOption.map (fun compiled =>
          compiled.listing.functions.map fun g =>
            decide (g.allocation.frameSize < 2 ^ 31
              ∧ .mov .double (.imm (-4613937818241073152)) (.reg .r10) ∈ g.body))
          = some [true] := by
    decide +kernel
  have hmicrosoft : Abi.microsoft ∈ Abi.all := by decide
  cases hcompiled : compileText .microsoft constantsText "pkg/Main.jil" with
  | error e =>
    rw [hcompiled] at hread
    cases hread
  | ok compiled =>
    rw [hcompiled] at hread hplaced
    obtain ⟨f, hf, hpositive⟩ := List.map_eq_singleton_iff.1 (Option.some.inj hread)
    obtain ⟨g, hg, hg'⟩ := List.map_eq_singleton_iff.1 (Option.some.inj hplaced)
    obtain ⟨hframe, hmove⟩ := of_decide_eq_true hg'
    obtain ⟨read, session, hreads, hcompile, -⟩ := compileText_eq_ok hcompiled
    have hdrawn : ∀ f ∈ read.functions, f.Drawn := fun f hf =>
      (ClassUnit.functions_of_read hreads f hf).1
    obtain ⟨hunits, -⟩ := ClassUnit.encodable_iff_of_compile hmicrosoft
    have hencoded := hunits rfl hdrawn hcompile
    refine ⟨hmicrosoft, compiled, f, g, read, rfl, hreads, hdrawn, ⟨session, hcompile⟩,
      hencoded, hf, hg, hmove, ?_⟩
    have hpair : f.EncodedAs g :=
      hencoded.encoded (f, g) (by rw [hf, hg]; exact List.mem_cons_self)
    refine hpair.2 ⟨hframe, fun s hs => ?_⟩
    simpa using List.all_eq_true.1 hpositive s hs

/-- A class with a negative constant of type `float`. -/
def negativeText : String :=
  "function static negative() returns V\n\tliteral F -1.0 -> %r0;\n\treturn;\nend function\n"

/-- It is compiled to a move that does not exist. -/
theorem negative_constant_has_no_encoding :
    ∃ compiled, compileText .systemV negativeText "pkg/Main.jil" = .ok compiled
      ∧ ∃ g ∈ compiled.listing.functions, ∃ i ∈ g.body,
        i.text = "\tmovabsl $3212836864, %r10d" ∧ ¬ i.Encodable := by
  have hmoved :
      (compileText .systemV negativeText "pkg/Main.jil").toOption.map (fun compiled =>
      compiled.listing.functions.map fun g =>
        decide (.mov .single (.imm 3212836864) (.reg .r10) ∈ g.body)) = some [true] := by
    decide +kernel
  cases hcompiled : compileText .systemV negativeText "pkg/Main.jil" with
  | error e =>
    rw [hcompiled] at hmoved
    cases hmoved
  | ok compiled =>
    rw [hcompiled] at hmoved
    obtain ⟨g, hg, hmove⟩ := List.map_eq_singleton_iff.1 (Option.some.inj hmoved)
    have hmem : g ∈ compiled.listing.functions := by simp [hg]
    refine ⟨compiled, rfl, g, hmem, _, of_decide_eq_true hmove, by decide +kernel, ?_⟩
    exact Machine.Instr.not_encodable_mov_imm rfl (by decide)

end Jil
