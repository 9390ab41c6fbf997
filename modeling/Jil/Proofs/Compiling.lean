/-
Jil.Proofs.Compiling — what a check leaves for the compiler to refuse.

A class that passes its check is compiled, or it holds a construct for which
there is no code, or the allocator refuses the stream of a function. One case
escapes the check: a call of a method of an object that names none, in a
function that has none. It is reported by the compiler, as an undefined
receiver, and such a class is never compiled (`outcome_of_checkText`).
`checked_without_receiver` is the smallest class of this kind.
-/
import Jil.Proofs.Allocated
import Jil.Proofs.Compiled
import Jil.Proofs.Refusals

namespace Jil

open Jil.Machine (Abi)
open Pseudo (bind_eq_ok)

/-- A function whose values have locations is written out; only the allocator refuses
streams. -/
theorem Assembly.Function.failsOnly_ofPseudo {abi : Abi} (habi : abi ∈ Abi.all)
    (p : Pseudo.Function) :
    FailsOnly (fun e => ∃ reason, e = .reported (.registerAllocation reason))
      (Assembly.Function.ofPseudo abi p) := by
  unfold ofPseudo
  split
  · next a halloc =>
    have hplaced : ∀ i ∈ p.code, ∃ part, place abi a p.exitLabel i = .ok part := fun i hi => by
      obtain ⟨part, hpart⟩ := Pseudo.exists_expand fun _ ht =>
        Pseudo.exists_location habi halloc hi ht
      exact ⟨_, by unfold place; rw [hpart]; rfl⟩
    unfold ofAllocation
    cases hparts : p.code.mapM (place abi a p.exitLabel) with
    | ok parts => exact .ok _
    | error fault =>
      obtain ⟨i, hi, hfault⟩ := exists_of_mapM_eq_error hparts
      obtain ⟨part, hpart⟩ := hplaced i hi
      rw [hpart] at hfault
      cases hfault
  · next reason _ => exact .error ⟨reason, rfl⟩

/-! ## Static members -/

namespace Structure

/-- Members that pass their check have bits to start with. -/
theorem exists_defaultBits {s : Structure} (h : s.checkDefaults = .ok ()) :
    ∀ m ∈ s.members, ∃ bits, m.defaultBits = .ok bits := by
  unfold checkDefaults at h
  revert h
  generalize s.members = members
  intro h
  induction members with
  | nil => nofun
  | cons m members ih =>
    obtain ⟨⟨⟩, hm, h⟩ := bind_eq_ok.1 h
    obtain ⟨bits, hbits, -⟩ := bind_eq_ok.1 hm
    intro m' hm'
    rcases List.mem_cons.1 hm' with rfl | hm'
    · exact ⟨bits, hbits⟩
    · exact ih h m' hm'

/-- The data of members that pass their check. -/
theorem exists_data {s : Structure} (h : s.checkDefaults = .ok ()) :
    ∃ items, s.data = .ok items := by
  have hplaced : ∀ (placed : List (Member × Nat)) (offset : Nat),
      (∀ e ∈ placed, ∃ bits, e.1.defaultBits = .ok bits) →
      ∃ items, dataFrom offset placed = .ok items := by
    intro placed
    induction placed with
    | nil => exact fun offset _ => ⟨[], rfl⟩
    | cons e placed ih =>
      intro offset hall
      obtain ⟨bits, hbits⟩ := hall e List.mem_cons_self
      obtain ⟨items, hitems⟩ := ih (e.2 + e.1.type.size) fun e' he' =>
        hall e' (List.mem_cons_of_mem _ he')
      exact ⟨_, by rw [dataFrom, hbits, hitems]; rfl⟩
  obtain ⟨items, hitems⟩ := hplaced s.layout dispatchSlotSize fun e he =>
    exists_defaultBits h e.1 (by
      rw [← map_fst_layoutFrom dispatchSlotSize s.members]
      exact List.mem_map_of_mem he)
  exact ⟨_, by rw [data, hitems]; rfl⟩

end Structure

/-! ## Units -/

/-- What may stop the compilation of a class that passed its check. -/
inductive ClassUnit.Stops (u : ClassUnit) : Failure → Prop
  | unsupported (what : Construct) (origin : Option Origin) :
    Stops u (.reported (.unsupported what origin))
  | allocation (reason : AllocationFailure) : Stops u (.reported (.registerAllocation reason))
  | receiver {f : Function} {s : Located} (hf : f ∈ u.functions) (hs : s ∈ f.body)
      (h : s.statement.lacksReceiver u f = true) (owner method : String) :
      Stops u (.undefined (.receiver owner method) s.origin)

namespace ClassUnit

variable {u : ClassUnit} {abi : Abi}

theorem Stops.of_isUnsupported {e : Failure} (h : e.IsUnsupported) : u.Stops e := by
  unfold Failure.IsUnsupported at h
  split at h
  · exact .unsupported _ _
  · exact h.elim

theorem Stops.of_refusal {f : Function} (hf : f ∈ u.functions) {s : Located} (hs : s ∈ f.body)
    {e : Failure} (h : Selection.Refusal u f s e) : u.Stops e := by
  cases h with
  | unsupported h => exact .of_isUnsupported h
  | receiver hcall h => exact .receiver hf hs h _ _

/-- What stops the compilation of functions of a checked class. -/
theorem failsOnly_compileFunctions {session : Session} (habi : session.abi ∈ Abi.all)
    {position : Nat} (strings : Assembly.StringTable) {functions : List Function}
    (hchecked : ∀ (n : Nat) (f : Function), functions[n]? = some f →
      Checked u (position + n) f) :
    FailsOnly u.Stops (u.compileFunctions position session strings functions).2 := by
  induction functions generalizing position session strings with
  | nil => exact .ok _
  | cons f functions ih =>
    have hf : Checked u position f := hchecked 0 f rfl
    have hmem : f ∈ u.functions := by
      obtain ⟨_, -, -, hf⟩ := hf
      exact List.mem_of_getElem? hf
    have hselected :
        FailsOnly u.Stops (Selection.ofFunction u session.abi position f strings).1 :=
      (Selection.failsOnly_ofFunction habi hf strings).mono fun e he => by
        rcases he with he | ⟨s, hs, he⟩
        · exact .of_isUnsupported he
        · exact .of_refusal hmem hs he
    have hplaced : ∀ p, FailsOnly u.Stops (Assembly.Function.ofPseudo session.abi p) := by
      refine fun p => (Assembly.Function.failsOnly_ofPseudo habi p).mono fun e he => ?_
      obtain ⟨reason, rfl⟩ := he
      exact .allocation reason
    have hcompiled : FailsOnly u.Stops (do
        let p ← (Selection.ofFunction u session.abi position f strings).1
        let g ← Assembly.Function.ofPseudo session.abi p
        pure (g, p.serviceCalls)) :=
      .bind hselected fun p _ => .bind (hplaced p) fun _ _ => .ok _
    simp only [compileFunctions]
    split
    · next e he => exact .error (hcompiled e he)
    · refine .map _ (ih ?_ _ fun n g hg => ?_)
      · exact habi
      · have := hchecked (n + 1) g hg
        rwa [show position + (n + 1) = position + 1 + n by omega] at this

/-- In a class that is compiled no call lacks an object. -/
theorem lacksReceiver_of_compileFunctions {session after : Session} {position : Nat}
    {strings : Assembly.StringTable} {functions : List Function}
    (hchecked : ∀ (n : Nat) (f : Function), functions[n]? = some f →
      Checked u (position + n) f)
    {compiled : List Assembly.Function × Assembly.StringTable}
    (h : u.compileFunctions position session strings functions = (after, .ok compiled)) :
    ∀ f ∈ functions, ∀ s ∈ f.body, s.statement.lacksReceiver u f = false := by
  induction functions generalizing position session strings compiled with
  | nil => nofun
  | cons f functions ih =>
    obtain ⟨p, interned, g, rest, hselect, -, hrest, rfl⟩ := compileFunctions_cons h
    intro f' hf'
    rcases List.mem_cons.1 hf' with rfl | hf'
    · exact Selection.lacksReceiver_of_ofFunction (hchecked 0 f' rfl) hselect
    · refine ih (fun n g' hg' => ?_) hrest f' hf'
      have := hchecked (n + 1) g' hg'
      rwa [show position + (n + 1) = position + 1 + n by omega] at this

/-- The functions of a class that passed its check have passed theirs. -/
theorem checked_of_check {source : ClassUnit} (hdrawn : ∀ g ∈ source.functions, g.Drawn)
    (h : source.check = (u, .ok ())) (n : Nat) (f : Function) (hf : u.functions[n]? = some f) :
    Checked u (0 + n) f := by
  rw [Nat.zero_add]
  exact ⟨source, h, hdrawn, hf⟩

/-- What comes of compiling a class that passed its check. -/
theorem outcome_of_check {source : ClassUnit} (hdrawn : ∀ g ∈ source.functions, g.Drawn)
    (hcheck : source.check = (u, .ok ())) (habi : abi ∈ Abi.all) :
    FailsOnly u.Stops (source.compile { abi := abi }).2.2
      ∧ ∀ listing, (source.compile { abi := abi }).2.2 = .ok listing →
        ∀ f ∈ u.functions, ∀ s ∈ f.body, s.statement.lacksReceiver u f = false := by
  have hchecked := checked_of_check hdrawn hcheck
  obtain ⟨hdefaults, hsource, -, -⟩ := check_eq_ok hcheck
  have hstatics : u.statics.checkDefaults = .ok () := by
    have hsame := congrArg ClassUnit.statics hsource
    obtain ⟨⟨⟩, hpassed, -⟩ := bind_eq_ok.1 hdefaults
    exact (congrArg Structure.checkDefaults hsame).trans hpassed
  obtain ⟨items, hitems⟩ := Structure.exists_data hstatics
  unfold ClassUnit.compile
  rw [hcheck]
  simp only
  constructor
  · refine .bind (failsOnly_compileFunctions habi _ hchecked) fun compiled _ => ?_
    refine .liftReported ?_
    unfold listing
    rw [hitems]
    exact .ok _
  · intro listing hok
    obtain ⟨compiled, hcompiled, -⟩ := bind_eq_ok.1 hok
    exact lacksReceiver_of_compileFunctions hchecked (Prod.ext rfl hcompiled)

end ClassUnit

/-! ## Texts -/

/-- Whether something goes wrong in compiling a text is decided by its check and by what the
check leaves to the compiler. -/
theorem compileText_of_checkText {abi : Abi} (habi : abi ∈ Abi.all) {text source : String}
    {u : ClassUnit} (h : checkText text source = .ok u) :
    FailsOnly u.Stops (compileText abi text source)
      ∧ ((∃ compiled, compileText abi text source = .ok compiled) →
        ∀ f ∈ u.functions, ∀ s ∈ f.body, s.statement.lacksReceiver u f = false) := by
  obtain ⟨read, hread, h⟩ := bind_eq_ok.1 h
  obtain ⟨⟨⟩, hpassed, h⟩ := bind_eq_ok.1 h
  have hcheck : read.check = (u, .ok ()) := Prod.ext (Except.ok.inj h) hpassed
  obtain ⟨hstops, hreceivers⟩ :=
    ClassUnit.outcome_of_check
      (fun g hg => (ClassUnit.functions_of_read (liftReported_eq_ok.1 hread) g hg).1)
        hcheck habi
  have hcompile : compileText abi text source
      = (read.compile { abi := abi }).2.2 >>= fun listing =>
        pure ⟨(read.compile { abi := abi }).1, listing,
          (read.compile { abi := abi }).2.1.statistics⟩ := by
    unfold compileText
    rw [hread]
    rfl
  rw [hcompile]
  constructor
  · exact .bind hstops fun _ _ => .ok _
  · rintro ⟨compiled, hok⟩
    obtain ⟨listing, hlisting, -⟩ := bind_eq_ok.1 hok
    exact hreceivers listing hlisting

/-- A class that passes its check is compiled, unless it holds a construct for which there is
no code, or the allocator refuses a stream, or a call lacks an object; and a class in which a
call lacks an object is never compiled. -/
theorem outcome_of_checkText {abi : Abi} (habi : abi ∈ Abi.all) {text source : String}
    {u : ClassUnit} (h : checkText text source = .ok u) :
    ((∃ compiled, compileText abi text source = .ok compiled)
        ∧ ∀ f ∈ u.functions, ∀ s ∈ f.body, s.statement.lacksReceiver u f = false)
      ∨ (∃ what origin, compileText abi text source
        = .error (.reported (.unsupported what origin)))
      ∨ (∃ reason, compileText abi text source
        = .error (.reported (.registerAllocation reason)))
      ∨ ∃ f ∈ u.functions, ∃ s ∈ f.body, s.statement.lacksReceiver u f = true
        ∧ ∃ owner method, compileText abi text source
          = .error (.undefined (.receiver owner method) s.origin) := by
  obtain ⟨hstops, hreceivers⟩ := compileText_of_checkText habi h
  cases hcompiled : compileText abi text source with
  | ok compiled => exact .inl ⟨⟨compiled, rfl⟩, hreceivers ⟨compiled, hcompiled⟩⟩
  | error e =>
    right
    cases hstops e hcompiled with
    | unsupported what origin => exact .inl ⟨what, origin, rfl⟩
    | allocation reason => exact .inr (.inl ⟨reason, rfl⟩)
    | receiver hf hs hlacks owner method =>
      exact .inr (.inr ⟨_, hf, _, hs, hlacks, owner, method, rfl⟩)

/-- A class with a method that calls itself, on its own object. -/
def greetingText : String :=
  "function instance greet() returns V\n\tcallActual pkg/Main.greet();\n\treturn;\n"
    ++ "end function\n"

theorem greeting_compiles :
    ∃ u, checkText greetingText "pkg/Main.jil" = .ok u
      ∧ (∃ compiled, compileText .systemV greetingText "pkg/Main.jil" = .ok compiled)
      ∧ ∀ f ∈ u.functions, ∀ s ∈ f.body, s.statement.lacksReceiver u f = false := by
  obtain ⟨hchecked, hcompiled⟩ : (checkText greetingText "pkg/Main.jil").toOption.isSome = true
      ∧ (compileText .systemV greetingText "pkg/Main.jil").toOption.isSome = true := by
    decide +kernel
  cases hu : checkText greetingText "pkg/Main.jil" with
  | error e =>
    rw [hu] at hchecked
    cases hchecked
  | ok u =>
    refine ⟨u, rfl, ?_⟩
    have hsystemV : Abi.systemV ∈ Abi.all := by decide
    rcases outcome_of_checkText hsystemV hu with
      h | ⟨_, _, h⟩ | ⟨_, h⟩ | ⟨_, _, _, _, _, _, _, h⟩
    · exact h
    all_goals
      rw [h] at hcompiled
      cases hcompiled

/-- The failure of an activity, if it fails. -/
def failure? {ε α : Type} : Except ε α → Option ε
  | .ok _ => none
  | .error e => some e

theorem failure?_eq_some {ε α : Type} {x : Except ε α} {e : ε} :
    failure? x = some e ↔ x = .error e := by
  cases x <;> simp [failure?]

/-- A class in which a function of the class calls a method of an object, and names no
object. -/
def orphanText : String :=
  "function instance greet() returns V\n\treturn;\nend function\n"
    ++ "function static main() returns V\n\tcallActual pkg/Main.greet();\n\treturn;\n"
    ++ "end function\n"

/-- It passes its check, and is not compiled for want of a receiver. -/
theorem checked_without_receiver :
    (∃ u, checkText orphanText "pkg/Main.jil" = .ok u)
      ∧ compileText .systemV orphanText "pkg/Main.jil"
        = .error (.undefined (.receiver "pkg/Main" "greet") ⟨"pkg/Main.jil", 5⟩) := by
  obtain ⟨hchecked, hrefused⟩ : (checkText orphanText "pkg/Main.jil").toOption.isSome = true
      ∧ failure? (compileText .systemV orphanText "pkg/Main.jil")
        = some (.undefined (.receiver "pkg/Main" "greet") ⟨"pkg/Main.jil", 5⟩) := by
    decide +kernel
  refine ⟨?_, failure?_eq_some.1 hrefused⟩
  cases hu : checkText orphanText "pkg/Main.jil" with
  | error e =>
    rw [hu] at hchecked
    cases hchecked
  | ok u => exact ⟨u, rfl⟩

end Jil
