/-
Jil.Proofs.SessionStatistics — the statistics of a session describe its code.

The numbers are advanced in three places: selection counts the services it calls,
the allocator its slots and the registers that the frame saves, and the session
adds them up. What they count can be read off the functions that come out, and
`Describes` says that it agrees. For one function this is `Accounted`: expansion
neither saves a register nor calls a service of its own accord, so in the body only
the prologue pushes, and indirect calls are those of the stream. The session keeps
up with the functions one by one (`Describes.record`), and in the end the statistics
of a class that was compiled describe its listing.
-/
import Mathlib.Data.List.Dedup
import Jil.Proofs.Compiled
import Jil.Proofs.Conservation
import Jil.Proofs.Layout
import Jil.Proofs.ServiceCounts

namespace Jil

open Pseudo (bind_eq_ok serviceCalls serviceCalls_append)

/-! ## What is counted -/

namespace Machine.Instr

/-- Whether a register is saved; the frame pointer is pushed to link the frames. -/
def isSave : Instr → Bool
  | .push r => r ≠ .rbp
  | _ => false

def isIndirectCall : Instr → Bool
  | .callIndirect _ _ => true
  | _ => false

theorem isSave_of_computes {i : Instr} (h : i.computes = true) : i.isSave = false := by
  cases i <;> first | rfl | cases h

theorem isIndirectCall_of_computes {i : Instr} (h : i.computes = true) :
    i.isIndirectCall = false := by
  cases i <;> first | rfl | cases h

end Machine.Instr

open Machine (Abi Instr)

namespace Allocation

/-- The numbers of the values that have a slot, each once. -/
def spilled (a : Allocation) : List Nat :=
  a.mapping.keys.dedup.filter fun id => match a.mapping.get? id with
    | some (.slot _) => true
    | _ => false

theorem mem_spilled {a : Allocation} {id : Nat} :
    id ∈ a.spilled ↔ ∃ offset, a.mapping.get? id = some (.slot offset) := by
  rw [spilled, List.mem_filter, List.mem_dedup]
  constructor
  · rintro ⟨-, h⟩
    split at h
    · next offset heq => exact ⟨offset, heq⟩
    · cases h
  · rintro ⟨offset, h⟩
    obtain ⟨front, back, hentries, -⟩ := List.lookup_eq_some_iff.1 h
    have hkey : id ∈ a.mapping.keys := by
      rw [Table.keys, hentries]
      simp
    exact ⟨hkey, by rw [h]⟩

theorem nodup_spilled (a : Allocation) : a.spilled.Nodup := (List.nodup_dedup _).filter _

/-- Every slot is counted. -/
theorem spillCount_eq_length {abi : Abi} (habi : abi ∈ Abi.all) {code : List Pseudo.Instr}
    {a : Allocation} (h : ofCode abi code = .ok a) : a.spillCount = a.spilled.length := by
  obtain ⟨live, hlive, hspec⟩ := spec_of_ofCode habi h
  have hcode := Pseudo.Liveness.spec_of_ofCode hlive
  have hcount : a.spillCount = (live.intervals.filterMap (slotOf? a.mapping)).length := by
    unfold ofCode at h
    rw [hlive] at h
    cases h
    exact Progress.spillCount_after abi hcode
  let spilling := live.intervals.filter fun i => (slotOf? a.mapping i).isSome
  have hnodup : (spilling.map (·.pseudo.id)).Nodup :=
    List.pairwise_map.2 ((hcode.ordered.filter _).imp fun hlt => Nat.ne_of_lt hlt)
  have hperm : a.spilled.Perm (spilling.map (·.pseudo.id)) := by
    refine (List.perm_ext_iff_of_nodup a.nodup_spilled hnodup).2 fun id => ?_
    rw [mem_spilled, List.mem_map]
    constructor
    · rintro ⟨offset, hslot⟩
      obtain ⟨i, hi, rfl⟩ := (hspec.located id).1 ⟨_, hslot⟩
      have hsome : (slotOf? a.mapping i).isSome = true :=
        Option.isSome_iff_exists.2 ⟨offset, slotOf?_eq_some.2 hslot⟩
      exact ⟨i, List.mem_filter.2 ⟨hi, hsome⟩, rfl⟩
    · rintro ⟨i, hi, rfl⟩
      obtain ⟨offset, hslot⟩ := Option.isSome_iff_exists.1 (List.mem_filter.1 hi).2
      exact ⟨offset, slotOf?_eq_some.1 hslot⟩
  rw [hcount, hperm.length_eq, List.length_map, List.length_filterMap_eq_countP,
    List.countP_eq_length_filter]

end Allocation

/-! ## One function -/

namespace Assembly.Function

variable {abi : Abi} {a : Allocation} {g : Function}

/-- What a part of a function adds to the numbers: no saves, and the calls of what it is made
from. -/
structure Adds (part : List Instr) (calls : Nat) : Prop where
  saves : part.countP Instr.isSave = 0
  calls : part.countP Instr.isIndirectCall = calls

namespace Adds

variable {part rest : List Instr} {calls more : Nat}

theorem append (h : Adds part calls) (h' : Adds rest more) :
    Adds (part ++ rest) (calls + more) where
  saves := by rw [List.countP_append, h.saves, h'.saves]
  calls := by rw [List.countP_append, h.calls, h'.calls]

theorem of_computes (h : ∀ i ∈ part, i.computes = true) : Adds part 0 where
  saves := List.countP_eq_zero.2 fun i hi => by simp [Instr.isSave_of_computes (h i hi)]
  calls := List.countP_eq_zero.2 fun i hi => by
    simp [Instr.isIndirectCall_of_computes (h i hi)]

/-- An instruction is expanded to as many indirect calls as it makes. -/
theorem of_expand {i : Pseudo.Instr} (h : i.expand a.assignment = .ok part) :
    Adds part (serviceCalls [i]) := by
  cases hdirects : i.directs with
  | false =>
    have hnone : serviceCalls [i] = 0 := by
      cases i <;> first | rfl | cases hdirects
    exact hnone ▸ .of_computes (Pseudo.computes_of_expand h hdirects)
  | true =>
    cases i with
    | jcc cond target | jmp target | label name | call symbol | callIndirect base disp =>
      cases h
      exact ⟨rfl, rfl⟩
    | _ => cases hdirects

theorem adjustStack (op : Machine.AluOp) (bytes : Nat) : Adds (adjustStack op bytes) 0 := by
  refine .of_computes fun i hi => ?_
  unfold Function.adjustStack at hi
  split at hi
  · cases hi
  · rw [List.mem_singleton] at hi
    subst hi
    rfl

theorem epilogue (abi : Abi) (a : Allocation) : Adds (epilogue abi a) 0 := by
  have hpops : Adds (a.saved.reverse.map .pop) 0 := by
    constructor <;>
      · refine List.countP_eq_zero.2 fun i hi => ?_
        obtain ⟨r, -, rfl⟩ := List.mem_map.1 hi
        exact Bool.false_ne_true
  have hleave : Adds [.leave, .ret] 0 := ⟨rfl, rfl⟩
  exact ((adjustStack _ _).append hpops).append hleave

theorem of_place {exitLabel : String} {i : Pseudo.Instr}
    (h : place abi a exitLabel i = .ok part) :
    Adds part (serviceCalls [i]) := by
  obtain ⟨expanded, hexpand, h⟩ := bind_eq_ok.1 h
  cases h
  split
  · exact (of_expand hexpand).append (epilogue abi a)
  · exact of_expand hexpand

/-- A stream with one more instruction in front. -/
theorem of_cons {exitLabel : String} {i : Pseudo.Instr} {code : List Pseudo.Instr}
    (h : place abi a exitLabel i = .ok part) (hrest : Adds rest (serviceCalls code)) :
    Adds (part ++ rest) (serviceCalls (i :: code)) := by
  have hcalls : serviceCalls (i :: code) = serviceCalls [i] + serviceCalls code :=
    serviceCalls_append [i] code
  exact hcalls ▸ (of_place h).append hrest

end Adds

/-- The prologue saves the registers that it has to save, and calls nothing. -/
theorem counts_prologue (abi : Abi) (h : ∀ r ∈ a.saved, r ≠ .rbp) :
    (prologue abi a).countP Instr.isSave = a.saved.length
      ∧ (prologue abi a).countP Instr.isIndirectCall = 0 := by
  have hsaves : (a.saved.map Instr.push).countP Instr.isSave = a.saved.length := by
    rw [List.countP_map]
    exact List.countP_eq_length.2 fun r hr => by simpa [Instr.isSave] using h r hr
  have hcalls : (a.saved.map Instr.push).countP Instr.isIndirectCall = 0 := by
    rw [List.countP_map]
    exact List.countP_eq_zero.2 fun r _ => Bool.false_ne_true
  have henter : Adds [.push .rbp, .mov .quad (.reg .rsp) (.reg .rbp)] 0 := ⟨rfl, rfl⟩
  have hframe := henter.append (.adjustStack .sub a.frameSize)
  have hshadow := Adds.adjustStack .sub abi.shadowSpace
  unfold prologue
  constructor
  · rw [List.countP_append, List.countP_append, hframe.saves, hsaves, hshadow.saves]
    omega
  · rw [List.countP_append, List.countP_append, hframe.calls, hcalls, hshadow.calls]

/-- The numbers that are added up for a function are those of its code. -/
structure Accounted (g : Function) (calls : Nat) : Prop where
  spills : g.allocation.spillCount = g.allocation.spilled.length
  saved : g.allocation.saved.length = g.body.countP Instr.isSave
  calls : calls = g.body.countP Instr.isIndirectCall
  /-- There is a frame at least. -/
  nonempty : 0 < g.instructionCount

theorem accounted_of_ofPseudo (habi : abi ∈ Abi.all) {p : Pseudo.Function}
    (h : ofPseudo abi p = .ok g) : g.Accounted (serviceCalls p.code) := by
  obtain ⟨a, ha, h⟩ := ofPseudo_eq_ok h
  obtain ⟨-, rfl, body, hbody, hadds⟩ :=
    exists_body (P := fun code body => Adds body (serviceCalls code))
    h ⟨rfl, rfl⟩ Adds.of_cons
  obtain ⟨live, -, hspec⟩ := Allocation.spec_of_ofCode habi ha
  obtain ⟨hsaves, hcalls⟩ := counts_prologue abi fun r hr => (hspec.savable r hr).1
  constructor
  · exact Allocation.spillCount_eq_length habi ha
  · rw [hbody, List.countP_append, hsaves, hadds.saves, Nat.add_zero]
  · rw [hbody, List.countP_append, hcalls, hadds.calls, Nat.zero_add]
  · rw [instructionCount, List.countP_pos_iff, hbody]
    exact ⟨.push .rbp, List.mem_append_left _ List.mem_cons_self, rfl⟩

end Assembly.Function

/-! ## Sessions -/

namespace Statistics

variable {functions : List Assembly.Function} {g : Assembly.Function} {calls : Nat}

/-- A name and a size that are those of the first of the largest functions, if there are
any. -/
def IsLargest (name : String) (size : Nat) (functions : List Assembly.Function) : Prop :=
  functions = [] ∧ name = "" ∧ size = 0
    ∨ ∃ front g back, functions = front ++ g :: back ∧ name = g.symbol
      ∧ size = g.instructionCount
      ∧ (∀ f ∈ front, f.instructionCount < size) ∧ ∀ f ∈ back, f.instructionCount ≤ size

namespace IsLargest

variable {name : String} {size : Nat}

theorem le (h : IsLargest name size functions) :
    ∀ f ∈ functions, f.instructionCount ≤ size := by
  obtain ⟨rfl, -⟩ | ⟨front, g, back, rfl, -, rfl, hfront, hback⟩ := h
  · exact List.forall_mem_nil _
  · exact List.forall_mem_append.2 ⟨fun f hf => Nat.le_of_lt (hfront f hf),
      List.forall_mem_cons.2 ⟨Nat.le_refl _, hback⟩⟩

/-- A larger function takes the place. -/
theorem replaced (h : IsLargest name size functions) (hg : size < g.instructionCount) :
    IsLargest g.symbol g.instructionCount (functions ++ [g]) :=
  .inr ⟨functions, g, [], rfl, rfl, rfl, fun f hf => Nat.lt_of_le_of_lt (h.le f hf) hg,
    List.forall_mem_nil _⟩

/-- A function that is not larger stays behind. -/
theorem kept (h : IsLargest name size functions) (hpos : 0 < g.instructionCount)
    (hg : ¬ size < g.instructionCount) : IsLargest name size (functions ++ [g]) := by
  obtain ⟨-, -, rfl⟩ | ⟨front, first, back, rfl, hname, hsize, hfront, hback⟩ := h
  · exact absurd hpos hg
  · refine .inr ⟨front, first, back ++ [g], by simp, hname, hsize, hfront, ?_⟩
    exact List.forall_mem_append.2 ⟨hback, List.forall_mem_singleton.2 (Nat.le_of_not_lt hg)⟩

end IsLargest

/-- Statistics that can be read off the functions that were compiled. -/
structure Describes (s : Statistics) (compiled : List Assembly.Function) : Prop where
  functions : s.functions = compiled.length
  instructions : s.instructions = (compiled.flatMap (·.body)).countP (!·.isLabel)
  spills : s.spills = (compiled.flatMap (·.allocation.spilled)).length
  saved : s.saved = (compiled.flatMap (·.body)).countP Instr.isSave
  serviceCalls : s.serviceCalls = (compiled.flatMap (·.body)).countP Instr.isIndirectCall
  largest : IsLargest s.largestName s.largestSize compiled

theorem describes_nil : Describes {} [] := ⟨rfl, rfl, rfl, rfl, rfl, .inl ⟨rfl, rfl, rfl⟩⟩

/-- A function that is recorded is described from then on. -/
theorem Describes.record {session : Session} (h : session.statistics.Describes functions)
    (hg : g.Accounted calls) :
    (session.record g calls).statistics.Describes (functions ++ [g]) := by
  have hbody : (functions ++ [g]).flatMap (·.body) = functions.flatMap (·.body) ++ g.body := by
    simp
  by_cases hlarger : session.statistics.largestSize < g.instructionCount
  all_goals
    simp only [Session.record, Session.finish, Session.addServiceCalls, Session.addSaved,
      Session.addSpills, addFunction, hlarger, if_true, if_false]
    refine ⟨?_, ?_, ?_, ?_, ?_, ?_⟩
    · simp [h.functions]
    · simp [hbody, h.instructions, Assembly.Function.instructionCount]
    · simp [h.spills, hg.spills]
    · simp [hbody, h.saved, hg.saved]
    · simp [hbody, h.serviceCalls, hg.calls]
  · exact h.largest.replaced hlarger
  · exact h.largest.kept hg.nonempty hlarger

end Statistics

/-- While functions are compiled the session keeps up with them. -/
theorem ClassUnit.describes_of_compileFunctions {u : ClassUnit} {session after : Session}
    (habi : session.abi ∈ Abi.all) {position : Nat} {strings : Assembly.StringTable}
    {functions : List Function} {compiled : List Assembly.Function × Assembly.StringTable}
    (h : u.compileFunctions position session strings functions = (after, .ok compiled))
    {done : List Assembly.Function} (hdone : session.statistics.Describes done) :
    compiled.1.length = functions.length
    ∧ after.statistics.Describes (done ++ compiled.1) := by
  induction functions generalizing position session strings compiled done with
  | nil =>
    cases h
    exact ⟨rfl, by simpa using hdone⟩
  | cons f functions ih =>
    obtain ⟨p, interned, g, rest, hselect, hg, hrest, rfl⟩ := compileFunctions_cons h
    have hcalls := (Selection.tallies_ofFunction hselect).1
    have haccounted := Assembly.Function.accounted_of_ofPseudo habi hg
    have hentered : (session.enter f.name).statistics.Describes done := hdone
    have hlater : ((session.enter f.name).record g p.serviceCalls).abi ∈ Abi.all := habi
    obtain ⟨hlength, hdescribes⟩ := ih hlater hrest (hentered.record (hcalls ▸ haccounted))
    refine ⟨congrArg (· + 1) hlength, ?_⟩
    rwa [List.append_assoc, List.singleton_append] at hdescribes

/-- The statistics of a text that was compiled are those of its listing: the functions, the
instructions other than labels, the values with slots, the pushes other than those of the frame
pointer, the indirect calls, and the first of the largest functions. -/
theorem statistics_describe_listing {abi : Abi} (habi : abi ∈ Abi.all) {text source : String}
    {compiled : Compiled} (h : compileText abi text source = .ok compiled) :
    compiled.listing.functions.length = compiled.unit.functions.length
      ∧ compiled.statistics.Describes compiled.listing.functions := by
  obtain ⟨read, session, -, hcompile, hstatistics⟩ := compileText_eq_ok h
  obtain ⟨-, strings, hfunctions, -⟩ := ClassUnit.compile_eq_ok hcompile
  rw [hstatistics]
  exact ClassUnit.describes_of_compileFunctions habi hfunctions Statistics.describes_nil

/-- A class with two functions, the second of which calls the first and asks for a service. -/
def nextText : String :=
  "function static one() returns I\n\tliteral I 1 -> %r0;\n\treturn %r0;\nend function\n"
    ++ "function static next(I a) returns I\n\tgetParam a -> %r0;\n"
    ++ "\tcallActual pkg/Main.one() -> %r1;\n\tbinary %r0 + %r1 -> %r2;\n\treturn %r2;\n"
    ++ "end function\n"

/-- Its statistics, which describe the listing. -/
theorem next_is_described :
    Abi.systemV ∈ Abi.all ∧ ∃ compiled, compileText .systemV nextText "pkg/Main.jil"
      = .ok compiled
      ∧ compiled.statistics =
        { functions := 2, instructions := 32, largestName := "Java_pkg_Main_next",
          largestSize := 24, spills := 0, saved := 2, serviceCalls := 1 }
      ∧ compiled.listing.functions.length = compiled.unit.functions.length
      ∧ compiled.statistics.Describes compiled.listing.functions := by
  have hrun : (compileText .systemV nextText "pkg/Main.jil").toOption.map Compiled.statistics
      = some { functions := 2, instructions := 32, largestName := "Java_pkg_Main_next",
               largestSize := 24, spills := 0, saved := 2, serviceCalls := 1 } := by
    decide +kernel
  have hsystemV : Abi.systemV ∈ Abi.all := by decide
  cases hcompiled : compileText .systemV nextText "pkg/Main.jil" with
  | error e =>
    rw [hcompiled] at hrun
    cases hrun
  | ok compiled =>
    rw [hcompiled] at hrun
    obtain ⟨hlength, hdescribes⟩ := statistics_describe_listing hsystemV hcompiled
    exact ⟨hsystemV, compiled, rfl, Option.some.inj hrun, hlength, hdescribes⟩

end Jil
