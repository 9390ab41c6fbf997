/-
Jil.Proofs.FixedRegisters — values stay out of the registers that the code needs.

A stream names hardware registers in its operands, and some instructions need
registers that no operand names: the count of a shift, the two halves of the
accumulator, the address of a callee (`Instr.hardware`). No value is kept in one
of these, nor in the registers that expanded code and the frame use. The cut of
the argument registers rests on `Named`: besides the scratch registers, arguments
are all that the code of a checked function names. A value that is needed behind
a call lies where the call does not reach.
-/
import Jil.Proofs.Allocated
import Jil.Proofs.Lowered

namespace Jil

/-! ## Hardware registers in instructions -/

namespace Pseudo

/-- The hardware register in an operand. -/
def Operand.hardware? : Operand → Option Machine.Reg
  | .fixed r | .fixedIndirect r _ => some r
  | .pseudo _ | .imm _ | .indirect _ _ | .rip _ _ => none

namespace Instr

/-- The hardware registers that an instruction needs without an operand that names them. -/
def implied : Instr → List Machine.Reg
  | .shift _ _ _ => [.rcx]
  | .idiv _ _ | .signExtendAccumulator _ => [.rax, .rdx]
  | .callIndirect base _ => [base]
  | _ => []

/-- The hardware registers that an instruction names or needs. -/
def hardware (i : Instr) : List Machine.Reg :=
  i.operands.filterMap Operand.hardware? ++ i.implied

end Instr

variable {i : Instr} {r : Machine.Reg}

theorem Operand.touches_of_hardware? {o : Operand} (h : o.hardware? = some r) :
    .touches r ∈ o.readEffects ∧ .touches r ∈ o.writeEffects := by
  cases o with
  | fixed x | fixedIndirect x disp =>
    cases h
    exact ⟨List.mem_cons_self, List.mem_cons_self⟩
  | _ => cases h

/-- An operand that holds a hardware register is read or written. -/
theorem Instr.touches_of_mem_operands {o : Operand} (ho : o ∈ i.operands)
    (h : o.hardware? = some r) : .touches r ∈ i.effects := by
  obtain ⟨hread, hwrite⟩ := Operand.touches_of_hardware? h
  rcases reads_or_writes_of_mem_operands ho with hreads | hwrites
  · exact hreads _ hread
  · exact hwrites _ hwrite

/-- What instructions name or need, they touch. -/
theorem Instr.mem_touched_of_mem_hardware (h : r ∈ i.hardware) : r ∈ i.touched := by
  rw [mem_touched]
  rcases List.mem_append.1 h with h | h
  · obtain ⟨o, ho, hr⟩ := List.mem_filterMap.1 h
    exact touches_of_mem_operands ho hr
  · cases i with
    | shift op size dest =>
      cases List.mem_singleton.1 h
      exact List.mem_append_left _ (List.mem_append_left _ List.mem_cons_self)
    | idiv size divisor =>
      refine List.mem_append_left _ ?_
      simpa [implied] using h
    | signExtendAccumulator size => simpa [implied, effects] using h
    | callIndirect base disp =>
      cases List.mem_singleton.1 h
      exact List.mem_cons_self
    | _ => cases h

/-- Confined instructions name and need only registers that streams name. -/
theorem Instr.Confined.named {abi : Machine.Abi} {K : Reg → Prop} (hi : i.Confined abi K)
    (h : r ∈ i.touched) : Named abi r :=
  hi.allowed _ (mem_touched.1 h)

end Pseudo

/-! ## Places of values -/

namespace Allocation

open Machine (Abi)
open Pseudo (Interval Liveness)

variable {abi : Abi} {live : Liveness} {a : Allocation} {code : List Pseudo.Instr}
  {v : Interval}

/-- A value crosses a call that lies strictly inside its interval. -/
theorem crossesCall_of_isCall (hlive : live.Spec code) {k : Nat} {i : Pseudo.Instr}
    (hi : code[k]? = some i) (hcall : i.isCall = true) (hfirst : v.first < k)
    (hlast : k < v.last) :
    live.crossesCall v = true :=
  List.any_eq_true.2 ⟨k, (hlive.calls k).2 ⟨i, hi, hcall⟩,
    by simp [Interval.spans, hfirst, hlast]⟩

/-- A value that has to survive a call is kept in a preserved register or in the frame. -/
theorem Spec.kept_across_call (h : a.Spec abi live) (habi : abi ∈ Abi.all)
    (hv : v ∈ live.intervals) (hcross : live.crossesCall v = true) :
    (∃ r ∈ abi.allocatablePreserved, a.mapping.get? v.pseudo.id = some (.reg r))
      ∨ ∃ offset, a.mapping.get? v.pseudo.id = some (.slot offset) := by
  obtain ⟨location, hlocation⟩ := (h.located v.pseudo.id).2 ⟨v, hv, rfl⟩
  cases location with
  | reg r =>
    have hpreserved : r ∈ abi.preserved :=
      of_decide_eq_true (h.survives v hv hcross r hlocation)
    have hbase := (ne_of_mem_initialPool habi (h.drawn v hv r hlocation)).2
    exact .inl ⟨r, List.mem_filter.2 ⟨hpreserved, decide_eq_true hbase⟩, hlocation⟩
  | slot offset => exact .inr ⟨offset, hlocation⟩

/-- The values of a checked function are kept out of the registers that its code names or needs
and out of those of expanded code and the frame, and values that are needed before and after a
call are kept where calls do not reach. -/
theorem values_avoid_fixed_registers (habi : abi ∈ Abi.all) {u : ClassUnit} {position : Nat}
    {f : Jil.Function} (hf : Checked u position f) {strings interned : Assembly.StringTable}
    {p : Pseudo.Function}
    (hselect : Selection.ofFunction u abi position f strings = (.ok p, interned))
    (halloc : ofCode abi p.code = .ok a) :
    ∃ live, Liveness.ofCode p.code = .ok live
      ∧ (∀ id r, a.mapping.get? id = some (.reg r) →
          r ≠ .rax ∧ r ≠ .r11 ∧ r ≠ .rsp ∧ r ≠ .rbp ∧ ∀ i ∈ p.code, r ∉ i.hardware)
      ∧ ∀ v ∈ live.intervals, ∀ k i, p.code[k]? = some i → i.isCall = true →
          v.first < k → k < v.last →
          (∃ r ∈ abi.allocatablePreserved, a.mapping.get? v.pseudo.id = some (.reg r))
            ∨ ∃ offset, a.mapping.get? v.pseudo.id = some (.slot offset) := by
  obtain ⟨size, hconfined⟩ := Selection.confined_of_ofFunction habi hf hselect
  obtain ⟨live, hlive, hspec⟩ := spec_of_ofCode habi halloc
  have hcode := Liveness.spec_of_ofCode hlive
  refine ⟨live, hlive, fun id r hr => ?_, fun v hv k i hi hcall hfirst hlast => ?_⟩
  · obtain ⟨v, hv, rfl⟩ := (hspec.located id).1 ⟨_, hr⟩
    obtain ⟨hstack, hbase⟩ := ne_of_mem_initialPool habi (hspec.drawn v hv r hr)
    refine ⟨?_, ?_, hstack, hbase, fun i hi hneeded => ?_⟩
    · rintro rfl
      exact hspec.ne_reg_of_scratch habi (.inl rfl) hr
    · rintro rfl
      exact hspec.ne_reg_of_scratch habi (.inr (.inl rfl)) hr
    · have htouched := Pseudo.Instr.mem_touched_of_mem_hardware hneeded
      exact hspec.ne_reg_of_touched habi ((hcode.touched r).2 ⟨i, hi, htouched⟩)
        ((hconfined i hi).named htouched) hr
  · exact hspec.kept_across_call habi hv (crossesCall_of_isCall hcode hi hcall hfirst hlast)

/-- A function that shifts, divides, and needs the quotient behind a call of itself. -/
def halves : Jil.Function :=
  ((do
      let x ← .getParam "x"
      let two ← .literal .int "2"
      let doubled ← .binary .shl x two
      let half ← .binary .div doubled two
      let _ ← .callActual none "pkg/Halves" "halves" [doubled] false
      .returnValue half : Jil.Function.Build Unit).run
    { name := "halves", kind := .static, params := [⟨.int, "x"⟩], returns := .int }).2

/-- The class of the function, after its check. -/
def halvesUnit : ClassUnit := ((ClassUnit.create "pkg/Halves").addFunction halves).check.1

/-- The function with the types that its check finds. -/
def halvesChecked : Jil.Function :=
  { halves with
    registerTypes := some ⟨[(⟨0⟩, .int), (⟨1⟩, .int), (⟨2⟩, .int), (⟨3⟩, .int)]⟩ }

theorem checked_halves : Checked halvesUnit 0 halvesChecked :=
  checked_of_single (n := "pkg/Halves") (f := halves) (by unfold Function.Drawn; decide)
    rfl rfl

/-- The stream of the function: the divisor has number 1 and the quotient number 3. -/
def halvesStream : Pseudo.Function :=
  let p (id : Nat) : Pseudo.Operand := .pseudo ⟨id, .long⟩
  let q (id : Nat) : Pseudo.Operand := .pseudo ⟨id, .quad⟩
  { symbol := halvesUnit.functionSymbol .microsoft halvesChecked
    code :=
      [.mov .quad (.fixed .rcx) (q 4), .mov .long (.fixed .r8) (p 5), .mov .long (p 5) (p 0),
        .mov .long (.imm 2) (p 1), .mov .long (p 1) (.fixed .rcx), .mov .long (p 0) (p 2),
        .shift .sal .long (p 2), .mov .long (p 2) (.fixed .rax), .signExtendAccumulator .long,
        .idiv .long (p 1), .mov .long (.fixed .rax) (p 3), .mov .quad (q 4) (.fixed .rcx),
        .lea (.rip ".LC0" 0) (.fixed .rdx), .mov .quad (.indirect ⟨4, .quad⟩ 0) (.fixed .r11),
        .callIndirect .r11 48, .mov .quad (.fixed .rax) (q 6), .mov .quad (q 4) (.fixed .rcx),
        .mov .quad (q 6) (.fixed .rdx), .extend true .long .quad (p 2) (.fixed .r8),
        .call "Java_pkg_Halves_halves", .mov .long (p 3) (.fixed .rax), .jmp ".LF0_exit",
        .label ".LF0_exit"]
    exitLabel := ".LF0_exit"
    serviceCalls := 1 }

/-- The argument register behind the last one that is touched holds the divisor, and the
quotient is kept across the call. -/
theorem halves_avoids_fixed_registers :
    Abi.microsoft ∈ Abi.all ∧ Checked halvesUnit 0 halvesChecked
    ∧ ∃ a, Selection.ofFunction halvesUnit .microsoft 0 halvesChecked {}
        = (.ok halvesStream, ⟨["pkg/Halves"]⟩)
      ∧ ofCode .microsoft halvesStream.code = .ok a
      ∧ a.mapping.get? 1 = some (.reg .r9) ∧ (∀ i ∈ halvesStream.code, .r9 ∉ i.hardware)
      ∧ ((∃ r ∈ Abi.microsoft.allocatablePreserved, a.mapping.get? 3 = some (.reg r))
          ∨ ∃ offset, a.mapping.get? 3 = some (.slot offset)) := by
  have hselect : Selection.ofFunction halvesUnit .microsoft 0 halvesChecked {}
      = (.ok halvesStream, ⟨["pkg/Halves"]⟩) := rfl
  obtain ⟨a, halloc⟩ : ∃ a, ofCode .microsoft halvesStream.code = .ok a := ⟨_, rfl⟩
  have hdivisor : (ofCode .microsoft halvesStream.code).toOption.map (·.mapping.get? 1)
      = some (some (.reg .r9)) := by decide +kernel
  have hquotient : (Liveness.ofCode halvesStream.code).toOption.map
      (fun live => decide (⟨⟨3, .long⟩, 10, 20, true⟩ ∈ live.intervals)) = some true := by
    decide +kernel
  obtain ⟨live, hlive, havoids, hkept⟩ :=
    values_avoid_fixed_registers
      (by decide : Abi.microsoft ∈ Abi.all) checked_halves hselect halloc
  rw [halloc] at hdivisor
  rw [hlive] at hquotient
  have hget : a.mapping.get? 1 = some (.reg .r9) := Option.some.inj hdivisor
  obtain ⟨-, -, -, -, hfree⟩ := havoids 1 .r9 hget
  exact ⟨by decide, checked_halves, a, hselect, halloc, hget, hfree,
    hkept _ (of_decide_eq_true (Option.some.inj hquotient)) 19 (.call "Java_pkg_Halves_halves")
      rfl
      rfl (by decide) (by decide)⟩

end Allocation

end Jil
