/-
Jil.Proofs.Promises — the parts of the compiler keep their promises.

A fault is a promise between parts of the compiler that was not kept. Reading
promises that registers are defined once, and a check builds the signature index
before it looks anything up. So whatever is wrong with a function is reported,
or else the index of its class is out of date (`ClassUnit.Rejects`,
`Typing.failsOnly_effect`, `Typing.failsOnly_checkBody`), and whatever is wrong
with a class is reported (`ClassUnit.failsOnly_check`). What a check promises to
the parts behind it is the matter of `ClassUnit.outcome_of_check`. So compiling
gives a result or an error to report, on every text (`compileText_keeps_promises`).
-/
import Jil.Proofs.Compiling
import Jil.Proofs.Counting

namespace Jil

open Jil.Machine (Abi)
open Pseudo (Liveness)

/-- What can be wrong with a function of a unit that defines each register once: something is
reported, or the signature index is out of date. -/
def ClassUnit.Rejects (u : ClassUnit) : Failure → Prop
  | .reported _ => True
  | .fault f => f = .staleIndex u.name ∧ u.index? = none

namespace Typing

variable {scope : Scope} {ctx : Context} {origin : Origin} {u : ClassUnit}

/-! ## Lookups -/

theorem failsOnly_register (r : Register) :
    FailsOnly u.Rejects (ctx.register r origin) := by
  unfold Context.register
  split
  · exact .ok _
  · exact .error trivial

theorem failsOnly_localType (name : String) :
    FailsOnly u.Rejects (ctx.localType name origin) := by
  unfold Context.localType
  split
  · exact .ok _
  · exact .error trivial

theorem failsOnly_param (name : String) :
    FailsOnly u.Rejects (ctx.param name origin) := by
  unfold Context.param
  split
  · exact .ok _
  · exact .error trivial

theorem failsOnly_objectClass (object : Register) :
    FailsOnly u.Rejects (ctx.objectClass object origin) := by
  refine .bind (failsOnly_register object) fun t _ => ?_
  split
  · exact .ok _
  · exact .error trivial

theorem failsOnly_requireLabel (l : Label) :
    FailsOnly u.Rejects (scope.requireLabel l origin) :=
  .ite (fun _ => .ok ()) fun _ => .error trivial

theorem failsOnly_requireAssignable (declared value : Ty) (store : Store) :
    FailsOnly u.Rejects (scope.requireAssignable declared value store origin) :=
  .ite (fun _ => .ok ()) fun _ => .error trivial

theorem failsOnly_merged (first second : Register) (a b : Ty) :
    FailsOnly u.Rejects (scope.merged first second a b origin) := by
  refine .ite (fun _ => .ite (fun _ => .ok a) fun _ => .error trivial) fun _ => ?_
  split
  · exact .ok _
  · exact .error trivial

theorem failsOnly_requireReceiver (object : Option Register) (owner method : String) :
    FailsOnly u.Rejects (requireReceiver ctx object owner method origin) := by
  cases object with
  | none => exact .ok ()
  | some r =>
    exact .bind (failsOnly_register r) fun t _ => .ite (fun _ => .ok ()) fun _ =>
      .error trivial

theorem failsOnly_callEffect (method : String) (returns : Ty) (result : Option Register) :
    FailsOnly u.Rejects (callEffect method returns result origin) := by
  cases result with
  | none => exact .ok _
  | some r => exact .ite (fun _ => .error trivial) fun _ => .ok _

theorem failsOnly_argTypes (args : List Register) :
    FailsOnly u.Rejects (args.mapM (ctx.register · origin)) :=
  .mapM fun r _ => failsOnly_register r

end Typing

namespace ClassUnit

variable {u : ClassUnit} {origin : Origin}

theorem failsOnly_methodIn? (key : MethodKey) (owner : String) :
    FailsOnly (u.Rejects ∘ .fault) (u.methodIn? key owner) := by
  refine .ite (fun _ => .bind ?_ fun _ _ => .ok _) fun _ => .ok _
  unfold ClassUnit.index
  split
  · exact .ok _
  · next hstale => exact .error ⟨rfl, hstale⟩

/-- A look-up along some classes needs the index when it comes to the class itself. -/
theorem failsOnly_findMethod? (key : MethodKey) (owners : List String) :
    FailsOnly (u.Rejects ∘ .fault) (u.findMethod? key owners) := by
  induction owners with
  | nil => exact .ok none
  | cons owner rest ih =>
    rw [findMethod?]
    refine .bind (failsOnly_methodIn? key owner) fun found _ => ?_
    cases found with
    | some m => exact .ok (some m)
    | none => exact ih

theorem failsOnly_returnType (owner name : String) (args : List Ty) :
    FailsOnly u.Rejects (u.returnType owner name args origin) := by
  refine .bind ?_ fun m _ => .ok _
  have hfind := failsOnly_findMethod? (u := u) ⟨name, args⟩ (u.hierarchy.lineage owner)
  unfold resolveMethod
  cases hfound : u.findMethod? ⟨name, args⟩ (u.hierarchy.lineage owner) with
  | error f => exact .error (hfind f hfound)
  | ok found =>
    cases found with
    | some m => exact .ok m
    | none => exact .error trivial

theorem failsOnly_staticFieldType (owner name : String) :
    FailsOnly u.Rejects
      (liftM (u.staticFieldType owner name origin) : Except Failure Ty) :=
  .liftReported fun _ _ => trivial

theorem failsOnly_objectFieldType (owner name : String) :
    FailsOnly u.Rejects
      (liftM (u.objectFieldType owner name origin) : Except Failure Ty) :=
  .liftReported fun _ _ => trivial

end ClassUnit

/-! ## Checking -/

namespace Typing

open ClassUnit (failsOnly_staticFieldType failsOnly_objectFieldType failsOnly_returnType)

variable {scope : Scope} {ctx : Context} {origin : Origin}

/-- Whatever is wrong with a statement is reported, unless the signature index is out of
date. -/
theorem failsOnly_effect (s : Statement) :
    FailsOnly scope.unit.Rejects (effect scope ctx s origin) := by
  cases s with
  | copy src dest => exact .bind (failsOnly_register src) fun _ _ => .ok _
  | choose first second result =>
    exact .bind (failsOnly_register first) fun a _ =>
      .bind (failsOnly_register second) fun b _ =>
      .bind (failsOnly_merged first second a b) fun _ _ => .ok _
  | literal type value result =>
    simp only [effect]
    split
    · exact .ok _
    · exact .error trivial
  | string value result => exact .ok _
  | getLocal name result => exact .bind (failsOnly_localType name) fun _ _ => .ok _
  | putLocal name src =>
    exact .bind (failsOnly_register src) fun value _ => .bind (failsOnly_localType name)
      fun declared _ => .bind (failsOnly_requireAssignable declared value _) fun _ _ => .ok _
  | getParam name result => exact .bind (failsOnly_param name) fun _ _ => .ok _
  | getStatic owner field result | getStaticAddress owner field result =>
    exact .bind (failsOnly_staticFieldType owner field) fun _ _ => .ok _
  | putStatic owner field src =>
    exact .bind (failsOnly_register src) fun value _ =>
      .bind (failsOnly_staticFieldType owner field) fun declared _ =>
        .bind (failsOnly_requireAssignable declared value _) fun _ _ => .ok _
  | getField object field result | getFieldAddress object field result =>
    exact .bind (failsOnly_objectClass object) fun owner _ =>
      .bind (failsOnly_objectFieldType owner field) fun _ _ => .ok _
  | putField object field src =>
    exact .bind (failsOnly_objectClass object) fun owner _ =>
      .bind (failsOnly_register src) fun value _ =>
        .bind (failsOnly_objectFieldType owner field) fun declared _ =>
          .bind (failsOnly_requireAssignable declared value _) fun _ _ => .ok _
  | compare op left right result | binary op left right result =>
    exact .bind (failsOnly_register left) fun _ _ =>
      .bind (failsOnly_register right) fun _ _ =>
      .ite (fun _ => .ok _) fun _ => .error trivial
  | unary op src result | convert src target result =>
    exact .bind (failsOnly_register src) fun _ _ => .ite (fun _ => .ok _) fun _ =>
      .error trivial
  | branch condition expected target =>
    exact .bind (failsOnly_register condition) fun _ _ =>
      .ite (fun _ => .bind (failsOnly_requireLabel target) fun _ _ => .ok _) fun _ =>
        .error trivial
  | jump target => exact .bind (failsOnly_requireLabel target) fun _ _ => .ok _
  | label name => exact .ok _
  | callActual object owner method args result =>
    exact .bind (failsOnly_requireReceiver object owner method) fun _ _ =>
      .bind (failsOnly_argTypes args) fun types _ =>
        .bind (failsOnly_returnType owner method types) fun returns _ =>
          failsOnly_callEffect method returns result
  | callVirtual object method args result =>
    exact .bind (failsOnly_objectClass object) fun owner _ =>
      .bind (failsOnly_argTypes args) fun types _ =>
        .bind (failsOnly_returnType owner method types) fun returns _ =>
          failsOnly_callEffect method returns result
  | returnValue src =>
    exact .bind (failsOnly_register src) fun value _ => .ite (fun _ => .error trivial) fun _ =>
      .bind (failsOnly_requireAssignable _ value _) fun _ _ => .ok _
  | returnVoid => exact .ite (fun _ => .ok _) fun _ => .error trivial
  | startScope name type | endScope name => exact .ok _

/-- Statements that define each register once, and none that has a type. -/
theorem failsOnly_checkBody {l : List Located}
    (honce : ((l.map Located.statement).filterMap Statement.definedRegister?).Nodup)
    (hnew : ∀ r ∈ (l.map Located.statement).filterMap Statement.definedRegister?,
      ctx.registers.get? r = none) :
    FailsOnly scope.unit.Rejects (checkBody scope ctx l) := by
  induction l generalizing ctx with
  | nil => exact .ok ctx
  | cons s l ih =>
    rw [checkBody]
    unfold step
    cases he : effect scope ctx s.statement s.origin with
    | error e => exact .error (failsOnly_effect s.statement e he)
    | ok e =>
      rw [List.map_cons] at honce hnew
      cases e with
      | define r t =>
        rw [List.filterMap_cons_some (judges_of_effect he).matches.1] at honce hnew
        rw [List.nodup_cons] at honce
        have hfresh : ctx.registers.get? r = none := hnew r List.mem_cons_self
        simp only [Context.apply, hfresh, Option.map_none]
        refine ih honce.2 fun r' hr' => ?_
        have hne : r' ≠ r := fun heq => honce.1 (heq ▸ hr')
        rw [Table.get?_insert_of_ne _ _ hne]
        exact hnew r' (List.mem_cons_of_mem _ hr')
      | _ =>
        -- the types of registers stay as they are
        have hrest := (List.sublist_cons_self s.statement (l.map Located.statement)).filterMap
          Statement.definedRegister?
        exact ih (hrest.nodup honce) fun r hr => hnew r (hrest.subset hr)

end Typing

namespace ClassUnit

variable {source : ClassUnit}

/-- With an index, whatever is wrong is reported. -/
theorem Rejects.isReported {u : ClassUnit} {index : SignatureIndex}
    (hindex : u.index? = some index) {e : Failure} (h : u.Rejects e) : e.IsReported := by
  cases e with
  | reported e => trivial
  | fault f => exact absurd (hindex.symm.trans h.2) nofun

/-- Functions that define each register once. -/
theorem failsOnly_functionTypes {u : ClassUnit} {f : Function} (honce : f.DefinesOnce) :
    FailsOnly u.Rejects (Typing.functionTypes u f) :=
  .bind (Typing.failsOnly_checkBody honce fun _ _ => rfl) fun _ _ => .ok _

/-- Whatever is wrong with a class is reported, when its functions define each register
once. -/
theorem failsOnly_check (honce : ∀ g ∈ source.functions, g.DefinesOnce) :
    FailsOnly Failure.IsReported source.check.2 := by
  unfold check
  split
  · exact .error trivial
  · have htypes : FailsOnly Failure.IsReported
        (source.rebuildIndex.functions.mapM (Typing.functionTypes source.rebuildIndex)) :=
      .mapM fun g hg => (failsOnly_functionTypes (honce g hg)).mono fun _ =>
        Rejects.isReported rfl
    simp only
    split
    · next e he => exact .error (htypes e he)
    · exact .ok ()

theorem Stops.isReported {u : ClassUnit} {e : Failure} (h : u.Stops e) : e.IsReported := by
  cases h <;> exact trivial

/-- Whatever goes wrong in compiling a class is reported. -/
theorem failsOnly_compile {abi : Abi} (habi : abi ∈ Abi.all)
    (hsource : ∀ g ∈ source.functions, g.Drawn ∧ g.DefinesOnce) :
    FailsOnly Failure.IsReported (source.compile { abi := abi }).2.2 := by
  cases hcheck : source.check with
  | mk u outcome =>
    cases outcome with
    | ok passed =>
      exact (outcome_of_check (fun g hg => (hsource g hg).1) hcheck habi).1.mono
        fun _ => Stops.isReported
    | error e =>
      have hreported := failsOnly_check (fun g hg => (hsource g hg).2)
      rw [hcheck] at hreported
      unfold compile
      rw [hcheck]
      exact .error (hreported e rfl)

end ClassUnit

/-! ## Texts -/

theorem failsOnly_compileText {abi : Abi} (habi : abi ∈ Abi.all) (text source : String) :
    FailsOnly Failure.IsReported (compileText abi text source) := by
  refine .bind (.liftReported fun _ _ => trivial) fun u hread => ?_
  have hfunctions := ClassUnit.functions_of_read (liftReported_eq_ok.1 hread)
  exact .bind (ClassUnit.failsOnly_compile habi hfunctions) fun _ _ => .ok _

open Allocation.Progress in
/-- Compiling a text gives a class or an error to report, and never a fault. In the allocator
the count of taken registers is not negative at any moment of a walk; and every operator that
is no plain instruction has a form of its own, so that there is code for all of them. -/
theorem compileText_keeps_promises {abi : Abi} (habi : abi ∈ Abi.all) (text source : String) :
    ((∃ compiled, compileText abi text source = .ok compiled)
        ∨ ∃ e, compileText abi text source = .error (.reported e))
      ∧ (∀ code live, Liveness.ofCode code = .ok live →
        after abi live code.length
            = (actions live code.length).foldl (carryOut abi live) (start abi live)
          ∧ ∀ done, done <+: actions live code.length →
            0 ≤ (done.foldl (carryOut abi live) (start abi live)).pools.inUse)
      ∧ ∀ op, ((∃ alu, Selection.formOf op = .plain alu)
          ∨ op ∈ [.mul, .div, .rem, .shl, .shr, .ushr])
        ∧ ∀ scope st type left right result, ∃ code last,
          Selection.Yields scope (Selection.binaryCode op type left right result) st
            code last := by
  refine ⟨?_, fun code live hlive => ?_, fun op =>
    ⟨?_, fun scope st type left right result => ?_⟩⟩
  · cases hcompiled : compileText abi text source with
    | ok compiled => exact .inl ⟨compiled, rfl⟩
    | error e =>
      have hreported := failsOnly_compileText habi text source e hcompiled
      cases e with
      | reported e => exact .inr ⟨e, rfl⟩
      | fault f => exact hreported.elim
  · exact ⟨after_eq_foldl abi live code.length,
      fun done hdone => inUse_nonneg abi (Liveness.spec_of_ofCode hlive) _ hdone⟩
  · cases op with
    | add | sub | and | or | xor => exact .inl ⟨_, rfl⟩
    | mul | div | rem | shl | shr | ushr => exact .inr (by decide)
  · exact (Selection.failsOnly_binaryCode op type left right result).exists_yields

/-- A class with a function that defines a register twice. -/
def twiceText : String :=
  "function static main() returns V\n\tliteral I 1 -> %r0;\n\tliteral I 2 -> %r0;\n"
    ++ "\treturn;\nend function\n"

open Allocation.Progress in
/-- The second definition is reported by the reader. -/
theorem second_definition_is_reported :
    let p : Pseudo.Operand := .pseudo ⟨0, .long⟩
    let code : List Pseudo.Instr := [.mov .long (.imm 1) p, .mov .long p (.fixed .rax)]
    Abi.systemV ∈ Abi.all
      ∧ (∃ e, compileText .systemV twiceText "pkg/Main.jil" = .error (.reported e))
      ∧ (∃ live, Liveness.ofCode code = .ok live
        ∧ 0 ≤ (after .systemV live code.length).pools.inUse)
      ∧ .div ∈ [BinaryOp.mul, .div, .rem, .shl, .shr, .ushr] := by
  intro p code
  have hsystemV : Abi.systemV ∈ Abi.all := by decide
  obtain ⟨houtcome, hcount, hforms⟩ :=
    compileText_keeps_promises hsystemV twiceText "pkg/Main.jil"
  have hrefused : (compileText .systemV twiceText "pkg/Main.jil").toOption.isSome = false := by
    decide +kernel
  refine ⟨hsystemV, ?_, ?_, (hforms .div).1.resolve_left nofun⟩
  · rcases houtcome with ⟨compiled, h⟩ | h
    · rw [h] at hrefused
      cases hrefused
    · exact h
  · obtain ⟨live, hlive⟩ : ∃ live, Liveness.ofCode code = .ok live := ⟨_, rfl⟩
    obtain ⟨hafter, hnonneg⟩ := hcount code live hlive
    refine ⟨live, hlive, ?_⟩
    rw [hafter]
    exact hnonneg _ (List.prefix_refl _)

end Jil
