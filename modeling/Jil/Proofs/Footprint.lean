/-
Jil.Proofs.Footprint — what the check of a statement reads and writes.

A statement names the registers that it reads (`usedRegisters`) and the one that
it defines (`definedRegister?`), and passes that come after the check go by these
names. The check looks registers up by itself, so the names have to agree with it.

* What it reads: two contexts that are `AlikeFor` the statement, that is, with the
  same local variables and parameters and the same types of the registers that are
  named, are judged alike (`effect_congr`).
* What it writes: a statement that passes `Leaves` the context as it was, but for
  the register that it names, and the local variable whose scope it opens or closes
  (`exists_leaves_of_effect`).

With an index that is up to date nothing else can happen than that an error is
reported, and then the context stays as it is (`check_keeps_to_names`).
-/
import Jil.Proofs.MemberLookup
import Jil.Proofs.Promises
import Jil.Proofs.TextOrder

namespace Jil

namespace Typing

variable {scope : Scope} {ctx ctx' : Context} {s : Statement} {origin : Origin}

/-! ## What is read -/

/-- Two contexts that a statement cannot tell apart, and in which the register that
it defines has no type. -/
structure Context.AlikeFor (s : Statement) (ctx ctx' : Context) : Prop where
  locals : ∀ name, ctx.locals.get? name = ctx'.locals.get? name
  params : ∀ name, ctx.params.get? name = ctx'.params.get? name
  used : ∀ r ∈ s.usedRegisters, ctx.registers.get? r = ctx'.registers.get? r
  undefined : ∀ r, s.definedRegister? = some r →
    ctx.registers.get? r = none ∧ ctx'.registers.get? r = none

namespace Context

theorem register_congr {r : Register} (h : ctx.registers.get? r = ctx'.registers.get? r) :
    ctx.register r origin = ctx'.register r origin := by
  rw [register, register, h]

theorem localType_congr {name : String} (h : ctx.locals.get? name = ctx'.locals.get? name) :
    ctx.localType name origin = ctx'.localType name origin := by
  rw [localType, localType, h]

theorem param_congr {name : String} (h : ctx.params.get? name = ctx'.params.get? name) :
    ctx.param name origin = ctx'.param name origin := by
  rw [param, param, h]

theorem objectClass_congr {r : Register} (h : ctx.registers.get? r = ctx'.registers.get? r) :
    ctx.objectClass r origin = ctx'.objectClass r origin := by
  rw [objectClass, objectClass, register_congr h]

theorem argTypes_congr {args : List Register}
    (h : ∀ r ∈ args, ctx.registers.get? r = ctx'.registers.get? r) :
    args.mapM (ctx.register · origin) = args.mapM (ctx'.register · origin) := by
  induction args with
  | nil => rfl
  | cons r args ih =>
    rw [List.mapM_cons, List.mapM_cons, register_congr (h r List.mem_cons_self),
      ih fun r' hr' => h r' (List.mem_cons_of_mem _ hr')]

theorem requireReceiver_congr {object : Option Register} {owner method : String}
    (h : ∀ r ∈ object.toList, ctx.registers.get? r = ctx'.registers.get? r) :
    requireReceiver ctx object owner method origin
      = requireReceiver ctx' object owner method origin := by
  cases object with
  | none => rfl
  | some r =>
    simp only [requireReceiver, register_congr (h r (List.mem_singleton.2 rfl))]

end Context

open Context

/-- A judgement reads the registers that the statement names, and no other ones. -/
theorem effect_congr (h : AlikeFor s ctx ctx') :
    effect scope ctx s origin = effect scope ctx' s origin := by
  have hused := h.used
  cases s with
  | copy src | unary _ src | convert src | branch src | putStatic _ _ src | returnValue src =>
    simp only [effect, register_congr (hused src (List.mem_singleton.2 rfl))]
  | putLocal name src =>
    simp only [effect, register_congr (hused src (List.mem_singleton.2 rfl)),
      localType_congr (h.locals name)]
  | choose left right | compare _ left right | binary _ left right =>
    simp only [effect, register_congr (hused left List.mem_cons_self),
      register_congr (hused right (List.mem_cons_of_mem _ (List.mem_singleton.2 rfl)))]
  | getField object | getFieldAddress object =>
    simp only [effect, objectClass_congr (hused object (List.mem_singleton.2 rfl))]
  | putField object field src =>
    simp only [effect, objectClass_congr (hused object List.mem_cons_self),
      register_congr (hused src (List.mem_cons_of_mem _ (List.mem_singleton.2 rfl)))]
  | getLocal name => simp only [effect, localType_congr (h.locals name)]
  | getParam name => simp only [effect, param_congr (h.params name)]
  | callActual object owner method args =>
    simp only [effect,
      requireReceiver_congr fun r hr => hused r (List.mem_append_left _ hr),
      argTypes_congr fun r hr => hused r (List.mem_append_right _ hr)]
  | callVirtual object method args =>
    simp only [effect, objectClass_congr (hused object List.mem_cons_self),
      argTypes_congr fun r hr => hused r (List.mem_cons_of_mem _ hr)]
  | literal | string | getStatic | getStaticAddress | jump | label | returnVoid | startScope
  | endScope => rfl

/-! ## What is written -/

/-- What a statement that passes leaves of a context: the register that it defines, if it
defines one, has the type, the local variable whose scope it opens or closes is there or not,
and all else is as it was. -/
structure Leaves (s : Statement) (type : Ty) (ctx after : Context) : Prop where
  defined : ∀ r, s.definedRegister? = some r → after.registers.get? r = some type
  registers : ∀ r, s.definedRegister? ≠ some r → after.registers.get? r = ctx.registers.get? r
  params : after.params = ctx.params
  opened : ∀ name t, s = .startScope name t → after.locals.get? name = some t
  closed : ∀ name, s = .endScope name → after.locals.get? name = none
  locals : ∀ name, s.scopeMarker? ≠ some name → after.locals.get? name = ctx.locals.get? name

/-- Scopes are opened and closed as the statement says, whatever happens to registers. -/
theorem leaves_of_apply {before after : Context} {type : Ty} {e : Effect} (hm : e.Matches s)
    (happly : before.apply e = (after, none))
    (hdefined : ∀ r, s.definedRegister? = some r → after.registers.get? r = some type)
    (hkept : ∀ r, s.definedRegister? ≠ some r →
      after.registers.get? r = before.registers.get? r) : Leaves s type before after := by
  obtain ⟨hlocals, hparams⟩ := apply_of_matches hm happly
  refine ⟨hdefined, hkept, hparams, ?_, ?_, fun name hname => ?_⟩
  · rintro name t rfl
    rw [hlocals]
    exact Table.get?_insert_self _ _ _
  · rintro name rfl
    rw [hlocals, Statement.scopeAfter, Table.get?_erase, if_pos rfl]
  · refine Option.ext fun t => ?_
    rw [hlocals, Statement.get?_scopeAfter]
    refine ⟨fun h => ?_, fun h => .inr ⟨hname, h⟩⟩
    rcases h with rfl | ⟨-, h⟩
    · exact absurd rfl hname
    · exact h

/-- Wherever the effect of a statement is carried out, it leaves the same type. -/
theorem exists_leaves_of_effect {e : Effect} (he : effect scope ctx s origin = .ok e) :
    ∃ type, ∀ before : Context,
      (∀ r, s.definedRegister? = some r → before.registers.get? r = none) →
      ∃ after, before.apply e = (after, none) ∧ Leaves s type before after := by
  have hjudges := judges_of_effect he
  have hm := hjudges.matches
  have hdefines := hjudges.defined?
  cases e with
  | define r t =>
    refine ⟨t, fun before hnew => ?_⟩
    have happly : before.apply (.define r t)
        = ({ before with registers := before.registers.insert r t }, none) := by
      rw [Context.apply, hnew r hdefines.symm]
      rfl
    refine ⟨_, happly, leaves_of_apply hm happly (fun r' hr' => ?_) fun r' hr' => ?_⟩
    · cases hdefines.trans hr'
      exact Table.get?_insert_self _ _ _
    · refine Table.get?_insert_of_ne _ _ ?_
      rintro rfl
      exact hr' hdefines.symm
  | _ =>
    -- no register gets a type, so that any type will do
    refine ⟨.void, fun before _ =>
      ⟨_, rfl, leaves_of_apply hm rfl (fun r hr => ?_) fun _ _ => rfl⟩⟩
    cases hdefines.trans hr

/-- The check of a statement keeps to the registers that the statement names. In two contexts
that the statement cannot tell apart it has the same outcome. Either both report the same error
and stay as they are; or both gain the register that the statement defines, with the same type,
and apart from it only the local variable changes whose scope the statement opens or closes. -/
theorem check_keeps_to_names {scope : Scope} (hfresh : scope.unit.rebuildIndex = scope.unit)
    {s : Located} {ctx ctx' : Context} (h : AlikeFor s.statement ctx ctx') :
    (∃ e, step scope ctx s = (ctx, some (.reported e))
        ∧ step scope ctx' s = (ctx', some (.reported e)))
      ∨ ∃ type after after', step scope ctx s = (after, none)
      ∧ step scope ctx' s = (after', none)
          ∧ Leaves s.statement type ctx after ∧ Leaves s.statement type ctx' after' := by
  have hsame :
      effect scope ctx s.statement s.origin = effect scope ctx' s.statement s.origin :=
    effect_congr h
  cases heffect : effect scope ctx s.statement s.origin with
  | error e =>
    have hreported := (failsOnly_effect s.statement e heffect).isReported
      (ClassUnit.rebuildIndex_eq_self_iff.1 hfresh)
    cases e with
    | reported e =>
      refine .inl ⟨e, ?_, ?_⟩
      · simp only [step, heffect]
      · simp only [step, ← hsame, heffect]
    | fault f => exact hreported.elim
  | ok e =>
    obtain ⟨type, hleaves⟩ := exists_leaves_of_effect heffect
    obtain ⟨after, happly, hafter⟩ := hleaves ctx fun r hr => (h.undefined r hr).1
    obtain ⟨after', happly', hafter'⟩ := hleaves ctx' fun r hr => (h.undefined r hr).2
    exact .inr ⟨type, after, after', step_eq_none.2 ⟨e, heffect, happly⟩,
      step_eq_none.2 ⟨e, hsame.symm.trans heffect, happly'⟩, hafter, hafter'⟩

/-- A sum of two registers. -/
def sumStatement : Located := ⟨.binary .add ⟨0⟩ ⟨1⟩ ⟨2⟩, .generated⟩

/-- A register that the sum does not name makes no difference, and keeps its type. -/
theorem sum_keeps_to_names :
    let scope : Scope :=
      ⟨.create "pkg/Main", { name := "run", kind := .static, params := [], returns := .void }⟩
    let ctx : Context := { registers := ⟨[(⟨0⟩, .int), (⟨1⟩, .int)]⟩ }
    let ctx' : Context := { registers := ⟨[(⟨7⟩, .boolean), (⟨1⟩, .int), (⟨0⟩, .int)]⟩ }
    scope.unit.rebuildIndex = scope.unit ∧ AlikeFor sumStatement.statement ctx ctx'
      ∧ ∃ type after after', step scope ctx sumStatement = (after, none)
        ∧ step scope ctx' sumStatement = (after', none)
        ∧ after.registers.get? ⟨2⟩ = some type ∧ after'.registers.get? ⟨2⟩ = some type
        ∧ after'.registers.get? ⟨7⟩ = some .boolean := by
  intro scope ctx ctx'
  have hfresh : scope.unit.rebuildIndex = scope.unit := rfl
  have halike : AlikeFor sumStatement.statement ctx ctx' := by
    refine ⟨fun _ => rfl, fun _ => rfl, by decide, ?_⟩
    rintro r ⟨⟩
    exact ⟨rfl, rfl⟩
  obtain ⟨e, he, -⟩ | ⟨type, after, after', hafter, hafter', hleaves, hleaves'⟩ :=
    check_keeps_to_names hfresh halike
  · exact absurd (congrArg Prod.snd he) nofun
  · exact ⟨hfresh, halike, type, after, after', hafter, hafter', hleaves.defined _ rfl,
      hleaves'.defined _ rfl, hleaves'.registers ⟨7⟩ (by decide)⟩

end Typing

end Jil
