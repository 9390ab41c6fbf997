/-
Jil.Proofs.TextOrder — what a successful check has resolved, in the order of the text.

A check walks along the statements of a function with a context, and every
statement is judged in the context that those in front of it leave. What this
context holds can be read off the text: a register has the type that a statement
in front gave it (`Gives`), and a local variable is there when the last marker of
its name opens its scope (`InScope`). A statement that passes has found all that
it reads in its context (`Judges.used`, `exists_local_of_effect`), and what it
stores is accepted where it is stored (`fits_of_effect`). Labels alone are looked
up in the whole function.

`Function.ResolvedInOrder` says this for a whole function. It is about the text
and the recorded types, so what comes after the check need not look anything up a
second time. `ClassUnit.check_resolves_in_order` is the statement on units.
-/
import Jil.Proofs.Labels
import Jil.Proofs.Merging
import Jil.Proofs.Resolved

namespace Jil

open Pseudo (bind_eq_ok ite_eq_ok)

/-! ## Scopes of local variables -/

namespace Statement

/-- The local variable whose scope a statement opens or closes. -/
def scopeMarker? : Statement → Option String
  | .startScope name _ | .endScope name => some name
  | _ => none

/-- The local variable that a statement reads or writes. -/
def usedLocal? : Statement → Option String
  | .getLocal name _ | .putLocal name _ => some name
  | _ => none

theorem get?_scopeAfter {s : Statement} {locals : Table String Ty} {name : String}
    {type : Ty} :
    (s.scopeAfter locals).get? name = some type ↔
      s = .startScope name type ∨ s.scopeMarker? ≠ some name
      ∧ locals.get? name = some type := by
  cases s with
  | startScope name' type' =>
    rw [scopeAfter, Table.get?_insert]
    by_cases hname : name = name'
    · subst hname
      simp [scopeMarker?]
    · simp [scopeMarker?, hname, Ne.symm hname]
  | endScope name' =>
    rw [scopeAfter, Table.get?_erase]
    by_cases hname : name = name'
    · subst hname
      simp [scopeMarker?]
    · simp [scopeMarker?, hname, Ne.symm hname]
  | _ => simp [scopeAfter, scopeMarker?]

end Statement

/-- The last marker of a local variable opens its scope, with the type `type`. -/
def InScope (l : List Located) (name : String) (type : Ty) : Prop :=
  ∃ front marker rest, l = front ++ marker :: rest ∧ marker.statement = .startScope name type
    ∧ ∀ s ∈ rest, s.statement.scopeMarker? ≠ some name

theorem inScope_cons {s : Located} {l : List Located} {name : String} {type : Ty} :
    InScope (s :: l) name type ↔ InScope l name type
      ∨ s.statement = .startScope name type ∧ ∀ s ∈ l, s.statement.scopeMarker?
        ≠ some name := by
  constructor
  · rintro ⟨_ | ⟨s', front⟩, marker, rest, heq, hmarker, hrest⟩
    · cases heq
      exact .inr ⟨hmarker, hrest⟩
    · cases heq
      exact .inl ⟨front, marker, rest, rfl, hmarker, hrest⟩
  · rintro (⟨front, marker, rest, rfl, hmarker, hrest⟩ | ⟨hs, hl⟩)
    · exact ⟨s :: front, marker, rest, rfl, hmarker, hrest⟩
    · exact ⟨[], s, l, rfl, hs, hl⟩

/-- The last marker of a name decides whether it is in scope; without one it is as before. -/
theorem get?_openLocals {l : List Located} {locals : Table String Ty} {name : String}
    {type : Ty} :
    (openLocals locals l).get? name = some type ↔ InScope l name type
      ∨ locals.get? name = some type ∧ ∀ s ∈ l, s.statement.scopeMarker? ≠ some name := by
  induction l generalizing locals with
  | nil => simp [openLocals, InScope]
  | cons s l ih =>
    rw [openLocals, ih, inScope_cons, Statement.get?_scopeAfter, List.forall_mem_cons,
      or_and_right, or_assoc, and_assoc, and_left_comm]

/-! ## Registers -/

namespace Typing

variable {scope : Scope} {ctx last : Context} {origin : Origin}

/-- One of the statements `l` defined the register, and gave it the type. -/
def Gives (scope : Scope) (ctx : Context) (l : List Located) (r : Register) (t : Ty) : Prop :=
  ∃ front d rest before, l = front ++ d :: rest ∧ d.statement.definedRegister? = some r
    ∧ checkBody scope ctx front = .ok before
    ∧ effect scope before d.statement d.origin = .ok (.define r t)

/-- Statements that pass keep the types that they give. -/
theorem exists_gives_of_checkBody {l : List Located} (h : checkBody scope ctx l = .ok last)
    {d : Located} (hd : d ∈ l) {r : Register}
    (hdefined : d.statement.definedRegister? = some r) :
    ∃ t, last.registers.get? r = some t ∧ Gives scope ctx l r t := by
  obtain ⟨front, rest, rfl⟩ := List.append_of_mem hd
  obtain ⟨before, e, heffect, -, hkept, -, -, hfront⟩ := exists_effect_of_checkBody h
  have he := (judges_of_effect heffect).defined?.trans hdefined
  cases e with
  | define r' t =>
    cases he
    exact ⟨t, (hkept r t rfl).1, front, d, rest, before, rfl, hdefined, hfront, heffect⟩
  | _ => cases he

/-- A register that has a type behind statements has it from one of them. -/
theorem gives_of_checkBody {l : List Located} (h : checkBody scope ctx l = .ok last)
    {r : Register} {t : Ty} (hnew : ctx.registers.get? r = none)
    (ht : last.registers.get? r = some t) : Gives scope ctx l r t := by
  obtain ⟨d, hd, hdefined⟩ := (defined_of_checkBody h ht).resolve_left (by simp [hnew])
  obtain ⟨t', ht', hgives⟩ := exists_gives_of_checkBody h hd hdefined
  obtain rfl : t' = t := Option.some.inj (ht'.symm.trans ht)
  exact hgives

/-! ## What judgements read -/

/-- The local variable that a statement names has a type where the statement is judged. -/
theorem exists_local_of_effect {s : Statement} {name : String} {e : Effect}
    (h : effect scope ctx s origin = .ok e) (hs : s.usedLocal? = some name) :
    ∃ type, ctx.locals.get? name = some type := by
  cases judges_of_effect h with
  | getLocal hlocal | putLocal _ hlocal =>
    cases hs
    exact ⟨_, hlocal⟩
  | _ => cases hs

/-! ## Functions of the class -/

/-- A judgement looks at the functions of the class where it resolves calls, and nowhere at the
types that are recorded in them. -/
theorem effect_functions {u : ClassUnit} {functions : List Function}
    {index? : Option SignatureIndex}
    (hcalls : ({ u with functions := functions, index? := index? } : ClassUnit).resolveMethod
      = u.resolveMethod)
    (f : Function) (types : Option (Table Register Ty)) (ctx : Context) (s : Statement)
    (origin : Origin) :
    effect ⟨{ u with functions := functions, index? := index? },
        { f with registerTypes := types }⟩ ctx s origin
      = effect ⟨u, f⟩ ctx s origin := by
  cases s with
  | callActual object owner method args result =>
    simp only [effect, ClassUnit.returnType, hcalls]
  | callVirtual object method args result => simp only [effect, ClassUnit.returnType, hcalls]
  | _ => rfl

theorem checkBody_functions {u : ClassUnit} {functions : List Function}
    {index? : Option SignatureIndex}
    (hcalls : ({ u with functions := functions, index? := index? } : ClassUnit).resolveMethod
      = u.resolveMethod)
    (f : Function) (types : Option (Table Register Ty)) (ctx : Context) (l : List Located) :
    checkBody ⟨{ u with functions := functions, index? := index? },
        { f with registerTypes := types }⟩ ctx l
      = checkBody ⟨u, f⟩ ctx l := by
  induction l generalizing ctx with
  | nil => rfl
  | cons s l ih => simp only [checkBody, step, effect_functions hcalls, ih]

/-- The types that functions record do not matter to a check. -/
theorem checkBody_recorded (u : ClassUnit) (functions : List Function) (f : Function)
    (types : Option (Table Register Ty)) (ctx : Context) (l : List Located) :
    checkBody ⟨{ u with functions := functions }, { f with registerTypes := types }⟩ ctx l
      = checkBody ⟨u, f⟩ ctx l :=
  checkBody_functions (ClassUnit.resolveMethod_functions u functions) f types ctx l

end Typing

/-! ## Stores -/

/-- What the register holds is accepted where `declared` is declared. -/
def ClassUnit.Accepts (u : ClassUnit) (types : Table Register Ty) (declared : Ty)
    (src : Register) : Prop :=
  ∃ value, types.get? src = some value ∧ u.hierarchy.canAssign declared value = true

/-- A statement behind `front` stores what is accepted for the type declared where it is
stored: with the scope of a local variable, with a field, or as the result of the function. -/
def Statement.Fits (u : ClassUnit) (returns : Ty) (types : Table Register Ty)
    (front : List Located) (origin : Origin) : Statement → Prop
  | .putLocal name src =>
    ∃ declared, InScope front name declared ∧ u.Accepts types declared src
  | .putStatic owner field src =>
    ∃ declared, u.staticFieldType owner field origin = .ok declared
      ∧ u.Accepts types declared src
  | .putField object field src =>
    ∃ owner declared, types.get? object = some (.classRef owner)
      ∧ u.objectFieldType owner field origin = .ok declared ∧ u.Accepts types declared src
  | .returnValue src => returns.isVoid = false ∧ u.Accepts types returns src
  | _ => True

/-- What a judgement that is given says about a store. -/
theorem Typing.fits_of_effect {scope : Scope} {ctx : Context} {types : Table Register Ty}
    {front : List Located} {s : Statement} {origin : Origin} {e : Effect}
    (h : effect scope ctx s origin = .ok e)
    (hknown : ∀ r t, ctx.registers.get? r = some t → types.get? r = some t)
    (hlocals : ∀ name type, ctx.locals.get? name = some type → InScope front name type) :
    s.Fits scope.unit scope.function.returns types front origin := by
  cases judges_of_effect h with
  | putLocal hsrc hlocal hassign =>
    exact ⟨_, hlocals _ _ hlocal, _, hknown _ _ hsrc, hassign⟩
  | putStatic hsrc hfield hassign => exact ⟨_, hfield, _, hknown _ _ hsrc, hassign⟩
  | putField hobject hsrc hfield hassign =>
    exact ⟨_, _, hknown _ _ hobject, hfield, _, hknown _ _ hsrc, hassign⟩
  | returnValue hsrc hreturns hassign => exact ⟨hreturns, _, hknown _ _ hsrc, hassign⟩
  | _ => trivial

/-! ## Whole functions -/

/-- Everything that the statements of a function refer to is there, in the order of the
text. -/
structure Function.ResolvedInOrder (u : ClassUnit) (f : Function) (types : Table Register Ty) :
    Prop where
  /-- The registers with a type are those that statements define. -/
  domain : ∀ r, (∃ t, types.get? r = some t) ↔ r ∈ f.definedRegisters
  /-- A register that is read was defined in front, and is recorded with the type given
  there. -/
  operands : ∀ front s rest, f.body = front ++ s :: rest → ∀ r ∈ s.statement.usedRegisters,
    ∃ t, types.get? r = some t ∧ Typing.Gives ⟨u, f⟩ (.ofFunction f u.name) front r t
  /-- A local variable that is read or written is in scope. -/
  locals : ∀ front s rest, f.body = front ++ s :: rest → ∀ name,
    s.statement.usedLocal? = some name → ∃ type, InScope front name type
  /-- A label that is jumped to is placed somewhere in the function. -/
  targets : ∀ s ∈ f.statements, ∀ l, s.jumpTarget? = some l → .label l ∈ f.statements
  /-- What is stored is accepted where it is stored. -/
  stores : ∀ front s rest, f.body = front ++ s :: rest →
    s.statement.Fits u f.returns types front s.origin

/-- A body that passes is resolved in its order. -/
theorem Typing.resolvedInOrder_of_checkBody {u : ClassUnit} {f : Function} {last : Context}
    (h : checkBody ⟨u, f⟩ (.ofFunction f u.name) f.body = .ok last) :
    f.ResolvedInOrder u last.registers := by
  -- nothing is known of registers and local variables in front of the first statement
  have hregisters : ∀ r, (Context.ofFunction f u.name).registers.get? r = none := fun _ => rfl
  have hlocals : (Context.ofFunction f u.name).locals = .empty := rfl
  have hscopes : ∀ {l : List Located} {name : String} {type : Ty},
      (openLocals (Context.ofFunction f u.name).locals l).get? name = some type
        → InScope l name type := fun hname => by
    simpa [hlocals] using get?_openLocals.1 hname
  refine ⟨fun r => ?_, fun front s rest hbody r hr => ?_,
    fun front s rest hbody name hname => ?_,
    fun s hs l hl => ?_, fun front s rest hbody => ?_⟩
  · rw [Function.mem_definedRegisters]
    constructor
    · rintro ⟨t, ht⟩
      exact (defined_of_checkBody h ht).resolve_left (by simp [hregisters])
    · rintro ⟨d, hd, hdefined⟩
      exact (exists_gives_of_checkBody h hd hdefined).imp fun _ h => h.1
  · rw [hbody] at h
    obtain ⟨before, e, heffect, hgrows, -, -, -, hfront⟩ := exists_effect_of_checkBody h
    obtain ⟨t, ht⟩ := (judges_of_effect heffect).used r hr
    exact ⟨t, hgrows r t ht, gives_of_checkBody hfront (hregisters r) ht⟩
  · rw [hbody] at h
    obtain ⟨before, e, heffect, -, -, hopen, -⟩ := exists_effect_of_checkBody h
    obtain ⟨type, htype⟩ := exists_local_of_effect heffect hname
    exact ⟨type, hscopes (hopen ▸ htype)⟩
  · obtain ⟨located, hlocated, rfl⟩ := List.mem_map.1 hs
    obtain ⟨front, rest, hbody⟩ := List.append_of_mem hlocated
    rw [hbody] at h
    obtain ⟨before, e, heffect, -⟩ := exists_effect_of_checkBody h
    exact Function.mem_labels.1 (target_of_effect heffect hl)
  · rw [hbody] at h
    obtain ⟨before, e, heffect, hgrows, -, hopen, -⟩ := exists_effect_of_checkBody h
    exact fits_of_effect heffect hgrows fun name type htype => hscopes (hopen ▸ htype)

/-- A check that succeeds records, function by function, the types of registers, and
every function is resolved in its order: registers are defined in front of their uses
and keep the type that they were given, local variables are in scope, labels are placed,
and stores are accepted. -/
theorem ClassUnit.check_resolves_in_order {source u : ClassUnit}
    (h : source.check = (u, .ok ())) :
    u.functions.length = source.functions.length
      ∧ ∀ (position : Nat) (f : Function), u.functions[position]? = some f →
        ∃ g types, source.functions[position]? = some g
          ∧ f = { g with registerTypes := some types } ∧ f.ResolvedInOrder u types := by
  obtain ⟨-, hsource, -, hlength, hfunctions⟩ := check_eq_ok h
  refine ⟨hlength, fun position f hf => ?_⟩
  obtain ⟨g, ctx, hg, hbody, rfl⟩ := hfunctions position f hf
  refine ⟨g, ctx.registers, hg, rfl, ?_⟩
  -- the check saw the functions without the types that it recorded
  have hname : source.name = u.name := (congrArg ClassUnit.name hsource).symm
  rw [← hsource, hname] at hbody
  refine Typing.resolvedInOrder_of_checkBody ?_
  rw [← Typing.checkBody_recorded u source.functions _ g.registerTypes]
  exact hbody

/-- A function with two scopes of one name: what is read in the second has its type, and a jump
goes forward to a label. -/
def reopening : Function :=
  ((do
      .startScope "x" .int
      let n ← .getParam "n"
      .putLocal "x" n
      let narrow ← .getLocal "x"
      .endScope "x"
      .startScope "x" .long
      .putLocal "x" (← .convert narrow .long)
      let wide ← .getLocal "x"
      let done ← .label
      .branch (← .compare .equal n narrow) true done
      .putStatic "pkg/Scopes" "last" wide
      .placeLabel done
      .returnValue wide : Function.Build Unit).run
    { name := "reopen", kind := .static, params := [⟨.int, "n"⟩], returns := .long }).2

/-- The class of the function. -/
def scopesSource : ClassUnit :=
  ((ClassUnit.create "pkg/Scopes").addField .static .long "last" none).addFunction reopening

/-- The types that the check of the function finds. -/
def reopeningTypes : Table Register Ty :=
  ⟨[(⟨0⟩, .int), (⟨1⟩, .int), (⟨2⟩, .long), (⟨3⟩, .long), (⟨4⟩, .boolean)]⟩

/-- The check of the class succeeds, and its function is resolved. -/
theorem reopening_is_resolved :
    scopesSource.check = (scopesSource.check.1, .ok ())
      ∧ ∃ f, scopesSource.check.1.functions[0]? = some f
        ∧ f.ResolvedInOrder scopesSource.check.1 reopeningTypes := by
  have hcheck : scopesSource.check = (scopesSource.check.1, .ok ()) := rfl
  have hf : scopesSource.check.1.functions[0]?
      = some { reopening with registerTypes := some reopeningTypes } := rfl
  obtain ⟨g, types, -, hrecorded, hresolved⟩ :=
    (ClassUnit.check_resolves_in_order hcheck).2 0 _ hf
  obtain rfl : reopeningTypes = types :=
    Option.some.inj (congrArg Function.registerTypes hrecorded)
  exact ⟨hcheck, _, hf, hresolved⟩

end Jil
