/-
Jil.Proofs.Building — functions are built with numbers that stay apart.

A function begins as a declaration or is read from a source, and then a builder
extends it by actions, each of which carries out one operation of
`Function.Build`. What a builder may do with labels is in `Draft.Reached`: it
places and targets only labels that it found in the function or that were drawn
for it. Under this condition a well numbered function stays well numbered, by one
lemma for each way in which the operations append statements
(`WellNumbered.statement`, `WellNumbered.define`, `WellNumbered.callWith`).

So every register is defined once, a label that is drawn is new, and the check of
the function does not come upon a second definition, whatever the class that it
is checked in (`numbers_stay_apart`). Counters go on for ever here, so nothing is
said of a function that needs more numbers than a machine has.
-/
import Jil.Proofs.Promises
import Jil.Proofs.UnitReading

namespace Jil

namespace Function

variable {f : Function}

/-- The labels that the statements of a function place or may jump to. -/
def mentionedLabels (f : Function) : List Label :=
  f.statements.filterMap Statement.mentionedLabel?

theorem mem_mentionedLabels {l : Label} :
    l ∈ f.mentionedLabels ↔ ∃ s ∈ f.body, s.statement.mentionedLabel? = some l := by
  simp [mentionedLabels, statements]

/-! ## Numbers -/

/-- A function without statements. -/
theorem wellNumbered_of_body_eq_nil (h : f.body = []) : f.WellNumbered where
  drawn := fun s hs => absurd (h ▸ hs) List.not_mem_nil
  once := by
    simp [DefinesOnce, definedRegisters, statements, h]
  labels := fun s hs => absurd (h ▸ hs) List.not_mem_nil

/-- The registers that are defined have been drawn, so the next one is another. -/
theorem WellNumbered.not_mem_definedRegisters (h : f.WellNumbered) :
    ⟨f.registerCount⟩ ∉ f.definedRegisters := by
  intro hmem
  obtain ⟨s, hs, hr⟩ := mem_definedRegisters.1 hmem
  exact Nat.lt_irrefl _ (h.drawn s hs _ hr)

/-- Drawing more registers and labels. -/
theorem WellNumbered.grow (h : f.WellNumbered) {registers labels : Nat}
    (hregisters : f.registerCount ≤ registers) (hlabels : f.labelCount ≤ labels) :
    ({ f with registerCount := registers, labelCount := labels } : Function).WellNumbered where
  drawn := fun s hs r hr => Nat.lt_of_lt_of_le (h.drawn s hs r hr) hregisters
  once := h.once
  labels := fun s hs l hl => Nat.lt_of_lt_of_le (h.labels s hs l hl) hlabels

/-- Appending a statement that defines a register which was drawn but not defined, if it
defines one, and mentions a label that was drawn, if it mentions one. -/
theorem WellNumbered.append (h : f.WellNumbered) {s : Statement}
    (hregister : ∀ r, s.definedRegister? = some r →
      r.index < f.registerCount ∧ r ∉ f.definedRegisters)
    (hlabel : ∀ l, s.mentionedLabel? = some l → l.index < f.labelCount) :
    (f.append s).WellNumbered where
  drawn := h.drawn.append fun r hr => (hregister r hr).1
  once := by
    unfold DefinesOnce
    rw [definedRegisters_append, List.nodup_append]
    refine ⟨h.once, ?_, ?_⟩
    · cases s.definedRegister? <;> simp
    · rintro r hr _ hs rfl
      exact (hregister r (Option.mem_toList.1 hs)).2 hr
  labels := by
    intro located hmem l hl
    rcases List.mem_append.1 hmem with hmem | hmem
    · exact h.labels located hmem l hl
    · rw [List.mem_singleton] at hmem
      subst hmem
      exact hlabel l hl

/-- Appending a statement that defines nothing. -/
theorem WellNumbered.statement (h : f.WellNumbered) {s : Statement}
    (hs : s.definedRegister? = none)
    (hlabel : ∀ l, s.mentionedLabel? = some l → l.index < f.labelCount) :
    ((Build.statement s).run f).2.WellNumbered :=
  h.append (fun r hr => by rw [hs] at hr; cases hr) hlabel

/-- Drawing a register and appending the statement that defines it. -/
theorem WellNumbered.define (h : f.WellNumbered) (s : Register → Statement)
    (hs : ∀ r, (s r).definedRegister? = some r) (hlabel : ∀ r, (s r).mentionedLabel? = none) :
    ((Build.define s).run f).2.WellNumbered := by
  refine (h.grow (Nat.le_succ f.registerCount) (Nat.le_refl _)).append
    (s := s ⟨f.registerCount⟩) (fun r hr => ?_) fun l hl => ?_
  · rw [hs, Option.some.injEq] at hr
    subst hr
    exact ⟨Nat.lt_succ_self _, h.not_mem_definedRegisters⟩
  · rw [hlabel] at hl
    cases hl

/-- Calls draw a register when their result is wanted. -/
theorem WellNumbered.callWith (h : f.WellNumbered) (wanted : Bool)
    (s : Option Register → Statement) (hs : ∀ r, (s r).definedRegister? = r)
    (hlabel : ∀ r, (s r).mentionedLabel? = none) :
    ((Build.callWith wanted s).run f).2.WellNumbered := by
  cases wanted with
  | true =>
    exact h.define (fun r => s (some r)) (fun r => hs (some r)) fun r => hlabel (some r)
  | false => exact h.statement (hs none) fun l hl => by rw [hlabel] at hl; cases hl

/-! ## Actions -/

namespace Build

/-- What the builder of a function can be asked for. -/
inductive Action where
  | setOrigin (origin : Origin)
  | copy (src : Register)
  | choose (first second : Register)
  | literal (type : Ty) (value : String)
  | string (value : String)
  | getLocal (name : String)
  | putLocal (name : String) (src : Register)
  | getParam (name : String)
  | getStatic (owner field : String)
  | getStaticAddress (owner field : String)
  | putStatic (owner field : String) (src : Register)
  | getField (object : Register) (field : String)
  | getFieldAddress (object : Register) (field : String)
  | putField (object : Register) (field : String) (src : Register)
  | compare (op : Comparison) (left right : Register)
  | binary (op : BinaryOp) (left right : Register)
  | unary (op : UnaryOp) (src : Register)
  | convert (src : Register) (target : Ty)
  | newLabel
  | placeLabel (l : Label)
  | branch (condition : Register) (expected : Bool) (target : Label)
  | jump (target : Label)
  | callActual (object : Option Register) (owner method : String) (args : List Register)
    (wanted : Bool)
  | callVirtual (object : Register) (method : String) (args : List Register) (wanted : Bool)
  | returnValue (src : Register)
  | returnVoid
  | startScope (name : String) (type : Ty)
  | endScope (name : String)

namespace Action

/-- The label that an action is given. -/
def givenLabel? : Action → Option Label
  | .placeLabel l | .branch _ _ l | .jump l => some l
  | _ => none

/-- Carries out an activity for what it does to the function. -/
def silently {α : Type} (b : Build α) : Build (Option Label) := do
  let _ ← b
  pure none

/-- Carries out an action; the result is the label that it draws, if it draws one. -/
def run : Action → Build (Option Label)
  | .setOrigin origin => silently (modify ({ · with origin := origin }))
  | .copy src => silently (Build.copy src)
  | .choose first second => silently (Build.choose first second)
  | .literal type value => silently (Build.literal type value)
  | .string value => silently (Build.string value)
  | .getLocal name => silently (Build.getLocal name)
  | .putLocal name src => silently (Build.putLocal name src)
  | .getParam name => silently (Build.getParam name)
  | .getStatic owner field => silently (Build.getStatic owner field)
  | .getStaticAddress owner field => silently (Build.getStaticAddress owner field)
  | .putStatic owner field src => silently (Build.putStatic owner field src)
  | .getField object field => silently (Build.getField object field)
  | .getFieldAddress object field => silently (Build.getFieldAddress object field)
  | .putField object field src => silently (Build.putField object field src)
  | .compare op left right => silently (Build.compare op left right)
  | .binary op left right => silently (Build.binary op left right)
  | .unary op src => silently (Build.unary op src)
  | .convert src target => silently (Build.convert src target)
  | .newLabel => some <$> Build.label
  | .placeLabel l => silently (Build.placeLabel l)
  | .branch condition expected target => silently (Build.branch condition expected target)
  | .jump target => silently (Build.jump target)
  | .callActual object owner method args wanted =>
    silently (Build.callActual object owner method args wanted)
  | .callVirtual object method args wanted =>
    silently (Build.callVirtual object method args wanted)
  | .returnValue src => silently (Build.returnValue src)
  | .returnVoid => silently Build.returnVoid
  | .startScope name type => silently (Build.startScope name type)
  | .endScope name => silently (Build.endScope name)

/-- An action that is given no label or one that was drawn keeps the numbers of a function in
order, and a label that it draws is below the count of labels. -/
theorem run_spec (a : Action) (h : f.WellNumbered)
    (hgiven : ∀ l, a.givenLabel? = some l → l.index < f.labelCount) :
    (a.run.run f).2.WellNumbered ∧ f.labelCount ≤ (a.run.run f).2.labelCount
      ∧ ∀ l, (a.run.run f).1 = some l → l.index < (a.run.run f).2.labelCount := by
  cases a with
  | setOrigin origin => exact ⟨⟨h.drawn, h.once, h.labels⟩, Nat.le_refl _, nofun⟩
  | newLabel =>
    refine ⟨h.grow (Nat.le_refl _) (Nat.le_succ f.labelCount), Nat.le_succ _, ?_⟩
    rintro l ⟨⟩
    exact Nat.lt_succ_self _
  | placeLabel l | branch condition expected target | jump target =>
    exact ⟨h.statement rfl hgiven, Nat.le_refl _, nofun⟩
  | putLocal _ _ | putStatic _ _ _ | putField _ _ _ | returnValue _ | returnVoid
  | startScope _ _ | endScope _ => exact ⟨h.statement rfl nofun, Nat.le_refl _, nofun⟩
  | callActual object owner method args wanted | callVirtual object method args wanted =>
    refine ⟨h.callWith wanted _ (fun _ => rfl) fun _ => rfl, ?_, nofun⟩
    cases wanted <;> exact Nat.le_refl _
  | copy _ | choose _ _ | literal _ _ | string _ | getLocal _ | getParam _ | getStatic _ _
  | getStaticAddress _ _ | getField _ _ | getFieldAddress _ _ | compare _ _ _ | binary _ _ _
  | unary _ _ | convert _ _ =>
    exact ⟨h.define _ (fun _ => rfl) fun _ => rfl, Nat.le_refl _, nofun⟩

end Action

end Build

end Function

/-! ## Drafts -/

open Function.Build (Action)

/-- A function that is being built, and the labels that its builder knows of. -/
structure Draft where
  function : Function
  labels : List Label

namespace Draft

/-- The draft after an action: the builder gets to know a label that is drawn. -/
def act (d : Draft) (a : Action) : Draft where
  function := (a.run.run d.function).2
  labels := (a.run.run d.function).1.toList ++ d.labels

/-- The drafts that builders come to. They begin with a declaration, with an
initializer or with a function that was read, whose labels they know, and act with
labels that they know of. -/
inductive Reached : Draft → Prop
  | declared (name : String) (kind : MemberKind) (params : List Param) (returns : Ty) :
    Reached ⟨{ name := name, kind := kind, params := params, returns := returns }, []⟩
  | initializer (kind : MemberKind) (params : List Param) :
    Reached ⟨.initializer kind params, []⟩
  | read {text source : String} {u : ClassUnit} {f : Function}
    (h : ClassUnit.read text source = .ok u) (hf : f ∈ u.functions) :
    Reached ⟨f, f.mentionedLabels⟩
  | act {d : Draft} {a : Action} (h : Reached d)
    (hgiven : ∀ l, a.givenLabel? = some l → l ∈ d.labels) : Reached (d.act a)

/-- The counters of a draft are ahead of all that its builder can refer to. -/
structure Sound (d : Draft) : Prop where
  function : d.function.WellNumbered
  labels : ∀ l ∈ d.labels, l.index < d.function.labelCount

theorem Sound.act {d : Draft} (h : d.Sound) {a : Action}
    (hgiven : ∀ l, a.givenLabel? = some l → l ∈ d.labels) : (d.act a).Sound := by
  obtain ⟨hfunction, hle, hdrawn⟩ := a.run_spec h.function fun l hl => h.labels l (hgiven l hl)
  refine ⟨hfunction, fun l hl => ?_⟩
  rcases List.mem_append.1 hl with hl | hl
  · exact hdrawn l (Option.mem_toList.1 hl)
  · exact Nat.lt_of_lt_of_le (h.labels l hl) hle

theorem Reached.sound {d : Draft} (h : d.Reached) : d.Sound := by
  induction h with
  | declared | initializer => exact ⟨Function.wellNumbered_of_body_eq_nil rfl, nofun⟩
  | read h hf =>
    have hnumbered := ClassUnit.wellNumbered_of_read h _ hf
    refine ⟨hnumbered, fun l hl => ?_⟩
    obtain ⟨s, hs, hmentioned⟩ := Function.mem_mentionedLabels.1 hl
    exact hnumbered.labels s hs l hmentioned
  | act _ hgiven ih => exact ih.act hgiven

/-- However a function is built, no two of its statements define the same register, the
registers that they define are below the count of registers, and the label that is drawn next
is none that the function places, may jump to or has drawn before. No class in which the
function is checked makes the check come upon a register that is defined twice. -/
theorem numbers_stay_apart {d : Draft} (h : d.Reached) :
    d.function.DefinesOnce
      ∧ (∀ r ∈ d.function.definedRegisters, r.index < d.function.registerCount)
      ∧ (∀ l, l ∈ d.function.mentionedLabels ∨ l ∈ d.labels →
        (Function.Build.label.run d.function).1 ≠ l)
      ∧ ∀ u r t, Typing.functionTypes u d.function ≠ .error (.fault (.definedTwice r t)) := by
  obtain ⟨hnumbered, hknown⟩ := h.sound
  refine ⟨hnumbered.once, fun r hr => ?_, fun l hl => ?_, fun u r t hfault => ?_⟩
  · obtain ⟨s, hs, hdefined⟩ := Function.mem_definedRegisters.1 hr
    exact hnumbered.drawn s hs r hdefined
  · have hlt : l.index < d.function.labelCount := by
      rcases hl with hl | hl
      · obtain ⟨s, hs, hmentioned⟩ := Function.mem_mentionedLabels.1 hl
        exact hnumbered.labels s hs l hmentioned
      · exact hknown l hl
    rintro rfl
    exact Nat.lt_irrefl _ hlt
  · have hrejected := ClassUnit.failsOnly_functionTypes hnumbered.once _ hfault
    exact absurd hrejected.1 nofun

/-- A function whose numbers are in no order and leave gaps. -/
def resumedText : String :=
  "function static main() returns V\n\tliteral Z true -> %r5;\n\tbranch true %r5 L7;\n"
    ++ "\tliteral I 1 -> %r3;\n\tlabel L7;\n\treturn;\nend function\n"

/-- A draft of the function in which a label is drawn after a jump to one that was there. -/
def resumed (f : Function) : Draft :=
  ((Draft.mk f f.mentionedLabels).act (.jump ⟨7⟩)).act .newLabel

/-- A function that is built on after it was read goes on with new numbers. -/
theorem resumed_numbers_stay_apart :
    ∃ u f, ClassUnit.read resumedText "pkg/Main.jil" = .ok u ∧ f ∈ u.functions
      ∧ ∃ d, d = ((resumed f).act (.branch ⟨5⟩ true ⟨8⟩)).act (.copy ⟨5⟩) ∧ d.Reached
        ∧ d.function.DefinesOnce ∧ d.function.definedRegisters = [⟨5⟩, ⟨3⟩, ⟨6⟩]
        ∧ (Function.Build.label.run d.function).1 ≠ ⟨8⟩
        ∧ ∀ r t, Typing.functionTypes u d.function ≠ .error (.fault (.definedTwice r t)) := by
  obtain ⟨u, hread, hu⟩ := ClassUnit.exists_of_any
    (x := ClassUnit.read resumedText "pkg/Main.jil")
    (p := fun u => u.functions.any fun f =>
      let d := ((resumed f).act (.branch ⟨5⟩ true ⟨8⟩)).act (.copy ⟨5⟩)
      decide (⟨7⟩ ∈ f.mentionedLabels ∧ ⟨8⟩ ∈ (resumed f).labels
        ∧ ⟨8⟩ ∈ d.function.mentionedLabels ∧ d.function.definedRegisters = [⟨5⟩, ⟨3⟩, ⟨6⟩]))
    (by decide +kernel)
  obtain ⟨f, hf, hnumbers⟩ := List.any_eq_true.1 hu
  obtain ⟨htext, hdrawn, hmentioned, hregisters⟩ := of_decide_eq_true hnumbers
  have hresumed : (resumed f).Reached :=
    ((Reached.read hread hf).act (a := .jump ⟨7⟩) (by rintro l ⟨⟩; exact htext)).act
      (a := .newLabel) nofun
  have hreached :=
    (hresumed.act (a := .branch ⟨5⟩ true ⟨8⟩) (by rintro l ⟨⟩; exact hdrawn)).act
    (a := .copy ⟨5⟩) nofun
  obtain ⟨honce, -, hnew, hfault⟩ := numbers_stay_apart hreached
  exact ⟨u, f, hread, hf, _, rfl, hreached, honce, hregisters,
    hnew _ (.inl hmentioned), hfault u⟩

end Draft

end Jil
