/-
Jil.Proofs.Checked — what a successful check says about a function.

The context of a check only grows: a register that has a type keeps it to the
end, since a second definition is a fault (`Context.Grows`). So every statement
was judged in a context whose registers have the types that are recorded in
the end. `Statement.Judged` is what such a judgement says, `Checked.typed` that
it was given for every statement of a function.

`Function.Drawn` is the promise of those who build functions, that registers
are drawn before statements define them; building and reading keep it. Reading
also sees to it that each register is defined once (`Function.DefinesOnce`), and
that labels count as drawn once statements mention them: a function that was
read is well numbered (`Function.WellNumbered`).
-/
import Jil.ClassUnit.Reader
import Jil.Proofs.Judgements
import Jil.Selection.Context

namespace Jil

/-! ## Drawn registers -/

namespace Function

/-- Every register that a statement defines has been drawn. -/
def Drawn (f : Function) : Prop :=
  ∀ s ∈ f.body, ∀ r, s.statement.definedRegister? = some r → r.index < f.registerCount

/-- Appending a statement that defines no register, or one that has been drawn. -/
theorem Drawn.append {f : Function} (h : f.Drawn) {s : Statement}
    (hs : ∀ r, s.definedRegister? = some r → r.index < f.registerCount) :
    (f.append s).Drawn := by
  intro located hmem r hr
  rcases List.mem_append.1 hmem with hmem | hmem
  · exact h located hmem r hr
  · rw [List.mem_singleton] at hmem
    subst hmem
    exact hs r hr

end Function

/-! ## Registers that are defined once -/

namespace Function

/-- The registers that the statements of a function define, in order. -/
def definedRegisters (f : Function) : List Register :=
  f.statements.filterMap Statement.definedRegister?

/-- No two statements define the same register. -/
def DefinesOnce (f : Function) : Prop := f.definedRegisters.Nodup

theorem mem_definedRegisters {f : Function} {r : Register} :
    r ∈ f.definedRegisters ↔ ∃ s ∈ f.body, s.statement.definedRegister? = some r := by
  simp [definedRegisters, statements]

theorem definedRegisters_append (f : Function) (s : Statement) :
    (f.append s).definedRegisters = f.definedRegisters ++ s.definedRegister?.toList := by
  simp only [definedRegisters, statements, append, List.map_append, List.filterMap_append]
  cases hs : s.definedRegister? <;> simp [hs]

/-- The counters of a function are ahead of the registers that it defines, each of them once,
and of the labels that it places or may jump to. -/
structure WellNumbered (f : Function) : Prop where
  drawn : f.Drawn
  once : f.DefinesOnce
  labels : ∀ s ∈ f.body, ∀ l, s.statement.mentionedLabel? = some l → l.index < f.labelCount

end Function

/-! ## Reading -/

/-- What is remembered of a function that is being read agrees with its statements. -/
structure OpenFunction.Tracked (f : OpenFunction) : Prop where
  below : ∀ s ∈ f.function.body, ∀ r, s.statement.definedRegister? = some r →
    r.index < f.registers
  listed : f.function.definedRegisters = f.defined.reverse
  once : f.defined.Nodup
  labels : ∀ s ∈ f.function.body, ∀ l, s.statement.mentionedLabel? = some l →
    l.index < f.labels

/-- What has been read so far is well numbered. -/
structure Reading.Tracked (r : Reading) : Prop where
  functions : ∀ f ∈ r.unit.functions, f.WellNumbered
  statements : ∀ f, r.place = .statements f → f.Tracked

namespace Reader

open Pseudo (bind_eq_ok ite_eq_ok)

/-- Adding a statement raises the bound of registers over the one it defines, which was not
defined before, and the bound of labels over the one it mentions. -/
theorem addStatement_spec {f after : OpenFunction} {origin : Origin} {s : Statement}
    (hok : addStatement f origin s = .ok after) :
    after.function = ({ f.function with origin := origin } : Function).append s
      ∧ f.registers ≤ after.registers
      ∧ after.defined = s.definedRegister?.toList ++ f.defined
      ∧ (∀ r, s.definedRegister? = some r → r.index < after.registers ∧ r ∉ f.defined)
      ∧ f.labels ≤ after.labels
      ∧ ∀ l, s.mentionedLabel? = some l → l.index < after.labels := by
  have hmentioned : ∀ l l' : Label, some l = some l' →
      l'.index < max f.labels (l.index + 1) := by
    rintro l l' ⟨⟩
    exact Nat.le_max_right _ _
  cases hd : s.definedRegister? with
  | none =>
    cases hm : s.mentionedLabel? with
    | none =>
      simp only [addStatement, hd, hm, pure_bind] at hok
      cases hok
      exact ⟨rfl, Nat.le_refl _, rfl, nofun, Nat.le_refl _, nofun⟩
    | some l =>
      simp only [addStatement, hd, hm, pure_bind] at hok
      split at hok
      · cases hok
      · cases hok
        exact ⟨rfl, Nat.le_refl _, rfl, nofun, Nat.le_max_left _ _, hmentioned l⟩
  | some r =>
    have hdefined : r ∉ f.defined → ∀ r', some r = some r' →
        r'.index < max f.registers (r.index + 1) ∧ r' ∉ f.defined := by
      rintro hnot r' ⟨⟩
      exact ⟨Nat.le_max_right _ _, hnot⟩
    cases hm : s.mentionedLabel? with
    | none =>
      simp only [addStatement, hd, hm, pure_bind] at hok
      split at hok
      · cases hok
      next hnot =>
      split at hok
      · cases hok
      cases hok
      exact ⟨rfl, Nat.le_max_left _ _, rfl, hdefined hnot, Nat.le_refl _, nofun⟩
    | some l =>
      simp only [addStatement, hd, hm, pure_bind] at hok
      split at hok
      · cases hok
      next hnot =>
      split at hok
      · cases hok
      split at hok
      · cases hok
      cases hok
      exact ⟨rfl, Nat.le_max_left _ _, rfl, hdefined hnot, Nat.le_max_left _ _, hmentioned l⟩

theorem tracked_addStatement {f after : OpenFunction} {origin : Origin} {s : Statement}
    (h : f.Tracked) (hok : addStatement f origin s = .ok after) : after.Tracked := by
  obtain ⟨hfunction, hle, hlist, hdefined, hlabels, hmentioned⟩ := addStatement_spec hok
  refine ⟨fun located hmem r hr => ?_, ?_, ?_, fun located hmem l hl => ?_⟩
  · rw [hfunction] at hmem
    rcases List.mem_append.1 hmem with hmem | hmem
    · exact Nat.lt_of_lt_of_le (h.below located hmem r hr) hle
    · rw [List.mem_singleton] at hmem
      subst hmem
      exact (hdefined r hr).1
  · have hsame : ({ f.function with origin := origin } : Function).definedRegisters
        = f.defined.reverse := h.listed
    rw [hfunction, Function.definedRegisters_append, hsame, hlist, List.reverse_append]
    cases s.definedRegister? <;> rfl
  · rw [hlist]
    cases hd : s.definedRegister? with
    | none => exact h.once
    | some r => exact List.nodup_cons.2 ⟨(hdefined r hd).2, h.once⟩
  · rw [hfunction] at hmem
    rcases List.mem_append.1 hmem with hmem | hmem
    · exact Nat.lt_of_lt_of_le (h.labels located hmem l hl) hlabels
    · rw [List.mem_singleton] at hmem
      subst hmem
      exact hmentioned l hl

/-- Declarations concern other classes. -/
theorem functions_declaration {u after : ClassUnit} {s : List Char}
    (h : declaration u s = .ok after) : after.functions = u.functions := by
  simp only [declaration] at h
  split at h
  · unfold classDeclaration at h
    split at h
    · cases h
    · cases h; rfl
    · split at h
      · cases h; rfl
      · cases h
    · cases h
  · split at h
    · unfold fieldDeclaration at h
      split at h
      · obtain ⟨k, -, h⟩ := bind_eq_ok.1 h
        obtain ⟨⟨owner, name⟩, -, h⟩ := bind_eq_ok.1 h
        obtain ⟨t, -, h⟩ := bind_eq_ok.1 h
        cases h; rfl
      · cases h
    · split at h
      · simp only [methodDeclaration] at h
        obtain ⟨k, -, h⟩ := bind_eq_ok.1 h
        obtain ⟨⟨target, rest⟩, -, h⟩ := bind_eq_ok.1 h
        obtain ⟨⟨owner, name⟩, -, h⟩ := bind_eq_ok.1 h
        obtain ⟨⟨params, rest'⟩, -, h⟩ := bind_eq_ok.1 h
        obtain ⟨params', -, h⟩ := bind_eq_ok.1 h
        obtain ⟨result, -, h⟩ := bind_eq_ok.1 h
        cases h; rfl
      · cases h

theorem functions_memberLine {u after : ClassUnit} {k : MemberKind} {origin : Origin}
    {s : List Char} (h : memberLine u k origin s = .ok after) :
    after.functions = u.functions := by
  simp only [memberLine] at h
  obtain ⟨⟨t, name⟩, -, h⟩ := bind_eq_ok.1 h
  obtain ⟨t', -, h⟩ := bind_eq_ok.1 h
  cases h
  cases k <;> rfl

/-- A header has no statements yet. -/
theorem body_header {s : List Char} {f : Function} (h : header s = .ok f) : f.body = [] := by
  simp only [header] at h
  obtain ⟨k, -, h⟩ := bind_eq_ok.1 h
  obtain ⟨⟨name, params, rest⟩, -, h⟩ := bind_eq_ok.1 h
  obtain ⟨params', -, h⟩ := bind_eq_ok.1 h
  -- the list of exceptions is put into whatever function the rest of the header gives
  have hthrows : ∀ {g : Function} {varargs : Bool} {read : Except Malformation (List String)},
      g.body = [] →
      (do
        let g ← pure g
        let throws ← read
        pure { g with varargs := varargs, throws := throws }) = .ok f → f.body = [] := by
    intro g varargs read hg hf
    obtain ⟨_, hpure, hf⟩ := bind_eq_ok.1 hf
    cases hpure
    obtain ⟨throws, -, hf⟩ := bind_eq_ok.1 hf
    cases hf
    exact hg
  rcases ite_eq_ok.1 h with ⟨-, h⟩ | ⟨-, h⟩
  · rcases ite_eq_ok.1 h with ⟨-, h⟩ | ⟨-, h⟩
    · split at h <;> exact hthrows rfl h
    · cases h
  · obtain ⟨t, -, h⟩ := bind_eq_ok.1 h
    split at h <;> exact hthrows rfl h

end Reader

namespace Reading

open Pseudo (bind_eq_ok)
open Reader

theorem functions_addInterfaces (names : List (List Char)) (u : ClassUnit) :
    (names.foldl (fun u name => u.addInterface (String.ofList (Text.trim name))) u).functions
      = u.functions := by
  induction names generalizing u with
  | nil => rfl
  | cons name rest ih => exact ih _

/-- One line. -/
theorem Tracked.line {r after : Reading} {origin : Origin} {s : List Char} (h : r.Tracked)
    (hok : r.line origin s = .ok after) : after.Tracked := by
  have hplain : ∀ {u : ClassUnit} {place : Place}, u.functions = r.unit.functions →
      (∀ f, place ≠ .statements f) → Reading.Tracked ⟨u, place⟩ := fun hu hplace =>
    ⟨fun f hf => h.functions f (hu ▸ hf), fun f hf => absurd hf (hplace f)⟩
  unfold Reading.line at hok
  split at hok
  · simp only [outsideLine] at hok
    split at hok
    · cases hok
      exact hplain rfl nofun
    split at hok
    · cases hok
      exact hplain rfl nofun
    split at hok
    · cases hok
      exact hplain (functions_addInterfaces _ _) nofun
    split at hok
    · cases hd : declaration r.unit (Text.cutSpace s).2 with
      | error e => rw [hd] at hok; cases hok
      | ok u =>
        rw [hd] at hok
        cases hok
        exact hplain (functions_declaration hd) nofun
    split at hok
    · cases hk : kind (Text.trim (Text.cutSpace s).2) with
      | error e => rw [hk] at hok; cases hok
      | ok k =>
        rw [hk] at hok
        cases hok
        exact hplain rfl nofun
    split at hok
    · cases hf : header (Text.cutSpace s).2 with
      | error e => rw [hf] at hok; cases hok
      | ok f =>
        rw [hf] at hok
        cases hok
        have hbody : ({ f with origin := origin } : Function).body = [] :=
          (body_header hf : f.body = [])
        refine ⟨h.functions, fun g hg => ?_⟩
        cases hg
        refine ⟨fun located hmem => ?_, ?_, List.nodup_nil, fun located hmem => ?_⟩
        · rw [hbody] at hmem
          exact absurd hmem List.not_mem_nil
        · unfold Function.definedRegisters Function.statements
          rw [hbody]
          rfl
        · rw [hbody] at hmem
          exact absurd hmem List.not_mem_nil
    · cases hok
  · next k _ =>
    unfold membersLine at hok
    split at hok
    · cases hok
      exact hplain rfl nofun
    · obtain ⟨s', -, hok⟩ := bind_eq_ok.1 hok
      obtain ⟨u, hu, hok⟩ := bind_eq_ok.1 hok
      cases hok
      exact hplain (functions_memberLine hu) nofun
  · next f hplace =>
    have htracked := h.statements f hplace
    unfold statementsLine at hok
    split at hok
    · cases hok
      refine ⟨fun g hg => ?_, nofun⟩
      rcases List.mem_append.1 hg with hg | hg
      · exact h.functions g hg
      · rw [List.mem_singleton] at hg
        subst hg
        refine ⟨fun located hmem r hr =>
          Nat.lt_of_lt_of_le (htracked.below located hmem r hr) (Nat.le_max_right _ _), ?_,
          fun located hmem l hl =>
            Nat.lt_of_lt_of_le (htracked.labels located hmem l hl) (Nat.le_max_right _ _)⟩
        show f.function.definedRegisters.Nodup
        rw [htracked.listed]
        exact (List.reverse_perm _).nodup_iff.2 htracked.once
    split at hok
    · cases hok
      exact ⟨h.functions, fun g hg => by cases hg; exact htracked⟩
    · obtain ⟨s', -, hok⟩ := bind_eq_ok.1 hok
      obtain ⟨statement, -, hok⟩ := bind_eq_ok.1 hok
      obtain ⟨f', hf', hok⟩ := bind_eq_ok.1 hok
      cases hok
      exact ⟨h.functions, fun g hg => by cases hg; exact tracked_addStatement htracked hf'⟩

/-- What every line keeps holds of the class that was read. -/
theorem of_lines {P : Reading → Prop} {source : String} {last : Nat}
    {numbered : List (Nat × List Char)} {r : Reading} {u : ClassUnit}
    (hline : ∀ n s, (n, s) ∈ numbered → ∀ r after : Reading, P r →
      r.line ⟨source, n⟩ s = .ok after → P after)
    (h : P r) (hok : Reading.lines source last numbered r = .ok u) : P ⟨u, .outside⟩ := by
  induction numbered generalizing r with
  | nil =>
    obtain ⟨v, place⟩ := r
    cases place with
    | outside =>
      cases hok
      exact h
    | members k | statements f => cases hok
  | cons line rest ih =>
    obtain ⟨number, s⟩ := line
    have hrest : ∀ n s, (n, s) ∈ rest → ∀ r after : Reading, P r →
        r.line ⟨source, n⟩ s = .ok after → P after := fun n s hmem =>
      hline n s (List.mem_cons_of_mem _ hmem)
    rw [Reading.lines] at hok
    split at hok
    · exact ih hrest h hok
    · split at hok
      · next after hafter =>
        exact ih hrest (hline number s List.mem_cons_self r after h hafter) hok
      · cases hok

end Reading

/-- Functions that are read are well numbered. -/
theorem ClassUnit.wellNumbered_of_read {text source : String} {u : ClassUnit}
    (h : ClassUnit.read text source = .ok u) : ∀ f ∈ u.functions, f.WellNumbered := by
  have hcreate : ∀ name, Reading.Tracked ⟨create name, .outside⟩ := fun name =>
    ⟨fun f hf => absurd hf List.not_mem_nil, nofun⟩
  exact (Reading.of_lines (fun _ _ _ _ _ h hok => h.line hok) (hcreate _) h).functions

/-- Functions that are read have their registers drawn and define each of them once. -/
theorem ClassUnit.functions_of_read {text source : String} {u : ClassUnit}
    (h : ClassUnit.read text source = .ok u) :
    ∀ f ∈ u.functions, f.Drawn ∧ f.DefinesOnce := fun f hf =>
  have hf := ClassUnit.wellNumbered_of_read h f hf
  ⟨hf.drawn, hf.once⟩

/-! ## Contexts -/

namespace Typing

/-- Every register keeps its type. -/
def Context.Grows (ctx after : Context) : Prop :=
  ∀ r t, ctx.registers.get? r = some t → after.registers.get? r = some t

theorem Context.Grows.refl (ctx : Context) : ctx.Grows ctx := fun _ _ h => h

theorem Context.Grows.trans {a b c : Context} (h : a.Grows b) (h' : b.Grows c) : a.Grows c :=
  fun r t hr => h' r t (h r t hr)

/-- A statement without an error has an effect, which is carried out without a fault. -/
theorem step_eq_none {scope : Scope} {ctx after : Context} {s : Located} :
    step scope ctx s = (after, none) ↔
      ∃ e, effect scope ctx s.statement s.origin = .ok e ∧ ctx.apply e = (after, none) := by
  unfold step
  cases effect scope ctx s.statement s.origin with
  | error e => simp
  | ok e =>
    simp only [Except.ok.injEq, exists_eq_left']
    constructor
    · intro h
      obtain ⟨hafter, hfault⟩ := Prod.mk.inj h
      exact Prod.ext hafter (by simpa using hfault)
    · intro h
      rw [h]
      rfl

/-- Without a fault a register is defined that had no type. -/
theorem Context.fresh_of_apply {ctx after : Context} {r : Register} {t : Ty}
    (h : ctx.apply (.define r t) = (after, none)) : ctx.registers.get? r = none := by
  simpa using (Prod.mk.inj h).2

theorem Context.grows_of_apply {ctx after : Context} {e : Effect}
    (h : ctx.apply e = (after, none)) : ctx.Grows after := by
  cases e with
  | define r t =>
    have hnone := Context.fresh_of_apply h
    obtain ⟨rfl, -⟩ := Prod.mk.inj h
    intro r' t' hr'
    have hne : r' ≠ r := by
      rintro rfl
      rw [hnone] at hr'
      cases hr'
    simpa [Table.get?_insert_of_ne _ _ hne] using hr'
  | _ =>
    cases h
    exact .refl _

theorem grows_of_checkBody {scope : Scope} {ctx after : Context} {l : List Located}
    (h : checkBody scope ctx l = .ok after) : ctx.Grows after := by
  induction l generalizing ctx with
  | nil =>
    cases h
    exact .refl _
  | cons s l ih =>
    rw [checkBody] at h
    split at h
    · next mid hstep =>
      obtain ⟨e, -, happly⟩ := step_eq_none.1 hstep
      exact (Context.grows_of_apply happly).trans (ih h)
    · cases h

end Typing

/-! ## Judgements -/

namespace Typing

/-- A value of type `value` can be kept where `declared` is declared: the types are equal, or
the value is a reference and so is what is declared. -/
def Stores (declared value : Ty) : Prop :=
  declared = value ∨ declared.isReference = true ∧ value.isReference = true

theorem stores_of_canAssign {h : ClassHierarchy} {declared value : Ty}
    (hok : h.canAssign declared value = true) : Stores declared value := by
  unfold ClassHierarchy.canAssign at hok
  rw [Bool.or_eq_true, decide_eq_true_eq] at hok
  rcases hok with heq | hok
  · exact .inl heq
  · right
    split at hok
    · exact ⟨hok, rfl⟩
    · refine ⟨rfl, ?_⟩
      split at hok
      · exact hok
      · split at hok
        · rfl
        · cases hok
    · exact ⟨rfl, rfl⟩
    · cases hok

/-- What a merge gives can hold what is merged. -/
theorem stores_of_merged {scope : Scope} {first second : Register} {a b t : Ty}
    {origin : Origin} (hok : scope.merged first second a b origin = .ok t) :
    (t = a ∨ a.isReference = true) ∧ (t = b ∨ b.isReference = true) := by
  unfold Scope.merged at hok
  split at hok
  · split at hok
    · next heq =>
      cases hok
      exact ⟨.inl rfl, .inl heq⟩
    · cases hok
  · next hprimitive =>
    simp only [Ty.isPrimitive, Bool.or_eq_true, Bool.not_eq_true', not_or, Bool.not_eq_false]
      at hprimitive
    exact ⟨.inr hprimitive.1, .inr hprimitive.2⟩

end Typing

/-- What a check has found out about the types of a statement's operands and of its result. -/
def Statement.Judged (types : Table Register Ty) (locals params : Table String Ty) :
    Statement → Prop
  | .copy src dest => ∃ t, types.get? src = some t ∧ types.get? dest = some t
  | .choose first second result =>
    ∃ a b t, types.get? first = some a ∧ types.get? second = some b
      ∧ types.get? result = some t
      ∧ (t = a ∨ a.isReference = true) ∧ (t = b ∨ b.isReference = true)
  | .literal type value result =>
    types.get? result = some type ∧ ∃ bits, Literal.bits? type value.toList = some bits
  | .getLocal name result => ∃ t, locals.get? name = some t ∧ types.get? result = some t
  | .putLocal name src =>
    ∃ value declared, types.get? src = some value ∧ locals.get? name = some declared
      ∧ Typing.Stores declared value
  | .getParam name result => ∃ t, params.get? name = some t ∧ types.get? result = some t
  | .getStaticAddress _ _ result | .getFieldAddress _ _ result =>
    types.get? result = some .long
  | .compare op left right result =>
    ∃ a b, types.get? left = some a ∧ types.get? right = some b
      ∧ Typing.comparable op a b = true ∧ types.get? result = some .boolean
  | .binary op left right result =>
    ∃ a b, types.get? left = some a ∧ types.get? right = some b
      ∧ Typing.binaryOperands op a b = true ∧ types.get? result = some a ∧ right ≠ result
  | .unary op src result =>
    ∃ t, types.get? src = some t ∧ Typing.unaryOperand op t = true ∧ types.get? result = some t
  | .convert src target result =>
    ∃ t, types.get? src = some t ∧ t.isNumeric = true ∧ target.isNumeric = true
      ∧ types.get? result = some target
  | .branch condition _ _ => types.get? condition = some .boolean
  | _ => True

/-- The local variables in scope behind a statement. -/
def Statement.scopeAfter (locals : Table String Ty) : Statement → Table String Ty
  | .startScope name type => locals.insert name type
  | .endScope name => locals.erase name
  | _ => locals

/-- The local variables in scope behind statements. -/
def openLocals (locals : Table String Ty) : List Located → Table String Ty
  | [] => locals
  | s :: rest => openLocals (s.statement.scopeAfter locals) rest

namespace Typing

open Pseudo (bind_eq_ok ite_eq_ok)

/-- Effects define the register of their statement, or open or close a scope as it says. -/
def Effect.Matches (s : Statement) : Effect → Prop
  | .none => ∀ locals, s.scopeAfter locals = locals
  | .define r _ => s.definedRegister? = some r ∧ ∀ locals, s.scopeAfter locals = locals
  | .openScope name type => s = .startScope name type
  | .closeScope name => s = .endScope name

/-- A judgement that is given has an effect of the kind of the statement. -/
theorem Judges.matches {scope : Scope} {ctx : Context} {s : Statement} {origin : Origin}
    {e : Effect} (h : Judges scope ctx origin s e) : e.Matches s := by
  have hscope : ∀ locals : Table String Ty, locals = locals := fun _ => rfl
  cases h with
  | copy | choose | literal | string | getLocal | getParam | getStatic | getStaticAddress
  | getField | getFieldAddress | compare | binary | unary | convert => exact ⟨rfl, hscope⟩
  | putLocal | putStatic | putField | branch | jump | label | returnValue | returnVoid =>
    exact hscope
  | @callActual _ _ _ _ result | @callVirtual _ _ _ _ result =>
    cases result with
    | none => exact hscope
    | some r => exact ⟨rfl, hscope⟩
  | startScope | endScope => rfl

/-- The types in the end: those that were known before an effect, and the one that it adds. -/
structure Effect.Recorded (e : Effect) (ctx : Context) (types : Table Register Ty) : Prop where
  known : ∀ r t, ctx.registers.get? r = some t → types.get? r = some t
  added : ∀ r t, e = .define r t → types.get? r = some t
  fresh : ∀ r t, e = .define r t → ctx.registers.get? r = .none

/-- A judgement that is given fixes the types of the operands and of the result. -/
theorem Judges.judged {scope : Scope} {ctx : Context} {s : Statement} {origin : Origin}
    {e : Effect} (h : Judges scope ctx origin s e) {types : Table Register Ty}
    (hr : e.Recorded ctx types) :
    s.Judged types ctx.locals ctx.params := by
  cases h with
  | copy hsrc => exact ⟨_, hr.known _ _ hsrc, hr.added _ _ rfl⟩
  | choose hfirst hsecond hmerged =>
    obtain ⟨ha, hb⟩ := stores_of_merged hmerged
    exact ⟨_, _, _, hr.known _ _ hfirst, hr.known _ _ hsecond, hr.added _ _ rfl, ha, hb⟩
  | literal hbits => exact ⟨hr.added _ _ rfl, _, hbits⟩
  | getLocal hname | getParam hname => exact ⟨_, hname, hr.added _ _ rfl⟩
  | putLocal hsrc hlocal hassign =>
    exact ⟨_, _, hr.known _ _ hsrc, hlocal, stores_of_canAssign hassign⟩
  | getStaticAddress | getFieldAddress => exact hr.added _ _ rfl
  | compare hleft hright hoperands =>
    exact ⟨_, _, hr.known _ _ hleft, hr.known _ _ hright, hoperands, hr.added _ _ rfl⟩
  | binary hleft hright hoperands =>
    refine ⟨_, _, hr.known _ _ hleft, hr.known _ _ hright, hoperands, hr.added _ _ rfl, ?_⟩
    rintro rfl
    cases (hr.fresh _ _ rfl).symm.trans hright
  | unary hsrc hoperand => exact ⟨_, hr.known _ _ hsrc, hoperand, hr.added _ _ rfl⟩
  | convert hsrc hnumeric htarget =>
    exact ⟨_, hr.known _ _ hsrc, hnumeric, htarget, hr.added _ _ rfl⟩
  | branch hcondition => exact hr.known _ _ hcondition
  | _ => trivial

/-- Carrying out the effect of a statement opens and closes scopes as the statement says. -/
theorem apply_of_matches {ctx after : Context} {e : Effect} {s : Statement} (hm : e.Matches s)
    (h : ctx.apply e = (after, none)) :
    after.locals = s.scopeAfter ctx.locals ∧ after.params = ctx.params := by
  cases e with
  | none =>
    cases h
    exact ⟨(hm _).symm, rfl⟩
  | define r t =>
    cases (Prod.mk.inj h).1
    exact ⟨(hm.2 _).symm, rfl⟩
  | openScope name type | closeScope name =>
    cases hm
    cases h
    exact ⟨rfl, rfl⟩

/-- The effect of a statement that passes is one of its kind. -/
theorem matches_of_step {scope : Scope} {ctx after : Context} {s : Located}
    (h : step scope ctx s = (after, none)) :
    ∃ e, ctx.apply e = (after, none) ∧ e.Matches s.statement := by
  obtain ⟨e, heffect, happly⟩ := step_eq_none.1 h
  exact ⟨e, happly, (judges_of_effect heffect).matches⟩

/-- A statement that passes opens and closes scopes as it says. -/
theorem scopes_of_step {scope : Scope} {ctx after : Context} {s : Located}
    (h : step scope ctx s = (after, none)) :
    after.locals = s.statement.scopeAfter ctx.locals ∧ after.params = ctx.params := by
  obtain ⟨e, happly, hmatches⟩ := matches_of_step h
  exact apply_of_matches hmatches happly

/-- How a statement of a body that passes was judged: in the context that the statements in
front of it leave, which the last one extends, with the scopes open that they have opened. -/
theorem exists_effect_of_checkBody {scope : Scope} {ctx last : Context}
    {pre rest : List Located} {s : Located}
    (h : checkBody scope ctx (pre ++ s :: rest) = .ok last) :
    ∃ before e, effect scope before s.statement s.origin = .ok e ∧ before.Grows last
      ∧ (∀ r t, e = .define r t →
        last.registers.get? r = some t ∧ before.registers.get? r = none)
      ∧ before.locals = openLocals ctx.locals pre ∧ before.params = ctx.params
      ∧ checkBody scope ctx pre = .ok before := by
  induction pre generalizing ctx with
  | nil =>
    rw [List.nil_append, checkBody] at h
    split at h
    · next after hstep =>
      obtain ⟨e, heffect, happly⟩ := step_eq_none.1 hstep
      have hgrows := grows_of_checkBody h
      refine ⟨ctx, e, heffect, (Context.grows_of_apply happly).trans hgrows, ?_, rfl, rfl, rfl⟩
      rintro r t rfl
      refine ⟨hgrows r t ?_, Context.fresh_of_apply happly⟩
      rw [← (Prod.mk.inj happly).1]
      exact Table.get?_insert_self _ _ _
    · cases h
  | cons s' pre ih =>
    rw [List.cons_append, checkBody] at h
    split at h
    · next after hstep =>
      obtain ⟨hlocals, hparams⟩ := scopes_of_step hstep
      rw [openLocals, ← hlocals, ← hparams]
      simpa only [checkBody, hstep] using ih h
    · cases h

/-- The judgements on the statements of a body that passes. -/
theorem judged_of_checkBody {scope : Scope} {ctx last : Context} {pre rest : List Located}
    {s : Located} (h : checkBody scope ctx (pre ++ s :: rest) = .ok last) :
    s.statement.Judged last.registers (openLocals ctx.locals pre) ctx.params := by
  obtain ⟨before, e, heffect, hgrows, hnew, hlocals, hparams, -⟩ :=
    exists_effect_of_checkBody h
  rw [← hlocals, ← hparams]
  exact (judges_of_effect heffect).judged
    ⟨hgrows, fun r t he => (hnew r t he).1, fun r t he => (hnew r t he).2⟩

/-- Only registers that statements define get a type. -/
theorem defined_of_checkBody {scope : Scope} {ctx last : Context} {l : List Located}
    (h : checkBody scope ctx l = .ok last) {r : Register} {t : Ty}
    (hr : last.registers.get? r = some t) :
    ctx.registers.get? r = some t ∨ ∃ s ∈ l, s.statement.definedRegister? = some r := by
  induction l generalizing ctx with
  | nil =>
    cases h
    exact .inl hr
  | cons s l ih =>
    rw [checkBody] at h
    split at h
    · next after hstep =>
      rcases ih h with hafter | ⟨s', hs', hdef⟩
      · obtain ⟨e, happly, hmatches⟩ := matches_of_step hstep
        cases e with
        | define r' t' =>
          rw [← (Prod.mk.inj happly).1] at hafter
          by_cases heq : r = r'
          · subst heq
            exact .inr ⟨s, List.mem_cons_self, hmatches.1⟩
          · rw [Table.get?_insert_of_ne _ _ heq] at hafter
            exact .inl hafter
        | _ =>
          cases happly
          exact .inl hafter
      · exact .inr ⟨s', List.mem_cons_of_mem _ hs', hdef⟩
    · cases h

end Typing

/-! ## Checked functions -/

/-- A function of a unit that passed its check. -/
def Checked (u : ClassUnit) (position : Nat) (f : Function) : Prop :=
  ∃ source : ClassUnit, source.check = (u, .ok ()) ∧ (∀ g ∈ source.functions, g.Drawn)
    ∧ u.functions[position]? = some f

/-- The function of a class with no other. -/
theorem checked_of_single {n : String} {f g : Function} {u : ClassUnit} (hdrawn : f.Drawn)
    (hcheck : ((ClassUnit.create n).addFunction f).check = (u, .ok ()))
    (hg : u.functions[0]? = some g) : Checked u 0 g := by
  refine ⟨_, hcheck, fun f' hf' => ?_, hg⟩
  have hfunctions : ((ClassUnit.create n).addFunction f).functions = [f] := rfl
  rw [hfunctions, List.mem_singleton] at hf'
  rw [hf']
  exact hdrawn

/-- Types of the parameters of a function, the receiver as `this`. -/
def Function.paramTable (f : Function) (owner : String) : Table String Ty :=
  (Typing.Context.ofFunction f owner).params

/-- What a check has found out about a function of the class `owner`. -/
structure Function.Typed (f : Function) (owner : String) (types : Table Register Ty) :
    Prop where
  recorded : f.registerTypes = some types
  /-- Registers with a type have been drawn. -/
  drawn : ∀ r t, types.get? r = some t → r.index < f.registerCount
  judged : ∀ pre s post, f.body = pre ++ s :: post →
    s.statement.Judged types (openLocals .empty pre) (f.paramTable owner)

/-- Recording types changes neither the names nor the signatures of functions. -/
theorem Typing.map_recordTypes {functions : List Function} {types : List (Table Register Ty)}
    (h : types.length = functions.length) :
    (recordTypes functions types).map (fun f => (f.key, f.info))
      = functions.map fun f => (f.key, f.info) := by
  induction functions generalizing types with
  | nil => rfl
  | cons f functions ih =>
    cases types with
    | nil => cases h
    | cons t types => exact congrArg ((f.key, f.info) :: ·) (ih (Nat.succ.inj h))

/-- A unit that passed its check is the one that was checked, with the types of registers
recorded in its functions. -/
theorem ClassUnit.check_eq_ok {source u : ClassUnit} (h : source.check = (u, .ok ())) :
    source.checkDefaults = .ok () ∧ { u with functions := source.functions }
      = source.rebuildIndex
      ∧ u.rebuildIndex = u ∧ u.functions.length = source.functions.length
      ∧ ∀ (position : Nat) (f : Function), u.functions[position]? = some f →
        ∃ g ctx, source.functions[position]? = some g
          ∧ Typing.checkBody ⟨source.rebuildIndex, g⟩ (.ofFunction g source.name) g.body
            = .ok ctx
          ∧ f = { g with registerTypes := some ctx.registers } := by
  unfold ClassUnit.check at h
  split at h
  · cases h
  · next hdefaults =>
    simp only at h
    split at h
    · cases h
    · next allTypes htypes =>
      cases h
      obtain ⟨hlen, hget⟩ := Pseudo.getElem?_of_mapM_eq_ok htypes
      have hlength : (Typing.recordTypes source.functions allTypes).length
          = source.functions.length := by
        rw [Typing.recordTypes, List.length_zipWith, hlen]
        exact Nat.min_self _
      refine ⟨hdefaults, ?_, rfl, hlength, fun position f hf => ?_⟩
      · exact congrArg
          (fun methods => { source with index? := some (SignatureIndex.build methods) })
          (Typing.map_recordTypes hlen)
      · have hrecord : (Typing.recordTypes source.functions allTypes)[position]? = some f := hf
        rw [Typing.recordTypes, List.getElem?_zipWith] at hrecord
        split at hrecord
        · next g types hg ht =>
          cases hrecord
          obtain ⟨types', ht', hok⟩ := hget position g hg
          rw [ht, Option.some.injEq] at ht'
          subst ht'
          obtain ⟨ctx, hbody, heq⟩ := Pseudo.bind_eq_ok.1 hok
          cases heq
          exact ⟨g, ctx, hg, hbody, rfl⟩
        · cases hrecord

theorem Checked.typed {u : ClassUnit} {position : Nat} {f : Function}
    (h : Checked u position f) :
    ∃ types, f.Typed u.name types := by
  obtain ⟨source, hcheck, hdrawn, hf⟩ := h
  obtain ⟨-, hsource, -, -, hfunctions⟩ := ClassUnit.check_eq_ok hcheck
  obtain ⟨g, ctx, hg, hbody, rfl⟩ := hfunctions position f hf
  rw [show source.name = u.name from (congrArg ClassUnit.name hsource).symm] at hbody
  refine ⟨ctx.registers, rfl, fun r t hr => ?_, fun pre s post heq => ?_⟩
  · rcases Typing.defined_of_checkBody hbody hr with hnone | ⟨s, hs, hdef⟩
    · cases hnone
    · exact hdrawn g (List.mem_of_getElem? hg) s hs r hdef
  · rw [show g.body = pre ++ s :: post from heq] at hbody
    exact Typing.judged_of_checkBody hbody

/-- How the statements of a checked function were judged: in a unit with the same members, and
in contexts that the recorded types extend. -/
theorem Checked.exists_effect {u : ClassUnit} {position : Nat} {f : Function}
    (h : Checked u position f) {types : Table Register Ty}
    (hrecorded : f.registerTypes = some types) {s : Located} (hs : s ∈ f.body) :
    ∃ (scope : Typing.Scope) (functions : List Function) (ctx : Typing.Context)
    (e : Typing.Effect),
      { u with functions := functions } = scope.unit ∧ scope.function.body = f.body
        ∧ Typing.effect scope ctx s.statement s.origin = .ok e
        ∧ (∀ r t, ctx.registers.get? r = some t → types.get? r = some t)
        ∧ ∀ r t, e = .define r t → types.get? r = some t := by
  obtain ⟨source, hcheck, -, hf⟩ := h
  obtain ⟨-, hsource, -, -, hfunctions⟩ := ClassUnit.check_eq_ok hcheck
  obtain ⟨g, ctx, -, hbody, rfl⟩ := hfunctions position f hf
  cases hrecorded
  obtain ⟨pre, post, hsplit⟩ := List.append_of_mem hs
  rw [show g.body = pre ++ s :: post from hsplit] at hbody
  obtain ⟨before, e, heffect, hgrows, hnew, -⟩ := Typing.exists_effect_of_checkBody hbody
  exact ⟨⟨source.rebuildIndex, g⟩, _, before, e, hsource, rfl, heffect, hgrows,
    fun r t he => (hnew r t he).1⟩

end Jil
