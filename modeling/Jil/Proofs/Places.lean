/-
Jil.Proofs.Places — where the values of a function are kept while it is selected.

A `Place` is what statements name: a register, a local variable, a parameter or
the environment. Selecting gives every place a pseudo-register, and draws more
for values in between; a `Supply` is what has been drawn so far, with sizes.

`Laid` is the invariant of selecting: different places have different
pseudo-registers, all drawn, and places with a type have one of the size of the
type. It holds behind the entry of a function (`laid_start`), and it is kept by
everything that draws and by the opening and closing of scopes.
-/
import Jil.Proofs.Checked
import Jil.Proofs.Selecting
import Jil.Proofs.Words

namespace Jil.Selection

open Jil.Machine (Abi Size)
open Jil.Pseudo (Instr Reg bind_eq_ok ite_eq_ok)

/-! ## Sizes of types -/

theorem sizeOf_of_isReference {t : Ty} (h : t.isReference = true) : sizeOf t = .quad := by
  cases t <;> first | rfl | cases h

/-- What can hold a value is not wider. -/
theorem bytes_le_of_stores {t u : Ty} (h : t = u ∨ u.isReference = true) :
    (sizeOf t).bytes ≤ (sizeOf u).bytes := by
  rcases h with rfl | h
  · exact Nat.le_refl _
  · rw [sizeOf_of_isReference h]
    exact (sizeOf t).bytes_le

theorem sizeOf_of_comparable {op : Comparison} {a b : Ty}
    (h : Typing.comparable op a b = true) :
    sizeOf a = sizeOf b := by
  unfold Typing.comparable at h
  split at h
  · rw [Bool.or_eq_true, Bool.and_eq_true, Bool.and_eq_true, decide_eq_true_eq] at h
    rcases h with ⟨ha, hb⟩ | ⟨-, rfl⟩
    · rw [sizeOf_of_isReference ha, sizeOf_of_isReference hb]
    · rfl
  · rw [Bool.and_eq_true, decide_eq_true_eq] at h
    rw [h.2]

/-! ## Supplies -/

/-- The pseudo-registers drawn so far, and their sizes. -/
structure Supply where
  /-- Number of the pseudo-register drawn last. -/
  drawn : Nat
  size : Nat → Size

namespace Supply

/-- Whether a pseudo-register has been drawn at its size. -/
def Has (w : Supply) (p : Reg) : Prop := p.id ≤ w.drawn ∧ w.size p.id = p.size

/-- More has been drawn. -/
structure Grows (w after : Supply) : Prop where
  drawn : w.drawn ≤ after.drawn
  size : ∀ id, id ≤ w.drawn → after.size id = w.size id

theorem Grows.refl (w : Supply) : w.Grows w := ⟨Nat.le_refl _, fun _ _ => rfl⟩

theorem Grows.trans {a b c : Supply} (h : a.Grows b) (h' : b.Grows c) : a.Grows c where
  drawn := Nat.le_trans h.drawn h'.drawn
  size id hid := by rw [h'.size id (Nat.le_trans hid h.drawn), h.size id hid]

theorem Has.grow {w after : Supply} {p : Reg} (h : w.Has p) (hg : w.Grows after) :
    after.Has p :=
  ⟨Nat.le_trans h.1 hg.drawn, by rw [hg.size p.id h.1, h.2]⟩

/-- Draws one more. -/
def draw (w : Supply) (size : Size) : Supply where
  drawn := w.drawn + 1
  size id := if id = w.drawn + 1 then size else w.size id

theorem grows_draw (w : Supply) (size : Size) : w.Grows (w.draw size) where
  drawn := Nat.le_succ _
  size id hid := by
    have hne : id ≠ w.drawn + 1 := by omega
    simp [draw, hne]

theorem has_draw (w : Supply) (size : Size) : (w.draw size).Has ⟨w.drawn + 1, size⟩ :=
  ⟨Nat.le_refl _, by simp [draw]⟩

end Supply

/-! ## Places -/

/-- What statements name. -/
inductive Place where
  | register (r : Register)
  | localVariable (name : String)
  | parameter (name : String)
  | environment
  deriving DecidableEq, Repr

namespace Place

/-- The pseudo-register of a place. -/
def pseudo? (scope : Scope) (st : State) : Place → Option Reg
  | .register r => (scope.types.get? r).map fun t => ⟨r.index, sizeOf t⟩
  | .localVariable name => st.locals.get? name
  | .parameter name => scope.params.get? name
  | .environment => some (Selection.environment scope.function)

/-- The type of a place; the environment is an address. -/
def type? (scope : Scope) (locals : Table String Ty) : Place → Option Ty
  | .register r => scope.types.get? r
  | .localVariable name => locals.get? name
  | .parameter name => (scope.function.paramTable scope.unit.name).get? name
  | .environment => some .long

end Place

/-- Every place has a pseudo-register of its own, of the size of its type. A parameter that
takes the name of the receiver has a size of its own. -/
structure Arranged (scope : Scope) (locals : Table String Ty) (st : State) (w : Supply) :
    Prop where
  drawn : w.drawn = st.drawn
  has : ∀ (place : Place) {p}, place.pseudo? scope st = some p → w.Has p
  apart : ∀ {place place' : Place} {p p'}, place.pseudo? scope st = some p →
    place'.pseudo? scope st = some p' → p.id = p'.id → place = place'
  located : ∀ (place : Place) {t}, place.type? scope locals = some t →
    ∃ p, place.pseudo? scope st = some p ∧ (place ≠ .parameter "this" → p.size = sizeOf t)

/-- The receiver has the size of its type. -/
def ReceiverFits (scope : Scope) : Prop :=
  ∀ t p, (scope.function.paramTable scope.unit.name).get? "this" = some t →
    scope.params.get? "this" = some p → p.size = sizeOf t

/-- Every place has a pseudo-register of its own, of the size of its type. -/
structure Laid (scope : Scope) (locals : Table String Ty) (st : State) (w : Supply) : Prop
    extends Arranged scope locals st w where
  receiver : ReceiverFits scope

theorem Laid.typed {scope : Scope} {locals : Table String Ty} {st : State} {w : Supply}
    (h : Laid scope locals st w) (place : Place) {t : Ty}
    (ht : place.type? scope locals = some t) :
    ∃ p, place.pseudo? scope st = some p ∧ p.size = sizeOf t := by
  obtain ⟨p, hp, hsize⟩ := h.located place ht
  refine ⟨p, hp, ?_⟩
  by_cases hplace : place = .parameter "this"
  · subst hplace
    exact h.receiver t p ht hp
  · exact hsize hplace

namespace Arranged

variable {scope : Scope} {locals : Table String Ty} {st after : State} {w grown : Supply}

theorem pseudo?_congr (h : after.locals = st.locals) (place : Place) :
    place.pseudo? scope after = place.pseudo? scope st := by
  cases place with
  | localVariable name => rw [Place.pseudo?, Place.pseudo?, h]
  | _ => rfl

/-- Drawing keeps the places. -/
theorem grow (h : Arranged scope locals st w) (hg : w.Grows grown)
    (hdrawn : grown.drawn = after.drawn) (hlocals : after.locals = st.locals) :
    Arranged scope locals after grown where
  drawn := hdrawn
  has place _ hp := (h.has place (by rwa [pseudo?_congr hlocals] at hp)).grow hg
  apart hp hp' := h.apart (by rwa [pseudo?_congr hlocals] at hp)
    (by rwa [pseudo?_congr hlocals] at hp')
  located place _ ht := by
    obtain ⟨p, hp, hsize⟩ := h.located place ht
    exact ⟨p, by rwa [pseudo?_congr hlocals], hsize⟩

/-- A pseudo-register that is drawn belongs to no place. -/
theorem ne_drawn (h : Arranged scope locals st w) {place : Place} {p : Reg}
    (hp : place.pseudo? scope st = some p) : p.id ≠ st.drawn + 1 := by
  have := (h.has _ hp).1
  rw [h.drawn] at this
  omega

/-- Opening a scope: the variable gets a pseudo-register that no place has. -/
theorem openScope (h : Arranged scope locals st w) (name : String) (type : Ty) :
    Arranged scope (locals.insert name type)
      { st with
        drawn := st.drawn + 1
        locals := st.locals.insert name ⟨st.drawn + 1, sizeOf type⟩ }
      (w.draw (sizeOf type)) := by
  -- a place is the new variable, or it is kept where it was
  have hcases : ∀ {place : Place} {p : Reg},
      place.pseudo? scope
        { st with
          drawn := st.drawn + 1
          locals := st.locals.insert name ⟨st.drawn + 1, sizeOf type⟩ } = some p →
      (place = .localVariable name ∧ p = ⟨st.drawn + 1, sizeOf type⟩) ∨
        (place ≠ .localVariable name ∧ place.pseudo? scope st = some p) := by
    intro place p hp
    cases place with
    | localVariable other =>
      simp only [Place.pseudo?, Table.get?_insert] at hp
      split at hp
      · next heq =>
        subst heq
        exact .inl ⟨rfl, (Option.some.inj hp).symm⟩
      · next hne => exact .inr ⟨by simpa using hne, hp⟩
    | _ => exact .inr ⟨by simp, hp⟩
  refine ⟨by rw [Supply.draw, h.drawn], fun _ _ hp => ?_, fun hp hp' heq => ?_,
    fun place _ ht => ?_⟩
  · rcases hcases hp with ⟨-, rfl⟩ | ⟨-, hp⟩
    · rw [← h.drawn]
      exact w.has_draw _
    · exact (h.has _ hp).grow (w.grows_draw _)
  · rcases hcases hp with ⟨rfl, rfl⟩ | ⟨-, hold⟩ <;>
      rcases hcases hp' with ⟨rfl, rfl⟩ | ⟨-, hold'⟩
    · rfl
    · exact absurd heq.symm (h.ne_drawn hold')
    · exact absurd heq (h.ne_drawn hold)
    · exact h.apart hold hold' heq
  · cases place with
    | localVariable other =>
      simp only [Place.type?, Place.pseudo?, Table.get?_insert] at ht ⊢
      split at ht
      · next heq =>
        cases ht
        exact ⟨⟨st.drawn + 1, sizeOf type⟩, if_pos heq, fun _ => rfl⟩
      · next hne =>
        rw [if_neg hne]
        exact h.located (.localVariable other) ht
    | register r => exact h.located (.register r) ht
    | parameter other => exact h.located (.parameter other) ht
    | environment => exact h.located .environment ht

/-- Closing a scope: the variable is a place no longer. -/
theorem closeScope (h : Arranged scope locals st w) (name : String) :
    Arranged scope (locals.erase name) { st with locals := st.locals.erase name } w := by
  have hkept : ∀ {place : Place} {p : Reg},
      place.pseudo? scope { st with locals := st.locals.erase name } = some p →
      place.pseudo? scope st = some p := by
    intro place p hp
    cases place with
    | localVariable other =>
      simp only [Place.pseudo?, Table.get?_erase] at hp
      split at hp
      · cases hp
      · exact hp
    | _ => exact hp
  refine ⟨h.drawn, fun place _ hp => h.has place (hkept hp),
    fun hp hp' => h.apart (hkept hp) (hkept hp'), fun place _ ht => ?_⟩
  cases place with
  | localVariable other =>
    simp only [Place.type?, Place.pseudo?, Table.get?_erase] at ht ⊢
    split at ht
    · cases ht
    · next hne =>
      rw [if_neg hne]
      exact h.located (.localVariable other) ht
  | register r => exact h.located (.register r) ht
  | parameter other => exact h.located (.parameter other) ht
  | environment => exact h.located .environment ht

/-- The pseudo-register of a register of known type. -/
theorem has_register (h : Arranged scope locals st w) {r : Register} {t : Ty}
    (hr : scope.types.get? r = some t) : w.Has ⟨r.index, sizeOf t⟩ :=
  h.has (.register r) (by rw [Place.pseudo?, hr]; rfl)

theorem has_environment (h : Arranged scope locals st w) :
    w.Has (environment scope.function) :=
  h.has .environment rfl

end Arranged

/-! ## The entry -/

/-- A move out of the register of an argument. -/
def Receives (abi : Abi) (w : Supply) (i : Instr) : Prop :=
  ∃ r p, r ∈ abi.arguments ∧ w.Has p ∧ i = .mov p.size (.fixed r) (.pseudo p)

/-- What the beginning of a function has done so far. -/
structure Entry.Sound (abi : Abi) (f : Function) (e : Entry) (w : Supply) : Prop where
  drawn : w.drawn = e.drawn
  begun : e.code ≠ []
  receives : ∀ i ∈ e.code, Receives abi w i
  environment : f.registerCount ≤ e.drawn
  param : ∀ {name p}, e.params.get? name = some p → w.Has p ∧ f.registerCount < p.id
  apart : ∀ {name name' p p'}, e.params.get? name = some p → e.params.get? name' = some p' →
    p.id = p'.id → name = name'

/-- Parameters have pseudo-registers of the size of their types. -/
def Entry.Fits (e : Entry) (types : Table String Ty) : Prop :=
  ∀ name t, types.get? name = some t → ∃ p, e.params.get? name = some p ∧ p.size = sizeOf t

namespace Entry

variable {abi : Abi} {f : Function} {e after : Entry} {w : Supply} {origin : Origin}

theorem argument_eq_ok {position : Nat} {name : String} {r : Machine.Reg} :
    argument abi position name origin = .ok r ↔ abi.argument? position = some r := by
  unfold argument
  cases abi.argument? position <;> simp

theorem mem_arguments_of_argument {position : Nat} {name : String} {r : Machine.Reg}
    (h : argument abi position name origin = .ok r) : r ∈ abi.arguments := by
  have hr := argument_eq_ok.1 h
  unfold Abi.argument? at hr
  split at hr
  · cases hr
  · exact List.mem_of_getElem? hr

theorem receive_eq_ok {position : Nat} {p : Param}
    (h : e.receive abi position p origin = .ok after) :
    ∃ r, abi.argument? position = some r
        ∧ after.code = e.code
          ++ [.mov (sizeOf p.type) (.fixed r) (.pseudo ⟨e.drawn + 1, sizeOf p.type⟩)]
        ∧ after.params = e.params.insert p.name ⟨e.drawn + 1, sizeOf p.type⟩
        ∧ after.drawn = e.drawn + 1 := by
  unfold receive at h
  rcases ite_eq_ok.1 h with ⟨-, h⟩ | ⟨-, h⟩
  · cases h
  · obtain ⟨r, hr, h⟩ := bind_eq_ok.1 h
    cases h
    exact ⟨r, argument_eq_ok.1 hr, rfl, rfl, rfl⟩

theorem Receives.grow {w grown : Supply} {i : Instr} (h : Receives abi w i)
    (hg : w.Grows grown) :
    Receives abi grown i := by
  obtain ⟨r, p, hr, hp, rfl⟩ := h
  exact ⟨r, p, hr, hp.grow hg, rfl⟩

/-- One more parameter. -/
theorem Sound.receive {position : Nat} {p : Param} (h : e.Sound abi f w)
    (hok : e.receive abi position p origin = .ok after) :
    after.Sound abi f (w.draw (sizeOf p.type)) := by
  obtain ⟨r, hr, hcode, hparams, hdrawn⟩ := receive_eq_ok hok
  have hnew : (w.draw (sizeOf p.type)).Has ⟨e.drawn + 1, sizeOf p.type⟩ := by
    rw [← h.drawn]
    exact w.has_draw _
  have hcases : ∀ {name q}, after.params.get? name = some q →
      (name = p.name ∧ q = ⟨e.drawn + 1, sizeOf p.type⟩) ∨ e.params.get? name = some q := by
    intro name q hq
    rw [hparams, Table.get?_insert] at hq
    split at hq
    · next heq => exact .inl ⟨heq, (Option.some.inj hq).symm⟩
    · exact .inr hq
  have hold : ∀ {name q}, e.params.get? name = some q → q.id ≠ e.drawn + 1 := by
    intro name q hq
    have := (h.param hq).1.1
    rw [h.drawn] at this
    omega
  refine ⟨by rw [hdrawn, ← h.drawn]; rfl, by simp [hcode], fun i hi => ?_, ?_, fun hq => ?_,
    fun hq hq' heq => ?_⟩
  · rw [hcode] at hi
    rcases List.mem_append.1 hi with hi | hi
    · exact Receives.grow (h.receives i hi) (w.grows_draw _)
    · rw [List.mem_singleton] at hi
      have hargument : argument abi position p.name origin = .ok r := argument_eq_ok.2 hr
      exact ⟨r, _, mem_arguments_of_argument hargument, hnew, hi⟩
  · rw [hdrawn]
    exact Nat.le_succ_of_le h.environment
  · rcases hcases hq with ⟨-, rfl⟩ | hq
    · exact ⟨hnew, Nat.lt_succ_of_le h.environment⟩
    · exact ⟨(h.param hq).1.grow (w.grows_draw _), (h.param hq).2⟩
  · rcases hcases hq with ⟨rfl, rfl⟩ | hq <;> rcases hcases hq' with ⟨rfl, rfl⟩ | hq'
    · rfl
    · exact absurd heq.symm (hold hq')
    · exact absurd heq (hold hq)
    · exact h.apart hq hq' heq

theorem Fits.receive {position : Nat} {p : Param} {types : Table String Ty} (h : e.Fits types)
    (hok : e.receive abi position p origin = .ok after) :
    after.Fits (types.insert p.name p.type) := by
  obtain ⟨r, -, -, hparams, -⟩ := receive_eq_ok hok
  intro name t ht
  rw [Table.get?_insert] at ht
  rw [hparams, Table.get?_insert]
  split at ht
  · next heq =>
    cases ht
    exact ⟨_, if_pos heq, rfl⟩
  · next hne =>
    rw [if_neg hne]
    exact h name t ht

/-- All parameters. -/
theorem Sound.receiveAll {position : Nat} {params : List Param} (h : e.Sound abi f w)
    (hok : e.receiveAll abi position origin params = .ok after) :
    ∃ grown, after.Sound abi f grown ∧ w.Grows grown := by
  induction params generalizing e w position with
  | nil =>
    cases hok
    exact ⟨w, h, .refl w⟩
  | cons p params ih =>
    obtain ⟨mid, hmid, hok⟩ := bind_eq_ok.1 hok
    obtain ⟨grown, hsound, hgrows⟩ := ih (h.receive hmid) hok
    exact ⟨grown, hsound, (w.grows_draw _).trans hgrows⟩

theorem Fits.receiveAll {position : Nat} {params : List Param} {types : Table String Ty}
    (h : e.Fits types) (hok : e.receiveAll abi position origin params = .ok after) :
    after.Fits ((params.map fun p => (p.name, p.type)).foldl (fun t e => t.insert e.1 e.2)
      types) := by
  induction params generalizing e types position with
  | nil =>
    cases hok
    exact h
  | cons p params ih =>
    obtain ⟨mid, hmid, hok⟩ := bind_eq_ok.1 hok
    exact ih (h.receive hmid) hok

/-- A parameter may be replaced by one of the same name. -/
theorem exists_get?_receiveAll {position : Nat} {params : List Param} {name : String}
    (hok : e.receiveAll abi position origin params = .ok after)
    (hname : ∃ p, e.params.get? name = some p) : ∃ p, after.params.get? name = some p := by
  induction params generalizing e position with
  | nil =>
    cases hok
    exact hname
  | cons p params ih =>
    obtain ⟨mid, hmid, hok⟩ := bind_eq_ok.1 hok
    obtain ⟨r, -, -, hparams, -⟩ := receive_eq_ok hmid
    refine ih hok ?_
    rw [hparams, Table.get?_insert]
    split
    · exact ⟨_, rfl⟩
    · exact hname

/-- Parameters of other names do not replace one. -/
theorem get?_receiveAll {position : Nat} {params : List Param} {name : String}
    (hok : e.receiveAll abi position origin params = .ok after)
    (hname : ∀ p ∈ params, p.name ≠ name) : after.params.get? name = e.params.get? name := by
  induction params generalizing e position with
  | nil =>
    cases hok
    rfl
  | cons p params ih =>
    obtain ⟨mid, hmid, hok⟩ := bind_eq_ok.1 hok
    obtain ⟨r, -, -, hparams, -⟩ := receive_eq_ok hmid
    rw [ih hok fun q hq => hname q (List.mem_cons_of_mem _ hq), hparams,
      Table.get?_insert_of_ne _ _ (hname p List.mem_cons_self).symm]

end Entry

/-! ## The start of a function -/

/-- The registers and the environment, before anything is drawn. -/
def Supply.start (types : Table Register Ty) (f : Function) : Supply where
  drawn := f.registerCount
  size id :=
    if id = f.registerCount then .quad
    else match types.get? ⟨id⟩ with
      | some t => sizeOf t
      | none => .quad

/-- No parameter takes the name of the receiver. -/
def KeepsReceiver (f : Function) : Prop :=
  f.isPerObject = true → ∀ p ∈ f.params, p.name ≠ "this"

section

variable {u : ClassUnit} {abi : Abi} {position : Nat} {f : Function}
  {types : Table Register Ty} {scope : Scope} {entry : Entry}

/-- What a function is selected with. -/
theorem scopeOf_eq_ok (hrecorded : f.registerTypes = some types)
    (h : scopeOf u abi position f = .ok (scope, entry)) :
    ∃ copies, mergeCopies f = .ok copies
      ∧ scope = ⟨u, f, position, abi, types, copies, entry.params⟩
      ∧ Entry.ofFunction abi f (signatureOrigin f) = .ok entry := by
  unfold scopeOf at h
  rw [hrecorded] at h
  obtain ⟨⟨⟩, -, h⟩ := bind_eq_ok.1 h
  obtain ⟨copies, hcopies, h⟩ := bind_eq_ok.1 h
  obtain ⟨entry', hentry, h⟩ := bind_eq_ok.1 h
  cases h
  refine ⟨copies, ?_, rfl, hentry⟩
  cases hm : mergeCopies f with
  | ok c =>
    rw [hm] at hcopies
    cases hcopies
    rfl
  | error e =>
    rw [hm] at hcopies
    cases hcopies

theorem exists_types_of_scopeOf (h : scopeOf u abi position f = .ok (scope, entry)) :
    ∃ types, f.registerTypes = some types := by
  unfold scopeOf at h
  split at h
  · cases h
  · next types htypes => exact ⟨types, htypes⟩

/-- The stream of a function is the code of its entry, that of its statements and its exit. -/
theorem ofFunction_eq_ok {strings interned : Assembly.StringTable} {p : Pseudo.Function}
    (h : ofFunction u abi position f strings = (.ok p, interned)) :
    ∃ scope entry body last, scopeOf u abi position f = .ok (scope, entry)
      ∧ Yields scope (bodyCode 0 f.body) { strings := strings, drawn := entry.drawn } body last
      ∧ p = { symbol := u.functionSymbol abi f
              code := entry.code ++ body ++ [.label (exitLabel position)]
              exitLabel := exitLabel position
              serviceCalls := last.serviceCalls }
      ∧ interned = last.strings := by
  unfold ofFunction at h
  split at h
  · cases h
  · next scope entry hscope =>
    split at h
    · cases h
    · next body last hbody =>
      cases h
      exact ⟨scope, entry, body, last, hscope, hbody, rfl, rfl⟩

theorem Supply.has_environment_start : (Supply.start types f).Has (environment f) :=
  ⟨Nat.le_refl _, if_pos rfl⟩

theorem Supply.has_register_start
    (hdrawn : ∀ r t, types.get? r = some t → r.index < f.registerCount) {r : Register} {t : Ty}
    (hr : types.get? r = some t) :
    (Supply.start types f).Has ⟨r.index, sizeOf t⟩ := by
  have hlt := hdrawn r t hr
  refine ⟨Nat.le_of_lt hlt, ?_⟩
  simp only [Supply.start]
  rw [if_neg (Nat.ne_of_lt hlt), show (⟨r.index⟩ : Register) = r from rfl, hr]

/-- The entry: the parameters have the sizes of their types, and there is a receiver. -/
theorem Entry.sound_of_ofFunction {origin : Origin}
    (h : Entry.ofFunction abi f origin = .ok entry) :
    ∃ w, entry.Sound abi f w ∧ (Supply.start types f).Grows w
      ∧ entry.Fits (Table.ofList (f.params.map fun p => (p.name, p.type)))
      ∧ (f.isPerObject = true → ∃ p, entry.params.get? "this" = some p
        ∧ (KeepsReceiver f → p.size = .quad)) := by
  obtain ⟨r, hr, h⟩ := bind_eq_ok.1 h
  have hstart : Entry.Sound abi f
      { code := [.mov .quad (.fixed r) (.pseudo (environment f))],
        drawn := (environment f).id }
      (Supply.start types f) := by
    refine ⟨rfl, List.cons_ne_nil _ _, fun i hi => ?_, Nat.le_refl _, nofun, nofun⟩
    rw [List.mem_singleton] at hi
    exact ⟨r, environment f, mem_arguments_of_argument hr, Supply.has_environment_start, hi⟩
  have hnone : ∀ {e : Entry}, e.Fits .empty := fun name t ht => by cases ht
  rcases ite_eq_ok.1 h with ⟨hkind, h⟩ | ⟨hkind, h⟩
  · obtain ⟨received, hreceived, h⟩ := bind_eq_ok.1 h
    obtain ⟨w, hsound, hgrows⟩ := (hstart.receive hreceived).receiveAll h
    obtain ⟨r', -, -, hparams, -⟩ := receive_eq_ok hreceived
    have hget :
        received.params.get? "this" = some ⟨(environment f).id + 1, sizeOf .object⟩ := by
      rw [hparams]
      exact Table.get?_insert_self _ _ _
    refine ⟨w, hsound, (Supply.grows_draw _ _).trans hgrows,
      (hnone (e := received)).receiveAll h, fun _ => ?_⟩
    obtain ⟨p, hp⟩ := exists_get?_receiveAll h ⟨_, hget⟩
    refine ⟨p, hp, fun hthis => ?_⟩
    -- the receiver was received first, and no parameter has taken its name since
    rw [get?_receiveAll h (hthis hkind), hget] at hp
    cases hp
    rfl
  · obtain ⟨w, hsound, hgrows⟩ := hstart.receiveAll h
    exact ⟨w, hsound, hgrows, hnone.receiveAll h, fun hper => absurd hper hkind⟩

/-- The type of a parameter, the receiver included. -/
theorem get?_paramTable {owner name : String} {t : Ty}
    (h : (f.paramTable owner).get? name = some t) :
    f.isPerObject = true ∧ name = "this" ∧ t = .classRef owner ∨
      ¬ (f.isPerObject = true ∧ name = "this") ∧
        (Table.ofList (f.params.map fun p => (p.name, p.type))).get? name = some t := by
  by_cases hkind : f.isPerObject = true
  · have htable : f.paramTable owner
        = (Table.ofList (f.params.map fun p => (p.name, p.type))).insert "this"
          (.classRef owner) :=
      if_pos hkind
    rw [htable, Table.get?_insert] at h
    split at h
    · next heq => exact .inl ⟨hkind, heq, (Option.some.inj h).symm⟩
    · next hne => exact .inr ⟨fun h => hne h.2, h⟩
  · have htable : f.paramTable owner = Table.ofList (f.params.map fun p => (p.name, p.type)) :=
      if_neg hkind
    rw [htable] at h
    exact .inr ⟨fun h => hkind h.1, h⟩

/-- Behind the entry every place has its pseudo-register. -/
theorem arranged_start (ht : f.Typed u.name types)
    (h : scopeOf u abi position f = .ok (scope, entry)) (strings : Assembly.StringTable) :
    ∃ w, entry.Sound abi f w
      ∧ Arranged scope .empty { strings := strings, drawn := entry.drawn } w
      ∧ (KeepsReceiver f → ReceiverFits scope) := by
  obtain ⟨copies, -, rfl, hentry⟩ := scopeOf_eq_ok ht.recorded h
  obtain ⟨w, hsound, hgrows, hfits, hreceiver⟩ := Entry.sound_of_ofFunction hentry
  -- registers lie below the environment, and the parameters behind it
  have hhas : ∀ (place : Place) {p : Reg}, place.pseudo? ⟨u, f, position, abi, types, copies,
      entry.params⟩ { strings := strings, drawn := entry.drawn } = some p →
      w.Has p ∧ match place with
        | .register r => p.id = r.index ∧ p.id < f.registerCount
        | .parameter name => entry.params.get? name = some p ∧ f.registerCount < p.id
        | .environment => p.id = f.registerCount
        | .localVariable _ => False := by
    intro place p hp
    cases place with
    | register r =>
      obtain ⟨t, hr, rfl⟩ := Option.map_eq_some_iff.1 hp
      exact ⟨(Supply.has_register_start ht.drawn hr).grow hgrows, rfl, ht.drawn r t hr⟩
    | localVariable name => cases hp
    | parameter name => exact ⟨(hsound.param hp).1, hp, (hsound.param hp).2⟩
    | environment =>
      cases hp
      exact ⟨Supply.has_environment_start.grow hgrows, rfl⟩
  refine ⟨w, hsound, ⟨hsound.drawn, fun place _ hp => (hhas place hp).1,
    fun {place place' p p'} hp hp' heq => ?_, fun place t htype => ?_⟩,
      fun hthis t p ht hp => ?_⟩
  · have hplace := (hhas place hp).2
    have hplace' := (hhas place' hp').2
    cases place <;> cases place' <;> simp only at hplace hplace' <;> try omega
    · next r r' =>
      obtain ⟨index⟩ := r
      obtain ⟨index'⟩ := r'
      simp only at hplace hplace'
      congr 2
      omega
    · rw [hsound.apart hplace.1 hplace'.1 heq]
    · rfl
  · cases place with
    | register r =>
      exact ⟨_,
        by rw [Place.pseudo?]; exact Option.map_eq_some_iff.2 ⟨t, htype, rfl⟩, fun _ => rfl⟩
    | localVariable name => cases htype
    | parameter name =>
      rcases get?_paramTable htype with ⟨hkind, rfl, -⟩ | ⟨-, hparam⟩
      · obtain ⟨p, hp, -⟩ := hreceiver hkind
        exact ⟨p, hp, fun hne => absurd rfl hne⟩
      · obtain ⟨p, hp, hsize⟩ := hfits name t hparam
        exact ⟨p, hp, fun _ => hsize⟩
    | environment =>
      cases htype
      exact ⟨_, rfl, fun _ => rfl⟩
  · have hp : entry.params.get? "this" = some p := hp
    rcases get?_paramTable ht with ⟨hkind, -, rfl⟩ | ⟨-, hparam⟩
    · obtain ⟨q, hq, hsize⟩ := hreceiver hkind
      rw [hp, Option.some.injEq] at hq
      subst hq
      exact hsize hthis
    · obtain ⟨q, hq, hsize⟩ := hfits "this" t hparam
      rw [hp, Option.some.injEq] at hq
      subst hq
      exact hsize

theorem laid_start (ht : f.Typed u.name types) (hthis : KeepsReceiver f)
    (h : scopeOf u abi position f = .ok (scope, entry)) (strings : Assembly.StringTable) :
    ∃ w, entry.Sound abi f w
      ∧ Laid scope .empty { strings := strings, drawn := entry.drawn } w := by
  obtain ⟨w, hsound, harranged, hreceiver⟩ := arranged_start ht h strings
  exact ⟨w, hsound, harranged, hreceiver hthis⟩

end

end Jil.Selection
