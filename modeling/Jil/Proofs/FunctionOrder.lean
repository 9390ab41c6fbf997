/-
Jil.Proofs.FunctionOrder — the order of functions does not matter to a check.

A check judges every function against the signatures of all, so functions may
call those behind them and one another. Of functions with one key the last one
answers, and that is where the order can be seen; when keys are pairwise
different every function answers for its own key (`getLast?_functions_iff`), in
whatever order they stand. So calls are resolved alike (`resolveMethod_reordered`)
and a function has the same types (`functionTypes_reordered`).

A check stops at the first function that fails. Which one that is depends on the
order, but not whether there is one (`check_eq_of_forall`, `of_check_eq_ok`).
-/
import Jil.Proofs.Failing
import Jil.Proofs.IndexFreshness
import Jil.Proofs.TextOrder

namespace Jil.ClassUnit

open Typing (functionTypes recordTypes)

variable {u : ClassUnit} {functions : List Function} {index? : Option SignatureIndex}

/-! ## Functions that pass -/

/-- The types that a check finds in a function. -/
def typesOf (u : ClassUnit) (f : Function) : Table Register Ty :=
  (functionTypes u.rebuildIndex f).toOption.getD .empty

/-- A function in which a check has recorded the types of registers. -/
def recorded (u : ClassUnit) (f : Function) : Function :=
  { f with registerTypes := some (u.typesOf f) }

theorem recordTypes_eq_map {types : List (Table Register Ty)}
    (h : functions.mapM (functionTypes u.rebuildIndex) = .ok types) :
    recordTypes functions types = functions.map u.recorded := by
  induction functions generalizing types with
  | nil => rfl
  | cons f functions ih =>
    rw [List.mapM_cons] at h
    obtain ⟨t, ht, h⟩ := Pseudo.bind_eq_ok.1 h
    obtain ⟨rest, hrest, h⟩ := Pseudo.bind_eq_ok.1 h
    cases h
    have hf : u.recorded f = { f with registerTypes := some t } := by
      rw [recorded, typesOf, ht]
      rfl
    rw [List.map_cons, ← ih hrest, hf]
    rfl

/-- When the values of members are accepted and every function passes, so does the class. -/
theorem check_eq_of_forall (hdefaults : u.checkDefaults = .ok ())
    (hall : ∀ f ∈ u.functions, ∃ types, functionTypes u.rebuildIndex f = .ok types) :
    u.check = (({ u with functions := u.functions.map u.recorded } : ClassUnit).rebuildIndex,
      .ok ()) := by
  obtain ⟨types, htypes⟩ := exists_mapM_eq_ok hall
  have hmapM : u.rebuildIndex.functions.mapM (functionTypes u.rebuildIndex) = .ok types :=
    htypes
  have hrecorded : recordTypes u.rebuildIndex.functions types = u.functions.map u.recorded :=
    recordTypes_eq_map htypes
  unfold check
  rw [hdefaults]
  simp only [hmapM, hrecorded]
  rfl

theorem of_check_eq_ok (h : u.check.2 = .ok ()) : u.checkDefaults = .ok ()
    ∧ ∀ f ∈ u.functions, ∃ types, functionTypes u.rebuildIndex f = .ok types := by
  obtain ⟨hdefaults, -, -, hlength, hfunctions⟩ :=
    check_eq_ok (u := u.check.1) (Prod.ext rfl h)
  refine ⟨hdefaults, fun f hf => ?_⟩
  obtain ⟨n, hn, rfl⟩ := List.mem_iff_getElem.1 hf
  obtain ⟨g, ctx, hg, hbody, -⟩ := hfunctions n _ (List.getElem?_eq_getElem (hlength ▸ hn))
  obtain rfl : u.functions[n] = g :=
    Option.some.inj ((List.getElem?_eq_getElem hn).symm.trans hg)
  refine ⟨ctx.registers, ?_⟩
  unfold functionTypes
  rw [show u.rebuildIndex.name = u.name from rfl, hbody]
  rfl

/-! ## Another order -/

/-- The class with its functions in another order; the index may be there or not. -/
def reordered (u : ClassUnit) (functions : List Function) (index? : Option SignatureIndex) :
    ClassUnit :=
  { u with functions := functions, index? := index? }

/-- When keys are pairwise different, every function is the last one with its key. -/
theorem getLast?_functions_iff (hkeys : (u.functions.map Function.key).Nodup) {key : MethodKey}
    {f : Function} :
    (u.functions.filter (·.key = key)).getLast? = some f ↔ f ∈ u.functions ∧ f.key = key := by
  constructor
  · intro h
    simpa using List.mem_of_getLast? h
  · rintro ⟨hf, rfl⟩
    obtain ⟨front, back, hfunctions⟩ := List.append_of_mem hf
    refine getLast?_functions_eq_some ⟨rfl, front, back, hfunctions, fun g hg => ?_⟩
    rw [hfunctions, List.map_append, List.nodup_append] at hkeys
    have hnot := (List.nodup_cons.1 hkeys.2.1).1
    exact fun heq => hnot (heq ▸ List.mem_map_of_mem hg)

section

variable (hperm : functions.Perm u.functions) (hkeys : (u.functions.map Function.key).Nodup)
include hperm hkeys

theorem methodOf?_reordered (key : MethodKey) (owner : String) :
    (u.reordered functions index?).methodOf? key owner = u.methodOf? key owner := by
  have hkeys' : ((u.reordered functions index?).functions.map Function.key).Nodup :=
    (hperm.map Function.key).nodup_iff.2 hkeys
  have hlast : ((u.reordered functions index?).functions.filter (·.key = key)).getLast?
      = (u.functions.filter (·.key = key)).getLast? := by
    refine Option.ext fun f => ?_
    rw [getLast?_functions_iff hkeys', getLast?_functions_iff hkeys]
    exact and_congr_left fun _ => hperm.mem_iff
  unfold methodOf?
  rw [hlast]
  rfl

/-- Calls are resolved alike when the indices have been built. -/
theorem resolveMethod_reordered :
    (u.reordered functions index?).rebuildIndex.resolveMethod
      = u.rebuildIndex.resolveMethod := by
  funext owner name args origin
  have hmethods : (u.reordered functions index?).rebuildIndex.methodOf? ⟨name, args⟩
      = u.rebuildIndex.methodOf? ⟨name, args⟩ :=
    funext (methodOf?_reordered (u := u.rebuildIndex) hperm hkeys _)
  rw [resolveMethod_eq (u := u.rebuildIndex) rfl, ← hmethods]
  exact resolveMethod_eq rfl args

theorem functionTypes_reordered (f : Function) :
    functionTypes (u.reordered functions index?).rebuildIndex f
      = functionTypes u.rebuildIndex f := by
  have hcalls : (u.reordered functions index?).rebuildIndex.resolveMethod
      = u.rebuildIndex.resolveMethod := resolveMethod_reordered hperm hkeys
  have hbody := Typing.checkBody_functions (u := u.rebuildIndex) hcalls f f.registerTypes
    (.ofFunction f u.name) f.body
  exact congrArg (· >>= _) hbody

theorem typesOf_reordered (f : Function) :
    (u.reordered functions index?).typesOf f = u.typesOf f := by
  rw [typesOf, typesOf, functionTypes_reordered hperm hkeys]

/-- Whether a class passes does not depend on the order. -/
theorem check_reordered_iff :
    (u.reordered functions index?).check.2 = .ok () ↔ u.check.2 = .ok () := by
  have hpass : ∀ f, (∃ types, functionTypes (u.reordered functions index?).rebuildIndex f
      = .ok types) ↔ ∃ types, functionTypes u.rebuildIndex f = .ok types := fun f => by
    rw [functionTypes_reordered hperm hkeys]
  constructor
  · intro h
    obtain ⟨hdefaults, hall⟩ := of_check_eq_ok h
    rw [check_eq_of_forall (u := u) hdefaults fun f hf =>
      (hpass f).1 (hall f (hperm.mem_iff.2 hf))]
  · intro h
    obtain ⟨hdefaults, hall⟩ := of_check_eq_ok h
    rw [check_eq_of_forall (u := u.reordered functions index?) hdefaults fun f hf =>
      (hpass f).2 (hall f (hperm.mem_iff.1 hf))]

end

/-- Recording types leaves the resolution of calls as it was during the check. -/
theorem resolveMethod_check (h : u.check.2 = .ok ()) :
    u.check.1.resolveMethod = u.rebuildIndex.resolveMethod := by
  obtain ⟨-, hsource, -⟩ := check_eq_ok (u := u.check.1) (Prod.ext rfl h)
  rw [← hsource]
  exact (resolveMethod_functions u.check.1 u.functions).symm

/-- A class and the same class with its functions in another order are checked with the same
outcome, when the keys of functions are pairwise different, and a check resolves every
call alike. If they pass, then every function has the same types in both, and calls are
still resolved alike. -/
theorem order_does_not_matter {u : ClassUnit} {functions : List Function}
    (index? : Option SignatureIndex) (hperm : functions.Perm u.functions)
    (hkeys : (u.functions.map Function.key).Nodup) :
    ((u.reordered functions index?).check.2 = .ok () ↔ u.check.2 = .ok ())
      ∧ (∀ owner name args origin,
        (u.reordered functions index?).rebuildIndex.resolveMethod owner name args origin
          = u.rebuildIndex.resolveMethod owner name args origin)
      ∧ (u.check.2 = .ok () →
        (∃ types : Function → Table Register Ty,
          u.check.1.functions
              = u.functions.map (fun f => { f with registerTypes := some (types f) })
            ∧ (u.reordered functions index?).check.1.functions
              = functions.map (fun f => { f with registerTypes := some (types f) }))
        ∧ ∀ owner name args origin,
          (u.reordered functions index?).check.1.resolveMethod owner name args origin
            = u.check.1.resolveMethod owner name args origin) := by
  have hcalls : (u.reordered functions index?).rebuildIndex.resolveMethod
      = u.rebuildIndex.resolveMethod := resolveMethod_reordered hperm hkeys
  have hiff : (u.reordered functions index?).check.2 = .ok () ↔ u.check.2 = .ok () :=
    check_reordered_iff hperm hkeys
  refine ⟨hiff, fun owner name args origin => by rw [hcalls], fun h => ⟨⟨u.typesOf, ?_, ?_⟩,
    fun owner name args origin => ?_⟩⟩
  · obtain ⟨hdefaults, hall⟩ := of_check_eq_ok h
    rw [check_eq_of_forall hdefaults hall]
    rfl
  · obtain ⟨hdefaults, hall⟩ := of_check_eq_ok (hiff.2 h)
    rw [check_eq_of_forall hdefaults hall]
    refine List.map_congr_left fun f _ => ?_
    rw [recorded, typesOf_reordered hperm hkeys]
  · rw [resolveMethod_check h, resolveMethod_check (hiff.2 h), hcalls]

/-- Two functions that call each other:
`even n = if n = 0 then true else odd (n - 1)`, and so on.
-/
def parity (name other : String) (zero : String) : Function :=
  ((do
      let n ← .getParam "n"
      let done ← .label
      .branch (← .compare .equal n (← .literal .int "0")) true done
      let smaller ← .binary .sub n (← .literal .int "1")
      if let some result ← .callActual none "pkg/Main" other [smaller] true then
        .returnValue result
      .placeLabel done
      .returnValue (← .literal .boolean zero) : Function.Build Unit).run
    { name := name, kind := .static, params := [⟨.int, "n"⟩], returns := .boolean }).2

/-- The class of both. -/
def parities : ClassUnit :=
  ((create "pkg/Main").addFunction (parity "even" "odd" "true")).addFunction
    (parity "odd" "even" "false")

/-- The function that is called stands behind its call in one order and in front of it in the
other; in both orders its result is known. -/
theorem parities_in_any_order :
    let swapped := parities.functions.reverse
    swapped.Perm parities.functions ∧ (parities.functions.map Function.key).Nodup
      ∧ (parities.reordered swapped none).check.2 = .ok ()
      ∧ (parities.reordered swapped none).check.1.functions.map (·.registerType? ⟨5⟩)
        = [some .boolean, some .boolean] := by
  intro swapped
  have hperm : swapped.Perm parities.functions := List.reverse_perm _
  have hkeys : (parities.functions.map Function.key).Nodup := by decide
  have hcheck : parities.check.2 = .ok () := rfl
  obtain ⟨hiff, -, hpassed⟩ := order_does_not_matter none hperm hkeys
  obtain ⟨⟨types, h, hswapped⟩, -⟩ := hpassed hcheck
  have hreversed : (parities.reordered swapped none).check.1.functions
      = parities.check.1.functions.reverse := by
    rw [hswapped, h, List.map_reverse]
  refine ⟨hperm, hkeys, hiff.2 hcheck, ?_⟩
  rw [hreversed]
  rfl

end Jil.ClassUnit
