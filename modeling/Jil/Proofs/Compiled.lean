/-
Jil.Proofs.Compiled — what a compiled class was made from.

Compiling a class goes through a check, a stream for each function, locations for
its values and the listing. Each lemma here opens one of these stages where it
succeeded and names what it was given and what it gave, so that a property of
compiled classes follows from properties of the stages. The functions of a class
are compiled one by one, from a session and a table of constants that the one
before left: an induction over them takes one step by `compileFunctions_cons`.
-/
import Jil.Compilation
import Jil.Proofs.Resolved

namespace Jil

open Assembly (Listing StringTable)
open Machine (Abi)
open Pseudo (bind_eq_ok)

/-! ## Functions -/

namespace Assembly.Function

variable {abi : Abi} {symbol exitLabel : String} {code : List Pseudo.Instr} {a : Allocation}
  {g : Function}

/-- The body of a function is its prologue and what its instructions are placed as. A relation
between streams and code holds of it when one more instruction in front keeps the relation. -/
theorem exists_body {P : List Pseudo.Instr → List Machine.Instr → Prop}
    (h : ofAllocation abi symbol code exitLabel a = .ok g) (hnil : P [] [])
    (hcons : ∀ {i code part rest}, place abi a exitLabel i = .ok part → P code rest →
      P (i :: code) (part ++ rest)) :
    g.symbol = symbol ∧ g.allocation = a ∧ ∃ body, g.body = prologue abi a ++ body
    ∧ P code body := by
  obtain ⟨parts, hparts, h⟩ := bind_eq_ok.1 h
  cases h
  refine ⟨rfl, rfl, parts.flatten, rfl, ?_⟩
  clear h
  induction code generalizing parts with
  | nil =>
    cases hparts
    exact hnil
  | cons i code ih =>
    rw [List.mapM_cons] at hparts
    obtain ⟨part, hpart, hparts⟩ := bind_eq_ok.1 hparts
    obtain ⟨rest, hrest, hparts⟩ := bind_eq_ok.1 hparts
    cases hparts
    exact hcons hpart (ih rest hrest)

/-- A function whose values were given locations. -/
theorem ofPseudo_eq_ok {p : Pseudo.Function} (h : ofPseudo abi p = .ok g) :
    ∃ a, Allocation.ofCode abi p.code = .ok a
      ∧ ofAllocation abi p.symbol p.code p.exitLabel a = .ok g := by
  unfold ofPseudo at h
  split at h
  · next a ha =>
    refine ⟨a, ha, ?_⟩
    cases hof : ofAllocation abi p.symbol p.code p.exitLabel a with
    | error e =>
      rw [hof] at h
      cases h
    | ok g' =>
      rw [hof] at h
      cases h
      rfl
  · cases h

end Assembly.Function

/-! ## Classes -/

namespace ClassUnit

variable {u : ClassUnit} {session after : Session} {position : Nat} {strings : StringTable}

/-- The first function is compiled, and the others are with the session and the
constants that it leaves. -/
theorem compileFunctions_cons {f : Function} {functions : List Function}
    {compiled : List Assembly.Function × StringTable}
    (h : u.compileFunctions position session strings (f :: functions)
      = (after, .ok compiled)) :
    ∃ p interned g rest,
      Selection.ofFunction u session.abi position f strings = (.ok p, interned)
        ∧ Assembly.Function.ofPseudo session.abi p = .ok g
        ∧ u.compileFunctions (position + 1) ((session.enter f.name).record g p.serviceCalls)
          interned functions = (after, .ok rest)
        ∧ compiled = (g :: rest.1, rest.2) := by
  simp only [compileFunctions] at h
  split at h
  · cases h
  · next g serviceCalls hcompiled =>
    obtain ⟨p, hp, hplaced⟩ := bind_eq_ok.1 hcompiled
    obtain ⟨g', hg, hplaced⟩ := bind_eq_ok.1 hplaced
    cases hplaced
    obtain ⟨hafter, h⟩ := Prod.mk.inj h
    cases hrest : (u.compileFunctions (position + 1)
        ((session.enter f.name).record g p.serviceCalls)
        (Selection.ofFunction u session.abi position f strings).2 functions).2 with
    | error e =>
      rw [hrest] at h
      cases h
    | ok rest =>
      rw [hrest] at h
      cases h
      exact ⟨p, _, g, rest, Prod.ext hp rfl, hg, Prod.ext hafter hrest, rfl⟩

/-- A class that was compiled passed its check, and its listing holds its functions and the
constants that they asked for. -/
theorem compile_eq_ok {source : ClassUnit} {listing : Listing}
    (h : source.compile session = (u, after, .ok listing)) :
    source.check = (u, .ok ()) ∧ ∃ strings : StringTable,
      u.compileFunctions 0 session {} u.functions = (after, .ok (listing.functions, strings))
        ∧ listing.staticSymbol = Symbol.ofStatics session.abi u.name
        ∧ listing.strings = strings.entries := by
  unfold compile at h
  split at h
  · simp only [Prod.mk.injEq, reduceCtorEq, and_false] at h
  · next checked hcheck =>
    simp only [Prod.mk.injEq] at h
    obtain ⟨rfl, hafter, h⟩ := h
    obtain ⟨⟨functions, strings⟩, hcompiled, h⟩ := bind_eq_ok.1 h
    obtain ⟨items, -, h⟩ := bind_eq_ok.1 (liftReported_eq_ok.1 h)
    cases h
    exact ⟨hcheck, strings, Prod.ext hafter hcompiled, rfl, rfl⟩

end ClassUnit

/-! ## Texts -/

/-- A text that was compiled was read, and what was read was compiled in a session of its
own. -/
theorem compileText_eq_ok {abi : Abi} {text source : String} {compiled : Compiled}
    (h : compileText abi text source = .ok compiled) :
    ∃ read session, ClassUnit.read text source = .ok read
      ∧ read.compile { abi := abi } = (compiled.unit, session, .ok compiled.listing)
      ∧ compiled.statistics = session.statistics := by
  obtain ⟨read, hread, h⟩ := bind_eq_ok.1 h
  obtain ⟨listing, hlisting, h⟩ := bind_eq_ok.1 h
  cases h
  exact ⟨read, _, liftReported_eq_ok.1 hread, Prod.ext rfl (Prod.ext rfl hlisting), rfl⟩

end Jil
