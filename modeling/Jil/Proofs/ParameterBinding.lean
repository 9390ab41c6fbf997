/-
Jil.Proofs.ParameterBinding — which argument a parameter name stands for.

A check and the code of a function read a list of parameters in different orders:
the check binds the parameters and then the receiver, the entry receives the
receiver and then the parameters, and in both the last one of a name counts. So
the two agree unless an object's function has a parameter with the name of the
receiver (`KeepsReceiver`); then the name is typed as the receiver and holds the
parameter. Repeated names do no harm, and neither does a parameter named `this`
where there is no receiver.

That a copy which the entry makes is what is read later rests on two things. The
entry writes no hardware register, so the argument register is still intact when
it is copied; and no code behind the entry writes to the copy. `Delivers` says so
of a run, step by step.
-/
import Jil.Proofs.Arguments
import Jil.Proofs.EdgeCopies
import Jil.Proofs.SparedNumbers

namespace Jil

open Machine (Abi Runtime)
open Pseudo (Instr Reg bind_eq_ok ite_eq_ok)

/-! ## Last of a name -/

/-- An argument that a function receives behind the environment. -/
structure Incoming where
  name : String
  /-- Its place among the arguments, counted from 1. -/
  position : Nat
  type : Ty

namespace Incoming

/-- The last argument of a name. -/
def last? (l : List Incoming) (name : String) : Option Incoming :=
  (l.filter (·.name = name)).getLast?

theorem last?_append (l more : List Incoming) (name : String) :
    last? (l ++ more) name = (last? more name).or (last? l name) := by
  simp [last?, List.getLast?_append]

theorem last?_eq_none {l : List Incoming} {name : String} (h : ∀ a ∈ l, a.name ≠ name) :
    last? l name = none := by
  rw [last?, List.getLast?_eq_none_iff, List.filter_eq_nil_iff]
  simpa using h

theorem of_last? {l : List Incoming} {name : String} {a : Incoming}
    (h : last? l name = some a) :
    a ∈ l ∧ a.name = name := by
  simpa using List.mem_of_getLast? h

end Incoming

/-- Parameters as arguments, the first one at `position`. -/
def Function.incomingFrom (position : Nat) : List Param → List Incoming
  | [] => []
  | p :: rest => ⟨p.name, position, p.type⟩ :: incomingFrom (position + 1) rest

namespace Function

variable {f : Function} {owner name : String}

/-- The receiver as an argument. -/
def receiver (f : Function) (owner : String) : List Incoming :=
  if f.isPerObject then [⟨"this", 2, .classRef owner⟩] else []

/-- The parameters as arguments. -/
def incoming (f : Function) : List Incoming := incomingFrom 3 f.params

/-- The argument that a name stands for in a check: the receiver comes last. -/
def argument? (f : Function) (owner name : String) : Option Incoming :=
  Incoming.last? (f.incoming ++ f.receiver owner) name

/-- The argument that a name stands for in the code: the parameters come last. -/
def received? (f : Function) (owner name : String) : Option Incoming :=
  Incoming.last? (f.receiver owner ++ f.incoming) name

theorem map_incomingFrom (position : Nat) (params : List Param) :
    (incomingFrom position params).map (fun a => (a.name, a.type))
      = params.map fun p => (p.name, p.type) := by
  induction params generalizing position with
  | nil => rfl
  | cons p params ih => rw [incomingFrom, List.map_cons, List.map_cons, ih]

theorem of_mem_incomingFrom {position : Nat} {params : List Param} {a : Incoming}
    (h : a ∈ incomingFrom position params) :
    position ≤ a.position ∧ ∃ p ∈ params, p.name = a.name ∧ p.type = a.type := by
  induction params generalizing position with
  | nil => cases h
  | cons p params ih =>
    obtain rfl | h := List.mem_cons.1 h
    · exact ⟨Nat.le_refl _, p, List.mem_cons_self, rfl, rfl⟩
    · obtain ⟨hposition, q, hq, hsame⟩ := ih h
      exact ⟨by omega, q, List.mem_cons_of_mem _ hq, hsame⟩

theorem exists_mem_incomingFrom (position : Nat) {params : List Param} {p : Param}
    (h : p ∈ params) :
    ∃ a ∈ incomingFrom position params, a.name = p.name := by
  induction params generalizing position with
  | nil => cases h
  | cons q params ih =>
    obtain rfl | h := List.mem_cons.1 h
    · exact ⟨_, List.mem_cons_self, rfl⟩
    · obtain ⟨a, ha, hname⟩ := ih (position + 1) h
      exact ⟨a, List.mem_cons_of_mem _ ha, hname⟩

/-- A check records the type of the argument that the name stands for. -/
theorem get?_paramTable_eq :
    (f.paramTable owner).get? name = (f.argument? owner name).map Incoming.type := by
  have htable : f.paramTable owner
      = Table.ofList ((f.incoming ++ f.receiver owner).map fun a => (a.name, a.type)) := by
    rw [List.map_append, Table.ofList, List.foldl_append]
    simp only [paramTable, Typing.Context.ofFunction, incoming, map_incomingFrom, receiver]
    split <;> rfl
  rw [htable, Table.ofList, Table.get?_foldl_insert, Table.get?_empty, Option.or_none,
    List.filter_map, List.getLast?_map, Option.map_map]
  rfl

theorem mem_receiver {a : Incoming} (h : a ∈ f.receiver owner) :
    f.isPerObject = true ∧ a = ⟨"this", 2, .classRef owner⟩ := by
  unfold receiver at h
  split at h
  · exact ⟨‹_›, List.mem_singleton.1 h⟩
  · cases h

/-- With the receiver kept, the order of the arguments does not matter. -/
theorem argument?_eq_received? (h : Selection.KeepsReceiver f) (owner name : String) :
    f.argument? owner name = f.received? owner name := by
  rw [argument?, received?, Incoming.last?_append, Incoming.last?_append]
  by_cases hreceiver : f.isPerObject = true ∧ name = "this"
  · obtain ⟨hkind, rfl⟩ := hreceiver
    have hnone : Incoming.last? f.incoming "this" = none := by
      refine Incoming.last?_eq_none fun a ha => ?_
      obtain ⟨-, p, hp, hname, -⟩ := of_mem_incomingFrom ha
      exact hname ▸ h hkind p hp
    simp [hnone]
  · have hnone : Incoming.last? (f.receiver owner) name = none := by
      refine Incoming.last?_eq_none fun a ha => ?_
      obtain ⟨hkind, rfl⟩ := mem_receiver ha
      exact fun hname => hreceiver ⟨hkind, hname.symm⟩
    simp [hnone]

end Function

namespace Selection

/-! ## The entry -/

/-- Code that copies an incoming argument into a pseudo-register of its size, and
writes nothing else there. -/
structure Copied (abi : Abi) (code : List Instr) (q : Reg) (a : Incoming) : Prop where
  size : q.size = sizeOf a.type
  copied : ∃ r, abi.argument? a.position = some r ∧ .mov q.size (.fixed r) (.pseudo q) ∈ code
    ∧ ∀ i ∈ code, ∀ q' ∈ i.defined, q'.id = q.id → i = .mov q.size (.fixed r) (.pseudo q)

/-- More code that does not write there. -/
theorem Copied.append {abi : Abi} {code rest : List Instr} {q : Reg} {a : Incoming}
    (h : Copied abi code q a) (hrest : ∀ i ∈ rest, ∀ q' ∈ i.defined, q'.id ≠ q.id) :
    Copied abi (code ++ rest) q a := by
  obtain ⟨r, hr, hmem, hother⟩ := h.copied
  refine ⟨h.size, r, hr, List.mem_append_left _ hmem, List.forall_mem_append.2 ⟨hother, ?_⟩⟩
  exact fun i hi q' hq' heq => absurd heq (hrest i hi q' hq')

/-- Different registers pass different arguments into one pseudo-register. -/
theorem Copied.position_eq {abi : Abi} (habi : abi ∈ Abi.all) {code : List Instr} {q : Reg}
    {a b : Incoming} (ha : Copied abi code q a) (hb : Copied abi code q b) :
    a.position = b.position := by
  obtain ⟨r, hr, hmem, -⟩ := ha.copied
  obtain ⟨r', hr', -, hother⟩ := hb.copied
  have heq := hother _ hmem q (List.mem_singleton.2 rfl) rfl
  obtain rfl : r = r' := by
    simpa [Instr.mov] using heq
  exact Machine.position_eq_of_argument? habi hr hr'

/-- Code that moves hardware registers into pseudo-registers and does nothing else. -/
def Unloads (code : List Instr) : Prop :=
  ∀ i ∈ code, ∃ s r q, i = .mov s (.fixed r) (.pseudo q)

/-- An entry passes an incoming argument on to the rest of the code: it copies the
argument while every argument register is still as it was at the start, and the rest does
not write to the copy. -/
structure Passed (abi : Abi) (entry rest : List Instr) (q : Reg) (a : Incoming) : Prop extends
    Copied abi entry q a where
  intact : Unloads entry
  kept : ∀ i ∈ rest, ∀ q' ∈ i.defined, q'.id ≠ q.id

/-- What the entry of a function has received so far: each name stands for the last argument of
that name, in a pseudo-register behind that of the environment. -/
structure Entry.Holds (abi : Abi) (e : Entry) (environment : Nat) (l : List Incoming) :
    Prop where
  drawn : environment ≤ e.drawn
  unloads : Unloads e.code
  written : ∀ i ∈ e.code, ∀ q ∈ i.defined, q.id ≤ e.drawn
  unbound : ∀ name, Incoming.last? l name = none → e.params.get? name = none
  bound : ∀ name a, Incoming.last? l name = some a → ∃ q, e.params.get? name = some q
    ∧ environment < q.id ∧ q.id ≤ e.drawn ∧ Copied abi e.code q a

namespace Entry

variable {abi : Abi} {e after : Entry} {env position : Nat} {origin : Origin}
  {l : List Incoming}

/-- One more argument. -/
theorem Holds.receive {p : Param} {a : Incoming} (h : e.Holds abi env l)
    (hname : a.name = p.name) (hposition : a.position = position)
    (hsize : sizeOf a.type = sizeOf p.type)
    (hok : e.receive abi position p origin = .ok after) :
    after.Holds abi env (l ++ [a]) := by
  obtain ⟨r, hr, hcode, hparams, hdrawn⟩ := receive_eq_ok hok
  have hnew : ∀ q ∈ (Instr.mov (sizeOf p.type) (.fixed r)
      (.pseudo ⟨e.drawn + 1, sizeOf p.type⟩)).defined, q = ⟨e.drawn + 1, sizeOf p.type⟩ :=
    fun q hq => List.mem_singleton.1 hq
  have hlast : ∀ name, Incoming.last? (l ++ [a]) name
      = if name = p.name then some a else Incoming.last? l name := by
    intro name
    rw [Incoming.last?_append]
    by_cases heq : name = p.name
    · simp [Incoming.last?, hname, heq]
    · simp [Incoming.last?, hname, heq, Ne.symm heq]
  refine ⟨by rw [hdrawn]; exact Nat.le_succ_of_le h.drawn, ?_, fun i hi q hq => ?_,
    fun name hnone => ?_, fun name b hb => ?_⟩
  · rw [hcode]
    exact List.forall_mem_append.2 ⟨h.unloads, List.forall_mem_singleton.2 ⟨_, _, _, rfl⟩⟩
  · rw [hcode, List.mem_append, List.mem_singleton] at hi
    rw [hdrawn]
    obtain hi | rfl := hi
    · exact Nat.le_succ_of_le (h.written i hi q hq)
    · exact Nat.le_of_eq (congrArg Reg.id (hnew q hq))
  · rw [hlast] at hnone
    split at hnone
    · cases hnone
    · next hne =>
      rw [hparams, Table.get?_insert_of_ne _ _ hne]
      exact h.unbound name hnone
  · rw [hlast] at hb
    rw [hparams, Table.get?_insert, hdrawn, hcode]
    split at hb
    · next heq =>
      cases hb
      rw [if_pos heq]
      refine ⟨_, rfl, Nat.lt_succ_of_le h.drawn, Nat.le_refl _, hsize.symm, r,
        hposition ▸ hr, by simp, List.forall_mem_append.2 ⟨fun i hi q hq heq => ?_, ?_⟩⟩
      · -- what was received before has a smaller number
        have := h.written i hi q hq
        simp only at heq
        omega
      · exact List.forall_mem_singleton.2 fun _ _ _ => rfl
    · next hne =>
      rw [if_neg hne]
      obtain ⟨q, hq, hlower, hupper, hcopied⟩ := h.bound name b hb
      refine ⟨q, hq, hlower, Nat.le_succ_of_le hupper, hcopied.append ?_⟩
      refine List.forall_mem_singleton.2 fun q' hq' => ?_
      rw [hnew q' hq']
      exact fun heq => by simp only at heq; omega

theorem Holds.receiveAll {params : List Param} (h : e.Holds abi env l)
    (hok : e.receiveAll abi position origin params = .ok after) :
    after.Holds abi env (l ++ Function.incomingFrom position params) := by
  induction params generalizing e l position with
  | nil =>
    cases hok
    simpa [Function.incomingFrom] using h
  | cons p params ih =>
    obtain ⟨mid, hmid, hok⟩ := bind_eq_ok.1 hok
    have hrest := ih (h.receive (a := ⟨p.name, position, p.type⟩) rfl rfl rfl hmid) hok
    simpa [Function.incomingFrom] using hrest

/-- An entry receives the receiver and then the parameters. -/
theorem holds_of_ofFunction {f : Function} (h : ofFunction abi f origin = .ok e)
    (owner : String) :
    e.Holds abi f.registerCount (f.receiver owner ++ f.incoming) := by
  obtain ⟨r, -, h⟩ := bind_eq_ok.1 h
  have hstart : Entry.Holds abi
      { code := [.mov .quad (.fixed r) (.pseudo (environment f))],
        drawn := (environment f).id }
      f.registerCount [] := by
    refine ⟨Nat.le_refl _, List.forall_mem_singleton.2 ⟨_, _, _, rfl⟩,
      List.forall_mem_singleton.2 fun q hq => ?_, fun _ _ => rfl, nofun⟩
    exact Nat.le_of_eq (congrArg Reg.id (List.mem_singleton.1 hq))
  rcases ite_eq_ok.1 h with ⟨hkind, h⟩ | ⟨hkind, h⟩
  · obtain ⟨received, hreceived, h⟩ := bind_eq_ok.1 h
    have hreceiver : f.receiver owner = [] ++ [⟨"this", 2, .classRef owner⟩] := if_pos hkind
    rw [hreceiver]
    exact (hstart.receive rfl rfl rfl hreceived).receiveAll h
  · have hreceiver : f.receiver owner = [] := if_neg hkind
    rw [hreceiver]
    exact hstart.receiveAll h

end Entry

/-! ## Runs -/

/-- What a run has delivered of an argument: while control is in the entry all hardware
registers are as at the start, and behind the copy the pseudo-register holds what the
argument register held. -/
structure Delivers (entry : List Instr) (q : Reg) (r : Machine.Reg) (σ : Pseudo.State)
    (p : Nat × Pseudo.State) : Prop where
  regs : p.1 < entry.length → p.2.regs = σ.regs
  value : .mov q.size (.fixed r) (.pseudo q) ∈ entry.take p.1 →
    p.2.value q.size q.id = σ.reg q.size r

section

variable {abi : Abi} {entry rest : List Instr} {q : Reg} {a : Incoming} {r : Machine.Reg}
  {rt : Runtime} {σ : Pseudo.State} {p p' : Nat × Pseudo.State}

/-- Control does not come back into an entry, which has no labels. -/
theorem Unloads.length_le (h : Unloads entry) (hp : entry.length ≤ p.1)
    (hstep : Pseudo.step rt (entry ++ rest) p = .ok p') : entry.length ≤ p'.1 := by
  refine Nat.le_of_not_lt fun hlt => ?_
  obtain ⟨name, hname⟩ := Pseudo.label_of_mem_successors (Pseudo.mem_successors_of_step hstep)
    (by omega)
  rw [List.getElem?_append_left hlt] at hname
  obtain ⟨s, r, q, heq⟩ := h _ (List.mem_of_getElem? hname)
  cases heq

/-- A step through the entry makes the copy, or leaves it alone. -/
theorem Delivers.step_entry (hintact : Unloads entry)
    (hother : ∀ i ∈ entry, ∀ q' ∈ i.defined, q'.id = q.id →
      i = .mov q.size (.fixed r) (.pseudo q))
    (h : Delivers entry q r σ p) (hp : p.1 < entry.length)
    (hstep : Pseudo.step rt (entry ++ rest) p = .ok p') : Delivers entry q r σ p' := by
  obtain ⟨index, τ⟩ := p
  have hi : entry[index]? = some entry[index] := List.getElem?_eq_getElem hp
  have hmem := List.mem_of_getElem? hi
  obtain ⟨s, r', q', heq⟩ := hintact _ hmem
  rw [heq] at hi
  have hget : (entry ++ rest)[index]? = some (.mov s (.fixed r') (.pseudo q')) := by
    rw [List.getElem?_append_left hp, hi]
  have hmove : p' = (index + 1, τ.setPseudo s q'.id (τ.reg s r')) :=
    (Except.ok.inj ((Pseudo.step_of_exec hget rfl).symm.trans hstep)).symm
  subst hmove
  refine ⟨fun _ => h.regs hp, fun htake => ?_⟩
  have hregs : τ.regs = σ.regs := h.regs hp
  by_cases hsame : q'.id = q.id
  · -- this is the copy
    have hcopy := hother _ hmem q' (by rw [heq]; exact List.mem_cons_self) hsame
    rw [heq] at hcopy
    cases hcopy
    rw [Pseudo.State.value_setPseudo, Machine.State.reg, Machine.State.reg, hregs]
  · rw [Pseudo.State.value_setPseudo_of_ne _ _ (Ne.symm hsame)]
    refine h.value ?_
    rw [List.take_add_one, hi, List.mem_append] at htake
    refine htake.resolve_right fun hlast => hsame ?_
    cases List.mem_singleton.1 hlast
    rfl

/-- No step behind the entry writes to the copy. -/
theorem Delivers.step_rest (hintact : Unloads entry)
    (hkept : ∀ i ∈ rest, ∀ q' ∈ i.defined, q'.id ≠ q.id) (h : Delivers entry q r σ p)
    (hp : entry.length ≤ p.1) (hstep : Pseudo.step rt (entry ++ rest) p = .ok p') :
    Delivers entry q r σ p' := by
  have hp' := hintact.length_le hp hstep
  refine ⟨fun hlt => absurd hlt (Nat.not_lt.2 hp'), fun hcopy => ?_⟩
  rw [List.take_of_length_le hp'] at hcopy
  have hsame : p'.2.pseudo q.id = p.2.pseudo q.id := by
    refine Pseudo.pseudo_of_step hstep fun i hi hdefines => ?_
    rw [List.getElem?_append_right hp] at hi
    obtain ⟨q', hq', hid⟩ := List.mem_map.1 (Instr.defines_iff.1 hdefines)
    exact hkept i (List.mem_of_getElem? hi) q' hq' hid
  rw [Pseudo.State.value, hsame]
  exact h.value (by rwa [List.take_of_length_le hp])

theorem Delivers.reaches (hintact : Unloads entry)
    (hother : ∀ i ∈ entry, ∀ q' ∈ i.defined, q'.id = q.id →
      i = .mov q.size (.fixed r) (.pseudo q))
    (hkept : ∀ i ∈ rest, ∀ q' ∈ i.defined, q'.id ≠ q.id)
    (hrun : Pseudo.Reaches rt (entry ++ rest) p p') (h : Delivers entry q r σ p) :
    Delivers entry q r σ p' := by
  induction hrun with
  | refl _ => exact h
  | @step p mid _ hstep _ ih =>
    refine ih ?_
    rcases Nat.lt_or_ge p.1 entry.length with hp | hp
    · exact h.step_entry hintact hother hp hstep
    · exact h.step_rest hintact hkept hp hstep

/-- Behind the entry, every run has in the pseudo-register what the argument
register held at the start. -/
theorem Passed.holds (h : Passed abi entry rest q a) : ∃ r, abi.argument? a.position = some r
    ∧ ∀ rt σ k τ, Pseudo.Reaches rt (entry ++ rest) (0, σ) (k, τ) → entry.length ≤ k →
      τ.value q.size q.id = σ.reg q.size r := by
  obtain ⟨r, hr, hmem, hother⟩ := h.copied
  refine ⟨r, hr, fun rt σ k τ hrun hk => ?_⟩
  have hstart : Delivers entry q r σ (0, σ) := ⟨fun _ => rfl, fun hcopy => nomatch hcopy⟩
  refine (hstart.reaches h.intact hother h.kept hrun).value ?_
  rwa [List.take_of_length_le hk]

/-- Whenever a run from the start comes to an index, the next step puts into a register what an
argument register held at the start. -/
def ReadsArgument (abi : Abi) (code : List Instr) (index : Nat) (a : Incoming)
    (result : Register) : Prop :=
  ∃ r, abi.argument? a.position = some r ∧ ∀ rt σ τ, Pseudo.Reaches rt code (0, σ) (index, τ) →
    ∃ after, Pseudo.step rt code (index, τ) = .ok (index + 1, after)
      ∧ after.value (sizeOf a.type) result.index = σ.reg (sizeOf a.type) r

/-- A move out of the pseudo-register behind the entry reads the argument. -/
theorem Passed.readsArgument (h : Passed abi entry rest q a) {index : Nat} {result : Register}
    (hindex : entry.length ≤ index) (hmove : (entry ++ rest)[index]?
      = some (move (sizeOf a.type) q ⟨result.index, sizeOf a.type⟩)) :
    ReadsArgument abi (entry ++ rest) index a result := by
  obtain ⟨r, hr, hholds⟩ := h.holds
  refine ⟨r, hr, fun rt σ τ hrun => ⟨_, Pseudo.step_of_exec hmove rfl, ?_⟩⟩
  have hvalue := hholds rt σ index τ hrun hindex
  rw [h.size] at hvalue
  exact (τ.value_setPseudo _).trans hvalue

end

/-! ## Functions -/

section

variable {u : ClassUnit} {abi : Abi} {position : Nat} {f : Function} {scope : Scope}
  {entry : Entry} {strings interned : Assembly.StringTable} {p : Pseudo.Function}

/-- The parts of the stream of a function. -/
theorem exists_parts_of_ofFunction
    (h : ofFunction u abi position f strings = (.ok p, interned)) :
    ∃ scope entry body after, scopeOf u abi position f = .ok (scope, entry)
      ∧ Yields scope (bodyCode 0 f.body)
          { strings := strings, drawn := entry.drawn } body after
      ∧ p.code = entry.code ++ (body ++ [.label (exitLabel position)]) := by
  obtain ⟨scope, entry, body, after, hscope, hbody, rfl, -⟩ := ofFunction_eq_ok h
  exact ⟨scope, entry, body, after, hscope, hbody, List.append_assoc _ _ _⟩

/-- Each name stands for the last argument of that name that was received. -/
theorem exists_passed (hf : Checked u position f)
    (hscope : scopeOf u abi position f = .ok (scope, entry)) {body : List Instr}
    {after : State}
    (hbody : Yields scope (bodyCode 0 f.body)
      { strings := strings, drawn := entry.drawn } body after)
    {name : String} {a : Incoming} (ha : f.received? u.name name = some a) :
    ∃ q, scope.params.get? name = some q
      ∧ Passed abi entry.code (body ++ [.label (exitLabel position)]) q a := by
  obtain ⟨types, ht⟩ := hf.typed
  obtain ⟨copies, -, rfl, hentry⟩ := scopeOf_eq_ok ht.recorded hscope
  have hentry := Entry.holds_of_ofFunction hentry u.name
  obtain ⟨q, hq, hlower, hupper, hcopied⟩ := hentry.bound name a ha
  have hspares : Pseudo.Spares f.registerCount entry.drawn body :=
    spares_bodyCode ht.drawn hbody
  refine ⟨q, hq, hcopied, hentry.unloads, List.forall_mem_append.2 ⟨fun i hi q' hq' => ?_, ?_⟩⟩
  · rcases hspares i hi q' hq' with h | h <;> omega
  · exact List.forall_mem_singleton.2 fun q' hq' => nomatch hq'

/-- A name that a check binds, bound alike: the code has a pseudo-register for it, in which the
entry passes on the very argument whose type the check records. -/
def BoundAlike (u : ClassUnit) (abi : Abi) (f : Function) (scope : Scope)
    (entry rest : List Instr) : Prop :=
  ∀ name t, (Typing.Context.ofFunction f u.name).params.get? name = some t →
    ∃ a q, f.argument? u.name name = some a ∧ a.type = t ∧ scope.params.get? name = some q
      ∧ Passed abi entry rest q a

/-- Where a parameter takes the name of the receiver, the name is typed as one
argument and holds another. -/
theorem not_boundAlike (habi : abi ∈ Abi.all) (hf : Checked u position f)
    (hscope : scopeOf u abi position f = .ok (scope, entry)) {body : List Instr}
    {after : State}
    (hbody : Yields scope (bodyCode 0 f.body)
      { strings := strings, drawn := entry.drawn } body after)
    (hthis : ¬ KeepsReceiver f) :
    ¬ BoundAlike u abi f scope entry.code (body ++ [.label (exitLabel position)]) := by
  intro halike
  obtain ⟨hkind, param, hparam, hname⟩ :
      f.isPerObject = true ∧ ∃ p ∈ f.params, p.name = "this" := by
    simpa [KeepsReceiver] using hthis
  have hreceiver : f.receiver u.name = [⟨"this", 2, .classRef u.name⟩] := if_pos hkind
  have hchecked : f.argument? u.name "this" = some ⟨"this", 2, .classRef u.name⟩ := by
    rw [Function.argument?, Incoming.last?_append, hreceiver]
    rfl
  -- the last parameter of the name is what was received
  obtain ⟨b, hb, hposition⟩ : ∃ b, f.received? u.name "this" = some b ∧ 3 ≤ b.position := by
    rw [Function.received?, Incoming.last?_append]
    cases hlast : Incoming.last? f.incoming "this" with
    | some b => exact ⟨b, rfl, (Function.of_mem_incomingFrom (Incoming.of_last? hlast).1).1⟩
    | none =>
      obtain ⟨a, ha, hsame⟩ := Function.exists_mem_incomingFrom 3 hparam
      rw [Incoming.last?, List.getLast?_eq_none_iff, List.filter_eq_nil_iff] at hlast
      exact absurd (hsame.trans hname) (by simpa using hlast a ha)
  have htyped : (f.paramTable u.name).get? "this" = some (.classRef u.name) := by
    rw [Function.get?_paramTable_eq, hchecked]
    rfl
  obtain ⟨a, q, ha, -, hq, hpassed⟩ := halike "this" _ htyped
  obtain ⟨q', hq', hpassed'⟩ := exists_passed hf hscope hbody hb
  obtain rfl : q = q' := Option.some.inj (hq.symm.trans hq')
  obtain rfl := Option.some.inj (hchecked.symm.trans ha)
  have hsame := hpassed.toCopied.position_eq habi hpassed'.toCopied
  simp only at hsame
  omega

/-- With the receiver kept every name is bound alike. -/
theorem boundAlike (hf : Checked u position f)
    (hscope : scopeOf u abi position f = .ok (scope, entry)) {body : List Instr}
    {after : State}
    (hbody : Yields scope (bodyCode 0 f.body)
      { strings := strings, drawn := entry.drawn } body after)
    (hthis : KeepsReceiver f) :
    BoundAlike u abi f scope entry.code (body ++ [.label (exitLabel position)]) := by
  intro name t ht
  have hrecorded : (f.argument? u.name name).map Incoming.type = some t :=
    Function.get?_paramTable_eq.symm.trans ht
  obtain ⟨a, ha, rfl⟩ := Option.map_eq_some_iff.1 hrecorded
  have hreceived := (Function.argument?_eq_received? hthis u.name name).symm.trans ha
  obtain ⟨q, hq, hpassed⟩ := exists_passed hf hscope hbody hreceived
  exact ⟨a, q, ha, rfl, hq, hpassed⟩

/-- With the receiver kept a parameter is read by one move, out of the pseudo-register that
holds the argument it was typed as. -/
theorem getParam_reads_argument (hf : Checked u position f)
    (hscope : scopeOf u abi position f = .ok (scope, entry)) {body : List Instr}
    {after : State}
    (hbody : Yields scope (bodyCode 0 f.body)
      { strings := strings, drawn := entry.drawn } body after)
    (hthis : KeepsReceiver f) {pre post : List Located} {s : Located}
    (hs : f.body = pre ++ s :: post) {name : String} {result : Register}
    (hread : s.statement = .getParam name result) :
    let rest := body ++ [.label (exitLabel position)]
    ∃ a q before start, f.argument? u.name name = some a ∧ f.registerType? result = some a.type
      ∧ scope.params.get? name = some q ∧ Passed abi entry.code rest q a
      ∧ EmittedAt u abi position f strings (entry.code ++ rest) pre s scope before
        start (start + 1)
      ∧ (entry.code ++ rest)[start]?
        = some (move (sizeOf a.type) q ⟨result.index, sizeOf a.type⟩)
      ∧ ReadsArgument abi (entry.code ++ rest) start a result := by
  intro rest
  obtain ⟨types, ht⟩ := hf.typed
  have hjudged := ht.judged pre s post hs
  rw [hread] at hjudged
  obtain ⟨t, hparam, hresult⟩ := hjudged
  obtain ⟨a, q, ha, rfl, hq, hpassed⟩ := boundAlike hf hscope hbody hthis name t hparam
  have hregister : scope.types.get? result = some a.type := by
    obtain ⟨copies, -, rfl, -⟩ := scopeOf_eq_ok ht.recorded hscope
    exact hresult
  have hresult' : f.registerType? result = some a.type := by
    rw [Function.registerType?, ht.recorded]
    exact hresult
  rw [hs] at hbody
  obtain ⟨front, before, part, mid, back, hfront, hpart, -, rfl⟩ := parts_of_bodyCode hbody
  rw [Nat.zero_add] at hpart
  have hgives := hpart
  rw [hread] at hgives
  obtain ⟨rfl, -⟩ := hgives.unique (Gives.getParam hq hregister).yields
  have hcode : entry.code ++ rest = entry.code ++ front ++ [move (sizeOf a.type) q
      ⟨result.index, sizeOf a.type⟩] ++ (back ++ [.label (exitLabel position)]) := by
    simp [rest]
  have hmove : (entry.code ++ rest)[(entry.code ++ front).length]?
      = some (move (sizeOf a.type) q ⟨result.index, sizeOf a.type⟩) := by
    rw [hcode]
    simp
  exact ⟨a, q, before, _, ha, hresult', hq, hpassed,
    ⟨entry, front, _, mid, _, hscope, hfront, hpart, hcode, rfl, rfl⟩, hmove,
    hpassed.readsArgument (by simp) hmove⟩

/-- Check and code bind the names of parameters alike exactly when no parameter of an object's
function takes the name of the receiver. Then the code of every statement that reads a
parameter is one move, at the size of its type, out of the pseudo-register in which the entry
passes on the argument that the name was typed as; and whenever a run comes there, it reads
what that argument's register held at the start. -/
theorem parameters_bound_alike_iff (habi : abi ∈ Abi.all) (hf : Checked u position f)
    (h : ofFunction u abi position f strings = (.ok p, interned)) :
    ∃ scope entry rest, scopeOf u abi position f = .ok (scope, entry)
      ∧ p.code = entry.code ++ rest
      ∧ (BoundAlike u abi f scope entry.code rest ↔ KeepsReceiver f)
      ∧ (KeepsReceiver f → ∀ pre s post name result, f.body = pre ++ s :: post →
          s.statement = .getParam name result →
          ∃ a q before start, f.argument? u.name name = some a
            ∧ f.registerType? result = some a.type ∧ scope.params.get? name = some q
            ∧ Passed abi entry.code rest q a
            ∧ EmittedAt u abi position f strings p.code pre s scope before start (start + 1)
            ∧ p.code[start]? = some (move (sizeOf a.type) q ⟨result.index, sizeOf a.type⟩)
            ∧ ReadsArgument abi p.code start a result) := by
  obtain ⟨scope, entry, body, after, hscope, hbody, hcode⟩ := exists_parts_of_ofFunction h
  rw [hcode]
  refine ⟨scope, entry, _, hscope, rfl, ⟨fun halike => ?_, boundAlike hf hscope hbody⟩, ?_⟩
  · exact Classical.byContradiction fun hthis =>
      not_boundAlike habi hf hscope hbody hthis halike
  · exact fun hthis pre s post name result hs hread =>
      getParam_reads_argument hf hscope hbody hthis hs hread

end

/-- A function of an object that reads its receiver and one of two parameters of one name. -/
def twice : Function :=
  ((do
      let _ ← .getParam "this"
      let _ ← .getParam "a"
      .returnVoid : Function.Build Unit).run
    { name := "twice", kind := .perObject, params := [⟨.int, "a"⟩, ⟨.long, "a"⟩],
      returns := .void }).2

/-- The class of the function, after its check. -/
def twiceUnit : ClassUnit := ((ClassUnit.create "pkg/Twice").addFunction twice).check.1

/-- The function with the types that its check finds. -/
def twiceChecked : Function :=
  { twice with registerTypes := some ⟨[(⟨0⟩, .classRef "pkg/Twice"), (⟨1⟩, .long)]⟩ }

/-- The stream of the function. -/
def twiceStream : List Instr :=
  [.mov .quad (.fixed .rdi) (.pseudo ⟨2, .quad⟩),
    .mov .quad (.fixed .rsi) (.pseudo ⟨3, .quad⟩),
    .mov .long (.fixed .rdx) (.pseudo ⟨4, .long⟩),
    .mov .quad (.fixed .rcx) (.pseudo ⟨5, .quad⟩),
    move .quad ⟨3, .quad⟩ ⟨0, .quad⟩, move .quad ⟨5, .quad⟩ ⟨1, .quad⟩, .jmp ".LF0_exit",
    .label ".LF0_exit"]

/-- The name that is there twice is typed as the second parameter, and what is read
is the fourth argument. -/
theorem second_of_a_name_is_read :
    Abi.systemV ∈ Abi.all ∧ Checked twiceUnit 0 twiceChecked ∧ KeepsReceiver twiceChecked
    ∧ ∃ p scope entry rest, ofFunction twiceUnit .systemV 0 twiceChecked {} = (.ok p, {})
      ∧ scopeOf twiceUnit .systemV 0 twiceChecked = .ok (scope, entry)
      ∧ p.code = entry.code ++ rest ∧ p.code = twiceStream
      ∧ BoundAlike twiceUnit .systemV twiceChecked scope entry.code rest
      ∧ ∀ rt σ, ∃ τ after, Pseudo.Reaches rt p.code (0, σ) (5, τ)
        ∧ Pseudo.step rt p.code (5, τ) = .ok (6, after)
        ∧ after.value .quad 1 = σ.reg .quad .rcx := by
  have habi : Abi.systemV ∈ Abi.all := by decide
  have hdrawn : twice.Drawn := by
    unfold Function.Drawn
    decide
  have hchecked : Checked twiceUnit 0 twiceChecked := checked_of_single hdrawn rfl rfl
  have hthis : KeepsReceiver twiceChecked := fun _ => by decide
  obtain ⟨p, hp, hstream⟩ : ∃ p, ofFunction twiceUnit .systemV 0 twiceChecked {} = (.ok p, {})
      ∧ p.code = twiceStream := ⟨_, rfl, rfl⟩
  obtain ⟨scope, entry, rest, hscope, hcode, halike, hreads⟩ :=
    parameters_bound_alike_iff habi hchecked hp
  refine ⟨habi, hchecked, hthis, p, scope, entry, rest, hp, hscope, hcode, hstream,
    halike.2 hthis, fun rt σ => ?_⟩
  obtain ⟨a, q, before, start, ha, -, -, -, -, hmove, r, hr, hread⟩ := hreads hthis
    [⟨.getParam "this" ⟨0⟩, .generated⟩] ⟨.getParam "a" ⟨1⟩, .generated⟩
      [⟨.returnVoid, .generated⟩] "a" ⟨1⟩
    rfl rfl
  obtain rfl : a = ⟨"a", 4, .long⟩ := (Option.some.inj ha).symm
  obtain rfl : r = .rcx := (Option.some.inj hr).symm
  rw [hstream] at hmove hread ⊢
  -- there is one move into the second register
  obtain rfl : start = 5 := by
    rcases start with _ | _ | _ | _ | _ | _ | _ | _ | start
    case succ.succ.succ.succ.succ.zero => rfl
    all_goals simp [twiceStream, move, Instr.mov] at hmove
  have hrun : Pseudo.Reaches rt twiceStream (0, σ) (5, _) :=
    @Pseudo.reaches_of_execAll rt σ _ [] (twiceStream.take 5) (twiceStream.drop 5) rfl
  obtain ⟨after, hstep, hvalue⟩ := hread rt σ _ hrun
  exact ⟨_, after, hrun, hstep, hvalue⟩

/-- A function of an object with a parameter of the receiver's name, which it reads. -/
def shadow : Function :=
  ((do
      let _ ← .getParam "this"
      .returnVoid : Function.Build Unit).run
    { name := "shadow", kind := .perObject, params := [⟨.int, "this"⟩], returns := .void }).2

/-- The class of the function, after its check. -/
def shadowUnit : ClassUnit := ((ClassUnit.create "pkg/Shadow").addFunction shadow).check.1

/-- The function with the types that its check finds. -/
def shadowChecked : Function :=
  { shadow with registerTypes := some ⟨[(⟨0⟩, .classRef "pkg/Shadow")]⟩ }

/-- The stream of the function. -/
def shadowStream : List Instr :=
  [.mov .quad (.fixed .rdi) (.pseudo ⟨1, .quad⟩),
    .mov .quad (.fixed .rsi) (.pseudo ⟨2, .quad⟩),
    .mov .long (.fixed .rdx) (.pseudo ⟨3, .long⟩), move .quad ⟨3, .long⟩ ⟨0, .quad⟩,
    .jmp ".LF0_exit", .label ".LF0_exit"]

/-- What the check takes for the object is the parameter: a whole register is read out of the
`int` that the third argument register passes. -/
theorem shadowed_receiver_reads_parameter :
    Checked shadowUnit 0 shadowChecked
    ∧ (Typing.Context.ofFunction shadowChecked "pkg/Shadow").params.get? "this"
        = some (.classRef "pkg/Shadow")
    ∧ ∃ p scope entry rest, ofFunction shadowUnit .systemV 0 shadowChecked {} = (.ok p, {})
      ∧ scopeOf shadowUnit .systemV 0 shadowChecked = .ok (scope, entry)
      ∧ p.code = entry.code ++ rest
      ∧ ¬ BoundAlike shadowUnit .systemV shadowChecked scope entry.code rest
      ∧ p.code = shadowStream := by
  have habi : Abi.systemV ∈ Abi.all := by decide
  have hdrawn : shadow.Drawn := by
    unfold Function.Drawn
    decide
  have hchecked : Checked shadowUnit 0 shadowChecked := checked_of_single hdrawn rfl rfl
  have hthis : ¬ KeepsReceiver shadowChecked :=
    fun h => h rfl ⟨.int, "this"⟩ List.mem_cons_self rfl
  obtain ⟨p, hp, hstream⟩ :
      ∃ p, ofFunction shadowUnit .systemV 0 shadowChecked {} = (.ok p, {})
      ∧ p.code = shadowStream := ⟨_, rfl, rfl⟩
  obtain ⟨scope, entry, body, after, hscope, hbody, hcode⟩ := exists_parts_of_ofFunction hp
  exact ⟨hchecked, rfl, p, scope, entry, _, hp, hscope, hcode,
    not_boundAlike habi hchecked hscope hbody hthis, hstream⟩

end Selection

end Jil
