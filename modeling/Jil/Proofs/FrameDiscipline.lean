/-
Jil.Proofs.FrameDiscipline — what a compiled function does to its frame.

A listing is a prologue, and then instructions of the body with an epilogue
behind every exit label (`Parts`). `Stage` says where a run of such a listing
is: setting the frame up, in the body, or taking the frame down. One step leads
from stage to stage (`Stage.step`), and so does a run (`Stage.of_runs`).
`frame_discipline` reads off what holds at calls and at the return.
-/
import Jil.Proofs.FrameBody
import Jil.Proofs.Lowered

namespace Jil.Assembly

open Machine (Abi Instr Memory Reg Runtime Runs Spares State Word within_below)

variable {rt : Runtime} {a : Allocation} {entry m after : State} {top x : Word} {i : Instr}
  {exit : String} {code tail l rest : List Instr} {p q r : Nat × State}

/-! ## Listings -/

/-- What follows the prologue: instructions of the body, and epilogues behind exit labels. -/
inductive Parts (abi : Abi) (a : Allocation) (exit : String) : List Instr → Prop
  | nil : Parts abi a exit []
  | body {i : Instr} {rest : List Instr} : Harmless abi a i → Parts abi a exit rest →
    Parts abi a exit (i :: rest)
  | exit {rest : List Instr} : Parts abi a exit rest →
    Parts abi a exit (.label exit :: (Function.epilogue abi a ++ rest))

theorem Parts.append {abi : Abi} (hl : ∀ i ∈ l, Harmless abi a i) (h : Parts abi a exit rest) :
    Parts abi a exit (l ++ rest) := by
  induction l with
  | nil => exact h
  | cons i l ih =>
    exact .body (hl i List.mem_cons_self) (ih fun j hj => hl j (List.mem_cons_of_mem _ hj))

theorem epilogue_eq (abi : Abi) (a : Allocation) :
    Function.epilogue abi a = restoring abi a ++ [.ret] := by
  simp [Function.epilogue, restoring]

theorem mem_adjustStack {op : Machine.AluOp} {bytes : Nat}
    (h : i ∈ Function.adjustStack op bytes) :
    i.isStraight = true := by
  unfold Function.adjustStack at h
  split at h
  · cases h
  · rw [List.mem_singleton.1 h]
    rfl

/-- Control only passes through the prologue, -/
theorem isStraight_of_mem_prologue {abi : Abi} (h : i ∈ Function.prologue abi a) :
    i.isStraight = true := by
  simp only [Function.prologue, List.mem_append, List.mem_cons, List.not_mem_nil, or_false,
    List.mem_map] at h
  rcases h with (((rfl | rfl) | h) | ⟨r, -, rfl⟩) | h
  · rfl
  · rfl
  · exact mem_adjustStack h
  · rfl
  · exact mem_adjustStack h

/-- and through the epilogue up to the return. -/
theorem isStraight_of_mem_restoring {abi : Abi} (h : i ∈ restoring abi a) :
    i.isStraight = true := by
  simp only [restoring, List.mem_append, List.mem_map, List.mem_singleton] at h
  rcases h with (h | ⟨r, -, rfl⟩) | rfl
  · exact mem_adjustStack h
  · rfl
  · rfl

/-- Labels stand where a part begins. -/
theorem Parts.drop_of_label {abi : Abi} {name : String} {k : Nat} (h : Parts abi a exit l)
    (hk : l[k]? = some (.label name)) : Parts abi a exit (l.drop k) := by
  induction h generalizing k with
  | nil => cases hk
  | body hi hrest ih =>
    cases k with
    | zero => exact .body hi hrest
    | succ k => exact ih hk
  | @exit rest hrest ih =>
    cases k with
    | zero => exact .exit hrest
    | succ k =>
      rw [List.getElem?_cons_succ] at hk
      rw [List.drop_succ_cons]
      by_cases hlt : k < (Function.epilogue abi a).length
      · rw [List.getElem?_append_left hlt] at hk
        have hmem := List.mem_of_getElem? hk
        rw [epilogue_eq, List.mem_append, List.mem_singleton] at hmem
        rcases hmem with hmem | hmem
        · cases isStraight_of_mem_restoring hmem
        · cases hmem
      · rw [List.getElem?_append_right (Nat.le_of_not_lt hlt)] at hk
        rw [List.drop_append, List.drop_of_length_le (Nat.le_of_not_lt hlt), List.nil_append]
        exact ih hk

/-! ## Runs -/

/-- Where a run of a listing is. -/
inductive Stage (rt : Runtime) (a : Allocation) (exit : String) (code : List Instr)
    (entry : State) :
    Nat × State → Prop
  | entering {n : Nat} {m : State} : n < (Function.prologue rt.abi a).length →
    Instr.execAll rt entry ((Function.prologue rt.abi a).take n) = .ok m →
    Stage rt a exit code entry (n, m)
  | body {index : Nat} {m : State} : Parts rt.abi a exit (code.drop index) →
    Inside rt.abi a entry m → Stage rt a exit code entry (index, m)
  | leaving {k n : Nat} {rest : List Instr} {last m : State} :
    code.drop k = .label exit :: (Function.epilogue rt.abi a ++ rest) →
    Runs rt code (0, entry) (k + 1, last) → Inside rt.abi a entry last →
    n < (Function.epilogue rt.abi a).length →
    Instr.execAll rt last ((Function.epilogue rt.abi a).take n) = .ok m →
    Stage rt a exit code entry (k + 1 + n, m)

/-- Code that has been executed up to an instruction that is executed. -/
theorem execAll_take_succ {n : Nat} (h : Instr.execAll rt m (l.take n) = .ok after)
    (hi : l[n]? = some i) {next : State} (hexec : i.exec rt after = .ok next) :
    Instr.execAll rt m (l.take (n + 1)) = .ok next := by
  rw [List.take_add_one, hi]
  exact (Machine.execAll_append_of_ok h).trans (Machine.execAll_singleton hexec)

/-- What is needed of a function, its runtime and its entry. -/
structure Entered (rt : Runtime) (a : Allocation) (exit : String) (code : List Instr)
    (entry : State) : Prop where
  convention : rt.abi ∈ Abi.all
  savable : ∀ r ∈ a.saved, r ≠ .rsp ∧ r ≠ .rbp ∧ r ≠ .rax
  fits : a.depth ≤ 2 ^ 64
  frame : ∀ x, Saves a (entry.regs .rsp) x → rt.frame x = true
  listing : ∃ tail, code = Function.prologue rt.abi a ++ tail ∧ Parts rt.abi a exit tail

/-- The instruction at a place of the body. -/
theorem harmless_of_parts {abi : Abi} {index : Nat} (h : Parts abi a exit (code.drop index))
    (hi : code[index]? = some i) : Harmless abi a i ∨ i = .label exit := by
  have hhead : (code.drop index).head? = some i := by rw [List.head?_drop, hi]
  generalize code.drop index = l at h hhead
  cases h with
  | nil => cases hhead
  | body hharmless _ =>
    cases hhead
    exact .inl hharmless
  | exit _ =>
    cases hhead
    exact .inr rfl

/-- The instruction at a place of the epilogue. -/
theorem getElem?_of_drop {abi : Abi} {k n : Nat}
    (hdrop : code.drop k = .label exit :: (Function.epilogue abi a ++ rest))
    (hn : n < (Function.epilogue abi a).length) :
    code[k + 1 + n]? = (Function.epilogue abi a)[n]? := by
  have hget := congrArg (·[n + 1]?) hdrop
  simp only [List.getElem?_drop, List.getElem?_cons_succ, List.getElem?_append_left hn] at hget
  rw [← hget]
  congr 1
  omega

namespace Stage

variable (he : Entered rt a exit code entry)
include he

/-- One step. -/
theorem step (h : Stage rt a exit code entry q) (hrun : Runs rt code (0, entry) r)
    (hspares : ∀ i, code[q.1]? = some i → Spares rt q.2 i)
    (hstep : Machine.step rt code q = .ok r) : Stage rt a exit code entry r := by
  obtain ⟨tail, hcode, htail⟩ := he.listing
  -- labels stand in the body
  have hlabel : ∀ {target next}, Machine.labelIndex? code target = some next →
      Parts rt.abi a exit (code.drop next) := by
    intro target next hnext
    have hget := Machine.getElem?_of_labelIndex? hnext
    rw [hcode] at hget ⊢
    rcases Nat.lt_or_ge next (Function.prologue rt.abi a).length with hlt | hge
    · rw [List.getElem?_append_left hlt] at hget
      cases isStraight_of_mem_prologue (List.mem_of_getElem? hget)
    · rw [List.getElem?_append_right hge] at hget
      rw [List.drop_append, List.drop_of_length_le hge, List.nil_append]
      exact htail.drop_of_label hget
  cases h with
  | @entering n m hn hm =>
    obtain ⟨i, hi, hcases⟩ := Machine.step_eq_ok hstep
    have hi' : (Function.prologue rt.abi a)[n]? = some i := by
      rwa [hcode, List.getElem?_append_left hn] at hi
    have hstraight := isStraight_of_mem_prologue (List.mem_of_getElem? hi')
    rcases hcases with ⟨after, hexec, rfl⟩ | ⟨hnot, -⟩
    · have hall := execAll_take_succ hm hi' hexec
      rcases Nat.lt_or_ge (n + 1) (Function.prologue rt.abi a).length with hlt | hge
      · exact .entering hlt hall
      · obtain ⟨m', hrun', hinside⟩ :=
          exists_prologue he.savable rt he.convention he.fits entry
        rw [List.take_of_length_le hge, hrun', Except.ok.injEq] at hall
        subst hall
        refine .body ?_ hinside
        rwa [hcode, show n + 1 = (Function.prologue rt.abi a).length by omega, List.drop_left]
    · rw [hstraight] at hnot
      cases hnot
  | @body index m hparts hinside =>
    obtain ⟨i, hi, hcases⟩ := Machine.step_eq_ok hstep
    have hhead : (code.drop index).head? = some i := by rw [List.head?_drop, hi]
    have hnext : code.drop (index + 1) = (code.drop index).tail := by rw [List.tail_drop]
    generalize hdrop : code.drop index = l at hparts hhead hnext
    cases hparts with
    | nil => cases hhead
    | @body _ rest hharmless hrest =>
      cases hhead
      rcases hcases with ⟨after, hexec, rfl⟩
        | ⟨-, ⟨hcall, rfl⟩ | rfl | ⟨target, next, hnext, rfl⟩⟩
      · exact .body (hnext ▸ hrest) (hinside.exec he.convention he.frame he.fits hharmless
          (hspares i hi) hexec)
      · exact .body (hnext ▸ hrest) (hinside.call he.convention he.frame)
      · exact .body (hnext ▸ hrest) hinside
      · exact .body (hlabel hnext) hinside
    | @exit rest hrest =>
      cases hhead
      rcases hcases with ⟨after, hexec, -⟩ | ⟨-, ⟨hcall, -⟩ | rfl | ⟨target, next, hnext, rfl⟩⟩
      · cases hexec
      · cases hcall
      · have hpos : 0 < (Function.epilogue rt.abi a).length := by
          rw [epilogue_eq, List.length_append]
          exact Nat.succ_pos _
        exact .leaving hdrop hrun hinside hpos rfl
      · exact .body (hlabel hnext) hinside
  | @leaving k n rest last m hdrop hlast hinside hn hm =>
    have hget := getElem?_of_drop hdrop hn
    rw [epilogue_eq, List.length_append, List.length_singleton] at hn
    rcases Nat.lt_or_ge n (restoring rt.abi a).length with hlt | hge
    · obtain ⟨i, hi, hcases⟩ := Machine.step_eq_ok hstep
      rw [hget] at hi
      have hmem : i ∈ restoring rt.abi a := by
        rw [epilogue_eq, List.getElem?_append_left hlt] at hi
        exact List.mem_of_getElem? hi
      rcases hcases with ⟨after, hexec, rfl⟩ | ⟨hnot, -⟩
      · refine .leaving (n := n + 1) hdrop hlast hinside ?_ (execAll_take_succ hm hi hexec)
        rw [epilogue_eq, List.length_append, List.length_singleton]
        omega
      · rw [isStraight_of_mem_restoring hmem] at hnot
        cases hnot
    · -- behind the epilogue stands the return, which ends the run
      obtain rfl : n = (restoring rt.abi a).length := by omega
      rw [epilogue_eq, List.getElem?_concat_length] at hget
      simp only [Machine.step, hget] at hstep
      cases hstep

/-- A run of any length. -/
theorem of_runs (h : Runs rt code (0, entry) q) : Stage rt a exit code entry q := by
  induction h with
  | refl =>
    refine .entering ?_ rfl
    simp [Function.prologue]
  | step hrun hspares hstep ih => exact ih.step he (.step hrun hspares hstep) hspares hstep

/-- Calls are made in the body. -/
theorem inside_of_isCall (h : Stage rt a exit code entry q) (hi : code[q.1]? = some i)
    (hcall : i.isCall = true) : Inside rt.abi a entry q.2 := by
  obtain ⟨tail, hcode, -⟩ := he.listing
  cases h with
  | entering hn _ =>
    rw [hcode, List.getElem?_append_left hn] at hi
    have hstraight := isStraight_of_mem_prologue (List.mem_of_getElem? hi)
    cases i <;> first | cases hcall; done | cases hstraight
  | body _ hinside => exact hinside
  | leaving hdrop _ _ hn _ =>
    rw [getElem?_of_drop hdrop hn] at hi
    have hmem := List.mem_of_getElem? hi
    rw [epilogue_eq, List.mem_append, List.mem_singleton] at hmem
    rcases hmem with hmem | rfl
    · have hstraight := isStraight_of_mem_restoring hmem
      cases i <;> first | cases hcall; done | cases hstraight
    · cases hcall

/-- The return is reached through an exit label, behind which nothing but the epilogue is
run. -/
theorem restored_of_ret (h : Stage rt a exit code entry q) (hi : code[q.1]? = some .ret) :
    Restored rt.abi entry q.2 ∧ ∃ k last, code[k]? = some (.label exit)
      ∧ Runs rt code (0, entry) (k + 1, last) ∧ q.2.regs .rax = last.regs .rax := by
  obtain ⟨tail, hcode, -⟩ := he.listing
  cases h with
  | entering hn _ =>
    rw [hcode, List.getElem?_append_left hn] at hi
    cases isStraight_of_mem_prologue (List.mem_of_getElem? hi)
  | body hparts _ =>
    rcases harmless_of_parts hparts hi with h | h
    · cases h.stack
    · cases h
  | @leaving k n rest last m hdrop hlast hinside hn hm =>
    rw [getElem?_of_drop hdrop hn, epilogue_eq] at hi
    rw [epilogue_eq, List.length_append, List.length_singleton] at hn
    rcases Nat.lt_or_ge n (restoring rt.abi a).length with hlt | hge
    · rw [List.getElem?_append_left hlt] at hi
      cases isStraight_of_mem_restoring (List.mem_of_getElem? hi)
    · obtain rfl : n = (restoring rt.abi a).length := by omega
      obtain ⟨m', hrun, hrestored, hresult⟩ :=
        exists_epilogue he.savable rt he.convention hinside
      rw [epilogue_eq, List.take_left, hrun, Except.ok.injEq] at hm
      subst hm
      have hlabel := congrArg (·[0]?) hdrop
      simp only [List.getElem?_drop, Nat.add_zero, List.getElem?_cons_zero] at hlabel
      exact ⟨hrestored, k, last, hlabel, hlast, hresult⟩

end Stage

/-! ## Compiled functions -/

section

open Pseudo (Liveness firstTouch?)

variable {abi : Abi} {live : Liveness} {stream : List Pseudo.Instr} {size : Nat → Machine.Size}

/-- A body may write where the values of a stream are kept. -/
theorem settled_of_spec (habi : abi ∈ Abi.all) (hlive : live.Spec stream)
    (hspec : a.Spec abi live)
    (hallowed : ∀ i ∈ stream, ∀ e ∈ i.effects, e.Allowed abi fun q => size q.id = q.size)
    (p : Pseudo.Reg) (hp : size p.id = p.size) : Settled abi a p := by
  intro location ha
  obtain ⟨v, hv, hid⟩ := (hspec.located p.id).1 ⟨_, ha⟩
  have ha' : a.mapping.get? v.pseudo.id = some location := hid ▸ ha
  cases location with
  | reg r =>
    obtain ⟨hrsp, hrbp⟩ := Allocation.ne_of_mem_initialPool habi (hspec.drawn v hv r ha')
    exact target_of_free ⟨hrsp, hrbp, hspec.saves v hv r ha'⟩
  | slot offset =>
    obtain ⟨-, hlow, hhigh⟩ := hspec.slots v hv offset ha'
    have hsize := (Pseudo.size_of_firstTouch hallowed (hlive.named v hv)).2
    rw [hid, hp] at hsize
    refine ⟨nofun, fun disp heq => ?_⟩
    cases heq
    rw [hsize]
    exact ⟨hlow, hhigh⟩

/-- The expansions of a stream, with epilogues behind the exit labels. -/
theorem exists_parts (exit : String)
    (h : ∀ i ∈ stream, ∃ part, i.expand a.assignment = .ok part
      ∧ ∀ j ∈ part, Harmless abi a j) :
    ∃ parts, stream.mapM (Function.place abi a exit) = .ok parts
      ∧ Parts abi a exit parts.flatten := by
  induction stream with
  | nil => exact ⟨[], rfl, .nil⟩
  | cons i stream ih =>
    obtain ⟨part, hpart, hharmless⟩ := h i List.mem_cons_self
    obtain ⟨parts, hparts, hall⟩ := ih fun j hj => h j (List.mem_cons_of_mem _ hj)
    have hplace : Function.place abi a exit i
        = .ok (if i = .label exit then part ++ Function.epilogue abi a else part) := by
      unfold Function.place
      rw [hpart]
      rfl
    refine ⟨_ :: parts, by rw [List.mapM_cons, hplace, hparts]; rfl, ?_⟩
    rw [List.flatten_cons]
    split
    · next hexit =>
      subst hexit
      cases hpart
      exact .exit hall
    · exact hall.append hharmless

/-- The bytes of the slots of a function, in a frame below `top`. -/
def InSlot (stream : List Pseudo.Instr) (a : Allocation) (top x : Word) : Prop :=
  ∃ id offset p, a.assignment id = some (.slot offset) ∧ firstTouch? stream id = some p
    ∧ Memory.Within (top - 8 + BitVec.ofInt 64 offset) p.size.bytes x

/-- The slots of a function lie between what is saved. -/
theorem within_of_inSlot (hlive : live.Spec stream) (hspec : a.Spec abi live)
    (h : InSlot stream a top x) : ∃ offset : Int, ∃ count : Nat, -(a.frameSize : Int) ≤ offset
      ∧ offset + count ≤ 0 ∧ Memory.Within (top - 8 + BitVec.ofInt 64 offset) count x := by
  obtain ⟨id, offset, p, ha, hp, hx⟩ := h
  obtain ⟨v, hv, rfl⟩ := (hspec.located id).1 ⟨_, ha⟩
  obtain ⟨-, hlow, hhigh⟩ := hspec.slots v hv offset ha
  rw [hlive.named v hv, Option.some.injEq] at hp
  subst hp
  exact ⟨offset, _, hlow, hhigh, hx⟩

/-- In a body the stack pointer is aligned. -/
theorem Inside.aligned (h : Inside abi a entry m) (habi : abi ∈ Abi.all)
    (hspec : a.Spec abi live) (hentry : (entry.regs .rsp).toNat % 16 = 8) :
    (m.regs .rsp).toNat % 16 = 0 := by
  have hshadow : ∀ abi ∈ Abi.all, abi.shadowSpace % 16 = 0 := by decide
  have hspace := hshadow abi habi
  have hframe := hspec.aligned
  have heven := hspec.even
  have hmod : (a.depth + abi.shadowSpace) % 16 = 8 := by
    unfold Allocation.depth
    omega
  have hlt := (entry.regs .rsp).isLt
  rw [h.stack, BitVec.toNat_sub, BitVec.toNat_ofNat]
  omega

/-- In a body the bytes at the stack pointer that belong to callees are apart from the slots
and from what is saved. -/
theorem Inside.apart (h : Inside abi a entry m) (hlive : live.Spec stream)
    (hspec : a.Spec abi live) (hfits : a.depth + abi.shadowSpace ≤ 2 ^ 64)
    (hx : Memory.Within (m.regs .rsp) abi.shadowSpace x) :
    ¬ InSlot stream a (entry.regs .rsp) x ∧ ¬ Saves a (entry.regs .rsp) x := by
  have height : (8 : Word) = BitVec.ofNat 64 8 := rfl
  rw [h.stack, within_below hfits (Nat.le_refl _) (Nat.le_add_left _ _)] at hx
  unfold Allocation.depth at hfits hx
  constructor
  · intro hslot
    obtain ⟨offset, count, hlow, hhigh, hslot⟩ := within_of_inSlot hlive hspec hslot
    obtain ⟨k, rfl⟩ : ∃ k : Nat, offset = -(k : Int) := ⟨(-offset).toNat, by omega⟩
    rw [BitVec.ofInt_neg, BitVec.ofInt_natCast, ← BitVec.sub_eq_add_neg, height,
      Machine.sub_ofNat_sub, within_below hfits (by omega) (by omega)] at hslot
    omega
  · rintro (hsaved | ⟨n, hn, hsaved⟩)
    · rw [height, within_below hfits (by omega) (by omega)] at hsaved
      omega
    · rw [within_below hfits (by omega) (by omega)] at hsaved
      omega

end

section

open Machine (Size)

variable {u : ClassUnit} {abi : Abi} {position : Nat} {f : Jil.Function}
  {strings interned : StringTable} {p : Pseudo.Function}

/-- A compiled function keeps the discipline of frames. Slots do not overlap what is saved. On
every run that is entered with a stack pointer of eight modulo sixteen, and that stores nothing
into the frame through an address, the stack pointer is aligned at every call, the entry values
lie in the frame there, and the space reserved for callees overlaps neither slots nor saved
registers. At the return the stack pointer, the frame pointer and all preserved registers have
their entry values, and the result is what it was when the body ended at the exit label. -/
theorem frame_discipline (habi : abi ∈ Abi.all) (hf : Checked u position f)
    (hselect : Selection.ofFunction u abi position f strings = (.ok p, interned))
    (halloc : Allocation.ofCode abi p.code = .ok a) :
    ∃ g, Function.ofPseudo abi p = .ok g ∧ g.allocation = a ∧
      ∀ (rt : Runtime) (entry : State), rt.abi = abi →
        a.depth + abi.shadowSpace ≤ 2 ^ 64 →
        (∀ x, Memory.Within (entry.regs .rsp - BitVec.ofNat 64 a.depth) a.depth x →
          rt.frame x = true) →
        (entry.regs .rsp).toNat % 16 = 8 →
        (∀ x, InSlot p.code a (entry.regs .rsp) x → ¬ Saves a (entry.regs .rsp) x) ∧
        ∀ q, Runs rt g.body (0, entry) q →
          (∀ i, g.body[q.1]? = some i → i.isCall = true →
            (q.2.regs .rsp).toNat % 16 = 0 ∧ Inside abi a entry q.2
              ∧ (abi.family = .microsoft → ∀ x, Memory.Within (q.2.regs .rsp) 32 x →
                ¬ InSlot p.code a (entry.regs .rsp) x ∧ ¬ Saves a (entry.regs .rsp) x)) ∧
          (g.body[q.1]? = some .ret →
            q.2.regs .rsp = entry.regs .rsp ∧ q.2.regs .rbp = entry.regs .rbp
              ∧ (∀ r, abi.isPreserved r = true → q.2.regs r = entry.regs r)
              ∧ ∃ k last, g.body[k]? = some (.label p.exitLabel)
                ∧ Runs rt g.body (0, entry) (k + 1, last)
                ∧ q.2.regs .rax = last.regs .rax) := by
  obtain ⟨size, hconfined⟩ := Selection.confined_of_ofFunction habi hf hselect
  obtain ⟨live, hlive, hspec⟩ := Allocation.spec_of_ofCode habi halloc
  have hlives := Pseudo.Liveness.spec_of_ofCode hlive
  have hsettled := settled_of_spec habi hlives hspec fun i hi => (hconfined i hi).allowed
  obtain ⟨parts, hparts, hall⟩ :
      ∃ parts, p.code.mapM (Function.place abi a p.exitLabel) = .ok parts
      ∧ Parts abi a p.exitLabel parts.flatten :=
    exists_parts p.exitLabel fun i hi => by
      obtain ⟨part, hpart⟩ := Pseudo.exists_expand fun _ ht =>
        Pseudo.exists_location habi halloc hi ht
      exact ⟨part, hpart, harmless_of_expand habi (hconfined i hi) hsettled hpart⟩
  refine ⟨⟨p.symbol, Function.prologue abi a ++ parts.flatten, a, abi.isElf⟩, ?_, rfl,
    fun rt entry hrt hfits hframe hentry => ⟨?_, fun q hrun => ?_⟩⟩
  · simp only [Function.ofPseudo, halloc, Function.ofAllocation, hparts]
    rfl
  · intro x hslot
    obtain ⟨offset, count, hlow, hhigh, hx⟩ := within_of_inSlot hlives hspec hslot
    exact not_saves_of_slot (by omega) hlow hhigh hx
  · subst hrt
    have he : Entered rt a p.exitLabel (Function.prologue rt.abi a ++ parts.flatten) entry :=
      ⟨habi, fun r hr => hspec.ne_of_mem_saved habi hr, by omega,
        fun x hx => hframe x (within_of_saves (by omega) hx), _, rfl, hall⟩
    have hstage := Stage.of_runs he hrun
    refine ⟨fun i hi hcall => ?_, fun hret => ?_⟩
    · have hinside := hstage.inside_of_isCall he hi hcall
      refine ⟨hinside.aligned habi hspec hentry, hinside, fun hfamily x hx => ?_⟩
      have hshadow : ∀ abi ∈ Abi.all, abi.family = .microsoft → abi.shadowSpace = 32 := by
        decide
      exact hinside.apart hlives hspec hfits (hshadow rt.abi habi hfamily ▸ hx)
    · have hbase : ∀ abi ∈ Abi.all, abi.isPreserved .rbp = true := by decide
      obtain ⟨hrestored, hlast⟩ := hstage.restored_of_ret he hret
      exact ⟨hrestored.stack, hrestored.preserved .rbp (hbase rt.abi habi),
        hrestored.preserved, hlast⟩

end

/-- A static function that calls itself. -/
def recursion : Jil.Function :=
  ((do
      let _ ← .callActual none "pkg/Deep" "again" [] false
      .returnVoid : Jil.Function.Build Unit).run
    { name := "again", kind := .static, params := [], returns := .void }).2

/-- The class of the function, after its check. -/
def recursionUnit : ClassUnit := ((ClassUnit.create "pkg/Deep").addFunction recursion).check.1

/-- The function after its check: it has no registers. -/
def recursionChecked : Jil.Function := { recursion with registerTypes := some .empty }

theorem checked_recursion : Checked recursionUnit 0 recursionChecked :=
  checked_of_single (n := "pkg/Deep") (f := recursion) (by unfold Function.Drawn; decide)
    rfl rfl

/-- The stream of the function. -/
def recursionStream : Pseudo.Function :=
  let p (id : Nat) : Pseudo.Operand := .pseudo ⟨id, .quad⟩
  { symbol := recursionUnit.functionSymbol .microsoft recursionChecked
    code :=
      [.mov .quad (.fixed .rcx) (p 0), .mov .quad (p 0) (.fixed .rcx),
        .lea (.rip ".LC0" 0) (.fixed .rdx), .mov .quad (.indirect ⟨0, .quad⟩ 0) (.fixed .r11),
        .callIndirect .r11 48, .mov .quad (.fixed .rax) (p 1), .mov .quad (p 0) (.fixed .rcx),
        .mov .quad (p 1) (.fixed .rdx), .call "Java_pkg_Deep_again", .jmp ".LF0_exit",
        .label ".LF0_exit"]
    exitLabel := ".LF0_exit"
    serviceCalls := 1 }

/-- The stack of the function, entered at the address 4104. -/
def recursionRuntime : Runtime where
  abi := .microsoft
  symbol _ := 0
  outcome _ := ⟨fun _ => 0, fun _ => 0⟩
  frame x := Memory.Within 4080 24 x

/-- The entry, where every register but the stack pointer holds 7. -/
def recursionEntry : State := ⟨fun r => if r = .rsp then 4104 else 7, fun _ => 0, none, 0⟩

/-- The function keeps its environment in a preserved register while it calls, and saves one
more register. It reaches its return, where these hold what they held at the entry. -/
theorem recursion_keeps_frame :
    ∃ a g q, Selection.ofFunction recursionUnit .microsoft 0 recursionChecked {}
        = (.ok recursionStream, ⟨["pkg/Deep"]⟩)
      ∧ Allocation.ofCode .microsoft recursionStream.code = .ok a ∧ a.saved = [.rcx, .rbx]
      ∧ Function.ofPseudo .microsoft recursionStream = .ok g
      ∧ Runs recursionRuntime g.body (0, recursionEntry) q ∧ g.body[q.1]? = some .ret
      ∧ q.2.regs .rsp = 4104 ∧ q.2.regs .rbx = 7 := by
  have hselect : Selection.ofFunction recursionUnit .microsoft 0 recursionChecked {}
      = (.ok recursionStream, ⟨["pkg/Deep"]⟩) := rfl
  obtain ⟨a, halloc⟩ : ∃ a, Allocation.ofCode .microsoft recursionStream.code = .ok a :=
    ⟨_, rfl⟩
  have hcomputed : (Allocation.ofCode .microsoft recursionStream.code).toOption.map
      (fun a => (a.saved, a.frameSize)) = some ([.rcx, .rbx], 0) := by decide +kernel
  rw [halloc] at hcomputed
  obtain ⟨hsaved, hsize⟩ : a.saved = [.rcx, .rbx] ∧ a.frameSize = 0 := by
    simpa [Except.toOption] using hcomputed
  have hdepth : a.depth = 24 := by
    unfold Allocation.depth
    rw [hsaved, hsize]
    rfl
  obtain ⟨g, hg, -, hruns⟩ :=
    frame_discipline (by decide : Abi.microsoft ∈ Abi.all) checked_recursion hselect halloc
  obtain ⟨-, hruns⟩ := hruns recursionRuntime recursionEntry rfl (by rw [hdepth]; decide)
    (fun x hx => by
      rw [hdepth] at hx
      exact decide_eq_true hx) (by decide)
  -- the listing writes registers only, and comes to its return in twenty steps
  have hlisting : (Function.ofPseudo .microsoft recursionStream).toOption.map
      (fun g => decide (∀ i ∈ g.body, ∀ written ∈ i.written?, written.2.isMemory = false))
        = some true := by decide +kernel
  have hsteps : (Function.ofPseudo .microsoft recursionStream).toOption.bind (fun g =>
      (Machine.steps recursionRuntime g.body 20 (0, recursionEntry)).toOption.map
        fun q => g.body[q.1]?) = some (some .ret) := by decide +kernel
  rw [hg] at hlisting hsteps
  obtain ⟨q, hq, hret⟩ :
      ∃ q, Machine.steps recursionRuntime g.body 20 (0, recursionEntry) = .ok q
      ∧ g.body[q.1]? = some .ret := by
    obtain ⟨q, hq, hret⟩ := Option.map_eq_some_iff.1 hsteps
    refine ⟨q, ?_, hret⟩
    cases hn : Machine.steps recursionRuntime g.body 20 (0, recursionEntry) with
    | ok r =>
      rw [hn] at hq
      cases hq
      rfl
    | error e =>
      rw [hn] at hq
      cases hq
  have hrun := Runs.steps (by simpa [Except.toOption] using hlisting) .refl hq
  obtain ⟨hrsp, -, hpreserved, -⟩ := (hruns q hrun).2 hret
  exact ⟨a, g, q, hselect, halloc, hsaved, hg, hrun, hret, hrsp, hpreserved .rbx (by decide)⟩

end Jil.Assembly
