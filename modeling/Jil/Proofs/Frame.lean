/-
Jil.Proofs.Frame — setting up and taking down frames.

The prologue saves the frame pointer and the registers that the body changes,
the epilogue restores them. What the prologue establishes is `Inside`: where
the stack pointer and the frame pointer stand, and that the entry values lie in
the frame (`exists_prologue`). Anything that leaves these registers and bytes
alone keeps it (`Inside.of_kept`), and the epilogue, begun in such a state,
gives the entry values back (`exists_epilogue`).

All places are counted downwards from the stack pointer at the entry, so that
two places are told apart by their distances (`within_below`).
-/
import Jil.Assembly.Function
import Jil.Proofs.Allocated

namespace Jil.Machine

/-! ## Places below an address -/

theorem sub_ofNat_sub (top : Word) (j k : Nat) :
    top - BitVec.ofNat 64 j - BitVec.ofNat 64 k = top - BitVec.ofNat 64 (j + k) := by
  rw [BitVec.ofNat_add, BitVec.sub_sub]

/-- The bytes of a place below an address, by their distance from the lower end of a region. -/
theorem within_below {top x : Word} {size depth count : Nat} (hsize : size ≤ 2 ^ 64)
    (hlow : depth ≤ size) (hhigh : count ≤ depth) :
    Memory.Within (top - BitVec.ofNat 64 depth) count x ↔
      size ≤ (x - (top - BitVec.ofNat 64 size)).toNat + depth
        ∧ (x - (top - BitVec.ofNat 64 size)).toNat + depth < size + count := by
  rcases Nat.eq_zero_or_pos count with rfl | hcount
  · unfold Memory.Within
    omega
  have hslot : Memory.Within (top + BitVec.ofInt 64 (-(depth : Int))) count x ↔ _ :=
    Pseudo.within_slot hsize hcount (by omega) (by omega)
  rw [BitVec.ofInt_neg, BitVec.ofInt_natCast, ← BitVec.sub_eq_add_neg] at hslot
  rw [hslot]
  omega

/-! ## Saved registers -/

/-- The words below an address are the values of registers, that of the first register on
top. -/
def Stacked (memory : Memory) (v : Reg → Word) (top : Word) (rs : List Reg) : Prop :=
  ∀ n r, rs[n]? = some r → memory.load (top - BitVec.ofNat 64 (8 * (n + 1))) .quad = v r

theorem stacked_cons {memory : Memory} {v : Reg → Word} {top : Word} {r : Reg}
    {rs : List Reg} :
    Stacked memory v top (r :: rs) ↔
      memory.load (top - 8) .quad = v r ∧ Stacked memory v (top - 8) rs := by
  have hshift : ∀ n : Nat, top - BitVec.ofNat 64 (8 * (n + 1 + 1))
      = top - 8 - BitVec.ofNat 64 (8 * (n + 1)) := fun n => by
    rw [show (8 : Word) = BitVec.ofNat 64 8 from rfl, sub_ofNat_sub]
    congr 2
    omega
  constructor
  · intro h
    refine ⟨h 0 r rfl, fun n x hx => ?_⟩
    rw [← hshift]
    exact h (n + 1) x hx
  · rintro ⟨hr, hrest⟩ n x hx
    cases n with
    | zero =>
      cases hx
      exact hr
    | succ n =>
      rw [hshift]
      exact hrest n x hx

variable {m : State}

/-- Registers that are pushed lie on the stack, and nothing else changes. -/
theorem exists_execAll_push (rt : Runtime) {rs : List Reg} (hrs : .rsp ∉ rs)
    (hfits : 8 * rs.length ≤ 2 ^ 64) (m : State) :
    ∃ m', Instr.execAll rt m (rs.map .push) = .ok m'
      ∧ m'.regs .rsp = m.regs .rsp - BitVec.ofNat 64 (8 * rs.length)
      ∧ (∀ r, r ≠ .rsp → m'.regs r = m.regs r)
      ∧ Stacked m'.memory m.regs (m.regs .rsp) rs
      ∧ ∀ x, ¬ Memory.Within (m.regs .rsp - BitVec.ofNat 64 (8 * rs.length))
        (8 * rs.length) x →
          m'.memory x = m.memory x := by
  induction rs generalizing m with
  | nil =>
    exact ⟨m, rfl, by simp, fun _ _ => rfl, nofun, fun _ _ => rfl⟩
  | cons r rs ih =>
    obtain ⟨hr, hrs⟩ := not_or.1 (mt List.mem_cons.2 hrs)
    rw [List.length_cons] at hfits ⊢
    let sp : Word := m.regs .rsp - 8
    let pushed : State := (m.store .quad sp (m.regs r)).setReg .quad .rsp sp
    have hpush : (Instr.push r).exec rt m = .ok pushed := rfl
    have hsp : pushed.regs .rsp = sp := State.regs_setReg_quad _ _ _
    have hregs : ∀ x, x ≠ .rsp → pushed.regs x = m.regs x := fun x hx =>
      State.regs_setReg_of_ne _ _ hx
    obtain ⟨m', hrun, hrsp, hother, hstacked, hmemory⟩ := ih hrs (by omega) pushed
    have hdepth : sp - BitVec.ofNat 64 (8 * rs.length)
        = m.regs .rsp - BitVec.ofNat 64 (8 * (rs.length + 1)) := by
      show m.regs .rsp - BitVec.ofNat 64 8 - _ = _
      rw [sub_ofNat_sub]
      congr 2
      omega
    rw [hsp, hdepth] at hrsp hmemory
    -- the words pushed later lie below the first one
    have hapart : ∀ x, Memory.Within sp 8 x →
        ¬ Memory.Within (m.regs .rsp - BitVec.ofNat 64 (8 * (rs.length + 1)))
          (8 * rs.length) x := by
      intro x hx
      unfold Memory.Within at hx ⊢
      rw [← hdepth]
      bv_omega
    refine ⟨m', (execAll_cons_of_ok hpush).trans hrun, hrsp,
      fun x hx => (hother x hx).trans (hregs x hx), stacked_cons.2 ⟨?_, ?_⟩, fun x hx => ?_⟩
    · rw [Memory.load_congr fun x hx => hmemory x (hapart x hx)]
      exact Memory.load_store _ _ _ _
    · rw [hsp] at hstacked
      intro n x hx
      have hne : x ≠ .rsp := fun heq => hrs (heq ▸ List.mem_of_getElem? hx)
      rw [hstacked n x hx, hregs x hne]
    · have hfits' : 8 * rs.length + 8 ≤ 2 ^ 64 := by omega
      have hnot : ¬ Memory.Within (m.regs .rsp - BitVec.ofNat 64 (8 * (rs.length + 1)))
          (8 * rs.length) x ∧ ¬ Memory.Within sp 8 x := by
        unfold Memory.Within at hx ⊢
        rw [← hdepth] at hx ⊢
        generalize sp = sp at hx ⊢
        bv_omega
      exact (hmemory x hnot.1).trans (Memory.store_of_not_within _ hnot.2)

/-- Registers that are popped hold what lies on the stack, and nothing else changes. -/
theorem exists_execAll_pop (rt : Runtime) {rs : List Reg} (hrs : .rsp ∉ rs) {v : Reg → Word}
    {top : Word} (hrsp : m.regs .rsp = top - BitVec.ofNat 64 (8 * rs.length))
    (hstacked : Stacked m.memory v top rs) :
    ∃ m', Instr.execAll rt m (rs.reverse.map .pop) = .ok m' ∧ m'.regs .rsp = top
      ∧ (∀ r ∈ rs, m'.regs r = v r)
      ∧ (∀ r, r ∉ rs → r ≠ .rsp → m'.regs r = m.regs r) ∧ m'.memory = m.memory := by
  induction rs generalizing top with
  | nil => exact ⟨m, rfl, by simpa using hrsp, nofun, fun _ _ _ => rfl, rfl⟩
  | cons r rs ih =>
    obtain ⟨hr, hrs⟩ := not_or.1 (mt List.mem_cons.2 hrs)
    obtain ⟨hword, hstacked⟩ := stacked_cons.1 hstacked
    have hdepth : m.regs .rsp = top - 8 - BitVec.ofNat 64 (8 * rs.length) := by
      rw [hrsp, show (8 : Word) = BitVec.ofNat 64 8 from rfl, sub_ofNat_sub, List.length_cons]
      congr 2
      omega
    obtain ⟨mid, hrun, hmid, hpopped, hother, hmemory⟩ := ih hrs hdepth hstacked
    let above : Word := mid.regs .rsp + 8
    let raised : State := mid.setReg .quad .rsp above
    let popped : State := raised.setReg .quad r (mid.memory.load (mid.regs .rsp) .quad)
    have hpop : (Instr.pop r).exec rt mid = .ok popped := rfl
    have hself : popped.regs r = v r := by
      rw [show popped.regs r = mid.memory.load (mid.regs .rsp) .quad from
        State.regs_setReg_quad _ _ _, hmid, hmemory, hword]
    have hkept : ∀ x, x ≠ r → x ≠ .rsp → popped.regs x = mid.regs x := fun x hx hx' =>
      (raised.regs_setReg_of_ne _ hx).trans (mid.regs_setReg_of_ne _ hx')
    refine ⟨popped, ?_, ?_, fun x hx => ?_, fun x hx hx' => ?_, hmemory⟩
    · rw [List.reverse_cons, List.map_append]
      exact (execAll_append_of_ok hrun).trans (execAll_singleton hpop)
    · have hsp : popped.regs .rsp = raised.regs .rsp := raised.regs_setReg_of_ne _ hr
      rw [hsp, State.regs_setReg_quad]
      show mid.regs .rsp + 8 = top
      rw [hmid, BitVec.sub_add_cancel]
    · by_cases heq : x = r
      · rw [heq, hself]
      · have hmem := (List.mem_cons.1 hx).resolve_left heq
        rw [hkept x heq fun h => hrs (h ▸ hmem), hpopped x hmem]
    · rw [List.mem_cons, not_or] at hx
      rw [hkept x hx.1 hx', hother x hx.2 hx']

/-- Moving the stack pointer changes nothing else. -/
theorem exists_execAll_adjustStack (rt : Runtime) {op : AluOp} (hop : op = .sub ∨ op = .add)
    (bytes : Nat) (m : State) :
    ∃ m', Instr.execAll rt m (Assembly.Function.adjustStack op bytes) = .ok m'
      ∧ m'.regs .rsp = op.value (s := .quad) (BitVec.ofNat 64 bytes) (m.regs .rsp)
      ∧ (∀ r, r ≠ .rsp → m'.regs r = m.regs r) ∧ m'.memory = m.memory := by
  unfold Assembly.Function.adjustStack
  split
  · next hzero =>
    refine ⟨m, rfl, ?_, fun _ _ => rfl, rfl⟩
    rw [hzero]
    rcases hop with rfl | rfl
    · exact (BitVec.sub_zero _).symm
    · exact (BitVec.add_zero _).symm
  · let value : Word := op.value (s := .quad) (BitVec.ofInt 64 bytes) (m.reg .quad .rsp)
    have hexec : (Instr.alu op .quad (.imm bytes) (.reg .rsp)).exec rt m
        = .ok ((m.setReg .quad .rsp value).setFlags none) := by
      rcases hop with rfl | rfl <;> rfl
    refine ⟨_, execAll_singleton hexec, ?_, fun r hr => m.regs_setReg_of_ne _ hr, rfl⟩
    show (m.setReg .quad .rsp value).regs .rsp = _
    rw [State.regs_setReg_quad, ← BitVec.ofInt_natCast]
    show op.value (s := .quad) _ ((m.regs .rsp).setWidth 64) = _
    rw [BitVec.setWidth_eq]

end Jil.Machine

namespace Jil

open Machine (Abi AluOp Instr Memory Reg Runtime Size State Stacked Word within_below)

/-! ## Frames -/

namespace Allocation

/-- Bytes between the return address and the lower end of the saved registers. -/
def depth (a : Allocation) : Nat := 8 + a.frameSize + 8 * a.saved.length

/-- What frames save are neither the registers that the frame itself is built with nor
the one of the result. -/
theorem Spec.ne_of_mem_saved {abi : Abi} (habi : abi ∈ Abi.all) {live : Pseudo.Liveness}
    {a : Allocation} (h : a.Spec abi live) {r : Reg} (hr : r ∈ a.saved) :
    r ≠ .rsp ∧ r ≠ .rbp ∧ r ≠ .rax := by
  have hall : ∀ abi ∈ Abi.all, ∀ r, abi.isPreserved r = true ∨ r ∈ abi.arguments →
      r ≠ .rsp ∧ r ≠ .rax := by
    intro abi habi r
    have hmem := r.mem_all
    revert abi r
    decide
  obtain ⟨hne, hkind⟩ := h.savable r hr
  exact ⟨(hall abi habi r hkind).1, hne, (hall abi habi r hkind).2⟩

end Allocation

namespace Assembly

variable {abi : Abi} {a : Allocation} {entry m m' : State}

/-- What holds in the body of a function that was entered in the state `entry`. -/
structure Inside (abi : Abi) (a : Allocation) (entry m : State) : Prop where
  stack : m.regs .rsp = entry.regs .rsp - BitVec.ofNat 64 (a.depth + abi.shadowSpace)
  base : m.regs .rbp = entry.regs .rsp - 8
  /-- The frame pointer of the caller lies at the frame pointer, -/
  pointer : m.memory.load (entry.regs .rsp - 8) .quad = entry.regs .rbp
  /-- and the saved registers below the slots. -/
  saved :
    Stacked m.memory entry.regs (entry.regs .rsp - BitVec.ofNat 64 (8 + a.frameSize)) a.saved
  others : ∀ r, abi.isPreserved r = true → r ≠ .rbp → r ∉ a.saved → m.regs r = entry.regs r

/-- The bytes where the frame pointer and the registers are saved. -/
def Saves (a : Allocation) (top x : Word) : Prop :=
  Memory.Within (top - 8) 8 x ∨ ∃ n < a.saved.length,
    Memory.Within (top - BitVec.ofNat 64 (8 + a.frameSize + 8 * (n + 1))) 8 x

theorem within_of_saves {top x : Word} (hfits : a.depth ≤ 2 ^ 64) (h : Saves a top x) :
    Memory.Within (top - BitVec.ofNat 64 a.depth) a.depth x := by
  unfold Allocation.depth at hfits ⊢
  rw [within_below hfits (Nat.le_refl _) (Nat.le_refl _)]
  rcases h with h | ⟨n, hn, h⟩
  · rw [show (8 : Word) = BitVec.ofNat 64 8 from rfl,
      within_below hfits (by omega) (by omega)] at h
    omega
  · rw [within_below hfits (by omega) (by omega)] at h
    omega

/-- The registers that a body may change. -/
def Free (abi : Abi) (a : Allocation) (r : Reg) : Prop :=
  r ≠ .rsp ∧ r ≠ .rbp ∧ (abi.isPreserved r = true → r ∈ a.saved)

/-- What changes no more than a body may does not leave the body. -/
theorem Inside.of_kept (h : Inside abi a entry m)
    (hregs : ∀ r, ¬ Free abi a r → m'.regs r = m.regs r)
    (hmemory : ∀ x, Saves a (entry.regs .rsp) x → m'.memory x = m.memory x) :
    Inside abi a entry m' where
  stack := (hregs .rsp fun h => h.1 rfl).trans h.stack
  base := (hregs .rbp fun h => h.2.1 rfl).trans h.base
  pointer := (Memory.load_congr fun x hx => hmemory x (.inl hx)).trans h.pointer
  saved n r hr := by
    refine Eq.trans (Memory.load_congr fun x hx => hmemory x (.inr ⟨n, ?_, ?_⟩))
      (h.saved n r hr)
    · exact (List.getElem?_eq_some_iff.1 hr).1
    · rwa [Machine.sub_ofNat_sub] at hx
  others r hr hne hmem := (hregs r fun h => hmem (h.2.2 hr)).trans (h.others r hr hne hmem)

section

variable (hsaved : ∀ r ∈ a.saved, r ≠ .rsp ∧ r ≠ .rbp ∧ r ≠ .rax)
include hsaved

/-- The prologue builds the frame. -/
theorem exists_prologue (rt : Runtime) (habi : abi ∈ Abi.all) (hfits : a.depth ≤ 2 ^ 64)
    (entry : State) :
    ∃ m, Instr.execAll rt entry (Function.prologue abi a) = .ok m ∧ Inside abi a entry m := by
  have hrsp : ∀ abi ∈ Abi.all, abi.isPreserved .rsp = false := by decide
  let top := entry.regs .rsp
  let sp : Word := top - 8
  let pushed : State := (entry.store .quad sp (entry.regs .rbp)).setReg .quad .rsp sp
  let framed : State := pushed.setReg .quad .rbp (pushed.reg .quad .rsp)
  have hbegin : Instr.execAll rt entry [.push .rbp, .mov .quad (.reg .rsp) (.reg .rbp)]
      = .ok framed := rfl
  have hframedSp : framed.regs .rsp = sp :=
    (pushed.regs_setReg_of_ne _ (show Reg.rsp ≠ .rbp from nofun)).trans
      (State.regs_setReg_quad _ _ _)
  have hframedBase : framed.regs .rbp = sp := by
    rw [show framed.regs .rbp = pushed.reg .quad .rsp from State.regs_setReg_quad _ _ _]
    exact (BitVec.setWidth_eq _).trans (State.regs_setReg_quad _ _ _)
  have hframed : ∀ r, r ≠ .rsp → r ≠ .rbp → framed.regs r = entry.regs r := fun r h h' =>
    (pushed.regs_setReg_of_ne _ h').trans (State.regs_setReg_of_ne _ _ h)
  have hpointer : framed.memory.load sp .quad = entry.regs .rbp := Memory.load_store _ _ _ _
  obtain ⟨below, hrunBelow, hbelowSp, hbelow, hbelowMemory⟩ :=
    Machine.exists_execAll_adjustStack rt (.inl rfl) a.frameSize framed
  obtain ⟨kept, hrunKept, hkeptSp, hkept, hstacked, hkeptMemory⟩ :=
    Machine.exists_execAll_push rt (fun h => (hsaved _ h).1 rfl)
      (by unfold Allocation.depth at hfits; omega) below
  obtain ⟨m, hrun, hsp, hother, hmemory⟩ :=
    Machine.exists_execAll_adjustStack rt (.inl rfl) abi.shadowSpace kept
  have hslots : below.regs .rsp = top - BitVec.ofNat 64 (8 + a.frameSize) := by
    rw [hbelowSp, hframedSp]
    exact Machine.sub_ofNat_sub top 8 a.frameSize
  rw [hslots, Machine.sub_ofNat_sub] at hkeptSp hkeptMemory
  rw [hslots] at hstacked
  have hregs : ∀ r, r ≠ .rsp → m.regs r = framed.regs r := fun r hr =>
    (hother r hr).trans ((hkept r hr).trans (hbelow r hr))
  refine ⟨m, ?_, ?_, ?_, ?_, fun n r hr => ?_, fun r hr hne _ => ?_⟩
  · unfold Function.prologue
    simp only [List.append_assoc]
    rw [Machine.execAll_append_of_ok hbegin, Machine.execAll_append_of_ok hrunBelow,
      Machine.execAll_append_of_ok hrunKept, hrun]
  · rw [hsp, hkeptSp]
    exact Machine.sub_ofNat_sub top a.depth abi.shadowSpace
  · rw [hregs .rbp nofun, hframedBase]
  · rw [hmemory, ← hpointer, ← hbelowMemory]
    refine Memory.load_congr fun x hx => hkeptMemory x fun hx' => ?_
    -- the saved registers lie deeper than the frame pointer
    have hx : Memory.Within (top - BitVec.ofNat 64 8) 8 x := hx
    unfold Allocation.depth at hfits
    rw [within_below hfits (by omega) (by omega)] at hx hx'
    omega
  · have hne := hsaved r (List.mem_of_getElem? hr)
    rw [hmemory, hstacked n r hr, hbelow r hne.1, hframed r hne.1 hne.2.1]
  · have hne' : r ≠ .rsp := by
      rintro rfl
      rw [hrsp abi habi] at hr
      cases hr
    rw [hregs r hne', hframed r hne' hne]

/-- The epilogue up to the return. -/
def restoring (abi : Abi) (a : Allocation) : List Instr :=
  Function.adjustStack .add abi.shadowSpace ++ a.saved.reverse.map .pop ++ [.leave]

/-- What holds when a function returns to its caller. -/
structure Restored (abi : Abi) (entry m : State) : Prop where
  stack : m.regs .rsp = entry.regs .rsp
  preserved : ∀ r, abi.isPreserved r = true → m.regs r = entry.regs r

/-- The epilogue gives the entry values back, and keeps the result. -/
theorem exists_epilogue (rt : Runtime) (habi : abi ∈ Abi.all) (h : Inside abi a entry m) :
    ∃ m', Instr.execAll rt m (restoring abi a) = .ok m' ∧ Restored abi entry m'
      ∧ m'.regs .rax = m.regs .rax := by
  have hrsp : ∀ abi ∈ Abi.all, abi.isPreserved .rsp = false := by decide
  obtain ⟨raised, hrunRaised, hraisedSp, hraised, hraisedMemory⟩ :=
    Machine.exists_execAll_adjustStack rt (.inr rfl) abi.shadowSpace m
  have hdepth : raised.regs .rsp
      = entry.regs .rsp - BitVec.ofNat 64 (8 + a.frameSize) - BitVec.ofNat 64
        (8 * a.saved.length) := by
    rw [hraisedSp, h.stack, ← Machine.sub_ofNat_sub]
    show _ - _ + BitVec.ofNat 64 abi.shadowSpace = _
    rw [BitVec.sub_add_cancel, Machine.sub_ofNat_sub]
    rfl
  obtain ⟨popped, hrunPopped, hpoppedSp, hpopped, hkept, hpoppedMemory⟩ :=
    Machine.exists_execAll_pop rt (fun h => (hsaved _ h).1 rfl) hdepth
      (hraisedMemory ▸ h.saved)
  let base := popped.regs .rbp
  let above : Word := base + 8
  let left : State := (popped.setReg .quad .rsp above).setReg .quad .rbp
    (popped.memory.load base .quad)
  have hbase : base = entry.regs .rsp - 8 := by
    rw [← h.base, ← hraised .rbp nofun]
    exact hkept .rbp (fun h => (hsaved _ h).2.1 rfl) nofun
  have hregs : ∀ r, r ≠ .rsp → r ≠ .rbp → left.regs r = popped.regs r := fun r hr hr' =>
    (State.regs_setReg_of_ne _ _ hr').trans (State.regs_setReg_of_ne _ _ hr)
  have hpointer : left.regs .rbp = entry.regs .rbp := by
    rw [show left.regs .rbp = popped.memory.load base .quad from State.regs_setReg_quad _ _ _,
      hpoppedMemory, hraisedMemory, hbase, h.pointer]
  refine ⟨left, ?_, ⟨?_, fun r hr => ?_⟩, ?_⟩
  · unfold restoring
    rw [List.append_assoc, Machine.execAll_append_of_ok hrunRaised,
      Machine.execAll_append_of_ok hrunPopped]
    rfl
  · rw [show left.regs .rsp = (popped.setReg .quad .rsp above).regs .rsp from
      State.regs_setReg_of_ne _ _ nofun, State.regs_setReg_quad]
    show base + 8 = _
    rw [hbase, BitVec.sub_add_cancel]
  · have hne : r ≠ .rsp := by
      rintro rfl
      rw [hrsp abi habi] at hr
      cases hr
    by_cases hbp : r = .rbp
    · rw [hbp, hpointer]
    · rw [hregs r hne hbp]
      by_cases hmem : r ∈ a.saved
      · exact hpopped r hmem
      · rw [hkept r hmem hne, hraised r hne, h.others r hr hbp hmem]
  · rw [hregs .rax nofun nofun, hkept .rax (fun h => (hsaved _ h).2.2 rfl) nofun,
      hraised .rax nofun]

end

end Assembly

end Jil
