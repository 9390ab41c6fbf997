/-
Jil.Proofs.Encoding — instructions that the machine can encode.

An instruction is `Encodable` when it names memory at most once, writes a
register where its operation knows no other destination, extends to a wider
size, and holds an immediate of more than 32 bits only where `movabs` can. What
an instruction of a stream becomes is encodable wherever the values are kept,
if it is `regular`: it has the sizes and immediates for it, and the scratch
registers do the rest (`encodes_of_regular`). A move of a wide immediate to
less than a whole register becomes nothing that can be encoded, whatever the
location. The frame adds the one condition that its size is an immediate of 32
bits.
-/
import Jil.Assembly.Function
import Jil.Proofs.Staging

namespace Jil

/-! ## Encodings of the machine -/

namespace Machine

variable {size narrow wide : Size} {op : AluOp} {src dest o : Operand} {r : Reg}

/-- The immediate in an operand. -/
def Operand.immediate? : Operand → Option Int
  | .imm v => some v
  | _ => none

@[simp] theorem Operand.isMemory_reg (r : Reg) : (Operand.reg r).isMemory = false := rfl

theorem Operand.isWideImmediate_eq (o : Operand) :
    o.isWideImmediate = o.immediate?.any (!fitsLong ·) := by
  cases o <;> rfl

namespace Instr

/-- The operands of an instruction, an address that is only computed or called included. -/
def operands : Instr → List Operand
  | .alu _ _ src dest => [src, dest]
  | .extend _ _ _ src dest | .lea src dest => [src, .reg dest]
  | .neg _ dest | .not _ dest | .shift _ _ dest | .setcc _ dest => [dest]
  | .idiv _ divisor => [divisor]
  | .callIndirect base disp => [.mem base disp]
  | .push r | .pop r => [.reg r]
  | _ => []

/-- The destination of an operation that writes registers only. -/
def registerOnly? : Instr → Option Operand
  | .alu op _ _ dest => if op.needsRegister then some dest else none
  | .extend _ _ _ _ dest | .lea _ dest => some (.reg dest)
  | _ => none

/-- The sizes between which a value is extended. -/
def widening? : Instr → Option (Size × Size)
  | .extend _ narrow wide _ _ => some (narrow, wide)
  | _ => none

/-- Whether an instruction moves `o` into a whole register. -/
def movesWhole (o : Operand) : Instr → Bool
  | .alu .mov size src (.reg _) => src = o && size.bytes = 8
  | _ => false

/-- The machine has an encoding for the instruction. -/
structure Encodable (i : Instr) : Prop where
  /-- Memory is named at most once. -/
  memory : i.operands.countP Operand.isMemory ≤ 1
  /-- Products, addresses and extensions go to registers. -/
  register : ∀ dest ∈ i.registerOnly?, dest.isRegister = true
  /-- Extensions go to a wider size. -/
  widens : ∀ sizes ∈ i.widening?, sizes.1.bytes < sizes.2.bytes
  /-- Only moves into whole registers have a form with an immediate of 64 bits. -/
  immediate : ∀ o ∈ i.operands, o.isWideImmediate = true → i.movesWhole o = true

instance (i : Instr) : Decidable i.Encodable :=
  decidable_of_iff
    (i.operands.countP Operand.isMemory ≤ 1
      ∧ (∀ dest ∈ i.registerOnly?, dest.isRegister = true)
      ∧ (∀ sizes ∈ i.widening?, sizes.1.bytes < sizes.2.bytes)
      ∧ ∀ o ∈ i.operands, o.isWideImmediate = true → i.movesWhole o = true)
    ⟨fun ⟨hmemory, hregister, hwidens, himmediate⟩ => ⟨hmemory, hregister, hwidens,
      himmediate⟩, fun h => ⟨h.memory, h.register, h.widens, h.immediate⟩⟩

/-- An instruction without immediates of more than 32 bits, and without
conditions of its own. -/
theorem Encodable.of_plain {i : Instr} (hregister : i.registerOnly? = none)
    (hwidening : i.widening? = none) (hmemory : i.operands.length ≤ 1)
    (hwide : ∀ o ∈ i.operands, o.isWideImmediate = false) : i.Encodable where
  memory := Nat.le_trans List.countP_le_length hmemory
  register := by simp [hregister]
  widens := by simp [hwidening]
  immediate o ho hw := by simp [hwide o ho] at hw

theorem Encodable.alu (hregister : op.needsRegister = true → dest.isRegister = true)
    (hmemory : src.isMemory = true → dest.isRegister = true) (hdest : dest.immediate? = none)
    (hwide : src.isWideImmediate = true →
      op = .mov ∧ size.bytes = 8 ∧ dest.isRegister = true) :
    (Instr.alu op size src dest).Encodable where
  memory := by
    cases hsrc : src.isMemory with
    | false => simp [operands, hsrc, List.countP_cons]; split <;> omega
    | true =>
      cases dest with
      | reg r => simp [operands, hsrc]
      | _ => cases hmemory hsrc
  register := by
    simp only [registerOnly?]
    split
    · next hop => simpa using hregister hop
    · nofun
  widens := nofun
  immediate o ho hw := by
    simp only [operands, List.mem_cons, List.not_mem_nil, or_false] at ho
    rcases ho with rfl | rfl
    · obtain ⟨rfl, hsize, hdest⟩ := hwide hw
      cases dest with
      | reg r => simp [movesWhole, hsize]
      | _ => cases hdest
    · rw [Operand.isWideImmediate_eq, hdest] at hw
      cases hw

/-- Writing a register. -/
theorem Encodable.intoReg (hwide : src.isWideImmediate = true → op = .mov ∧ size.bytes = 8) :
    (Instr.alu op size src (.reg r)).Encodable :=
  .alu (fun _ => rfl) (fun _ => rfl) rfl fun h => ⟨(hwide h).1, (hwide h).2, rfl⟩

/-- Writing from a register. -/
theorem Encodable.fromReg (hregister : op.needsRegister = true → dest.isRegister = true)
    (hdest : dest.immediate? = none) : (Instr.alu op size (.reg r) dest).Encodable :=
  .alu hregister nofun hdest nofun

/-- An operand that is computed with on the way to a register. -/
theorem operands_intoReg (hsrc : src.isWideImmediate = false) :
    [src, .reg r].countP Operand.isMemory ≤ 1
      ∧ ∀ o ∈ [src, .reg r], o.isWideImmediate = false :=
  ⟨by cases src <;> exact Nat.le_of_ble_eq_true rfl,
    List.forall_mem_cons.2 ⟨hsrc, List.forall_mem_singleton.2 rfl⟩⟩

theorem Encodable.extend {signed : Bool} (hsizes : narrow.bytes < wide.bytes)
    (hsrc : src.isWideImmediate = false) :
    (Instr.extend signed narrow wide src r).Encodable where
  memory := (operands_intoReg hsrc).1
  register := by simp [registerOnly?, Operand.isRegister]
  widens := by simp [widening?, hsizes]
  immediate o ho hw := by simp [(operands_intoReg hsrc).2 o ho] at hw

theorem Encodable.lea (hsrc : src.isWideImmediate = false) : (Instr.lea src r).Encodable where
  memory := (operands_intoReg hsrc).1
  register := by simp [registerOnly?, Operand.isRegister]
  widens := nofun
  immediate o ho hw := by simp [(operands_intoReg hsrc).2 o ho] at hw

/-- There is no move of a wide immediate to less than a whole register. -/
theorem not_encodable_mov_imm {v : Int} (hv : fitsLong v = false) (hsize : size.bytes ≠ 8) :
    ¬ (mov size (.imm v) dest).Encodable := by
  intro h
  have hmoves :=
    h.immediate (.imm v) List.mem_cons_self (by simp [Operand.isWideImmediate, hv])
  cases dest with
  | reg r => simp [mov, movesWhole, hsize] at hmoves
  | _ => cases hmoves

end Instr

end Machine

/-! ## Expansions -/

namespace Pseudo

open Machine (AluOp Size)

variable {a : Assignment} {i : Instr} {part : List Machine.Instr}

/-- The immediate in an operand. -/
def Operand.immediate? : Operand → Option Int
  | .imm v => some v
  | _ => none

@[simp] theorem Operand.immediate?_pseudo (p : Reg) : (Operand.pseudo p).immediate? = none :=
  rfl

/-- Operands of the machine hold the immediates of the stream's, and addresses are loaded
from the frame by moves. -/
theorem Operand.resolve_spec {o : Operand} {before : List Machine.Instr} {m : Machine.Operand}
    (h : o.resolve a = .ok (before, m)) :
    m.immediate? = o.immediate? ∧ ∀ j ∈ before, j.Encodable := by
  refine ⟨?_, fun j hj => ?_⟩
  · cases o with
    | pseudo p =>
      obtain ⟨location, -, h⟩ := bind_eq_ok.1 h
      cases h
      cases location <;> rfl
    | indirect base disp =>
      obtain ⟨location, -, h⟩ := bind_eq_ok.1 h
      cases location <;> · cases h; rfl
    | _ =>
      cases h
      rfl
  · obtain ⟨offset, rfl⟩ := load_of_resolve h hj
    exact .intoReg nofun

/-- Scratch registers stand in where an operation between two operands has no encoding. -/
theorem encodable_expandAlu {op : AluOp} {size : Size} {src dest : Machine.Operand}
    (hdest : dest.immediate? = none)
    (hwide : src.isWideImmediate = true → op = .mov ∧ size.bytes = 8) :
    ∀ j ∈ expandAlu op size src dest, j.Encodable := by
  have hdestWide : dest.isWideImmediate = false := by
    rw [Machine.Operand.isWideImmediate_eq, hdest]
    rfl
  have hregister : dest.isMemory = false → dest.isRegister = true := by
    cases dest with
    | imm v => cases hdest
    | reg r => exact fun _ => rfl
    | _ => nofun
  intro j hj
  unfold expandAlu at hj
  split at hj
  · next hproduct =>
    -- the product is taken in the scratch register
    simp only [List.mem_cons, List.not_mem_nil, or_false] at hj
    rcases hj with rfl | rfl | rfl
    · exact .intoReg fun h => by simp [hdestWide] at h
    · exact .intoReg hwide
    · exact .fromReg nofun hdest
  · next hproduct =>
    split at hj
    · simp only [List.mem_cons, List.not_mem_nil, or_false] at hj
      rcases hj with rfl | rfl
      · exact .intoReg fun h => ⟨rfl, (hwide h).2⟩
      · refine .fromReg (fun hop => hregister ?_) hdest
        simpa [hop] using hproduct
    · next hdirect =>
      simp only [Bool.or_eq_true, Bool.and_eq_true, decide_eq_true_eq, not_or,
        not_and] at hdirect
      obtain rfl := List.mem_singleton.1 hj
      refine .alu (fun hop => hregister (by simpa [hop] using hproduct))
        (fun hsrc => hregister (by simpa using hdirect.1 hsrc)) hdest fun h => ?_
      exact ⟨(hwide h).1, (hwide h).2, hregister (by simpa using (hdirect.2 h).1)⟩

/-- An operation whose result goes to a register first. -/
theorem encodable_expandInto {size : Size} {operation : Machine.Reg → Machine.Instr}
    {dest : Machine.Operand} (hdest : dest.immediate? = none)
    (hoperation : ∀ r, (operation r).Encodable) :
    ∀ j ∈ expandInto size operation dest, j.Encodable := by
  cases dest with
  | reg r => exact List.forall_mem_singleton.2 (hoperation r)
  | imm v => cases hdest
  | _ =>
    exact List.forall_mem_cons.2
      ⟨hoperation _, List.forall_mem_singleton.2 (.fromReg nofun hdest)⟩

namespace Instr

/-- Instructions of which the expansion can be encoded wherever values are kept: results go to
values or memory, extensions to a wider size, and an immediate of more than 32 bits is moved to
a whole register or as much of the memory. -/
def regular : Instr → Bool
  | .alu op size src dest =>
    dest.immediate?.isNone
      && (src.immediate?.all Machine.fitsLong || op = .mov && size.bytes = 8)
  | .extend _ narrow wide src dest =>
    src.immediate?.isNone && dest.immediate?.isNone && narrow.bytes < wide.bytes
  | .lea src dest => src.immediate?.isNone && dest.immediate?.isNone
  | .neg _ dest | .not _ dest | .shift _ _ dest | .setcc _ dest => dest.immediate?.isNone
  | .idiv _ divisor => divisor.immediate?.isNone
  | _ => true

/-- The single operand of an instruction. -/
theorem encodable_expandUnary {o : Operand} {operation : Machine.Operand → Machine.Instr}
    (ho : o.immediate?.isNone = true) (hoperands : ∀ m, (operation m).operands = [m])
    (hregister : ∀ m, (operation m).registerOnly? = none)
    (hwidening : ∀ m, (operation m).widening? = none)
    (h : expandUnary a o operation = .ok part) : ∀ j ∈ part, j.Encodable := by
  obtain ⟨⟨before, m⟩, hresolve, h⟩ := bind_eq_ok.1 h
  cases h
  obtain ⟨himmediate, hbefore⟩ := Operand.resolve_spec hresolve
  refine List.forall_mem_append.2 ⟨hbefore, List.forall_mem_singleton.2 ?_⟩
  refine .of_plain (hregister m) (hwidening m) (by simp [hoperands]) ?_
  rw [hoperands, List.forall_mem_singleton, Machine.Operand.isWideImmediate_eq, himmediate,
    Option.isNone_iff_eq_none.1 ho]
  rfl

/-- Two operands, and what is done with them. -/
theorem encodable_of_resolve {src dest : Operand} {before between rest : List Machine.Instr}
    {m n : Machine.Operand} (hsrc : src.resolve a = .ok (before, m))
    (hdest : dest.resolve a = .ok (between, n))
    (h : m.immediate? = src.immediate? → n.immediate? = dest.immediate? →
      ∀ j ∈ rest, j.Encodable) : ∀ j ∈ before ++ between ++ rest, j.Encodable := by
  obtain ⟨hm, hbefore⟩ := Operand.resolve_spec hsrc
  obtain ⟨hn, hbetween⟩ := Operand.resolve_spec hdest
  exact List.forall_mem_append.2 ⟨List.forall_mem_append.2 ⟨hbefore, hbetween⟩, h hm hn⟩

/-- What an instruction becomes can be encoded. -/
def Encodes (a : Assignment) (i : Instr) : Prop :=
  ∀ part, i.expand a = .ok part → ∀ j ∈ part, j.Encodable

/-- Regular instructions become what can be encoded, wherever values are kept. -/
theorem encodes_of_regular (hi : i.regular = true) : i.Encodes a := by
  intro part h
  have hsimple : ∀ {j : Machine.Instr}, j.registerOnly? = none → j.widening? = none →
      j.operands = [] → ∀ j' ∈ [j], j'.Encodable := fun hregister hwidening hoperands =>
    List.forall_mem_singleton.2 (.of_plain hregister hwidening (by simp [hoperands])
      (by simp [hoperands]))
  cases i with
  | alu op size src dest =>
    simp only [regular, Bool.and_eq_true, Bool.or_eq_true, decide_eq_true_eq,
      Option.isNone_iff_eq_none] at hi
    obtain ⟨hdest, hsrc⟩ := hi
    obtain ⟨⟨before, m⟩, hm, h⟩ := bind_eq_ok.1 h
    obtain ⟨⟨between, n⟩, hn, h⟩ := bind_eq_ok.1 h
    cases h
    refine encodable_of_resolve hm hn fun hm hn => ?_
    refine encodable_expandAlu (hn.trans hdest) fun hwide => ?_
    refine hsrc.resolve_left fun hfits => ?_
    rw [Machine.Operand.isWideImmediate_eq, hm] at hwide
    cases himmediate : src.immediate? with
    | none => simp [himmediate] at hwide
    | some v => simp_all
  | extend signed narrow wide src dest =>
    simp only [regular, Bool.and_eq_true, decide_eq_true_eq, Option.isNone_iff_eq_none] at hi
    obtain ⟨⟨hsrc, hdest⟩, hsizes⟩ := hi
    obtain ⟨⟨before, m⟩, hm, h⟩ := bind_eq_ok.1 h
    obtain ⟨⟨between, n⟩, hn, h⟩ := bind_eq_ok.1 h
    cases h
    refine encodable_of_resolve hm hn fun hm hn => ?_
    refine encodable_expandInto (hn.trans hdest) fun r => ?_
    exact .extend hsizes (by rw [Machine.Operand.isWideImmediate_eq, hm, hsrc]; rfl)
  | lea src dest =>
    simp only [regular, Bool.and_eq_true, Option.isNone_iff_eq_none] at hi
    obtain ⟨hsrc, hdest⟩ := hi
    obtain ⟨⟨before, m⟩, hm, h⟩ := bind_eq_ok.1 h
    obtain ⟨⟨between, n⟩, hn, h⟩ := bind_eq_ok.1 h
    cases h
    refine encodable_of_resolve hm hn fun hm hn => ?_
    refine encodable_expandInto (hn.trans hdest) fun r => ?_
    exact .lea (by rw [Machine.Operand.isWideImmediate_eq, hm, hsrc]; rfl)
  | neg size dest | not size dest | shift op size dest | idiv size divisor | setcc cond dest =>
    exact encodable_expandUnary hi (fun _ => rfl) (fun _ => rfl) (fun _ => rfl) h
  | callIndirect base disp =>
    cases h
    exact List.forall_mem_singleton.2
      (.of_plain rfl rfl (Nat.le_refl 1) (List.forall_mem_singleton.2 rfl))
  | _ =>
    cases h
    exact hsimple rfl rfl rfl

/-- Nor is there a location for a value of less than a whole register to which a wide immediate
could be moved. -/
theorem not_encodes_of_wide {size : Size} {v : Int} {p : Reg} (hv : Machine.fitsLong v = false)
    (hsize : size.bytes ≠ 8) (h : (mov size (.imm v) (.pseudo p)).expand a = .ok part) :
    ¬ (mov size (.imm v) (.pseudo p)).Encodes a := by
  intro hencodes
  have hpart := hencodes part h
  obtain ⟨⟨before, m⟩, hsrc, h⟩ := bind_eq_ok.1 h
  obtain ⟨⟨between, n⟩, hdest, h⟩ := bind_eq_ok.1 h
  cases hsrc
  obtain ⟨location, -, hdest⟩ := bind_eq_ok.1 hdest
  cases hdest
  cases h
  have hwide : (Machine.Operand.imm v).isWideImmediate = true := by
    simp [Machine.Operand.isWideImmediate, hv]
  cases location with
  | reg r =>
    refine Machine.Instr.not_encodable_mov_imm hv hsize
      (hpart (.mov size (.imm v) (.reg r)) ?_)
    simp [expandAlu, AluOp.needsRegister, Location.operand, Machine.Operand.isMemory,
      Machine.Instr.mov]
  | slot offset =>
    refine Machine.Instr.not_encodable_mov_imm hv hsize (hpart (.mov size (.imm v) scratch) ?_)
    simp [expandAlu, AluOp.needsRegister, Location.operand, Machine.Operand.isMemory, hwide]

end Instr

end Pseudo

/-! ## Functions -/

namespace Assembly.Function

open Machine (Abi AluOp Instr)
open Pseudo (bind_eq_ok)

variable {abi : Abi} {a : Allocation} {symbol exitLabel : String} {code : List Pseudo.Instr}
  {f : Function}

/-- The stack pointer is moved by an immediate. -/
theorem encodable_adjustStack_iff {op : AluOp} {bytes : Nat} (hop : op ≠ .mov) :
    (∀ j ∈ adjustStack op bytes, j.Encodable) ↔ bytes < 2 ^ 31 := by
  unfold adjustStack
  split
  · next hbytes =>
    subst hbytes
    simp
  · rw [List.forall_mem_singleton]
    have hwide : (Machine.Operand.imm bytes).isWideImmediate = true ↔ ¬ bytes < 2 ^ 31 := by
      simp only [Machine.Operand.isWideImmediate, Machine.fitsLong, Bool.not_eq_true',
        Bool.and_eq_false_iff, decide_eq_false_iff_not]
      omega
    constructor
    · intro h
      refine Decidable.of_not_not fun hlarge => ?_
      have hmoves := h.immediate (.imm bytes) List.mem_cons_self (hwide.2 hlarge)
      cases op with
      | mov => exact hop rfl
      | _ => cases hmoves
    · intro hsmall
      exact .intoReg fun h => absurd hsmall (hwide.1 h)

theorem encodable_push_pop (saved : List Machine.Reg) :
    (∀ j ∈ saved.map Instr.push, j.Encodable) ∧ ∀ j ∈ saved.map Instr.pop, j.Encodable :=
  ⟨List.forall_mem_map.2 fun _ _ =>
      .of_plain rfl rfl (Nat.le_refl 1) (List.forall_mem_singleton.2 rfl),
    List.forall_mem_map.2 fun _ _ =>
      .of_plain rfl rfl (Nat.le_refl 1) (List.forall_mem_singleton.2 rfl)⟩

theorem shadowSpace_lt (habi : abi ∈ Abi.all) : abi.shadowSpace < 2 ^ 31 := by
  have hall : ∀ abi ∈ Abi.all, abi.shadowSpace < 2 ^ 31 := by decide
  exact hall abi habi

/-- Setting a frame up can be encoded when its size fits into an immediate. -/
theorem encodable_prologue_iff (habi : abi ∈ Abi.all) :
    (∀ j ∈ prologue abi a, j.Encodable) ↔ a.frameSize < 2 ^ 31 := by
  have hbase : ∀ j ∈ [Instr.push .rbp, .mov .quad (.reg .rsp) (.reg .rbp)], j.Encodable := by
    decide
  have hsub : AluOp.sub ≠ .mov := nofun
  rw [prologue, List.forall_mem_append, List.forall_mem_append, List.forall_mem_append,
    encodable_adjustStack_iff hsub, encodable_adjustStack_iff hsub]
  exact ⟨fun h => h.1.1.2, fun h =>
    ⟨⟨⟨hbase, h⟩, (encodable_push_pop a.saved).1⟩, shadowSpace_lt habi⟩⟩

/-- Taking a frame down can always be encoded. -/
theorem encodable_epilogue (habi : abi ∈ Abi.all) : ∀ j ∈ epilogue abi a, j.Encodable := by
  have hreturn : ∀ j ∈ [Instr.leave, .ret], j.Encodable := by decide
  have hadd : AluOp.add ≠ .mov := nofun
  have hshadow := (encodable_adjustStack_iff hadd).2 (shadowSpace_lt habi)
  exact List.forall_mem_append.2
    ⟨List.forall_mem_append.2 ⟨hshadow, (encodable_push_pop a.saved.reverse).2⟩, hreturn⟩

theorem encodable_place_iff (habi : abi ∈ Abi.all) {i : Pseudo.Instr} {part : List Instr}
    (h : place abi a exitLabel i = .ok part) :
    (∀ j ∈ part, j.Encodable) ↔ i.Encodes a.assignment := by
  obtain ⟨expanded, hexpand, h⟩ := bind_eq_ok.1 h
  have hencodes : i.Encodes a.assignment ↔ ∀ j ∈ expanded, j.Encodable := by
    simp [Pseudo.Instr.Encodes, hexpand]
  rw [hencodes, ← Except.ok.inj h]
  split
  · rw [List.forall_mem_append]
    exact and_iff_left (encodable_epilogue habi)
  · rfl

/-- A function is made of the expansions of its stream. -/
theorem exists_expand_of_ofAllocation (h : ofAllocation abi symbol code exitLabel a = .ok f) :
    f.allocation = a ∧ ∀ i ∈ code, ∃ part, i.expand a.assignment = .ok part := by
  obtain ⟨parts, hparts, h⟩ := bind_eq_ok.1 h
  cases h
  refine ⟨rfl, fun i hi => ?_⟩
  obtain ⟨n, hn⟩ := List.getElem?_of_mem hi
  obtain ⟨part, -, hplace⟩ := (Pseudo.getElem?_of_mapM_eq_ok hparts).2 n i hn
  obtain ⟨expanded, hexpand, -⟩ := bind_eq_ok.1 hplace
  exact ⟨expanded, hexpand⟩

/-- A function can be encoded when its frame and the instructions of its stream can. -/
theorem encodable_ofAllocation_iff (habi : abi ∈ Abi.all)
    (h : ofAllocation abi symbol code exitLabel a = .ok f) :
    (∀ j ∈ f.body, j.Encodable) ↔
      a.frameSize < 2 ^ 31 ∧ ∀ i ∈ code, i.Encodes a.assignment := by
  obtain ⟨parts, hparts, h⟩ := bind_eq_ok.1 h
  cases h
  obtain ⟨hlength, hget⟩ := Pseudo.getElem?_of_mapM_eq_ok hparts
  simp only [List.forall_mem_append, encodable_prologue_iff habi, List.mem_flatten]
  refine and_congr_right fun _ => ⟨fun hall i hi => ?_, ?_⟩
  · obtain ⟨n, hn⟩ := List.getElem?_of_mem hi
    obtain ⟨part, hpart, hplace⟩ := hget n i hn
    exact (encodable_place_iff habi hplace).1 fun j hj =>
      hall j ⟨part, List.mem_of_getElem? hpart, hj⟩
  · rintro hall j ⟨part, hpart, hj⟩
    obtain ⟨n, hn⟩ := List.getElem?_of_mem hpart
    have hlt : n < code.length := hlength ▸ (List.getElem?_eq_some_iff.1 hn).1
    obtain ⟨part', hpart', hplace⟩ := hget n code[n] (List.getElem?_eq_getElem hlt)
    rw [hn, Option.some.injEq] at hpart'
    subst hpart'
    exact (encodable_place_iff habi hplace).2 (hall _ (List.getElem_mem hlt)) j hj

end Assembly.Function

end Jil
