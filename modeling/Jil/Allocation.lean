/-
Jil.Allocation — locations of pseudo-registers.

The allocator walks once over a stream. Registers come from two stacks:
temporaries, which calls destroy, and preserved registers, which cost a save in
the frame. A value takes the register on top when its interval begins and gives
it back when the interval ends; a value that has to survive a call takes
preserved registers only, and a value for which there is no register gets a
slot of its own in the frame. `Progress` is the state of the walk.
-/
import Jil.Machine.Convention
import Jil.Pseudo.Expansion
import Jil.Pseudo.Liveness
import Jil.Structure

namespace Jil

open Pseudo (Interval Liveness Location)

/-! ## Pools -/

/-- The registers that are free, the next one first. -/
structure Pools where
  temporaries : List Machine.Reg
  preserved : List Machine.Reg
  /-- Number of registers that are taken. -/
  inUse : Int := 0
  /-- The largest number of registers taken at once. -/
  peak : Nat := 0
  deriving Repr

namespace Pools

/-- Counts a register that is taken. -/
def countTaken (p : Pools) : Pools :=
  { p with inUse := p.inUse + 1, peak := max p.peak (p.inUse + 1).toNat }

/-- Takes a preserved register. -/
def takePreserved (p : Pools) : Option (Machine.Reg × Pools) :=
  match p.preserved with
  | r :: rest => some (r, { p with preserved := rest }.countTaken)
  | [] => none

/-- Takes a register, for a value that has to survive a call a preserved one. -/
def take (p : Pools) (acrossCall : Bool) : Option (Machine.Reg × Pools) :=
  if acrossCall then p.takePreserved
  else
    match p.temporaries with
    | r :: rest => some (r, { p with temporaries := rest }.countTaken)
    | [] => p.takePreserved

/-- Gives a register back to the stack that it came from. -/
def giveBack (p : Pools) (abi : Machine.Abi) (r : Machine.Reg) : Pools :=
  if abi.isPreserved r then { p with preserved := r :: p.preserved, inUse := p.inUse - 1 }
  else { p with temporaries := r :: p.temporaries, inUse := p.inUse - 1 }

end Pools

/-! ## Allocations -/

/-- Locations of the pseudo-registers of one function, and the frame that they need. -/
structure Allocation where
  mapping : Table Nat Location
  /-- The preserved registers that the function changes, the frame pointer included, and one
  more where that is needed to make their number odd. -/
  usedPreserved : Machine.RegSet := .empty
  /-- The registers that the frame saves, in order. -/
  saved : List Machine.Reg
  /-- Bytes of slots, a multiple of sixteen. -/
  frameSize : Nat
  /-- Number of slots. -/
  spillCount : Nat := 0
  /-- The largest number of registers taken at once. -/
  peak : Nat := 0
  /-- Number of registers that can be taken. -/
  poolSize : Nat := 0
  deriving Repr

namespace Allocation

/-- The locations by number. -/
def assignment (a : Allocation) : Pseudo.Assignment := a.mapping.get?

/-- The temporaries of a function that touches the given registers: argument registers serve as
temporaries behind the last one that the function touches. -/
def temporaries (abi : Machine.Abi) (touched : Machine.RegSet) : List Machine.Reg :=
  let highest := (touched.toList.filterMap abi.argumentPosition?).foldl max 0
  abi.temporaries ++ abi.arguments.drop highest

/-! ## The walk -/

/-- What has been decided before an instruction. -/
structure Progress where
  pools : Pools
  mapping : Table Nat Location := .empty
  usedPreserved : Machine.RegSet
  /-- Bytes of the slots handed out. -/
  slotBytes : Nat := 0
  spillCount : Nat := 0
  deriving Repr

namespace Progress

/-- Before the first instruction. -/
def start (abi : Machine.Abi) (live : Liveness) : Progress where
  pools :=
    { temporaries := temporaries abi live.touched, preserved := abi.allocatablePreserved }
  usedPreserved := Machine.RegSet.empty.insert .rbp

/-- Gives back the register of a value that is no longer needed. -/
def release (abi : Machine.Abi) (p : Progress) (i : Interval) : Progress :=
  match p.mapping.get? i.pseudo.id with
  | some (.reg r) => { p with pools := p.pools.giveBack abi r }
  | _ => p

/-- Decides the location of a value. -/
def assign (abi : Machine.Abi) (live : Liveness) (p : Progress) (i : Interval) : Progress :=
  match p.pools.take (live.crossesCall i) with
  | some (r, pools) =>
    { p with
      pools := pools
      mapping := p.mapping.insert i.pseudo.id (.reg r)
      usedPreserved :=
        if abi.isPreserved r then p.usedPreserved.insert r else p.usedPreserved }
  | none =>
    let size := i.pseudo.size.bytes
    let slotBytes := alignUp (p.slotBytes + size) size
    { p with
      mapping := p.mapping.insert i.pseudo.id (.slot (-slotBytes))
      slotBytes := slotBytes
      spillCount := p.spillCount + 1 }

/-- One instruction: registers of values that end here are free for those that begin here. -/
def step (abi : Machine.Abi) (live : Liveness) (p : Progress) (index : Nat) : Progress :=
  let dying := live.intervals.filter fun i => i.last = index && i.first ≠ index
  let born := live.intervals.filter fun i => i.first = index
  let brief := born.filter fun i => i.last = index
  let released := dying.foldl (release abi) p
  let assigned := born.foldl (assign abi live) released
  brief.foldl (release abi) assigned

/-- After the first `count` instructions. -/
def after (abi : Machine.Abi) (live : Liveness) (count : Nat) : Progress :=
  (List.range count).foldl (step abi live) (start abi live)

end Progress

/-! ## The frame -/

/-- Adds the first argument register to a set of even size, so that the saved registers and the
frame pointer keep the stack aligned. -/
def padToOdd (abi : Machine.Abi) (used : Machine.RegSet) : Machine.RegSet :=
  if used.size % 2 = 0 then
    match abi.argument? 1 with
    | some r => used.insert r
    | none => used
  else used

/-- The allocation for a stream of known liveness. -/
def ofLiveness (abi : Machine.Abi) (live : Liveness) (count : Nat) : Allocation :=
  let p := Progress.after abi live count
  let used := padToOdd abi p.usedPreserved
  { mapping := p.mapping
    usedPreserved := used
    saved := used.toList.filter (· ≠ .rbp)
    frameSize := alignUp p.slotBytes 16
    spillCount := p.spillCount
    peak := p.pools.peak
    poolSize := (temporaries abi live.touched).length + abi.allocatablePreserved.length }

/-- The allocation for a stream. -/
def ofCode (abi : Machine.Abi) (code : List Pseudo.Instr) :
    Except AllocationFailure Allocation := do
  let live ← Liveness.ofCode code
  pure (ofLiveness abi live code.length)

end Allocation

end Jil
