import StraightLine.Bijection
import StraightLine.Event
import StraightLine.PendingReads
import StraightLine.Target.Asm

/-!
# The register allocator

The allocator binds variables to registers of a pool while a program is emitted, and to stack slots when
the pool runs out. Its state is two partial bijections, from variables to registers and from variables
to slot offsets, the registers in the order of their last use, the reads that are still to come, and the
spill code that waits to be emitted. Bytes of the stack are counted exactly; a count that would not fit
a 32-bit word is a trap.
-/

namespace StraightLine

/-- Counts of bytes stay below this limit, so that they fit a word. -/
def byteLimit : Nat := UInt32.size

/-- The least multiple of `unit` that is not below `n`. -/
def roundUp (n unit : Nat) : Nat := (n + unit - 1) / unit * unit

/-- What a run cost: spills, reloads, the variables that were ever spilled, and bytes of stack. -/
structure Stats where
  stores : Nat
  reloads : Nat
  spilled : List Var
  frameSize : Nat
deriving DecidableEq

structure Allocator where
  poolSize : Nat
  slotSize : Nat
  alignment : Nat
  pending : PendingReads
  registers : Bijection Var PoolReg
  slots : Bijection Var Nat
  /-- The registers of the pool, the least recently used first. -/
  recency : List PoolReg
  /-- The bytes of stack handed out so far. -/
  depth : Nat
  /-- The spill code that waits to be emitted. -/
  queue : List Asm
  stores : Nat
  reloads : Nat
  /-- The variables that were ever spilled, in ascending order. -/
  spilled : List Var
  journal : List Event

namespace Allocator

/-- The registers of a pool, in the order of their places. -/
def pool (poolSize : Nat) : List PoolReg := (List.range poolSize).map PoolReg.mk

/-- The allocator before its first decision. Among registers that were never used the first of the pool
counts as the least recently used. -/
def initial (poolSize slotSize alignment : Nat) (pending : PendingReads) : Allocator where
  poolSize := poolSize
  slotSize := slotSize
  alignment := alignment
  pending := pending
  registers := .empty
  slots := .empty
  recency := pool poolSize
  depth := 0
  queue := []
  stores := 0
  reloads := 0
  spilled := []
  journal := []

/-- An allocator over a pool of named registers, with slots of at least a byte, aligned to slots. -/
def create (poolSize slotSize : Nat) (pending : PendingReads) : Except Failure Allocator :=
  if poolSize = 0 ∨ PoolReg.count < poolSize then
    .error (.reported (.invalidOptions (.allocatorPool poolSize)))
  else if slotSize = 0 then .error (.reported (.invalidOptions .zeroSlot))
  else .ok (initial poolSize slotSize slotSize pending)

/-- Align the frame to a number of bytes, at least one. -/
def withAlignment (a : Allocator) (alignment : Nat) : Allocator :=
  { a with alignment := if alignment = 0 then 1 else alignment }

def register? (a : Allocator) (v : Var) : Option PoolReg := a.registers.image? v

def occupant? (a : Allocator) (r : PoolReg) : Option Var := a.registers.preimage? r

def slot? (a : Allocator) (v : Var) : Option Nat := a.slots.image? v

/-- The bytes of stack that are in use, aligned. -/
def frameSize (a : Allocator) : Except Failure Nat :=
  let size := roundUp a.depth a.alignment
  if size < byteLimit then .ok size else .error (.trapped .frameOverflow)

def stats (a : Allocator) : Except Failure Stats :=
  a.frameSize.map fun frameSize => ⟨a.stores, a.reloads, a.spilled, frameSize⟩

def log (a : Allocator) (e : Event) : Allocator := { a with journal := a.journal ++ [e] }

def drain (a : Allocator) : List Asm × Allocator := (a.queue, { a with queue := [] })

def consume (a : Allocator) (v : Var) : Except Failure Unit × Allocator :=
  match a.pending.consume v with
  | .ok pending => (.ok (), { a with pending })
  | .error f => (.error f, a)

end Allocator

end StraightLine
