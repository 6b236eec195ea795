import StraightLine.Allocator.Basic

/-!
# Acquiring a register

A variable that sits in a register keeps it. Any other variable gets the first register, in the order of
last use and outside the excluded ones, that is free; failing that, one whose occupant is dead; failing
that, the first of all, whose occupant is stored to the stack. Whatever way the register was found, the
variable is loaded from its slot if it has one.

Deciding comes before doing: `plan` only looks at the state and can fail, `settle` carries a plan out and
cannot, so a failed acquisition leaves the state as it was.
-/

namespace StraightLine

/-- The slot for a spilled variable: its own, one whose holder is dead, or a new one at the end. -/
inductive Placement where
  | own (offset : Nat)
  | recycled (offset : Nat)
  | grown (offset : Nat)
deriving DecidableEq

def Placement.offset : Placement → Nat
  | .own offset => offset
  | .recycled offset => offset
  | .grown offset => offset

inductive Grant where
  | found (how : Find) (r : PoolReg)
  | evict (r : PoolReg) (victim : Var) (placement : Placement)
deriving DecidableEq

def Grant.register : Grant → PoolReg
  | .found _ r => r
  | .evict r _ _ => r

namespace Allocator

/-- The registers outside the excluded ones, the least recently used first. -/
def candidates (a : Allocator) (excluded : List PoolReg) : List PoolReg :=
  a.recency.filter fun r => !excluded.contains r

/-- The candidates that hold a variable, with the variable. -/
def holders (a : Allocator) (excluded : List PoolReg) : List (PoolReg × Var) :=
  (a.candidates excluded).filterMap fun r => (a.occupant? r).map fun v => (r, v)

/-- The first register whose occupant is dead. -/
def firstRetired (pending : PendingReads) : List (PoolReg × Var) → Except Failure (Option PoolReg)
  | [] => .ok none
  | (r, v) :: rest =>
      match pending.isDead v with
      | .error f => .error f
      | .ok true => .ok (some r)
      | .ok false => firstRetired pending rest

/-- The first of some offsets that no variable holds, or a dead one. -/
def firstReusable (a : Allocator) : List Nat → Except Failure (Option Nat)
  | [] => .ok none
  | offset :: rest =>
      match a.slots.preimage? offset with
      | none => .ok (some offset)
      | some holder =>
          match a.pending.isDead holder with
          | .error f => .error f
          | .ok true => .ok (some offset)
          | .ok false => firstReusable a rest

/-- The offsets of the slots handed out so far, in ascending order. -/
def offsets (a : Allocator) : List Nat := (List.range (a.depth / a.slotSize)).map (· * a.slotSize)

def place (a : Allocator) (v : Var) : Except Failure Placement :=
  match a.slot? v with
  | some offset => .ok (.own offset)
  | none =>
      match a.firstReusable a.offsets with
      | .error f => .error f
      | .ok (some offset) => .ok (.recycled offset)
      | .ok none =>
          if a.depth + a.slotSize < byteLimit then .ok (.grown a.depth)
          else .error (.trapped .depthOverflow)

/-- The failure when every register of the pool is excluded. Reporting it names the excluded registers. -/
def exhausted (a : Allocator) (excluded : List PoolReg) : Failure :=
  if excluded.all PoolReg.isNamed then .reported (.noEvictableRegister a.poolSize excluded)
  else .trapped .unnamedRegister

/-- Take a register from its occupant, the least recently used one first. -/
def planEviction (a : Allocator) (excluded : List PoolReg) : Except Failure Grant :=
  match firstRetired a.pending (a.holders excluded) with
  | .error f => .error f
  | .ok (some r) => .ok (.found .retired r)
  | .ok none =>
      match a.holders excluded with
      | [] => .error (a.exhausted excluded)
      | (r, victim) :: _ => (a.place victim).map fun placement => .evict r victim placement

def plan (a : Allocator) (v : Var) (excluded : List PoolReg) : Except Failure Grant :=
  match a.register? v with
  | some r => .ok (.found .resident r)
  | none =>
      match (a.candidates excluded).find? fun r => (a.occupant? r).isNone with
      | some r => .ok (.found .free r)
      | none => a.planEviction excluded

def touch (a : Allocator) (r : PoolReg) : Allocator :=
  { a with recency := a.recency.erase r ++ [r] }

/-- Load a variable into a register if it has a slot. -/
def load (a : Allocator) (v : Var) (r : PoolReg) : Allocator :=
  match a.slot? v with
  | none => a
  | some offset =>
      { a with queue := a.queue ++ [Asm.reload r offset], reloads := a.reloads + 1 }.log
        (.reload v r offset)

def bind (a : Allocator) (v : Var) (r : PoolReg) : Allocator :=
  ({ a with registers := a.registers.insert v r }.touch r).load v r

/-- Store the occupant of a register to its slot. -/
def store (a : Allocator) (r : PoolReg) (victim : Var) (placement : Placement) : Allocator :=
  { a with
    queue := a.queue ++ [Asm.spill r placement.offset]
    slots := a.slots.insert victim placement.offset
    depth :=
      match placement with
      | .grown _ => a.depth + a.slotSize
      | _ => a.depth
    stores := a.stores + 1
    spilled := Var.insertSorted victim a.spilled }.log (.spill victim r placement.offset)

def settle (a : Allocator) (v : Var) : Grant → Allocator
  | .found .resident r => (a.touch r).log (.found .resident v r)
  | .found how r => (a.log (.found how v r)).bind v r
  | .evict r victim placement => (a.store r victim placement).bind v r

/-- Get a register for a variable, outside the excluded ones unless the variable already sits there. -/
def acquire (a : Allocator) (v : Var) (excluded : List PoolReg) : Except Failure PoolReg × Allocator :=
  match a.plan v excluded with
  | .error f => (.error f, a)
  | .ok grant => (.ok grant.register, a.settle v grant)

end Allocator

end StraightLine
