import StraightLine.Allocator.Acquire

/-!
# Choosing emitted instructions

One instruction of a program in normal form becomes one emitted instruction. Its operands get their
registers first and its destination last, each kept away from the registers of the ones before it; the
reads are consumed when all of them have a register, so no operand can lose its register to another.
A word on the left of an operator, or as a factor, has no emitted form.
-/

namespace StraightLine

/-- A computation that asks the allocator. Its state survives a failure. -/
abbrev Allocation := ExceptT Failure (StateM Allocator)

namespace Allocation

/-- Get a register for a variable, outside the excluded ones. -/
def claim (v : Var) (excluded : List PoolReg) : Allocation PoolReg :=
  ExceptT.mk fun a => a.acquire v excluded

def release (v : Var) : Allocation Unit := ExceptT.mk fun a => a.consume v

/-- Refuse the instruction at a place of the program. -/
def refuse {α : Type} (index : Nat) (cause : Misplacement) : Allocation α :=
  throw (.reported (.malformed index cause))

@[simp] theorem run_pure {α : Type} (x : α) (a : Allocator) :
    (pure x : Allocation α).run a = (.ok x, a) := rfl

@[simp] theorem run_claim (v : Var) (excluded : List PoolReg) (a : Allocator) :
    (claim v excluded).run a = a.acquire v excluded := rfl

@[simp] theorem run_release (v : Var) (a : Allocator) : (release v).run a = a.consume v := rfl

@[simp] theorem run_refuse {α : Type} (index : Nat) (cause : Misplacement) (a : Allocator) :
    (refuse index cause : Allocation α).run a = (.error (.reported (.malformed index cause)), a) := rfl

/-- A computation goes on from the state its first part leaves, unless that part fails. -/
@[simp] theorem run_bind {α β : Type} (x : Allocation α) (f : α → Allocation β) (a : Allocator) :
    (x >>= f).run a =
      match x.run a with
      | (.error e, b) => (.error e, b)
      | (.ok y, b) => (f y).run b := by
  simp only [ExceptT.run, bind, ExceptT.bind, ExceptT.mk, StateT.bind]
  split
  next outcome b h =>
    rw [h]
    cases outcome <;> rfl

/-- The emitted instruction for the instruction at a place of the program. -/
def select (ret : Reg) (index : Nat) (i : Instr) : Allocation Asm :=
  match i with
  | .ret (.imm value) => return .li ret value
  | .ret (.var v) => do
      let rs ← claim v []
      release v
      return .mv ret (.pool rs)
  | .mov dst (.imm value) => do
      let rd ← claim dst []
      return .li (.pool rd) value
  | .mov dst (.var src) => do
      let rs ← claim src []
      let rd ← claim dst [rs]
      release src
      return .mv (.pool rd) (.pool rs)
  | .binary _ _ (.imm _) _ => refuse index (.leftOperand i)
  | .binary .mul _ (.var _) (.imm _) => refuse index (.factor i)
  | .binary op dst (.var lhs) (.imm value) => do
      let rl ← claim lhs []
      let rd ← claim dst [rl]
      release lhs
      return .addi (.pool rd) (.pool rl) (if op = .sub then -value else value)
  | .binary op dst (.var lhs) (.var rhs) => do
      let rl ← claim lhs []
      let rr ← claim rhs [rl]
      let rd ← claim dst [rl, rr]
      release lhs
      release rhs
      return .arith op (.pool rd) (.pool rl) (.pool rr)

end Allocation

end StraightLine
