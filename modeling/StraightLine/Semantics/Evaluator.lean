import StraightLine.Program.Basic

/-!
# What programs compute

A program runs on an environment that gives words to some variables. An instruction reads its operands
from left to right and gets stuck on the first variable that has no word. The run ends with the first
return or behind the last instruction.
-/

namespace StraightLine

/-- The words of the variables that have one. -/
abbrev Env := Var → Option Int32

namespace Env

def set (env : Env) (v : Var) (value : Int32) : Env := fun w => if w = v then some value else env w

@[simp] theorem set_self (env : Env) (v : Var) (value : Int32) : env.set v value v = some value := by
  simp [set]

theorem set_of_ne {env : Env} {v w : Var} {value : Int32} (h : w ≠ v) :
    env.set v value w = env w := by
  simp [set, h]

end Env

/-- The word of an operand, or the variable that has none. -/
def Operand.eval (env : Env) : Operand → Except Var Int32
  | .imm value => .ok value
  | .var v =>
      match env v with
      | some value => .ok value
      | none => .error v

inductive Outcome where
  | returned (value : Int32) (env : Env)
  | finished (env : Env)
  | stuck (v : Var)

/-- What one instruction does: assign a word, return one, or get stuck. -/
inductive Effect where
  | assign (dst : Var) (value : Int32)
  | result (value : Int32)
  | stuck (v : Var)
deriving DecidableEq

def Instr.effect (env : Env) : Instr → Effect
  | .mov dst src =>
      match src.eval env with
      | .ok value => .assign dst value
      | .error v => .stuck v
  | .binary op dst lhs rhs =>
      match lhs.eval env with
      | .error v => .stuck v
      | .ok a =>
          match rhs.eval env with
          | .error v => .stuck v
          | .ok b => .assign dst (op.apply a b)
  | .ret value =>
      match value.eval env with
      | .ok value => .result value
      | .error v => .stuck v

namespace Program

def evalInstrs : List Instr → Env → Outcome
  | [], env => .finished env
  | i :: rest, env =>
      match i.effect env with
      | .assign dst value => evalInstrs rest (env.set dst value)
      | .result value => .returned value env
      | .stuck v => .stuck v

def eval (p : Program) (env : Env) : Outcome := evalInstrs p.instrs env

/-- What follows the first return has no part in a run. -/
theorem evalInstrs_throughReturn (is : List Instr) (env : Env) :
    evalInstrs (throughReturn is) env = evalInstrs is env := by
  induction is generalizing env with
  | nil => rfl
  | cons i rest ih =>
      rw [throughReturn]
      split
      · next hret =>
          cases i with
          | ret value =>
              simp only [evalInstrs, Instr.effect]
              cases value.eval env <;> rfl
          | mov dst src => cases hret
          | binary op dst lhs rhs => cases hret
      · simp only [evalInstrs, ih]

end Program

end StraightLine
