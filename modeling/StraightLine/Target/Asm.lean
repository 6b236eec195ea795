import StraightLine.Instr
import StraightLine.Target.Register

/-!
# Emitted instructions

The part of a 32-bit register machine that straight-line arithmetic needs: load a word, copy, add a
word, apply an operator to two registers, and move a word between a register and the stack.
-/

namespace StraightLine

/-- An emitted instruction. The destination comes first, except that a store names its source. -/
inductive Asm where
  | li (rd : Reg) (value : Int32)
  | mv (rd rs : Reg)
  | addi (rd rs : Reg) (value : Int32)
  | arith (op : Operator) (rd rs₁ rs₂ : Reg)
  | lw (rd : Reg) (offset : Nat) (base : Reg)
  | sw (rs : Reg) (offset : Nat) (base : Reg)
deriving DecidableEq

def Operator.mnemonic : Operator → String
  | .add => "add"
  | .sub => "sub"
  | .mul => "mul"

namespace Asm

def reload (r : PoolReg) (offset : Nat) : Asm := .lw (.pool r) offset .sp

def spill (r : PoolReg) (offset : Nat) : Asm := .sw (.pool r) offset .sp

def adjustSp (delta : Int32) : Asm := .addi .sp .sp delta

/-- Whether the instruction works on three registers, so that no operand is a word given on the spot. -/
def isThreeRegister : Asm → Bool
  | .arith .. => true
  | _ => false

def registers : Asm → List Reg
  | .li rd _ => [rd]
  | .mv rd rs => [rd, rs]
  | .addi rd rs _ => [rd, rs]
  | .arith _ rd rs₁ rs₂ => [rd, rs₁, rs₂]
  | .lw rd _ base => [rd, base]
  | .sw rs _ base => [rs, base]

def isNamed (i : Asm) : Bool := i.registers.all Reg.isNamed

def text : Asm → String
  | .li rd value => "li " ++ rd.name ++ ", " ++ Text.word value
  | .mv rd rs => "mv " ++ rd.name ++ ", " ++ rs.name
  | .addi rd rs value => "addi " ++ rd.name ++ ", " ++ rs.name ++ ", " ++ Text.word value
  | .arith op rd rs₁ rs₂ =>
      op.mnemonic ++ " " ++ rd.name ++ ", " ++ rs₁.name ++ ", " ++ rs₂.name
  | .lw rd offset base =>
      "lw " ++ rd.name ++ ", " ++ Text.natural offset ++ "(" ++ base.name ++ ")"
  | .sw rs offset base =>
      "sw " ++ rs.name ++ ", " ++ Text.natural offset ++ "(" ++ base.name ++ ")"

end Asm

end StraightLine
