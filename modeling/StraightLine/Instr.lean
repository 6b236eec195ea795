import StraightLine.Text.Decimal
import StraightLine.Variable

/-!
# Instructions

An instruction of a straight-line program assigns a word to a variable, by a move or by an operator on
two operands, or returns a word. Arithmetic wraps at 32 bits. An instruction is written in two ways:
in the form that the reader accepts, with the opcode first, and as an equation for people.
-/

namespace StraightLine

inductive Operator where
  | add
  | sub
  | mul
deriving DecidableEq

namespace Operator

/-- The value of an operator, modulo `2 ^ 32`. -/
def apply : Operator → Int32 → Int32 → Int32
  | .add, a, b => a + b
  | .sub, a, b => a - b
  | .mul, a, b => a * b

def opcode : Operator → String
  | .add => "ADD"
  | .sub => "SUB"
  | .mul => "MUL"

def symbol : Operator → String
  | .add => "+"
  | .sub => "-"
  | .mul => "*"

end Operator

/-- An operand: the value of a variable, or a word given on the spot. -/
inductive Operand where
  | var (v : Var)
  | imm (value : Int32)
deriving DecidableEq

namespace Operand

def var? : Operand → Option Var
  | .var v => some v
  | .imm _ => none

/-- The word that the operand gives on the spot. -/
def imm? : Operand → Option Int32
  | .var _ => none
  | .imm value => some value

def text : Operand → String
  | .var v => v.name
  | .imm value => Text.word value

end Operand

inductive Instr where
  | mov (dst : Var) (src : Operand)
  | binary (op : Operator) (dst : Var) (lhs rhs : Operand)
  | ret (value : Operand)
deriving DecidableEq

namespace Instr

def dst? : Instr → Option Var
  | .mov dst _ => some dst
  | .binary _ dst _ _ => some dst
  | .ret _ => none

/-- The operands in the order of evaluation. -/
def operands : Instr → List Operand
  | .mov _ src => [src]
  | .binary _ _ lhs rhs => [lhs, rhs]
  | .ret value => [value]

/-- The variables that the instruction reads, once for each read. -/
def uses (i : Instr) : List Var := i.operands.filterMap Operand.var?

def occurrences (i : Instr) : List Var := i.dst?.toList ++ i.uses

def isReturn : Instr → Bool
  | .ret _ => true
  | _ => false

def text : Instr → String
  | .mov dst src => "(MOV, " ++ dst.name ++ ", " ++ src.text ++ ")"
  | .binary op dst lhs rhs =>
      "(" ++ op.opcode ++ ", " ++ dst.name ++ ", " ++ lhs.text ++ ", " ++ rhs.text ++ ")"
  | .ret value => "(RET, " ++ value.text ++ ")"

def equation : Instr → String
  | .mov dst src => dst.name ++ " = " ++ src.text
  | .binary op dst lhs rhs =>
      dst.name ++ " = " ++ lhs.text ++ " " ++ op.symbol ++ " " ++ rhs.text
  | .ret value => "return " ++ value.text

theorem mem_uses {i : Instr} {v : Var} : v ∈ i.uses ↔ .var v ∈ i.operands := by
  simp only [uses, List.mem_filterMap]
  constructor
  · rintro ⟨operand, hmem, hvar⟩
    cases operand with
    | var w => cases hvar; exact hmem
    | imm value => cases hvar
  · exact fun h => ⟨.var v, h, rfl⟩

end Instr

end StraightLine
