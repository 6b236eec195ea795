import StraightLine.Json.Reader
import StraightLine.Json.Record
import StraightLine.Program.Basic

/-!
# Programs as JSON

A program is a record with one field, the list of its instructions. Instructions and operands are tagged
by their kind, and the fields of an instruction are written in declared order. What is written is read
back; the reader also takes fields in any order and records given as arrays.
-/

namespace StraightLine

namespace Operator

def tag : Operator → String
  | .add => "Add"
  | .sub => "Sub"
  | .mul => "Mul"

def ofTag? (name : String) : Option Operator :=
  if name = "Add" then some .add
  else if name = "Sub" then some .sub
  else if name = "Mul" then some .mul
  else none

def toJson (op : Operator) : Json := .ofText op.tag

def ofJson? (j : Json) : Option Operator := j.tag?.bind ofTag?

end Operator

namespace Var

def toJson (v : Var) : Json := .ofText v.name

def ofJson? (j : Json) : Option Var := j.text?.map Var.mk

end Var

namespace Operand

def toJson : Operand → Json
  | .var v => .record [("Var", v.toJson)]
  | .imm value => .record [("Imm", .ofInt value.toInt)]

def ofJson? (j : Json) : Option Operand := do
  let (kind, content) ← j.tagged?
  if kind = "Var" then (Var.ofJson? content).map .var
  else if kind = "Imm" then content.word?.map .imm
  else none

end Operand

namespace Instr

def toJson : Instr → Json
  | .mov dst src => .record [("Mov", .record [("dst", dst.toJson), ("src", src.toJson)])]
  | .binary op dst lhs rhs =>
      .record [("Binary", .record
        [("op", op.toJson), ("dst", dst.toJson), ("lhs", lhs.toJson), ("rhs", rhs.toJson)])]
  | .ret value => .record [("Ret", value.toJson)]

def ofJson? (j : Json) : Option Instr := do
  let (kind, content) ← j.tagged?
  if kind = "Mov" then
    let given ← content.record? ["dst", "src"]
    let dst ← (given.lookup "dst").bind Var.ofJson?
    let src ← (given.lookup "src").bind Operand.ofJson?
    return .mov dst src
  else if kind = "Binary" then
    let given ← content.record? ["op", "dst", "lhs", "rhs"]
    let op ← (given.lookup "op").bind Operator.ofJson?
    let dst ← (given.lookup "dst").bind Var.ofJson?
    let lhs ← (given.lookup "lhs").bind Operand.ofJson?
    let rhs ← (given.lookup "rhs").bind Operand.ofJson?
    return .binary op dst lhs rhs
  else if kind = "Ret" then (Operand.ofJson? content).map .ret
  else none

end Instr

namespace Program

def toJson (p : Program) : Json := .record [("instructions", .array (p.instrs.map Instr.toJson))]

def ofJson? (j : Json) : Option Program := do
  let given ← j.record? ["instructions"]
  let items ← (given.lookup "instructions").bind Json.items?
  let instrs ← items.mapM Instr.ofJson?
  return ⟨instrs⟩

def readJson? (source : String) : Option Program := (Json.read? source.toList).bind ofJson?

end Program

end StraightLine
