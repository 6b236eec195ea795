import StraightLine.Instr

/-!
# Programs

A program is a list of instructions that run one after the other up to the first return. What stands
after it is never reached: `reachable` keeps the instructions up to and including the first return.
-/

namespace StraightLine

structure Program where
  instrs : List Instr
deriving DecidableEq

namespace Program

def size (p : Program) : Nat := p.instrs.length

/-- Every variable that the program assigns or reads, in ascending order. -/
def vars (p : Program) : List Var := Var.sorted (p.instrs.flatMap Instr.occurrences)

/-- The program as the reader accepts it, one instruction a line. -/
def text (p : Program) : String := String.join (p.instrs.map fun i => i.text ++ "\n")

/-- The instructions as equations, numbered from zero. -/
def numbered (p : Program) : String :=
  String.join (p.instrs.zipIdx.map fun (i, index) =>
    Text.padded 4 index ++ ": " ++ i.equation ++ "\n")

/-- The instructions up to and including the first return. -/
def throughReturn : List Instr → List Instr
  | [] => []
  | i :: rest => if i.isReturn then [i] else i :: throughReturn rest

def reachable (p : Program) : List Instr := throughReturn p.instrs

def unreachable (p : Program) : Nat := p.size - p.reachable.length

theorem mem_vars {p : Program} {v : Var} :
    v ∈ p.vars ↔ ∃ i ∈ p.instrs, v ∈ i.occurrences := by
  simp [vars]

/-- The instructions up to the first return are an initial part of the program. -/
theorem exists_eq_throughReturn_append (is : List Instr) : ∃ tail, is = throughReturn is ++ tail := by
  induction is with
  | nil => exact ⟨[], rfl⟩
  | cons i rest ih =>
      rw [throughReturn]
      split
      · exact ⟨rest, rfl⟩
      · obtain ⟨tail, htail⟩ := ih
        exact ⟨tail, by rw [List.cons_append, ← htail]⟩

end Program

end StraightLine
