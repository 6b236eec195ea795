/-!
# Registers

The allocator hands out registers of a pool, known by their place in it. The pool has eighteen named
registers; a place beyond the last is a register without a name. An instruction can also name the stack
pointer and the register that holds the returned word, whose name is chosen by the caller.
-/

namespace StraightLine

/-- A register of the pool, by its place. -/
structure PoolReg where
  index : Nat
deriving DecidableEq

namespace PoolReg

/-- The names of the pool, in the order of their places: temporaries first, then saved registers. -/
def names : List String :=
  ["t0", "t1", "t2", "t3", "t4", "t5", "t6", "s1", "s2", "s3", "s4", "s5", "s6", "s7", "s8", "s9",
    "s10", "s11"]

def count : Nat := names.length

def isNamed (r : PoolReg) : Bool := r.index < count

/-- The name of the register, empty beyond the last named one. -/
def name (r : PoolReg) : String := names.getD r.index ""

/-- Named registers are told apart by their names. -/
theorem name_injective {r s : PoolReg} (hr : r.isNamed = true) (hs : s.isNamed = true)
    (h : r.name = s.name) : r = s := by
  have hall : ∀ i < 18, ∀ j < 18, names.getD i "" = names.getD j "" → i = j := by decide
  rcases r with ⟨i⟩
  rcases s with ⟨j⟩
  exact congrArg PoolReg.mk (hall i (of_decide_eq_true hr) j (of_decide_eq_true hs) h)

end PoolReg

/-- A register operand of an emitted instruction. -/
inductive Reg where
  | sp
  | ret (name : String)
  | pool (r : PoolReg)
deriving DecidableEq

namespace Reg

/-- Whether the register can be written in a listing. -/
def isNamed : Reg → Bool
  | .pool r => r.isNamed
  | _ => true

def name : Reg → String
  | .sp => "sp"
  | .ret name => name
  | .pool r => r.name

end Reg

end StraightLine
