import StraightLine.NormalForm.TempSupply
import StraightLine.Program.Basic

/-!
# Normal form

Every instruction of a program in normal form has an emitted instruction of its own. An operator on two
words is computed on the spot. A word on the left of a sum moves to the right. A word that no emitted
instruction can hold, on the left of a difference, as a factor, or too wide for an added word, is first
moved to a temporary. Nothing follows the first return.

A `Normalizer` is a session that puts one program after the other in normal form; each run starts its
supply of temporaries anew.
-/

namespace StraightLine

/-- The range of words that an emitted addition can hold. -/
def isShort (i : Int) : Bool := -2048 ≤ i && i ≤ 2047

/-- Whether the emitted form of an operator with a word on its right can hold the word. A difference is
emitted as the addition of the opposite word, and there is no such form for a product. -/
def Operator.holds : Operator → Int32 → Bool
  | .add, value => isShort value.toInt
  | .sub, value => isShort (-value.toInt)
  | .mul, _ => false

namespace NormalForm

/-- Move a word to a fresh temporary and use it. -/
def viaTemp (value : Int32) (use : Var → Instr) (s : TempSupply) : List Instr × TempSupply :=
  let (temp, s) := s.fresh
  ([.mov temp (.imm value), use temp], s)

/-- An operator with a word on its right, kept there if the word fits or may be left too wide. -/
def withWord (legalize : Bool) (op : Operator) (dst v : Var) (value : Int32) (s : TempSupply) :
    List Instr × TempSupply :=
  if op.holds value || !legalize then ([.binary op dst (.var v) (.imm value)], s)
  else viaTemp value (fun temp => .binary op dst (.var v) (.var temp)) s

def ofBinary (legalize : Bool) (op : Operator) (dst : Var) (lhs rhs : Operand) (s : TempSupply) :
    List Instr × TempSupply :=
  match lhs, rhs with
  | .imm a, .imm b => ([.mov dst (.imm (op.apply a b))], s)
  | .imm a, .var w =>
      if op = .add then withWord legalize op dst w a s
      else viaTemp a (fun temp => .binary op dst (.var temp) (.var w)) s
  | .var v, .imm b =>
      if op = .mul then viaTemp b (fun temp => .binary op dst (.var v) (.var temp)) s
      else withWord legalize op dst v b s
  | .var v, .var w => ([.binary op dst (.var v) (.var w)], s)

def ofInstr (legalize : Bool) (i : Instr) (s : TempSupply) : List Instr × TempSupply :=
  match i with
  | .binary op dst lhs rhs => ofBinary legalize op dst lhs rhs s
  | _ => ([i], s)

def ofInstrs (legalize : Bool) : List Instr → TempSupply → List Instr × TempSupply
  | [], s => ([], s)
  | i :: rest, s =>
      let (head, s) := ofInstr legalize i s
      let (tail, s) := ofInstrs legalize rest s
      (head ++ tail, s)

end NormalForm

structure Normalizer where
  legalize : Bool := true
  supply : TempSupply := .avoiding []
  discarded : Nat := 0

namespace Normalizer

/-- Put a program in normal form. The temporaries avoid every variable of the whole program. Afterwards
`discarded` is the number of instructions that stood behind the first return. -/
def run (n : Normalizer) (p : Program) : Program × Normalizer :=
  let (instrs, supply) := NormalForm.ofInstrs n.legalize p.reachable (.avoiding p.vars)
  (⟨instrs⟩, { n with supply, discarded := p.unreachable })

end Normalizer

namespace Program

def normalForm (legalize : Bool) (p : Program) : Program :=
  (Normalizer.run { legalize } p).1

end Program

end StraightLine
