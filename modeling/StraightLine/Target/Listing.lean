import StraightLine.Failure
import StraightLine.Target.Asm

/-!
# Listings

A listing is the emitted program as lines: directives as they are, instructions indented, and after an
instruction possibly the text of what it carries out. A listing can be written only when every register
in it has a name.
-/

namespace StraightLine

inductive Line where
  | directive (text : String)
  | code (instr : Asm) (comment : Option String)
deriving DecidableEq

namespace Line

/-- An instruction that carries out nothing of the program itself: spill, reload and frame code. -/
def plain (instr : Asm) : Line := .code instr none

/-- An instruction with the text of what it carries out. -/
def commented (instr : Asm) (comment : String) : Line := .code instr (some comment)

/-- The instruction of a line, unless it is a directive. -/
def instr? : Line → Option Asm
  | .directive _ => none
  | .code instr _ => some instr

def isNamed (l : Line) : Bool := l.instr?.all Asm.isNamed

def text : Line → String
  | .directive text => text
  | .code instr none => "    " ++ instr.text
  | .code instr (some comment) => "    " ++ instr.text ++ "        #  " ++ comment

end Line

structure Listing where
  lines : List Line := []
deriving DecidableEq

namespace Listing

/-- The number of lines, directives included. -/
def size (l : Listing) : Nat := l.lines.length

def push (l : Listing) (line : Line) : Listing := ⟨l.lines ++ [line]⟩

/-- Put a line in front of the one at a position; the end is a position too. -/
def insert (l : Listing) (index : Nat) (line : Line) : Except Trap Listing :=
  if index ≤ l.size then .ok ⟨l.lines.take index ++ line :: l.lines.drop index⟩
  else .error .insertPastEnd

def instrs (l : Listing) : List Asm := l.lines.filterMap Line.instr?

/-- The instruction of the last line, unless it is a directive. -/
def lastInstr? (l : Listing) : Option Asm := l.lines.getLast?.bind Line.instr?

def isNamed (l : Listing) : Bool := l.lines.all Line.isNamed

/-- The text of a listing, without a line break at the end. -/
def text (l : Listing) : String := "\n".intercalate (l.lines.map Line.text)

/-- The text of a listing whose registers all have names. -/
def write (l : Listing) : Except Trap String :=
  if l.isNamed then .ok l.text else .error .unnamedRegister

end Listing

end StraightLine
