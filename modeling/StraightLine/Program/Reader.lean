import StraightLine.Failure
import StraightLine.Program.Basic
import StraightLine.Text.Blank
import StraightLine.Text.Lines

/-!
# Reading programs

Program text holds one instruction a line: an opcode and its operands between parentheses, with commas
between them and blanks anywhere around them. Blank lines hold nothing. An opcode is known by its
letters in either case; an operand is a word when it reads as a numeral in range, and otherwise has to
be an identifier. The first line that is neither blank nor an instruction decides the error: a word as
destination is a malformed instruction, counted by instructions, and every other fault is reported with
the number of the line.
-/

namespace StraightLine

/-- Why a line is no instruction. -/
inductive Refusal where
  | fault (cause : LineFault)
  | immediateDestination (value : Int32)
deriving DecidableEq

/-- The error for a refused line, given the number of the line and of the instruction it would be. -/
def Refusal.locate (line index : Nat) : Refusal → Error
  | .fault cause => .unreadable line cause
  | .immediateDestination value => .malformed index (.destination value)

/-- The kinds of instructions that an opcode names. -/
inductive Opcode where
  | mov
  | binary (op : Operator)
  | ret
deriving DecidableEq

namespace Opcode

/-- The number of operands, the destination included. -/
def arity : Opcode → Nat
  | .mov => 2
  | .binary _ => 3
  | .ret => 1

/-- The opcode spelled by upper-case letters. -/
def ofName? (name : String) : Option Opcode :=
  if name = "MOV" then some .mov
  else if name = "ADD" then some (.binary .add)
  else if name = "SUB" then some (.binary .sub)
  else if name = "MUL" then some (.binary .mul)
  else if name = "RET" then some .ret
  else none

end Opcode

/-- A text with its ASCII letters in upper case. -/
def upperCase (cs : List Char) : String := String.ofList (cs.map Char.toUpper)

def Operand.read? (field : List Char) : Option Operand :=
  match Text.word? field with
  | some value => some (.imm value)
  | none => if isIdentifier field then some (.var ⟨String.ofList field⟩) else none

/-- The operand that a field spells, or the refusal of the field. -/
def Operand.read (field : List Char) : Except Refusal Operand :=
  match Operand.read? field with
  | some operand => .ok operand
  | none => .error (.fault (.invalidOperand (String.ofList field)))

/-- The destination that a field spells. -/
def Var.read (field : List Char) : Except Refusal Var :=
  match Operand.read field with
  | .ok (.var v) => .ok v
  | .ok (.imm value) => .error (.immediateDestination value)
  | .error refusal => .error refusal

namespace Instr

/-- The text between an opening and a closing parenthesis. -/
def inner? : List Char → Option (List Char)
  | '(' :: rest => if rest.getLast? = some ')' then some rest.dropLast else none
  | _ => none

/-- The instruction of an opcode and its operands. -/
def ofFields (opcode : List Char) (operands : List (List Char)) : Except Refusal Instr :=
  match Opcode.ofName? (upperCase opcode) with
  | none => .error (.fault (.unknownOpcode (upperCase opcode)))
  | some code =>
      match code, operands with
      | .mov, [dst, src] => do
          let dst ← Var.read dst
          let src ← Operand.read src
          return .mov dst src
      | .binary op, [dst, lhs, rhs] => do
          let dst ← Var.read dst
          let lhs ← Operand.read lhs
          let rhs ← Operand.read rhs
          return .binary op dst lhs rhs
      | .ret, [value] => do
          let value ← Operand.read value
          return .ret value
      | _, _ =>
          .error (.fault (.arity (String.ofList opcode) code.arity operands.length))

/-- The instruction that a line spells, blanks around it taken off. -/
def read (line : List Char) : Except Refusal Instr :=
  match inner? line with
  | none => .error (.fault (.unparenthesized (String.ofList line)))
  | some inner =>
      match (Text.fields inner).map Text.trim with
      | [] => ofFields [] []
      | opcode :: operands => ofFields opcode operands

end Instr

namespace Program

/-- The instructions of lines, the first of which has a given number and would be a given instruction. -/
def readLines : Nat → Nat → List (List Char) → Except Error (List Instr)
  | _, _, [] => .ok []
  | line, index, text :: rest =>
      if (Text.trim text).isEmpty then readLines (line + 1) index rest
      else
        match Instr.read (Text.trim text) with
        | .error refusal => .error (refusal.locate line index)
        | .ok i => (readLines (line + 1) (index + 1) rest).map (i :: ·)

def read (source : String) : Except Error Program :=
  (readLines 1 0 (Text.lines source.toList)).map Program.mk

end Program

end StraightLine
