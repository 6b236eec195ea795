import StraightLine.Instr
import StraightLine.Target.Register

/-!
# Failures

An operation fails for a reason that is reported to the caller, an `Error`, or because a number leaves
its word or a register has no name, a `Trap`, which stops the operation without a report. Every error
is a cause with its data, and `Error.message` is the one place that words it.
-/

namespace StraightLine

inductive LineFault where
  | unparenthesized (text : String)
  | arity (opcode : String) (expected got : Nat)
  | unknownOpcode (opcode : String)
  | invalidOperand (text : String)
deriving DecidableEq

namespace LineFault

def message : LineFault → String
  | .unparenthesized text => "expected `(OP, ...)`, got `" ++ text ++ "`"
  | .arity opcode expected got =>
      opcode ++ " takes " ++ Text.natural expected ++ " operand(s), got " ++ Text.natural got
  | .unknownOpcode opcode => "unknown opcode `" ++ opcode ++ "`"
  | .invalidOperand text => "invalid operand `" ++ text ++ "`"

end LineFault

/-- A word given on the spot where an instruction needs a variable. -/
inductive Misplacement where
  | destination (value : Int32)
  | leftOperand (i : Instr)
  | factor (i : Instr)
deriving DecidableEq

namespace Misplacement

def message : Misplacement → String
  | .destination value => "destination `" ++ Text.word value ++ "` is an immediate"
  | .leftOperand i => "immediate left operand in " ++ i.text
  | .factor i => "immediate multiply operand in " ++ i.text

end Misplacement

inductive OptionsFault where
  | unreadable
  | poolSize (got : Nat)
  | slotSize (got : Nat)
  | alignment (slotSize got : Nat)
  | returnRegister (name : String)
  | allocatorPool (got : Nat)
  | zeroSlot
deriving DecidableEq

/-- The fewest registers that can hold the operands of one instruction. -/
def minPoolSize : Nat := 3

namespace OptionsFault

def message : OptionsFault → String
  | .unreadable => "not a record of options"
  | .poolSize got =>
      "register_pool_size must be in " ++ Text.natural minPoolSize ++ "..=" ++
        Text.natural PoolReg.count ++ ", got " ++ Text.natural got
  | .slotSize got =>
      "spill_slot_size must be a non-zero multiple of 4, got " ++ Text.natural got
  | .alignment slot got =>
      "stack_alignment must be a power of two and a multiple of " ++ Text.natural slot ++
        ", got " ++ Text.natural got
  | .returnRegister name => "return_register " ++ name ++ " overlaps the allocatable pool"
  | .allocatorPool got =>
      "register pool size must be between 1 and " ++ Text.natural PoolReg.count ++ ", got " ++
        Text.natural got
  | .zeroSlot => "spill slot size must be non-zero"

end OptionsFault

/-- A reported failure. Lines count from one and instructions from zero. -/
inductive Error where
  | malformed (index : Nat) (cause : Misplacement)
  | noEvictableRegister (poolSize : Nat) (excluded : List PoolReg)
  | unknownUsage (v : Var)
  | unreadable (line : Nat) (cause : LineFault)
  | invalidOptions (cause : OptionsFault)
deriving DecidableEq

namespace Error

def message : Error → String
  | .malformed index cause =>
      "Malformed instruction #" ++ Text.natural index ++ ": " ++ cause.message
  | .noEvictableRegister poolSize excluded =>
      "No evictable register: pool of " ++ Text.natural poolSize ++ " fully excluded (" ++
        ", ".intercalate (excluded.map PoolReg.name) ++ ")"
  | .unknownUsage v => "Unknown usage for variable " ++ v.name
  | .unreadable line cause =>
      "IR parse error at line " ++ Text.natural line ++ ": " ++ cause.message
  | .invalidOptions cause => "Invalid options: " ++ cause.message

end Error

/-- A failure without a report. -/
inductive Trap where
  /-- The bytes of the spill area no longer fit a word. -/
  | depthOverflow
  /-- The aligned size of the spill area does not fit a word. -/
  | frameOverflow
  /-- The frame is as large as the most negative word, which has no opposite. -/
  | frameNegation
  /-- A register beyond the named ones has to be written. -/
  | unnamedRegister
  /-- A line is inserted beyond the end of a listing. -/
  | insertPastEnd
deriving DecidableEq

inductive Failure where
  | reported (error : Error)
  | trapped (trap : Trap)
deriving DecidableEq

end StraightLine
