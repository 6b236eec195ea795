import StraightLine.Instr
import StraightLine.Json.Basic
import StraightLine.Target.Register

/-!
# Events and warnings

What a run tells beside its result. Every decision of the register allocator, every spill and reload and
every stage of a compilation is an event, in the order in which it happened; warnings about the source
program come last.
-/

namespace StraightLine

/-- A remark about a program that compiles. -/
inductive Warning where
  /-- Instructions stand behind the first return. -/
  | unreachable (count : Nat)
  /-- A variable is assigned and never read. -/
  | neverRead (v : Var)
deriving DecidableEq

def Warning.message : Warning → String
  | .unreachable count =>
      Text.natural count ++ " unreachable instruction(s) after RET discarded"
  | .neverRead v => "value of " ++ v.name ++ " is never read"

/-- How a register was found without a spill. -/
inductive Find where
  | resident
  | free
  | retired
deriving DecidableEq

def Find.message : Find → String
  | .resident => "resident"
  | .free => "free register"
  | .retired => "reusing retired register"

inductive Event where
  | found (how : Find) (v : Var) (r : PoolReg)
  | spill (v : Var) (r : PoolReg) (offset : Nat)
  | reload (v : Var) (r : PoolReg) (offset : Nat)
  | normalized (input output discarded : Nat)
  | counted (count : Nat)
  | emitted (lines stores reloads frame : Nat)
  | warned (warning : Warning)
deriving DecidableEq

namespace Event

def level : Event → String
  | .found .. => "TRACE"
  | .warned _ => "WARN"
  | _ => "DEBUG"

def message : Event → String
  | .found how _ _ => how.message
  | .spill .. => "spill"
  | .reload .. => "reload"
  | .normalized .. => "normalized IR"
  | .counted _ => "usage counted"
  | .emitted .. => "emitted listing"
  | .warned warning => warning.message

def fields : Event → List (String × Json)
  | .found _ v r => [("var", .ofText v.name), ("reg", .ofText r.name)]
  | .spill v r offset | .reload v r offset =>
      [("var", .ofText v.name), ("reg", .ofText r.name), ("offset", .ofNat offset)]
  | .normalized input output discarded =>
      [("input", .ofNat input), ("output", .ofNat output), ("discarded", .ofNat discarded)]
  | .counted count => [("variables", .ofNat count)]
  | .emitted lines stores reloads frame =>
      [("lines", .ofNat lines), ("stores", .ofNat stores), ("reloads", .ofNat reloads),
        ("frame", .ofNat frame)]
  | .warned _ => []

def toJson (e : Event) : Json :=
  .record ([("level", .ofText e.level), ("message", .ofText e.message)] ++ e.fields)

end Event

end StraightLine
