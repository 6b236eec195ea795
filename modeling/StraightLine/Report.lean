import StraightLine.Allocator.Basic
import StraightLine.Program.Basic
import StraightLine.Target.Listing

/-!
# Reports

Programs and listings set out for people: a title between heavy rules, the text, and for a listing what
it cost.
-/

namespace StraightLine.Report

def width : Nat := 59

/-- The line that sets off a title and ends a report. -/
def heavyRule : String := String.ofList (List.replicate width '═')

def lightRule : String := String.ofList (List.replicate width '─')

def ended (lines : List String) : String := String.join (lines.map (· ++ "\n"))

def title (text : String) : List String := [heavyRule, text, heavyRule]

def names (vs : List Var) : String := ", ".intercalate (vs.map Var.name)

/-- A program with its variables, as numbered equations. -/
def program (p : Program) : String :=
  ended (title "                    IR DUMP" ++ ["Variables: " ++ names p.vars, lightRule]) ++
    p.numbered ++ ended [heavyRule, ""]

def costs (s : Stats) : String :=
  "Stores: " ++ Text.natural s.stores ++ "  Reloads: " ++ Text.natural s.reloads ++ "  Frame: " ++
    Text.natural s.frameSize ++ " bytes"

def listing (l : Listing) (s : Stats) : String :=
  ended (title "                  ASSEMBLY LISTING" ++ [l.text, lightRule, costs s] ++
    (if s.spilled.isEmpty then [] else ["Spilled: " ++ names s.spilled]) ++ [heavyRule, ""])

end StraightLine.Report
