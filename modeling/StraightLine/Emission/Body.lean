import StraightLine.Emission.Select
import StraightLine.Target.Listing

/-!
# The body of a listing

The instructions of a program are emitted one after the other. Spill code that an instruction made
necessary stands right in front of it, and the instruction itself carries the text of what it came from.
A failure ends the body; what was emitted before it is kept.
-/

namespace StraightLine

/-- The lines emitted for some instructions, the allocator after them, and whether all went well. -/
structure Body where
  lines : List Line
  allocator : Allocator
  outcome : Except Failure Unit

namespace Body

/-- The lines for one instruction: the waiting spill code, then the instruction. -/
def chunk (queue : List Asm) (asm : Asm) (i : Instr) : List Line :=
  queue.map Line.plain ++ [Line.commented asm i.text]

/-- The body for instructions, the first of which has a given place in the program. -/
def emit (ret : Reg) : Nat → List Instr → Allocator → Body
  | _, [], a => ⟨[], a, .ok ()⟩
  | index, i :: rest, a =>
      match (Allocation.select ret index i).run a with
      | (.error f, a) => ⟨[], a, .error f⟩
      | (.ok asm, a) =>
          let (queue, a) := a.drain
          let tail := emit ret (index + 1) rest a
          { tail with lines := chunk queue asm i ++ tail.lines }

end Body

end StraightLine
