import StraightLine.Failure
import StraightLine.Program.Basic
import StraightLine.Table

/-!
# Pending reads

How many reads of each variable are still to come. The counts are taken once over a program, where an
assignment alone counts no read but makes the variable known, and then go down as operands are consumed.
A variable whose count is zero is dead: nothing reads it any more. Asking about a variable that was
never counted, and consuming a read that is not pending, are errors.
-/

namespace StraightLine

/-- The number of reads to come for each known variable. -/
structure PendingReads where
  counts : Table Var Nat

namespace PendingReads

/-- The counts of a list of pairs, where a later pair replaces an earlier one of the same variable. -/
def ofList (counts : List (Var × Nat)) : PendingReads := ⟨Table.ofList counts⟩

def note (p : PendingReads) (v : Var) : PendingReads :=
  ⟨p.counts.put v ((p.counts.get? v).getD 0)⟩

def addRead (p : PendingReads) (v : Var) : PendingReads :=
  ⟨p.counts.put v ((p.counts.get? v).getD 0 + 1)⟩

def addInstr (p : PendingReads) (i : Instr) : PendingReads :=
  i.uses.foldl addRead (i.dst?.toList.foldl note p)

def ofProgram (p : Program) : PendingReads := p.instrs.foldl addInstr ⟨Table.empty⟩

def size (p : PendingReads) : Nat := p.counts.size

/-- The number of reads to come, if the variable is known. -/
def remaining? (p : PendingReads) (v : Var) : Option Nat := p.counts.get? v

def remaining (p : PendingReads) (v : Var) : Except Failure Nat :=
  match p.remaining? v with
  | some n => .ok n
  | none => .error (.reported (.unknownUsage v))

def isDead (p : PendingReads) (v : Var) : Except Failure Bool :=
  match p.remaining? v with
  | some n => .ok (n = 0)
  | none => .error (.reported (.unknownUsage v))

def consume (p : PendingReads) (v : Var) : Except Failure PendingReads :=
  match p.remaining? v with
  | some (n + 1) => .ok ⟨p.counts.put v n⟩
  | _ => .error (.reported (.unknownUsage v))

/-- The variables that no read is counted for, in ascending order. -/
def neverRead (p : PendingReads) : List Var :=
  Var.sorted ((p.counts.entries.filter fun e => e.2 = 0).map Prod.fst)

theorem remaining?_note (p : PendingReads) (v w : Var) :
    (p.note v).remaining? w = if w = v then some ((p.remaining? v).getD 0) else p.remaining? w :=
  Table.get?_put ..

theorem remaining?_addRead (p : PendingReads) (v w : Var) :
    (p.addRead v).remaining? w =
      if w = v then some ((p.remaining? v).getD 0 + 1) else p.remaining? w :=
  Table.get?_put ..

/-- The variables never read are the known ones whose count is zero. -/
theorem mem_neverRead {p : PendingReads} {v : Var} : v ∈ p.neverRead ↔ p.remaining? v = some 0 := by
  rw [neverRead, Var.mem_sorted, List.mem_map, remaining?, ← Table.mem_entries_iff]
  constructor
  · rintro ⟨⟨w, n⟩, hmem, rfl⟩
    obtain ⟨hentry, hzero⟩ := List.mem_filter.1 hmem
    simp only [decide_eq_true_eq] at hzero
    subst hzero
    exact hentry
  · exact fun h => ⟨(v, 0), List.mem_filter.2 ⟨h, by simp⟩, rfl⟩

end PendingReads

end StraightLine
