import StraightLine.Allocator.Acquire
import StraightLine.Allocator.Basic
import StraightLine.Bijection
import StraightLine.Compilation
import StraightLine.Emission.Body
import StraightLine.Emission.Emitter
import StraightLine.Emission.Frame
import StraightLine.Emission.Select
import StraightLine.Event
import StraightLine.Failure
import StraightLine.Instr
import StraightLine.Json.Basic
import StraightLine.Json.Escape
import StraightLine.Json.Reader
import StraightLine.Json.Record
import StraightLine.NormalForm.Basic
import StraightLine.NormalForm.TempSupply
import StraightLine.Options.Basic
import StraightLine.Options.Json
import StraightLine.PendingReads
import StraightLine.Program.Basic
import StraightLine.Program.Json
import StraightLine.Program.Reader
import StraightLine.Report
import StraightLine.Semantics.Evaluator
import StraightLine.Semantics.Machine
import StraightLine.Table
import StraightLine.Target.Asm
import StraightLine.Target.Listing
import StraightLine.Target.Register
import StraightLine.Text.Blank
import StraightLine.Text.Decimal
import StraightLine.Text.Lines
import StraightLine.Variable
import StraightLine.Proofs.Allocator.Grants
import StraightLine.Proofs.Allocator.Tables
import StraightLine.Proofs.Allocator.Values
import StraightLine.Proofs.SpillRoundTrip
import StraightLine.Proofs.Allocator.Progress
import StraightLine.Proofs.Allocator.Runs
import StraightLine.Proofs.Allocator.Refusals
import StraightLine.Proofs.Allocator.Crowding
import StraightLine.Proofs.Allocator.SlotTable
import StraightLine.Proofs.Allocator.InPlace
import StraightLine.Proofs.Emission.Select
import StraightLine.Proofs.Emission.Body
import StraightLine.Proofs.Emission.Frame
import StraightLine.Proofs.Semantics.Evaluator
import StraightLine.Proofs.NormalForm
import StraightLine.Proofs.Totality
import StraightLine.Proofs.Emission.Simulation
import StraightLine.Proofs.Preservation
import StraightLine.Proofs.Encoding
import StraightLine.Proofs.StackDiscipline
import StraightLine.Proofs.Pressure
import StraightLine.Proofs.Renaming
import StraightLine.Proofs.Allocator.Lockstep
import StraightLine.Proofs.Emission.Lockstep
import StraightLine.Proofs.StackLimits
import StraightLine.Proofs.Temporaries
import StraightLine.Proofs.DeadTail
import StraightLine.Proofs.Program.Grammar
import StraightLine.Proofs.Text.Tokens
import StraightLine.Proofs.Json.Literals
import StraightLine.Proofs.Json.Reading
import StraightLine.Proofs.Program.Printing
import StraightLine.Proofs.Program.Json
import StraightLine.Proofs.Allocator.Recency
import StraightLine.Proofs.Accounting
import StraightLine.Proofs.Sessions
import StraightLine.Proofs.Normality
import StraightLine.Proofs.FreshNames
import StraightLine.Proofs.Program.FirstFault
import StraightLine.Proofs.ListingText
import StraightLine.Proofs.Json.Spelling
import StraightLine.Proofs.Options.Json
import StraightLine.Proofs.Warnings
import StraightLine.Proofs.OperandRegisters
import StraightLine.Proofs.AsmText
import StraightLine.Proofs.RegisterNames
import StraightLine.Proofs.Bijection
import StraightLine.Proofs.ReadsAhead
