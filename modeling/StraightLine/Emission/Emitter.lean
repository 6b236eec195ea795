import StraightLine.Emission.Body
import StraightLine.Emission.Frame
import StraightLine.NormalForm.Basic
import StraightLine.Options.Basic

/-!
# Emitting programs

An emitter is a session that turns one program after the other into listings under fixed options. It
keeps the listing it is working on, so a failed run leaves a part of one behind; the next run starts
from an empty listing again. A run tells its events whether or not it succeeds.
-/

namespace StraightLine

structure Narrated (α : Type) where
  events : List Event
  outcome : Except Failure α

structure Lowered where
  listing : Listing
  stats : Stats

structure Generated where
  listing : Listing
  normalized : Program
  stats : Stats
  discarded : Nat
  neverRead : List Var

structure Emitter where
  options : Options
  draft : Listing := {}

namespace Program

def endsInReturn (p : Program) : Bool := p.instrs.getLast?.any Instr.isReturn

end Program

namespace Emitter

/-- Put the frame around a finished body and count the costs. -/
def finish (draft : Listing) (a : Allocator) (returns : Bool) : Except Failure Lowered := do
  let size ← a.frameSize
  let listing ←
    match draft.withFrame size returns with
    | .ok listing => .ok listing
    | .error trap => .error (.trapped trap)
  let stats ← a.stats
  return ⟨listing, stats⟩

def closing (l : Lowered) : Event :=
  .emitted l.listing.size l.stats.stores l.stats.reloads l.stats.frameSize

/-- Emit the instructions of a program with a given count of its reads. -/
def lowerWith (e : Emitter) (p : Program) (pending : PendingReads) : Narrated Lowered × Emitter :=
  let opening := [Event.counted pending.size]
  match Allocator.create e.options.poolSize.toNat e.options.slotSize.toNat pending with
  | .error f => (⟨opening, .error f⟩, e)
  | .ok a =>
      let body := Body.emit (.ret e.options.returnRegister) 0 p.instrs
        (a.withAlignment e.options.alignment.toNat)
      let draft : Listing := ⟨.directive e.options.sectionDirective :: body.lines⟩
      let events := opening ++ body.allocator.journal
      match body.outcome with
      | .error f => (⟨events, .error f⟩, { e with draft })
      | .ok () =>
          match finish draft body.allocator p.endsInReturn with
          | .error f => (⟨events, .error f⟩, { e with draft })
          | .ok lowered => (⟨events ++ [closing lowered], .ok lowered⟩, { e with draft := {} })

/-- Emit a program that is in normal form. -/
def lower (e : Emitter) (p : Program) : Narrated Lowered × Emitter :=
  e.lowerWith p (.ofProgram p)

/-- Put a program in normal form and emit it. -/
def generate (e : Emitter) (p : Program) : Narrated Generated × Emitter :=
  let (normalized, normalizer) := Normalizer.run { legalize := e.options.legalize } p
  let pending := PendingReads.ofProgram normalized
  let (run, e) := e.lowerWith normalized pending
  let outcome := run.outcome.map fun lowered =>
    { listing := lowered.listing
      normalized
      stats := lowered.stats
      discarded := normalizer.discarded
      neverRead := pending.neverRead }
  (⟨.normalized p.size normalized.size normalizer.discarded :: run.events, outcome⟩, e)

end Emitter

end StraightLine
