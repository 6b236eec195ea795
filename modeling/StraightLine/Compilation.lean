import StraightLine.Emission.Emitter
import StraightLine.Program.Reader

/-!
# Compiling

A compilation checks its options, puts the program in normal form, emits it, and warns about what the
program holds in vain. Program text is read before the options are checked.
-/

namespace StraightLine

/-- The release of this compiler. -/
def version : String := "0.1.0"

structure Compilation where
  listing : Listing
  normalized : Program
  stats : Stats
  instrCount : Nat
  normalizedCount : Nat
  asmCount : Nat
  warnings : List Warning

namespace Compilation

/-- The warnings about a program: instructions out of reach first, then values that are never read. -/
def warningsOf (discarded : Nat) (neverRead : List Var) : List Warning :=
  (if discarded = 0 then [] else [.unreachable discarded]) ++ neverRead.map .neverRead

/-- The compilation of a program of some size from its emitted normal form. -/
def ofGenerated (size : Nat) (g : Generated) : Compilation where
  listing := g.listing
  normalized := g.normalized
  stats := g.stats
  instrCount := size
  normalizedCount := g.normalized.size
  asmCount := g.listing.instrs.length
  warnings := warningsOf g.discarded g.neverRead

end Compilation

namespace Options

def compile (o : Options) (p : Program) : Narrated Compilation :=
  match o.validate with
  | .error fault => ⟨[], .error (.reported (.invalidOptions fault))⟩
  | .ok () =>
      let (run, _) := Emitter.generate { options := o } p
      match run.outcome with
      | .error f => ⟨run.events, .error f⟩
      | .ok generated =>
          let compilation := Compilation.ofGenerated p.size generated
          ⟨run.events ++ compilation.warnings.map .warned, .ok compilation⟩

def compileText (o : Options) (source : String) : Narrated Compilation :=
  match Program.read source with
  | .error e => ⟨[], .error (.reported e)⟩
  | .ok p => o.compile p

end Options

end StraightLine
