import StraightLine.Emission.Emitter

/-!
# Sessions

An emitter turns one program after the other into listings, and a normalizer puts one program after
the other in normal form. Both keep what they work on: the emitter its draft, of which a failed run
leaves a part behind, and the normalizer its supply of temporaries and the number of instructions it
dropped. This module shows that no run finds anything of the runs before it.

To say what could leak, both sessions are written out a second time as they work in place.
`Emitter.lowerInPlace` clears the draft of the session, puts one line after the other behind it and
stops where a failure stops it, with the draft as it then is; `Normalizer.runInPlace` resets the
session and walks through the program with its supply. A walk adds to whatever draft it starts from,
so it is the clearing in front of it that keeps runs apart. The sessions in place do what
`Emitter.lower`, `Emitter.generate` and `Normalizer.run` say, in their answers and in what they
leave behind.
-/

namespace StraightLine

/-! ### Emitters that work in place -/

namespace Emitter

open Body

def push (e : Emitter) (line : Line) : Emitter := { e with draft := e.draft.push line }

/-- Put the lines of one instruction after the other behind the draft, up to the first failure. -/
def write (e : Emitter) : Nat → List Instr → Allocator → Except Failure Unit × Allocator × Emitter
  | _, [], a => (.ok (), a, e)
  | index, i :: rest, a =>
      match (Allocation.select (.ret e.options.returnRegister) index i).run a with
      | (.error f, a) => (.error f, a, e)
      | (.ok asm, a) =>
          let (queue, a) := a.drain
          let spilled := queue.foldl (fun e asm => e.push (.plain asm)) e
          (spilled.push (.commented asm i.text)).write (index + 1) rest a

/-- Emit a program with a given count of its reads on a cleared draft. The draft is taken away only
at the end. -/
def lowerWithInPlace (e : Emitter) (p : Program) (pending : PendingReads) :
    Narrated Lowered × Emitter :=
  let opening := [Event.counted pending.size]
  match Allocator.create e.options.poolSize.toNat e.options.slotSize.toNat pending with
  | .error f => (⟨opening, .error f⟩, e)
  | .ok a =>
      let cleared : Emitter := { e with draft := {} }
      let started := cleared.push (.directive e.options.sectionDirective)
      match started.write 0 p.instrs (a.withAlignment e.options.alignment.toNat) with
      | (.error f, a, e) => (⟨opening ++ a.journal, .error f⟩, e)
      | (.ok (), a, e) =>
          match finish e.draft a p.endsInReturn with
          | .error f => (⟨opening ++ a.journal, .error f⟩, e)
          | .ok lowered =>
              (⟨opening ++ a.journal ++ [closing lowered], .ok lowered⟩, { e with draft := {} })

theorem push_eq (e : Emitter) (line : Line) :
    e.push line = { e with draft := ⟨e.draft.lines ++ [line]⟩ } := rfl

theorem foldl_push_plain (e : Emitter) (queue : List Asm) :
    queue.foldl (fun e asm => e.push (.plain asm)) e =
    { e with draft := ⟨e.draft.lines ++ queue.map Line.plain⟩ } := by
  induction queue generalizing e with
  | nil => rw [List.foldl_nil, List.map_nil, List.append_nil]
  | cons asm queue ih =>
      rw [List.foldl_cons, ih, push_eq, List.map_cons, List.append_assoc, List.singleton_append]

/-- Writing adds the lines of the body to the draft that it starts from, whatever that draft is and
however the body ends. -/
theorem write_eq (e : Emitter) (index : Nat) (is : List Instr) (a : Allocator) :
    e.write index is a =
      ((emit (.ret e.options.returnRegister) index is a).outcome,
        (emit (.ret e.options.returnRegister) index is a).allocator,
        { e with
          draft := ⟨e.draft.lines ++ (emit (.ret e.options.returnRegister) index is a).lines⟩ }) := by
  induction is generalizing e index a with
  | nil =>
      rw [write, emit, List.append_nil]
  | cons i rest ih =>
      rcases hrun : (Allocation.select (.ret e.options.returnRegister) index i).run a with
        ⟨f | asm, b⟩
      · simp only [write, emit, hrun, List.append_nil]
      · simp only [write, emit, hrun, foldl_push_plain]
        rw [push_eq, ih]
        simp only [chunk, List.append_assoc]

theorem lowerWithInPlace_eq (e : Emitter) (p : Program) (pending : PendingReads) :
    e.lowerWithInPlace p pending = e.lowerWith p pending := by
  rw [lowerWithInPlace, lowerWith]
  cases Allocator.create e.options.poolSize.toNat e.options.slotSize.toNat pending with
  | error f => rfl
  | ok a =>
      simp only [write_eq, push_eq, List.nil_append, List.singleton_append]
      cases (emit (.ret e.options.returnRegister) 0 p.instrs
        (a.withAlignment e.options.alignment.toNat)).outcome with
      | error f => rfl
      | ok => rfl

def lowerInPlace (e : Emitter) (p : Program) : Narrated Lowered × Emitter :=
  e.lowerWithInPlace p (.ofProgram p)

theorem lowerInPlace_eq (e : Emitter) (p : Program) : e.lowerInPlace p = e.lower p :=
  lowerWithInPlace_eq ..

end Emitter

/-! ### Normalizers that work in place -/

namespace Normalizer

open NormalForm

/-- Forget the run before: nothing is dropped yet, and temporaries start anew beside the variables
of the program. -/
def reset (n : Normalizer) (p : Program) : Normalizer :=
  { n with supply := .avoiding p.vars, discarded := 0 }

/-- Put one instruction after the other in normal form behind what is already there. A return ends
the walk, and what stands behind it is dropped. -/
def walk (n : Normalizer) (out : List Instr) : List Instr → List Instr × Normalizer
  | [] => (out, n)
  | i :: rest =>
      if i.isReturn then (out ++ [i], { n with discarded := rest.length })
      else
        let (instrs, supply) := ofInstr n.legalize i n.supply
        walk { n with supply } (out ++ instrs) rest

def runInPlace (n : Normalizer) (p : Program) : Program × Normalizer :=
  let (instrs, n) := (n.reset p).walk [] p.instrs
  (⟨instrs⟩, n)

theorem ofInstr_of_isReturn {i : Instr} (hi : i.isReturn = true) (legalize : Bool)
    (s : TempSupply) : ofInstr legalize i s = ([i], s) := by
  cases i with
  | ret => rfl
  | mov | binary => cases hi

/-- A walk adds the normal form of what is reached to what is already there, and goes on with the
supply of the session. -/
theorem walk_eq (legalize : Bool) (s : TempSupply) (out is : List Instr) :
    walk ⟨legalize, s, 0⟩ out is =
    (out ++ (ofInstrs legalize (Program.throughReturn is) s).1,
      ⟨legalize, (ofInstrs legalize (Program.throughReturn is) s).2,
      is.length - (Program.throughReturn is).length⟩) := by
  induction is generalizing s out with
  | nil => rw [walk, Program.throughReturn, ofInstrs, List.append_nil, List.length_nil]
  | cons i rest ih =>
      rw [walk, Program.throughReturn]
      cases hi : i.isReturn with
      | true =>
          rw [if_pos rfl, if_pos rfl, ofInstrs, ofInstr_of_isReturn hi, List.length_cons,
            List.length_singleton, Nat.add_sub_cancel]
          rfl
      | false =>
          rw [if_neg (by simp), if_neg (by simp), ofInstrs, List.length_cons, List.length_cons,
            Nat.add_sub_add_right]
          simp only [ih, List.append_assoc]

theorem runInPlace_eq (n : Normalizer) (p : Program) : n.runInPlace p = n.run p := by
  rw [runInPlace, reset, walk_eq]
  rfl

def runs (n : Normalizer) (programs : List Program) : Normalizer :=
  programs.foldl (fun n p => (n.runInPlace p).2) n

theorem legalize_runs (n : Normalizer) (programs : List Program) :
    (n.runs programs).legalize = n.legalize := by
  induction programs generalizing n with
  | nil => rfl
  | cons p programs ih =>
      rw [runs, List.foldl_cons, ← runs, ih, runInPlace_eq]
      rfl

theorem run_congr {n m : Normalizer} (h : n.legalize = m.legalize) (p : Program) :
    n.run p = m.run p := by
  obtain ⟨legalize, supply, discarded⟩ := n
  obtain ⟨legalize', supply', discarded'⟩ := m
  cases h
  rfl

end Normalizer

/-! ### Histories of calls -/

namespace Emitter

/-- Put a program in normal form and emit it, in place. The normalizer lives no longer than the
call. -/
def generateInPlace (e : Emitter) (p : Program) : Narrated Generated × Emitter :=
  let (normalized, normalizer) := Normalizer.runInPlace { legalize := e.options.legalize } p
  let pending := PendingReads.ofProgram normalized
  let (run, e) := e.lowerWithInPlace normalized pending
  let outcome := run.outcome.map fun lowered =>
    { listing := lowered.listing
      normalized
      stats := lowered.stats
      discarded := normalizer.discarded
      neverRead := pending.neverRead }
  (⟨.normalized p.size normalized.size normalizer.discarded :: run.events, outcome⟩, e)

theorem generateInPlace_eq (e : Emitter) (p : Program) : e.generateInPlace p = e.generate p := by
  simp only [generateInPlace, Normalizer.runInPlace_eq, lowerWithInPlace_eq]
  rfl

inductive Call where
  | generate (p : Program)
  | lower (p : Program)

def after (e : Emitter) : Call → Emitter
  | .generate p => (e.generateInPlace p).2
  | .lower p => (e.lowerInPlace p).2

def afterAll (e : Emitter) (calls : List Call) : Emitter := calls.foldl after e

theorem options_lowerWith (e : Emitter) (p : Program) (pending : PendingReads) :
    (e.lowerWith p pending).2.options = e.options := by
  rw [lowerWith]
  split
  · rfl
  · simp only
    split
    · rfl
    · split <;> rfl

/-- What a lowering tells and returns depends on the session by its options alone. -/
theorem lowerWith_congr {e e' : Emitter} (h : e.options = e'.options) (p : Program)
    (pending : PendingReads) : (e.lowerWith p pending).1 = (e'.lowerWith p pending).1 := by
  rw [lowerWith, lowerWith, h]
  cases Allocator.create e'.options.poolSize.toNat e'.options.slotSize.toNat pending with
  | error f => rfl
  | ok a => rfl

theorem lower_congr {e e' : Emitter} (h : e.options = e'.options) (p : Program) :
    (e.lower p).1 = (e'.lower p).1 :=
  lowerWith_congr h p _

theorem generate_congr {e e' : Emitter} (h : e.options = e'.options) (p : Program) :
    (e.generate p).1 = (e'.generate p).1 := by
  simp only [generate, lowerWith_congr h, h]

theorem options_after (e : Emitter) (call : Call) : (e.after call).options = e.options := by
  cases call with
  | generate p =>
      rw [after, generateInPlace_eq]
      exact options_lowerWith ..
  | lower p =>
      rw [after, lowerInPlace_eq]
      exact options_lowerWith ..

theorem options_afterAll (e : Emitter) (calls : List Call) :
    (e.afterAll calls).options = e.options := by
  induction calls generalizing e with
  | nil => rfl
  | cons call calls ih => exact (ih (e.after call)).trans (options_after e call)

end Emitter

/-- **Runs do not leak into each other.** After any calls, failed ones among them, a session that
works in place tells and returns what a fresh session tells and returns. -/
theorem runs_do_not_leak (o : Options) (calls : List Emitter.Call) (legalize : Bool)
    (programs : List Program) (p : Program) :
    let e := Emitter.afterAll { options := o } calls
    let n := Normalizer.runs { legalize } programs
    ((e.generateInPlace p).1 = (Emitter.generate { options := o } p).1 ∧
        (e.lowerInPlace p).1 = (Emitter.lower { options := o } p).1 ∧
        e.generateInPlace p = e.generate p ∧ e.lowerInPlace p = e.lower p) ∧
      (n.runInPlace p).1 = (Normalizer.run { legalize } p).1 ∧
        (n.runInPlace p).2.discarded = (Normalizer.run { legalize } p).2.discarded ∧
        n.runInPlace p = n.run p := by
  intro e n
  have hoptions : e.options = ({ options := o } : Emitter).options :=
    Emitter.options_afterAll _ calls
  have hflag : n.legalize = ({ legalize } : Normalizer).legalize :=
    Normalizer.legalize_runs _ programs
  rw [Emitter.generateInPlace_eq, Emitter.lowerInPlace_eq, Normalizer.runInPlace_eq,
    Normalizer.run_congr hflag p]
  exact ⟨⟨Emitter.generate_congr hoptions p, Emitter.lower_congr hoptions p, rfl, rfl⟩,
    rfl, rfl, rfl⟩

/-- A refused instruction leaves the directive and the lines in front of it in the draft. -/
example : (Emitter.afterAll { options := {} } [.lower ⟨[.mov ⟨"a"⟩ (.imm 1), .mov ⟨"b"⟩ (.imm 2),
    .binary .mul ⟨"a"⟩ (.var ⟨"b"⟩) (.imm 3)]⟩]).draft.size = 3 := by decide

end StraightLine
