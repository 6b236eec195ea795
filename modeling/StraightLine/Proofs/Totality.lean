import StraightLine.Proofs.Emission.Frame
import StraightLine.Proofs.NormalForm

/-!
# What can be compiled

Under valid options the only thing that can go wrong with a program is its size. If a frame that
holds every variable stays below half of the words, then every program in normal form is lowered:
the reads that emission consumes are the ones that were counted, three registers are enough for the
variables of one instruction, and there is a slot for whatever is evicted. A program that is lowered
as it stands fails exactly at its first misplaced instruction.
-/

namespace StraightLine

/-- The size of a frame that holds every variable of a program. -/
def Options.stackBound (o : Options) (q : Program) : Nat :=
  roundUp (o.slotSize.toNat * q.vars.length) o.alignment.toNat

namespace Emitter

open Body

variable {e : Emitter} {q : Program}

theorem roomy_of_stackBound (hvalid : e.options.validate = .ok ())
    (hbound : e.options.stackBound q < 2 ^ 31) : (e.options.allocator q).Roomy q.vars := by
  refine Options.roomy_allocator hvalid ?_
  have hround := le_roundUp (n := e.options.slotSize.toNat * q.vars.length)
    (Options.alignment_pos hvalid)
  have hlimit : 2 ^ 31 < byteLimit := by decide
  rw [Options.stackBound] at hbound
  omega

theorem depth_body_le (hvalid : e.options.validate = .ok ()) (hok : (e.body q).outcome = .ok ()) :
    (e.body q).allocator.depth ≤ e.options.slotSize.toNat * q.vars.length := by
  have hready := (emitted_body hok).ready (Options.ready_allocator hvalid q) Program.within_vars
  rw [← slotSize_body hok]
  exact hready.stacked.depth_le fun ho => hready.tracks.knows_iff.1 (hready.stacked.knows ho)

theorem exists_lowered_of_placed (hvalid : e.options.validate = .ok ())
    (hbound : e.options.stackBound q < 2 ^ 31) (hplaced : ∀ i ∈ q.instrs, i.isMisplaced = false) :
    ∃ l, (e.lower q).1.outcome = .ok l := by
  have hok : (e.body q).outcome = .ok () :=
    emit_eq_ok (Options.ready_allocator hvalid q)
      (roomy_of_stackBound hvalid hbound) Program.within_vars hplaced
  refine exists_lowered hvalid hok (Nat.lt_of_le_of_lt ?_ hbound)
  exact roundUp_le_roundUp (depth_body_le hvalid hok) _

theorem lower_eq_error_of_misplaced (hvalid : e.options.validate = .ok ())
    (hbound : e.options.stackBound q < 2 ^ 31) (hmis : ∃ i ∈ q.instrs, i.isMisplaced = true) :
      ∃ cause, (e.lower q).1.outcome =
      .error (.reported (.malformed (q.instrs.findIdx Instr.isMisplaced) cause)) := by
  obtain ⟨cause, hcause⟩ : ∃ cause, (e.body q).outcome =
      .error (.reported (.malformed (0 + q.instrs.findIdx Instr.isMisplaced) cause)) :=
    emit_eq_error (Options.ready_allocator hvalid q)
      (roomy_of_stackBound hvalid hbound) Program.within_vars hmis
  rw [Nat.zero_add] at hcause
  exact ⟨cause, by rw [outcome_lower hvalid, hcause, Except.bind]⟩

end Emitter

namespace Options

/-- **Only size stops a compilation, and only misplaced words stop a lowering.** -/
theorem compiles_within_bound {o : Options} (hvalid : o.validate = .ok ()) :
    (∀ p : Program, o.stackBound (p.normalForm o.legalize) < 2 ^ 31 →
        ∃ c, (o.compile p).outcome = .ok c) ∧
    ∀ (e : Emitter) (q : Program), e.options = o → o.stackBound q < 2 ^ 31 →
      ((∃ f, (e.lower q).1.outcome = .error f) ↔ ∃ i ∈ q.instrs, i.isMisplaced = true) ∧
      ∀ f, (e.lower q).1.outcome = .error f →
        ∃ cause, f = .reported (.malformed (q.instrs.findIdx Instr.isMisplaced) cause) := by
  constructor
  · intro p hbound
    obtain ⟨l, hl⟩ := Emitter.exists_lowered_of_placed (e := { options := o }) hvalid hbound
      Program.normalForm_not_misplaced
    exact ⟨_, compile_eq_ok_iff.2 ⟨hvalid, l, hl, rfl⟩⟩
  · rintro e q rfl hbound
    by_cases hmis : ∃ i ∈ q.instrs, i.isMisplaced = true
    · obtain ⟨cause, hlower⟩ := Emitter.lower_eq_error_of_misplaced hvalid hbound hmis
      refine ⟨⟨fun _ => hmis, fun _ => ⟨_, hlower⟩⟩, fun f hf => ⟨cause, ?_⟩⟩
      rw [hlower] at hf
      exact (Except.error.inj hf).symm
    · have hplaced : ∀ i ∈ q.instrs, i.isMisplaced = false := fun i hi =>
        Bool.eq_false_iff.2 fun h => hmis ⟨i, hi, h⟩
      obtain ⟨l, hlower⟩ := Emitter.exists_lowered_of_placed hvalid hbound hplaced
      have hnever : ∀ f, (e.lower q).1.outcome ≠ .error f := by
        intro f hf
        rw [hlower] at hf
        cases hf
      exact ⟨⟨fun ⟨f, hf⟩ => absurd hf (hnever f), fun h => absurd h hmis⟩,
        fun f hf => absurd hf (hnever f)⟩

/-- A product by a word is refused in second place as it stands, and compiled in normal form. -/
theorem compiles_within_bound_product :
    let o : Options := { poolSize := 3, alignment := 16 }
    let p : Program := ⟨[.mov ⟨"x"⟩ (.var ⟨"y"⟩), .binary .mul ⟨"x"⟩ (.var ⟨"x"⟩) (.imm 7),
      .ret (.var ⟨"x"⟩)]⟩
    o.validate = .ok () ∧ o.stackBound p < 2 ^ 31 ∧
      o.stackBound (p.normalForm o.legalize) < 2 ^ 31 ∧
      (∃ c, (o.compile p).outcome = .ok c) ∧
      ∃ cause, (Emitter.lower { options := o } p).1.outcome =
          .error (.reported (.malformed 1 cause)) := by
  intro o p
  have hvalid : o.validate = .ok () := by decide
  have hbound : o.stackBound p < 2 ^ 31 := by decide
  have hnormal : o.stackBound (p.normalForm o.legalize) < 2 ^ 31 := by decide
  obtain ⟨hcompile, hlower⟩ := compiles_within_bound hvalid
  obtain ⟨hiff, hcause⟩ := hlower { options := o } p rfl hbound
  obtain ⟨f, hf⟩ := hiff.2 ⟨.binary .mul ⟨"x"⟩ (.var ⟨"x"⟩) (.imm 7), by decide, rfl⟩
  obtain ⟨cause, rfl⟩ := hcause f hf
  exact ⟨hvalid, hbound, hnormal, hcompile p hnormal, cause, hf⟩

end Options

end StraightLine
