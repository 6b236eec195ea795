import StraightLine.Proofs.Allocator.Runs
import StraightLine.Proofs.Emission.Frame

/-!
# Reads ahead

The reads of a program are counted once in front of its emission, and consumed by the instructions
one after the other. The counting walks over the operands of the program; the consuming stands in
each way of choosing an emitted instruction, by hand. This module shows that the two agree. An
instruction consumes its own reads, each once and in the order of its operands, so in front of every
place the counts are the reads from that place on: every variable of the program has its entry, no
entry runs out too early, and at the end all of them are used up.

Nothing here needs options that are valid. It is enough that the pool has room for an instruction
and that slots are not empty; the only thing that can stop the emission is then a number that leaves
its word.
-/

namespace StraightLine

/-- The traps of numbers that leave their word. -/
def Trap.overflows : List Trap := [.depthOverflow, .frameOverflow, .frameNegation]

/-- How often the operands of the instructions from a place on are the variable. -/
def Program.readsAhead (q : Program) (k : Nat) (v : Var) : Nat :=
  ((q.instrs.drop k).flatMap Instr.operands).count (.var v)

theorem Instr.count_uses (i : Instr) (v : Var) : i.uses.count v = i.operands.count (.var v) := by
  rw [uses]
  induction i.operands with
  | nil => rfl
  | cons operand operands ih =>
      cases operand with
      | var w =>
          have hread : (Operand.var w).var? = some w := rfl
          rw [List.filterMap_cons_some hread, List.count_cons, List.count_cons, ih]
          simp
      | imm value =>
          rw [List.filterMap_cons_none rfl, List.count_cons, ih]
          simp

theorem Program.count_uses_drop (q : Program) (k : Nat) (v : Var) :
    ((q.instrs.drop k).flatMap Instr.uses).count v = q.readsAhead k v := by
  rw [readsAhead, List.count_flatMap, List.count_flatMap]
  exact congrArg List.sum (List.map_congr_left fun i _ => i.count_uses v)

/-! ### Consuming some reads -/

namespace PendingReads

variable {p q : PendingReads} {v : Var} {scope reads more : List Var}

def consumeAll (p : PendingReads) (reads : List Var) : Except Failure PendingReads :=
  reads.foldlM consume p

theorem consumeAll_cons (h : p.consume v = .ok q) (reads : List Var) :
    p.consumeAll (v :: reads) = q.consumeAll reads := by
  rw [consumeAll, List.foldlM_cons, h]
  rfl

theorem consumeAll_append (h : p.consumeAll reads = .ok q) (more : List Var) :
    p.consumeAll (reads ++ more) = q.consumeAll more := by
  rw [consumeAll] at h
  rw [consumeAll, List.foldlM_append, h]
  rfl

theorem Tracks.consumeAll (h : p.Tracks scope (reads ++ more)) (hq : p.consumeAll reads = .ok q) :
    q.Tracks scope more := by
  induction reads generalizing p with
  | nil =>
      cases hq
      exact h
  | cons v reads ih =>
      cases hv : p.consume v with
      | error f =>
          rw [PendingReads.consumeAll, List.foldlM_cons, hv] at hq
          cases hq
      | ok p' =>
          rw [consumeAll_cons hv] at hq
          exact ih (h.consume hv) hq

/-- The counts in front of a place of a program: an entry for exactly the variables of the program,
and for each of them the number of its reads from the place on. -/
structure AheadOf (p : PendingReads) (q : Program) (k : Nat) : Prop where
  mem_keys_iff : ∀ v, v ∈ p.counts.keys ↔ ∃ i ∈ q.instrs, v ∈ i.occurrences
  remaining_eq : ∀ v ∈ p.counts.keys, p.remaining v = .ok (q.readsAhead k v)

theorem Tracks.aheadOf {q : Program} {k : Nat}
    (h : p.Tracks q.vars ((q.instrs.drop k).flatMap Instr.uses)) : p.AheadOf q k := by
  have hkeys : ∀ v, v ∈ p.counts.keys ↔ v ∈ q.vars := fun v => Table.mem_keys_iff.trans h.knows_iff
  refine ⟨fun v => (hkeys v).trans Program.mem_vars, fun v hv => ?_⟩
  rw [remaining, h v, if_pos ((hkeys v).1 hv), q.count_uses_drop]

end PendingReads

/-! ### What instructions consume -/

theorem Allocator.pending_consume {a b : Allocator} {v : Var} (h : a.consume v = (.ok (), b)) :
    a.pending.consume v = .ok b.pending := by
  obtain ⟨pending, hpending, rfl⟩ := consume_eq_ok_iff.1 h
  exact hpending

namespace Allocation

open Allocator PendingReads

/-- A selection consumes the reads of its instruction in the order of the operands, and nothing
else. -/
theorem Selected.consumes {ret : Reg} {i : Instr} {a b : Allocator} {asm : Asm}
    (h : Selected ret i a asm b) : a.pending.consumeAll i.uses = .ok b.pending := by
  cases h with
  | retWord => rfl
  | retVar hv hrel =>
      rw [← pending_acquire hv]
      exact consumeAll_cons (pending_consume hrel) []
  | movWord hdst =>
      rw [pending_acquire hdst]
      rfl
  | movVar hsrc hdst hrel =>
      rw [← pending_acquire hsrc, ← pending_acquire hdst]
      exact consumeAll_cons (pending_consume hrel) []
  | withWord _ hlhs hdst hrel =>
      rw [← pending_acquire hlhs, ← pending_acquire hdst]
      exact consumeAll_cons (pending_consume hrel) []
  | withVar hlhs hrhs hdst hrelL hrelR =>
      rw [← pending_acquire hlhs, ← pending_acquire hrhs, ← pending_acquire hdst]
      exact (consumeAll_cons (pending_consume hrelL) _).trans
        (consumeAll_cons (pending_consume hrelR) [])

end Allocation

theorem Body.Emitted.consumes {ret : Reg} {is : List Instr} {a b : Allocator} {lines : List Line}
    (h : Emitted ret is a lines b) :
    a.pending.consumeAll (is.flatMap Instr.uses) = .ok b.pending := by
  induction h with
  | nil => rfl
  | cons hsel _ ih =>
      rw [List.flatMap_cons, PendingReads.consumeAll_append hsel.consumes]
      exact ih

/-! ### Places of a program -/

theorem mem_overflows_of_frameTrap? {size : Nat} {trap : Trap} (h : frameTrap? size = some trap) :
    trap ∈ Trap.overflows := by
  rw [frameTrap?] at h
  split at h
  · cases h
    decide
  · split at h
    · cases h
      decide
    · cases h

def Body.followedBy (b rest : Body) : Body := { rest with lines := b.lines ++ rest.lines }

namespace Emitter

open Body

variable {e : Emitter} {q : Program} {k : Nat} {i : Instr}

/-- What is emitted in front of a place of a program. The reads were counted over the whole
program. -/
def bodyBefore (e : Emitter) (q : Program) (k : Nat) : Body :=
  emit (.ret e.options.returnRegister) 0 (q.instrs.take k) (e.options.allocator q)

theorem bodyBefore_size (e : Emitter) (q : Program) : e.bodyBefore q q.size = e.body q := by
  rw [bodyBefore, Program.size, List.take_length, body]

/-- Only a number that leaves its word stops a program without misplaced instructions. -/
theorem exists_lowered_of_fits (hpool : 3 ≤ e.options.poolSize.toNat ∧
      e.options.poolSize.toNat ≤ 18)
    (hslot : e.options.slotSize.toNat ≠ 0) (hplaced : ∀ i ∈ q.instrs, i.isMisplaced = false)
    (hfits : ∀ trap ∈ Trap.overflows, (e.lower q).1.outcome ≠ .error (.trapped trap)) :
    (e.body q).outcome = .ok () ∧
      ∃ l, (e.lower q).1.outcome = .ok l ∧ (e.body q).allocator.stats = .ok l.stats := by
  have hpos := Nat.pos_of_ne_zero hslot
  have hlower := outcome_lower_of_create (e := e) (q := q)
    (Allocator.create_eq_ok_iff.2 ⟨⟨by omega, hpool.2, hpos⟩, rfl⟩) rfl
  have hok : (e.body q).outcome = .ok () := by
    cases hbody : (e.body q).outcome with
    | ok => rfl
    | error f =>
        have hready := Options.ready_allocator_of_pos hpos q
        obtain ⟨rfl, _⟩ := emit_eq_overflow hready hpool.1 Program.within_vars hplaced hbody
        rw [hbody] at hlower
        exact absurd hlower (hfits .depthOverflow (by decide))
  rw [hok] at hlower
  refine ⟨hok, ?_⟩
  cases hfinish : finish (e.draftOf q) (e.body q).allocator q.endsInReturn with
  | error f =>
      obtain ⟨trap, htrap, rfl⟩ :=
        Option.map_eq_some_iff.1 ((finish_eq_error_iff (lines_body_ne_nil hok)).1 hfinish)
      exact absurd (hlower.trans hfinish) (hfits trap (mem_overflows_of_frameTrap? htrap))
  | ok l =>
      obtain ⟨hsize, _, hstats⟩ := finish_eq_ok_iff.1 hfinish
      refine ⟨l, hlower.trans hfinish, ?_⟩
      rw [Allocator.stats, hsize]
      exact congrArg Except.ok hstats.symm

/-- The body passes through every place, with the reads in front of the place consumed. -/
theorem body_through (hok : (e.body q).outcome = .ok ()) (k : Nat) :
    (e.bodyBefore q k).outcome = .ok () ∧
    e.body q = (e.bodyBefore q k).followedBy
      (emit (.ret e.options.returnRegister) k (q.instrs.drop k) (e.bodyBefore q k).allocator) ∧
    (PendingReads.ofProgram q).consumeAll ((q.instrs.take k).flatMap Instr.uses) =
      .ok (e.bodyBefore q k).allocator.pending := by
  have hemitted := emitted_body hok
  rw [← List.take_append_drop k q.instrs] at hemitted
  obtain ⟨front, back, b, hfront, hback, hlines⟩ := hemitted.of_append
  rw [bodyBefore, emit_of_emitted hfront, emit_of_emitted hback]
  refine ⟨rfl, ?_, hfront.consumes⟩
  rw [followedBy, ← hlines, ← hok]

theorem aheadOf_bodyBefore (hok : (e.body q).outcome = .ok ()) (k : Nat) :
    (e.bodyBefore q k).allocator.pending.AheadOf q k := by
  have htracks := PendingReads.tracks_ofProgram q
  rw [← List.take_append_drop k q.instrs, List.flatMap_append] at htracks
  exact (htracks.consumeAll (body_through hok k).2.2).aheadOf

theorem consumeAll_bodyBefore (hok : (e.body q).outcome = .ok ()) (hi : q.instrs[k]? = some i) :
    (e.bodyBefore q k).allocator.pending.consumeAll i.uses =
      .ok (e.bodyBefore q (k + 1)).allocator.pending := by
  have hnext := (body_through hok (k + 1)).2.2
  rw [List.take_add_one, hi, Option.toList_some, List.flatMap_append, List.flatMap_singleton,
    PendingReads.consumeAll_append (body_through hok k).2.2] at hnext
  exact hnext

/-- **The counts are the reads ahead.** An emission that no overflow stops comes through every place
of the program, finds there the counts of the reads from the place on, and consumes the reads of the
instruction without a refusal. -/
theorem counts_are_reads_ahead (hpool : 3 ≤ e.options.poolSize.toNat ∧
      e.options.poolSize.toNat ≤ 18)
    (hslot : e.options.slotSize.toNat ≠ 0) (hplaced : ∀ i ∈ q.instrs, i.isMisplaced = false)
    (hfits : ∀ trap ∈ Trap.overflows, (e.lower q).1.outcome ≠ .error (.trapped trap)) :
    (∃ l, (e.lower q).1.outcome = .ok l ∧ (e.bodyBefore q q.size).allocator.stats = .ok l.stats) ∧
      (∀ k ≤ q.size, (e.bodyBefore q k).allocator.pending.AheadOf q k ∧
          (e.bodyBefore q k).outcome = .ok () ∧
        e.body q = (e.bodyBefore q k).followedBy
          (emit (.ret e.options.returnRegister) k (q.instrs.drop k) (e.bodyBefore q k).allocator)) ∧
      (∀ k i, q.instrs[k]? = some i →
        (e.bodyBefore q k).allocator.pending.consumeAll i.uses =
        .ok (e.bodyBefore q (k + 1)).allocator.pending) ∧
      ∀ v, (∃ i ∈ q.instrs, v ∈ i.occurrences) →
          (e.bodyBefore q q.size).allocator.pending.remaining v = .ok 0 := by
  obtain ⟨hok, hlowered⟩ := exists_lowered_of_fits hpool hslot hplaced hfits
  refine ⟨by rwa [bodyBefore_size], fun k _ => ?_, fun k i => consumeAll_bodyBefore hok,
    fun v hv => ?_⟩
  · obtain ⟨hbefore, hbody, _⟩ := body_through hok k
    exact ⟨aheadOf_bodyBefore hok k, hbefore, hbody⟩
  · have hend := aheadOf_bodyBefore hok q.size
    have hnone : q.readsAhead q.size v = 0 := by
      rw [Program.readsAhead, Program.size, List.drop_length]
      rfl
    rw [hend.remaining_eq v ((hend.mem_keys_iff v).2 hv), hnone]

/-- Options that no validation accepts, with slots of six bytes, no alignment and a return into the
pool. In the program an operand occurs twice, a destination is an operand, instructions stand behind
a return, and `c` is read but never assigned; `a` and `c` are spilled while reads of them are
pending. -/
theorem counts_are_reads_ahead_unvalidated :
    let e : Emitter :=
      { options := { poolSize := 3, slotSize := 6, alignment := 0, returnRegister := "t1" } }
    let q : Program := ⟨[.mov ⟨"a"⟩ (.imm 1), .binary .add ⟨"a"⟩ (.var ⟨"a"⟩) (.var ⟨"a"⟩),
      .ret (.var ⟨"a"⟩), .binary .mul ⟨"b"⟩ (.var ⟨"a"⟩) (.var ⟨"c"⟩),
      .binary .sub ⟨"b"⟩ (.var ⟨"b"⟩) (.imm 5), .mov ⟨"d"⟩ (.var ⟨"b"⟩),
      .binary .add ⟨"e"⟩ (.var ⟨"d"⟩) (.var ⟨"b"⟩), .binary .mul ⟨"e"⟩ (.var ⟨"e"⟩) (.var ⟨"c"⟩),
      .binary .sub ⟨"e"⟩ (.var ⟨"e"⟩) (.var ⟨"a"⟩), .ret (.var ⟨"e"⟩)]⟩
    e.options.validate ≠ .ok () ∧ (∀ i ∈ q.instrs, i.isMisplaced = false) ∧
      (∀ trap ∈ Trap.overflows, (e.lower q).1.outcome ≠ .error (.trapped trap)) ∧
      (e.lower q).1.outcome.toOption.map (·.stats.spilled) = some [⟨"a"⟩, ⟨"c"⟩] ∧
      (∃ l, (e.lower q).1.outcome = .ok l ∧ (e.bodyBefore q q.size).allocator.stats = .ok l.stats) ∧
      (e.bodyBefore q 1).allocator.pending.remaining ⟨"a"⟩ = .ok 5 ∧
      (e.bodyBefore q 1).allocator.pending.consumeAll [⟨"a"⟩, ⟨"a"⟩] =
        .ok (e.bodyBefore q 2).allocator.pending ∧
      (e.bodyBefore q 2).allocator.pending.remaining ⟨"a"⟩ = .ok 3 ∧
      (e.bodyBefore q q.size).allocator.pending.remaining ⟨"c"⟩ = .ok 0 := by
  intro e q
  have hplaced : ∀ i ∈ q.instrs, i.isMisplaced = false := by decide
  have hspilled : (e.lower q).1.outcome.toOption.map (·.stats.spilled) = some [⟨"a"⟩, ⟨"c"⟩] := by
    decide +kernel
  have hfits : ∀ trap ∈ Trap.overflows, (e.lower q).1.outcome ≠ .error (.trapped trap) := by
    intro trap _ htrap
    rw [htrap] at hspilled
    cases hspilled
  obtain ⟨hlower, hplaces, hconsumes, hend⟩ := counts_are_reads_ahead (e := e) (q := q) (by decide)
    (by decide) hplaced hfits
  have hremaining : ∀ k ≤ q.size, (e.bodyBefore q k).allocator.pending.remaining ⟨"a"⟩ =
      .ok (q.readsAhead k ⟨"a"⟩) := by
    intro k hk
    have hahead := (hplaces k hk).1
    exact hahead.remaining_eq _
      ((hahead.mem_keys_iff _).2 ⟨_, List.mem_cons_self, List.mem_cons_self⟩)
  have hfirst : q.readsAhead 1 ⟨"a"⟩ = 5 := by decide
  have hsecond : q.readsAhead 2 ⟨"a"⟩ = 3 := by decide
  have hdoubled := hconsumes 1 (.binary .add ⟨"a"⟩ (.var ⟨"a"⟩) (.var ⟨"a"⟩)) rfl
  refine ⟨by decide, hplaced, hfits, hspilled, hlower, ?_, hdoubled, ?_, hend ⟨"c"⟩ ?_⟩
  · rw [hremaining 1 (by decide), hfirst]
  · rw [hremaining 2 (by decide), hsecond]
  · exact ⟨.binary .mul ⟨"b"⟩ (.var ⟨"a"⟩) (.var ⟨"c"⟩), by decide, by decide⟩

end Emitter

end StraightLine
