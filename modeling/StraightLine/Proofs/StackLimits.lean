import StraightLine.Proofs.Emission.Lockstep
import StraightLine.Proofs.Totality

/-!
# The limits of the stack

How many slots a program needs depends on the pool and not on the size of a slot, so it can be read
off a compilation with the smallest slots, which cannot fail as long as the variables are few. The
number of slots then says exactly what happens under any other valid size and alignment. Options are
accepted up to the largest power of two below `2 ^ 32`, and three slots are enough to run into each
of the limits: the depth of the stack, its aligned size, and the opposite of that size.
-/

namespace StraightLine

namespace Options

variable {o : Options} {slots : Nat}

/-- The same options with slots of one word and no further alignment. -/
def narrow (o : Options) : Options := { o with slotSize := 4, alignment := 4 }

/-- The trap that a number of slots leads to. -/
def stackTrap? (o : Options) (slots : Nat) : Option Trap :=
  if byteLimit ≤ o.slotSize.toNat * slots then some .depthOverflow
  else frameTrap? (roundUp (o.slotSize.toNat * slots) o.alignment.toNat)

theorem validate_narrow (hvalid : o.validate = .ok ()) : o.narrow.validate = .ok () := by
  obtain ⟨hpool, _, _, hret⟩ := validate_eq_ok_iff.1 hvalid
  have hslot : (4 : UInt32).toNat ≠ 0 ∧ (4 : UInt32).toNat % 4 = 0 := by decide
  have halign : isPowerOfTwo (4 : UInt32).toNat = true ∧ (4 : UInt32).toNat % (4 : UInt32).toNat =
      0 := by decide
  exact validate_eq_ok_iff.2 ⟨hpool, hslot, halign, hret⟩

/-- Slots of at most `2 ^ 14` bytes and an alignment of at most `2 ^ 30` leave room for `2 ^ 16`
slots. -/
theorem stackTrap?_eq_none (hvalid : o.validate = .ok ()) (hslots : slots ≤ 2 ^ 16)
    (hsize : o.slotSize.toNat ≤ 2 ^ 14) (halign : o.alignment.toNat ≤ 2 ^ 30) :
    o.stackTrap? slots = none := by
  have hdepth : o.slotSize.toNat * slots ≤ 2 ^ 30 :=
    calc
      o.slotSize.toNat * slots ≤ 2 ^ 14 * 2 ^ 16 := Nat.mul_le_mul hsize hslots
      _ = 2 ^ 30 := by decide
  have hdvd : o.alignment.toNat ∣ 2 ^ 30 := by
    obtain ⟨k, _, heq⟩ := exists_eq_two_pow (validate_eq_ok_iff.1 hvalid).2.2.1.1
    rw [heq] at halign ⊢
    exact Nat.pow_dvd_pow 2 ((Nat.pow_le_pow_iff_right (by decide)).1 halign)
  have hframe := roundUp_le hdepth (alignment_pos hvalid) hdvd
  have hlimit : byteLimit = 2 ^ 32 := rfl
  rw [stackTrap?, if_neg (by omega), frameTrap?, if_neg (by omega), if_neg (by omega)]

end Options

namespace Emitter

open Body Allocator

variable {e : Emitter} {q : Program}

def narrow (e : Emitter) : Emitter := { e with options := e.options.narrow }

theorem validate_narrow (hvalid : e.options.validate = .ok ()) :
    e.narrow.options.validate = .ok () :=
  Options.validate_narrow hvalid

theorem injOn_id (q : Program) : Set.InjOn (fun v : Var => v) {v | v ∈ q.vars} := fun _ _ _ _ h => h

theorem body_narrow_eq_ok (hvalid : e.options.validate = .ok ()) (hvars : q.vars.length ≤ 2 ^ 16)
    (hplaced : ∀ i ∈ q.instrs, i.isMisplaced = false) : (e.narrow.body q).outcome = .ok () := by
  have hroomy : (e.narrow.options.allocator q).Roomy q.vars := by
    refine Options.roomy_allocator (validate_narrow hvalid) ?_
    have hlimit : byteLimit = 2 ^ 32 := rfl
    show 4 * q.vars.length < byteLimit
    omega
  exact emit_eq_ok (Options.ready_allocator (validate_narrow hvalid) q) hroomy
    Program.within_vars hplaced

theorem slotCount_body_le (hvalid : e.options.validate = .ok ())
    (hok : (e.body q).outcome = .ok ()) : (e.body q).allocator.slotCount ≤ q.vars.length := by
  have hstack := stacked_body hvalid hok
  have hdepth := depth_body_le hvalid hok
  rw [← slotSize_body hok, ← hstack.slotCount_mul, Nat.mul_comm] at hdepth
  exact Nat.le_of_mul_le_mul_left hdepth hstack.slotSize_pos

/-- The number of slots does not depend on their size. -/
theorem slotCount_body_narrow (hvalid : e.options.validate = .ok ())
    (hvars : q.vars.length ≤ 2 ^ 16) (hok : (e.body q).outcome = .ok ()) :
    (e.narrow.body q).allocator.slotCount = (e.body q).allocator.slotCount := by
  have hfits : (e.body q).allocator.FitsAt e.narrow.options.slotSize.toNat := by
    have hcount := slotCount_body_le hvalid hok
    have hlimit : byteLimit = 2 ^ 32 := rfl
    show (e.body q).allocator.slotCount * 4 < byteLimit
    omega
  have hlockstep := (body_lockstep hvalid (validate_narrow hvalid) rfl rfl
    (injOn_id q) hok hfits).2.1
  rw [Program.rename_id] at hlockstep
  exact hlockstep.mirrors.slotCount_eq

theorem body_eq_ok_iff (hvalid : e.options.validate = .ok ()) (hvars : q.vars.length ≤ 2 ^ 16)
    (hplaced : ∀ i ∈ q.instrs, i.isMisplaced = false) : (e.body q).outcome = .ok () ↔
      (e.narrow.body q).allocator.FitsAt e.options.slotSize.toNat := by
  constructor
  · intro hok
    have hstack := stacked_body hvalid hok
    rw [FitsAt, slotCount_body_narrow hvalid hvars hok, ← slotSize_body hok, hstack.slotCount_mul]
    exact hstack.depth_lt
  · intro hfits
    have hok := body_narrow_eq_ok hvalid hvars hplaced
    have hsame := (body_lockstep (validate_narrow hvalid) hvalid rfl rfl (injOn_id q) hok hfits).1
    rwa [Program.rename_id] at hsame

theorem exists_lowered_narrow (hvalid : e.options.validate = .ok ())
    (hvars : q.vars.length ≤ 2 ^ 16) (hplaced : ∀ i ∈ q.instrs, i.isMisplaced = false) :
      ∃ l, (e.narrow.lower q).1.outcome = .ok l ∧
      l.stats.frameSize = 4 * (e.narrow.body q).allocator.slotCount := by
  have hnarrow := validate_narrow hvalid
  have hbody := body_narrow_eq_ok hvalid hvars hplaced
  have hcount := slotCount_body_le hnarrow hbody
  have hdepth : (e.narrow.body q).allocator.depth = 4 * (e.narrow.body q).allocator.slotCount := by
    rw [← (stacked_body hnarrow hbody).slotCount_mul, slotSize_body hbody, Nat.mul_comm]
    rfl
  have hround : roundUp (e.narrow.body q).allocator.depth e.narrow.options.alignment.toNat =
      4 * (e.narrow.body q).allocator.slotCount := by
    rw [hdepth]
    exact roundUp_of_dvd (Options.alignment_pos hnarrow) (Nat.dvd_mul_right 4 _)
  obtain ⟨l, hl⟩ := exists_lowered hnarrow hbody (by rw [hround]; omega)
  exact ⟨l, hl, (frameSize_lower hnarrow hl).trans hround⟩

theorem lower_eq_error_iff_stackTrap (hvalid : e.options.validate = .ok ())
    (hvars : q.vars.length ≤ 2 ^ 16) (hplaced : ∀ i ∈ q.instrs, i.isMisplaced = false)
      {f : Failure} : (e.lower q).1.outcome = .error f ↔
      (e.options.stackTrap? (e.narrow.body q).allocator.slotCount).map Failure.trapped =
      some f := by
  have hiff := body_eq_ok_iff hvalid hvars hplaced
  rw [FitsAt, Nat.mul_comm] at hiff
  rw [Options.stackTrap?]
  cases hbody : (e.body q).outcome with
  | ok =>
      have hdepth : (e.body q).allocator.depth =
          e.options.slotSize.toNat * (e.narrow.body q).allocator.slotCount := by
        rw [slotCount_body_narrow hvalid hvars hbody, ← slotSize_body hbody, Nat.mul_comm,
          (stacked_body hvalid hbody).slotCount_mul]
      rw [lower_eq_error_iff hvalid hbody, hdepth, if_neg (Nat.not_le.2 (hiff.1 hbody))]
  | error f' =>
      have hfull : byteLimit ≤ e.options.slotSize.toNat *
          (e.narrow.body q).allocator.slotCount := by
        refine Nat.le_of_not_lt fun hfits => ?_
        rw [hiff.2 hfits] at hbody
        cases hbody
      rw [outcome_lower hvalid, hbody, body_eq_overflow hvalid hplaced hbody, if_pos hfull]
      simp [Except.bind]

end Emitter

namespace Options

/-- **A compilation fails exactly when its slots overflow the stack.** The number of slots is that
of a compilation with slots of one word, which succeeds. Small slots and a moderate alignment never
fail. -/
theorem fails_iff_slots_overflow {o : Options} {p : Program} (hvalid : o.validate = .ok ())
    (hvars : (p.normalForm o.legalize).vars.length ≤ 2 ^ 16) :
    ∃ c slots, (o.narrow.compile p).outcome = .ok c ∧ c.stats.frameSize = 4 * slots ∧
      slots ≤ (p.normalForm o.legalize).vars.length ∧
      (∀ f, (o.compile p).outcome = .error f ↔ (o.stackTrap? slots).map Failure.trapped = some f) ∧
      (o.slotSize.toNat ≤ 2 ^ 14 → o.alignment.toNat ≤ 2 ^ 30 →
            ∃ d, (o.compile p).outcome = .ok d) := by
  let e : Emitter := { options := o }
  let q := p.normalForm o.legalize
  let slots := (e.narrow.body q).allocator.slotCount
  have hnarrow : e.narrow.options.validate = .ok () := validate_narrow hvalid
  have hplaced : ∀ i ∈ q.instrs, i.isMisplaced = false := Program.normalForm_not_misplaced
  have hbody : (e.narrow.body q).outcome = .ok () := Emitter.body_narrow_eq_ok hvalid hvars hplaced
  have hslots : slots ≤ q.vars.length := Emitter.slotCount_body_le hnarrow hbody
  have hfails : ∀ f, (o.compile p).outcome = .error f ↔
      (o.stackTrap? slots).map Failure.trapped = some f := by
    intro f
    rw [compile_eq_error_iff hvalid]
    exact e.lower_eq_error_iff_stackTrap hvalid hvars hplaced
  obtain ⟨l, hlower, hframe⟩ := e.exists_lowered_narrow hvalid hvars hplaced
  refine ⟨_, slots, compile_eq_ok_iff.2 ⟨hnarrow, l, hlower, rfl⟩, hframe, hslots, hfails,
    fun hsize halign => ?_⟩
  cases hcompile : (o.compile p).outcome with
  | ok d => exact ⟨d, rfl⟩
  | error f =>
      rw [hfails, stackTrap?_eq_none hvalid (Nat.le_trans hslots hvars) hsize halign] at hcompile
      cases hcompile

/-- Four values that live together need three slots of a pool of three. Aligned to `2 ^ 30` bytes
they fit. -/
theorem fails_iff_slots_overflow_fitting :
    let o : Options := { poolSize := 3, alignment := 1073741824 }
    let p : Program := ⟨[.mov ⟨"a"⟩ (.imm 1), .mov ⟨"b"⟩ (.imm 2), .mov ⟨"c"⟩ (.imm 3),
      .mov ⟨"d"⟩ (.imm 4), .binary .add ⟨"a"⟩ (.var ⟨"a"⟩) (.var ⟨"b"⟩),
      .binary .add ⟨"c"⟩ (.var ⟨"c"⟩) (.var ⟨"d"⟩), .binary .add ⟨"a"⟩ (.var ⟨"a"⟩) (.var ⟨"c"⟩),
      .ret (.var ⟨"a"⟩)]⟩
    o.validate = .ok () ∧ (p.normalForm o.legalize).vars.length = 4 ∧
      (∃ c, (o.compile p).outcome = .ok c) ∧
      ∃ c slots, (o.narrow.compile p).outcome = .ok c ∧ c.stats.frameSize = 4 * slots ∧
      slots ≤ 4 := by
  intro o p
  have hvalid : o.validate = .ok () := by decide
  have hvars : (p.normalForm o.legalize).vars.length = 4 := by decide
  obtain ⟨c, slots, hcompile, hframe, hslots, _, hfits⟩ :=
    fails_iff_slots_overflow hvalid (by rw [hvars]; decide)
  exact ⟨hvalid, hvars, hfits (by decide) (by decide), c, slots, hcompile, hframe, hvars ▸ hslots⟩

/-- Valid options that a program of four variables does not survive, one for each limit. -/
theorem exists_accepted_options_trapped :
    let p : Program := ⟨[.mov ⟨"a"⟩ (.imm 1), .mov ⟨"b"⟩ (.imm 2), .mov ⟨"c"⟩ (.imm 3),
      .mov ⟨"d"⟩ (.imm 4), .binary .add ⟨"a"⟩ (.var ⟨"a"⟩) (.var ⟨"b"⟩),
      .binary .add ⟨"c"⟩ (.var ⟨"c"⟩) (.var ⟨"d"⟩), .binary .add ⟨"a"⟩ (.var ⟨"a"⟩) (.var ⟨"c"⟩),
      .ret (.var ⟨"a"⟩)]⟩
    let negated : Options := { poolSize := 3, alignment := 2147483648 }
    let deep : Options := { poolSize := 3, slotSize := 2147483648, alignment := 2147483648 }
    let wide : Options := { poolSize := 3, slotSize := 1073741824, alignment := 2147483648 }
    (p.normalForm true).vars.length ≤ 2 ^ 16 ∧
      (negated.validate = .ok () ∧ (negated.compile p).outcome = .error (.trapped .frameNegation)) ∧
      (deep.validate = .ok () ∧ (deep.compile p).outcome = .error (.trapped .depthOverflow)) ∧
      wide.validate = .ok () ∧ (wide.compile p).outcome = .error (.trapped .frameOverflow) := by
  intro p negated deep wide
  have hvars : (p.normalForm true).vars.length ≤ 2 ^ 16 := by decide
  -- Each of the three options leaves the program with three slots, which is all that decides.
  have hfails : ∀ (o : Options) (f : Failure), o.legalize = true → o.validate = .ok () →
      (Emitter.body (Emitter.narrow { options := o })
        (p.normalForm o.legalize)).allocator.slotCount = 3 →
      (o.stackTrap? 3).map Failure.trapped = some f →
      o.validate = .ok () ∧ (o.compile p).outcome = .error f := by
    intro o f hlegalize hvalid hslots htrap
    have hiff := Emitter.lower_eq_error_iff_stackTrap (e := { options := o }) (f := f) hvalid
      (hlegalize ▸ hvars) Program.normalForm_not_misplaced
    rw [hslots] at hiff
    exact ⟨hvalid, (compile_eq_error_iff hvalid).2 (hiff.2 htrap)⟩
  refine ⟨hvars, hfails negated _ rfl (by decide) ?_ (by decide),
    hfails deep _ rfl (by decide) ?_ (by decide), hfails wide _ rfl (by decide) ?_ (by decide)⟩
  all_goals decide +kernel

end Options

end StraightLine
