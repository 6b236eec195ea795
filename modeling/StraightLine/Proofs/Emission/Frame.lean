import Mathlib.Algebra.Group.Nat.Defs
import StraightLine.Compilation
import StraightLine.Proofs.Emission.Body

/-!
# Frames and whole listings

What stands around a body. `Framed` says which lines a listing has behind its directive: the lines
of the body alone if nothing is on the stack, else between the two moves of the stack pointer, the
second of which comes before the line that returns. A successful lowering is `Assembled` from an
emitted body and its frame, and a frame below half of the words never fails. A compilation lowers
the normal form of its program.
-/

namespace StraightLine

/-- The lines behind the directive, from the lines of a body and the size of its frame. -/
inductive Framed (size : Nat) : Bool → List Line → List Line → Prop
  | bare {returns : Bool} {lines : List Line} (hsize : size = 0) : Framed size returns lines lines
  | behind {lines : List Line} (hsize : size ≠ 0) :
      Framed size false lines (.plain (.adjustSp (-Int32.ofNat size)) ::
        (lines ++ [.plain (.adjustSp (Int32.ofNat size))]))
  | before {lines : List Line} {last : Line} (hsize : size ≠ 0) :
      Framed size true (lines ++ [last])
        (.plain (.adjustSp (-Int32.ofNat size)) ::
          (lines ++ [.plain (.adjustSp (Int32.ofNat size)), last]))

theorem Line.instrs_plain_cons (asm : Asm) (lines : List Line) :
    (Line.plain asm :: lines).filterMap Line.instr? = asm :: lines.filterMap Line.instr? := rfl

theorem Framed.mem_instrs_iff {size : Nat} {returns : Bool} {lines framed : List Line} {j : Asm}
    (h : Framed size returns lines framed) : j ∈ framed.filterMap Line.instr? ↔
      j ∈ lines.filterMap Line.instr? ∨
        (size ≠ 0 ∧ (j = .adjustSp (-Int32.ofNat size) ∨ j = .adjustSp (Int32.ofNat size))) := by
  cases h with
  | bare hsize => simp [hsize]
  | behind hsize =>
      simp only [Line.instrs_plain_cons, List.filterMap_append, List.filterMap_nil, List.mem_cons,
        List.mem_append, List.not_mem_nil, or_false, ne_eq, hsize, not_false_eq_true, true_and]
      exact or_left_comm
  | before hsize =>
      simp only [Line.instrs_plain_cons, List.filterMap_append, List.mem_cons,
        List.mem_append, ne_eq, hsize, not_false_eq_true, true_and]
      constructor
      · rintro (h | h | h | h)
        · exact Or.inr (Or.inl h)
        · exact Or.inl (Or.inl h)
        · exact Or.inr (Or.inr h)
        · exact Or.inl (Or.inr h)
      · rintro ((h | h) | h | h)
        · exact Or.inr (Or.inl h)
        · exact Or.inr (Or.inr (Or.inr h))
        · exact Or.inl h
        · exact Or.inr (Or.inr (Or.inl h))

theorem Framed.comments {size : Nat} {returns : Bool} {lines framed : List Line}
    (h : Framed size returns lines framed) :
    framed.filterMap Line.comment? = lines.filterMap Line.comment? := by
  cases h with
  | bare => rfl
  | behind =>
      rw [List.filterMap_cons_none rfl, List.filterMap_append]
      exact List.append_nil _
  | before =>
      rw [List.filterMap_cons_none rfl, List.filterMap_append, List.filterMap_append,
        List.filterMap_cons_none rfl]

namespace Listing

variable {d : Line} {lines : List Line} {frame : Nat} {returns : Bool} {l : Listing}

theorem insert_one (d line : Line) (lines : List Line) :
    Listing.insert ⟨d :: lines⟩ 1 line = .ok ⟨d :: line :: lines⟩ :=
  if_pos (Nat.le_add_left 1 lines.length)

theorem insert_before_last (d last line : Line) (lines : List Line) :
    Listing.insert ⟨d :: (lines ++ [last])⟩ (lines.length + 1) line =
      .ok ⟨d :: (lines ++ [line, last])⟩ := by
  rw [Listing.insert, if_pos (by simp [size])]
  simp

theorem exists_framed (hneg : frame ≠ 0 → Int32.ofNat frame ≠ Int32.minValue)
    (hne : returns = true → lines ≠ []) (d : Line) :
      ∃ framed, withFrame ⟨d :: lines⟩ frame returns = .ok ⟨d :: framed⟩ ∧
      Framed frame returns lines framed := by
  let opening := Line.plain (.adjustSp (-Int32.ofNat frame))
  let closing := Line.plain (.adjustSp (Int32.ofNat frame))
  by_cases hzero : frame = 0
  · exact ⟨lines, if_pos hzero, .bare hzero⟩
  · rw [withFrame, if_neg hzero, if_neg (hneg hzero), insert_one]
    cases returns with
    | false => exact ⟨_, rfl, .behind hzero⟩
    | true =>
        obtain ⟨front, last, rfl⟩ : ∃ front last, lines = front ++ [last] :=
          ⟨_, _, (List.dropLast_concat_getLast (hne rfl)).symm⟩
        have hsize : size ⟨d :: (opening :: front ++ [last])⟩ - 1 =
            (opening :: front).length + 1 := by
          simp [size]
        refine ⟨opening :: front ++ [closing, last], ?_, .before hzero⟩
        rw [← insert_before_last d last closing (opening :: front), ← hsize]
        rfl

theorem framed_of_withFrame (h : withFrame ⟨d :: lines⟩ frame returns = .ok l)
    (hne : returns = true → lines ≠ []) :
    ∃ framed, l = ⟨d :: framed⟩ ∧ Framed frame returns lines framed := by
  have hneg : frame ≠ 0 → Int32.ofNat frame ≠ Int32.minValue := by
    intro hzero heq
    rw [withFrame, if_neg hzero, if_pos heq] at h
    cases h
  obtain ⟨framed, hok, hframed⟩ := exists_framed hneg hne d
  rw [hok] at h
  cases h
  exact ⟨framed, rfl, hframed⟩

end Listing

/-! ### The size of the frame -/

section

variable {m n unit : Nat}

theorem le_roundUp (hunit : 0 < unit) : n ≤ roundUp n unit := by
  have hdiv := Nat.div_add_mod (n + unit - 1) unit
  have hmod := Nat.mod_lt (n + unit - 1) hunit
  rw [roundUp, Nat.mul_comm]
  omega

theorem roundUp_lt_add (hunit : 0 < unit) : roundUp n unit < n + unit := by
  have hdiv := Nat.div_mul_le_self (n + unit - 1) unit
  rw [roundUp]
  omega

theorem dvd_roundUp (n unit : Nat) : unit ∣ roundUp n unit := Nat.dvd_mul_left unit _

theorem roundUp_le (h : m ≤ n) (hunit : 0 < unit) (hdvd : unit ∣ n) : roundUp m unit ≤ n := by
  obtain ⟨k, rfl⟩ := hdvd
  obtain ⟨j, hj⟩ := dvd_roundUp m unit
  have hlt : unit * j < unit * (k + 1) := by
    rw [← hj, Nat.mul_succ]
    exact Nat.lt_of_lt_of_le (roundUp_lt_add hunit) (Nat.add_le_add_right h unit)
  rw [hj]
  exact Nat.mul_le_mul_left unit (Nat.lt_succ_iff.1 (Nat.lt_of_mul_lt_mul_left hlt))

theorem roundUp_of_dvd (hunit : 0 < unit) (hdvd : unit ∣ n) : roundUp n unit = n :=
  Nat.le_antisymm (roundUp_le (Nat.le_refl n) hunit hdvd) (le_roundUp hunit)

theorem exists_eq_two_pow (h : isPowerOfTwo n = true) : ∃ k < 32, n = 2 ^ k := by
  simp only [isPowerOfTwo, List.any_eq_true, List.mem_range, decide_eq_true_eq] at h
  obtain ⟨k, hk, rfl⟩ := h
  exact ⟨k, hk, Nat.one_shiftLeft k⟩

theorem roundUp_le_roundUp (h : m ≤ n) (unit : Nat) : roundUp m unit ≤ roundUp n unit := by
  refine Nat.mul_le_mul_right unit (Nat.div_le_div_right ?_)
  omega

end

theorem Allocator.frameSize_eq_ok_iff {a : Allocator} {size : Nat} :
    a.frameSize = .ok size ↔ size = roundUp a.depth a.alignment ∧ size < byteLimit := by
  rw [Allocator.frameSize]
  split
  · next hlt =>
      rw [Except.ok.injEq]
      constructor
      · intro h
        exact ⟨h.symm, h ▸ hlt⟩
      · intro h
        exact h.1.symm
  · next hlt =>
      constructor
      · intro h
        cases h
      · intro h
        exact absurd (h.1 ▸ h.2) hlt

/-- The trap that the size of a frame leads to: it does not fit a word, or it is the word without an
opposite. -/
def frameTrap? (size : Nat) : Option Trap :=
  if byteLimit ≤ size then some .frameOverflow else if size =
    2 ^ 31 then some .frameNegation else none

/-- Of the sizes that fit a word, only one looks like the most negative word. -/
theorem ofNat_eq_minValue_iff {size : Nat} (hlt : size < byteLimit) :
    Int32.ofNat size = Int32.minValue ↔ size = 2 ^ 31 := by
  constructor
  · intro h
    have hword := congrArg (fun word => word.toUInt32.toNat) h
    have hsize : (Int32.ofNat size).toUInt32.toNat = size % 2 ^ 32 := rfl
    have hmin : Int32.minValue.toUInt32.toNat = 2 ^ 31 := rfl
    have hlimit : byteLimit = 2 ^ 32 := rfl
    simp only [hsize, hmin] at hword
    omega
  · rintro rfl
    rfl

/-! ### Lowering -/

/-- The allocator that a program starts with. -/
def Options.allocator (o : Options) (p : Program) : Allocator :=
  (Allocator.initial o.poolSize.toNat o.slotSize.toNat o.slotSize.toNat
      (.ofProgram p)).withAlignment o.alignment.toNat

namespace Emitter

open Body

variable {lowered : Lowered} {draft : Listing} {a : Allocator} {returns : Bool}

theorem finish_eq (draft : Listing) (a : Allocator) (returns : Bool) :
    finish draft a returns = a.frameSize.bind fun size =>
      ((draft.withFrame size returns).mapError Failure.trapped).map fun listing =>
        ⟨listing, a.stores, a.reloads, a.spilled, size⟩ := by
  rw [finish, Allocator.stats]
  cases a.frameSize with
  | error f => rfl
  | ok size =>
      simp only [bind, Except.bind]
      cases draft.withFrame size returns <;> rfl

theorem finish_eq_ok_iff : finish draft a returns = .ok lowered ↔
    a.frameSize = .ok lowered.stats.frameSize ∧
      draft.withFrame lowered.stats.frameSize returns = .ok lowered.listing ∧
      lowered.stats = ⟨a.stores, a.reloads, a.spilled, lowered.stats.frameSize⟩ := by
  obtain ⟨listing, stats⟩ := lowered
  rw [finish_eq]
  cases a.frameSize with
  | error f => simp [Except.bind]
  | ok size =>
      simp only [Except.bind]
      constructor
      · intro h
        cases hlisting : draft.withFrame size returns with
        | error t =>
            rw [hlisting] at h
            cases h
        | ok l =>
            rw [hlisting] at h
            cases h
            exact ⟨rfl, hlisting, rfl⟩
      · intro ⟨hsize, hlisting, hstats⟩
        cases hsize
        rw [hlisting, hstats]
        rfl

theorem finish_eq_error_iff {d : Line} {lines : List Line} {f : Failure}
    (hne : returns = true → lines ≠ []) :
    finish ⟨d :: lines⟩ a returns = .error f ↔
      (frameTrap? (roundUp a.depth a.alignment)).map Failure.trapped = some f := by
  have heq := finish_eq ⟨d :: lines⟩ a returns
  rw [Allocator.frameSize] at heq
  generalize roundUp a.depth a.alignment = size at heq ⊢
  rw [heq, frameTrap?]
  by_cases hlimit : byteLimit ≤ size
  · rw [if_neg (Nat.not_lt.2 hlimit), if_pos hlimit]
    simp [Except.bind]
  · have hlt := Nat.lt_of_not_le hlimit
    rw [if_pos hlt, if_neg hlimit]
    by_cases hhalf : size = 2 ^ 31
    · have htrap : Listing.withFrame ⟨d :: lines⟩ size returns = .error .frameNegation := by
        rw [Listing.withFrame, if_neg (by omega), if_pos ((ofNat_eq_minValue_iff hlt).2 hhalf)]
      rw [if_pos hhalf]
      simp [Except.bind, htrap, Except.mapError, Except.map]
    · have hneg : size ≠ 0 → Int32.ofNat size ≠ Int32.minValue :=
        fun _ h => hhalf ((ofNat_eq_minValue_iff hlt).1 h)
      obtain ⟨framed, hok, _⟩ := Listing.exists_framed hneg hne d
      rw [if_neg hhalf]
      simp [Except.bind, hok, Except.mapError, Except.map]

end Emitter

/-! ### The allocator of a program -/

namespace Options

variable {o : Options} {p : Program}

theorem alignment_pos (hvalid : o.validate = .ok ()) : 0 < o.alignment.toNat := by
  have hpower := (validate_eq_ok_iff.1 hvalid).2.2.1.1
  refine Nat.pos_of_ne_zero fun hzero => ?_
  rw [hzero] at hpower
  revert hpower
  decide

theorem allocator_alignment (hvalid : o.validate = .ok ()) :
    (o.allocator p).alignment = o.alignment.toNat :=
  if_neg (Nat.ne_of_gt (alignment_pos hvalid))

theorem ready_allocator_of_pos (hslot : 0 < o.slotSize.toNat) (p : Program) :
    (o.allocator p).Ready p.vars (p.instrs.flatMap Instr.uses) := by
  have hpooled := Allocator.pooled_initial o.poolSize.toNat o.slotSize.toNat o.slotSize.toNat
    (.ofProgram p)
  have hstacked : (o.allocator p).Stacked :=
    (Allocator.stacked_initial hslot).congr rfl rfl (fun _ => rfl) fun _ hw => hw
  exact ⟨⟨hpooled.recency_perm, hpooled.mem_recency⟩, hstacked, PendingReads.tracks_ofProgram p,
    fun h => by cases h⟩

theorem ready_allocator (hvalid : o.validate = .ok ()) (p : Program) :
    (o.allocator p).Ready p.vars (p.instrs.flatMap Instr.uses) :=
  ready_allocator_of_pos (Nat.pos_of_ne_zero (validate_eq_ok_iff.1 hvalid).2.1.1) p

theorem queued_allocator (hvalid : o.validate = .ok ()) (p : Program) : (o.allocator p).Queued :=
  ⟨(ready_allocator hvalid p).stacked, fun j hj => by cases hj⟩

theorem offsets_allocator (o : Options) (p : Program) : (o.allocator p).offsets = [] := by
  rw [Allocator.offsets, show (o.allocator p).depth = 0 from rfl, Nat.zero_div]
  rfl

theorem roomy_allocator (hvalid : o.validate = .ok ())
    (hroom : o.slotSize.toNat * p.vars.length < byteLimit) : (o.allocator p).Roomy p.vars :=
  ⟨(validate_eq_ok_iff.1 hvalid).1.1, hroom⟩

end Options

theorem Program.within_vars {p : Program} : ∀ i ∈ p.instrs, i.Within p.vars := by
  intro i hi v hv
  exact Program.mem_vars.2 ⟨i, hi, hv⟩

namespace Emitter

open Body

variable {e : Emitter} {q : Program} {lowered : Lowered}

def body (e : Emitter) (q : Program) : Body :=
  emit (.ret e.options.returnRegister) 0 q.instrs (e.options.allocator q)

/-- A body without misplaced instructions fails only when the stack outgrows a word. -/
theorem body_eq_overflow (hvalid : e.options.validate = .ok ())
    (hplaced : ∀ i ∈ q.instrs, i.isMisplaced = false) {f : Failure}
    (h : (e.body q).outcome = .error f) : f = .trapped .depthOverflow :=
  (emit_eq_overflow (Options.ready_allocator hvalid q) (Options.validate_eq_ok_iff.1 hvalid).1.1
      Program.within_vars
    hplaced h).1

def draftOf (e : Emitter) (q : Program) : Listing :=
  ⟨.directive e.options.sectionDirective :: (e.body q).lines⟩

theorem create_eq (hvalid : e.options.validate = .ok ()) (q : Program) :
    ∃ a, Allocator.create e.options.poolSize.toNat e.options.slotSize.toNat (.ofProgram q) = .ok a ∧
      a.withAlignment e.options.alignment.toNat = e.options.allocator q := by
  obtain ⟨⟨hmin, hmax⟩, ⟨hslot, _⟩, _⟩ := Options.validate_eq_ok_iff.1 hvalid
  have hpool : ¬ (e.options.poolSize.toNat = 0 ∨ PoolReg.count < e.options.poolSize.toNat) := by
    rw [show PoolReg.count = 18 from rfl]
    omega
  refine ⟨_, ?_, rfl⟩
  rw [Allocator.create, if_neg hpool, if_neg hslot]

theorem outcome_lower_of_create {a : Allocator}
    (hcreate : Allocator.create e.options.poolSize.toNat e.options.slotSize.toNat (.ofProgram q) =
      .ok a)
    (halign : a.withAlignment e.options.alignment.toNat = e.options.allocator q) :
      (e.lower q).1.outcome =
      (e.body q).outcome.bind fun _ => finish (e.draftOf q)
      (e.body q).allocator q.endsInReturn := by
  rw [draftOf, body, ← halign]
  cases hbody : (emit (.ret e.options.returnRegister) 0 q.instrs
    (a.withAlignment e.options.alignment.toNat)).outcome with
  | error f =>
      simp only [lower, lowerWith, hcreate, hbody]
      rfl
  | ok =>
      simp only [lower, lowerWith, hcreate, hbody]
      split
      · next f hfinish => exact hfinish.symm
      · next lowered hfinish => exact hfinish.symm

theorem outcome_lower (hvalid : e.options.validate = .ok ()) (q : Program) : (e.lower q).1.outcome =
    (e.body q).outcome.bind fun _ => finish (e.draftOf q) (e.body q).allocator q.endsInReturn := by
  obtain ⟨a, hcreate, halign⟩ := create_eq hvalid q
  exact outcome_lower_of_create hcreate halign

theorem lower_eq_ok_iff (hvalid : e.options.validate = .ok ()) :
    (e.lower q).1.outcome = .ok lowered ↔
    (e.body q).outcome = .ok () ∧ finish (e.draftOf q) (e.body q).allocator q.endsInReturn =
    .ok lowered := by
  rw [outcome_lower hvalid]
  cases (e.body q).outcome <;> simp [Except.bind]

/-- A lowering that succeeds tells the count of the reads, what the allocator did, and what came of
it. -/
theorem events_lower (hvalid : e.options.validate = .ok ())
    (h : (e.lower q).1.outcome = .ok lowered) :
    (e.lower q).1.events = .counted (PendingReads.ofProgram q).size ::
      ((e.body q).allocator.journal ++ [closing lowered]) := by
  obtain ⟨hbody, hfinish⟩ := (lower_eq_ok_iff hvalid).1 h
  obtain ⟨a, hcreate, halign⟩ := create_eq hvalid q
  rw [draftOf, body, ← halign] at hfinish
  rw [body, ← halign] at hbody ⊢
  simp only [lower, lowerWith, hcreate, hbody, hfinish]
  rfl

theorem lines_body_ne_nil (hok : (e.body q).outcome = .ok ()) (hret : q.endsInReturn = true) :
    (e.body q).lines ≠ [] := by
  rw [Program.endsInReturn] at hret
  cases hlast : q.instrs.getLast? with
  | none =>
      rw [hlast] at hret
      cases hret
  | some i =>
      obtain ⟨front, asm, _, _, hlines, _⟩ := (emitted_of_emit hok).last hlast
      rw [body, hlines]
      simp

end Emitter

/-- The parts of a successful lowering: the lines of the body, the allocator behind them, and the
lines in their frame. -/
structure Assembled (o : Options) (q : Program) (l : Lowered) (lines framed : List Line)
    (b : Allocator) : Prop where
  body : Body.Emitted (.ret o.returnRegister) q.instrs (o.allocator q) lines b
  frameSize_eq : l.stats.frameSize = roundUp b.depth o.alignment.toNat
  frameSize_lt : l.stats.frameSize < byteLimit
  frame : Framed l.stats.frameSize q.endsInReturn lines framed
  listing_eq : l.listing = ⟨.directive o.sectionDirective :: framed⟩

namespace Assembled

variable {o : Options} {q : Program} {l : Lowered} {lines framed : List Line} {b : Allocator}

theorem instrs_listing (h : Assembled o q l lines framed b) :
    l.listing.instrs = framed.filterMap Line.instr? := by
  rw [h.listing_eq]
  rfl

theorem stacked (h : Assembled o q l lines framed b) (hvalid : o.validate = .ok ()) : b.Stacked :=
  (h.body.offsets_subset (Options.ready_allocator hvalid q).stacked).1

theorem offset_lt (h : Assembled o q l lines framed b) (hvalid : o.validate = .ok ()) {offset : Nat}
    (hoffset : offset ∈ b.offsets) : offset < l.stats.frameSize := by
  have hstack := h.stacked hvalid
  have hdepth := ((Allocator.mem_offsets hstack.slotSize_pos hstack.slotSize_dvd).1 hoffset).2
  rw [h.frameSize_eq]
  exact Nat.lt_of_lt_of_le hdepth (le_roundUp (Options.alignment_pos hvalid))

/-- The last slot is stored, and it starts less than two aligned blocks below the end of the
frame. -/
theorem exists_spill_last (h : Assembled o q l lines framed b) (hvalid : o.validate = .ok ())
    (hsize : l.stats.frameSize ≠ 0) :
    ∃ s offset, Asm.spill s offset ∈ lines.filterMap Line.instr? ∧
      l.stats.frameSize < offset + 2 * o.alignment.toNat := by
  have hstack := h.stacked hvalid
  have hslot : b.slotSize = o.slotSize.toNat := h.body.sameLayout.2.1
  have halign := Options.alignment_pos hvalid
  have hround := roundUp_lt_add (n := b.depth) halign
  have hle : o.slotSize.toNat ≤ o.alignment.toNat :=
    Nat.le_of_dvd halign (Nat.dvd_of_mod_eq_zero (Options.validate_eq_ok_iff.1 hvalid).2.2.1.2)
  have hdepth : b.depth ≠ 0 := by
    intro hzero
    rw [h.frameSize_eq, hzero, roundUp, Nat.zero_add, Nat.div_eq_of_lt (by omega),
      Nat.zero_mul] at hsize
    exact hsize rfl
  have hge : b.slotSize ≤ b.depth := Nat.le_of_dvd (Nat.pos_of_ne_zero hdepth) hstack.slotSize_dvd
  have hpos := hstack.slotSize_pos
  have hoffset : b.depth - b.slotSize ∈ b.offsets := by
    rw [Allocator.mem_offsets hstack.slotSize_pos hstack.slotSize_dvd]
    exact ⟨Nat.dvd_sub hstack.slotSize_dvd (Nat.dvd_refl _), by omega⟩
  have hnew : b.depth - b.slotSize ∉ (o.allocator q).offsets := by
    rw [Options.offsets_allocator]
    exact List.not_mem_nil
  obtain ⟨s, hs⟩ := h.body.exists_spill (Options.ready_allocator hvalid q).stacked hoffset hnew
  refine ⟨s, b.depth - b.slotSize, hs, ?_⟩
  rw [h.frameSize_eq]
  omega

end Assembled

namespace Emitter

open Body

variable {e : Emitter} {q : Program} {l : Lowered}

theorem emitted_body (hok : (e.body q).outcome = .ok ()) :
    Emitted (.ret e.options.returnRegister) q.instrs
    (e.options.allocator q) (e.body q).lines (e.body q).allocator := emitted_of_emit hok

theorem stacked_body (hvalid : e.options.validate = .ok ()) (hok : (e.body q).outcome = .ok ()) :
    (e.body q).allocator.Stacked :=
  ((emitted_body hok).offsets_subset (Options.ready_allocator hvalid q).stacked).1

theorem slotSize_body (hok : (e.body q).outcome = .ok ()) :
    (e.body q).allocator.slotSize = e.options.slotSize.toNat :=
  (emitted_body hok).sameLayout.2.1

theorem alignment_body (hvalid : e.options.validate = .ok ()) (hok : (e.body q).outcome = .ok ()) :
    (e.body q).allocator.alignment = e.options.alignment.toNat :=
  (emitted_body hok).sameLayout.2.2.trans (Options.allocator_alignment hvalid)

theorem stats_lower (hvalid : e.options.validate = .ok ()) (h : (e.lower q).1.outcome = .ok l) :
    l.stats = ⟨(e.body q).allocator.stores, (e.body q).allocator.reloads,
      (e.body q).allocator.spilled,
      roundUp (e.body q).allocator.depth e.options.alignment.toNat⟩ := by
  obtain ⟨hok, hfinish⟩ := (lower_eq_ok_iff hvalid).1 h
  obtain ⟨hsize, _, hstats⟩ := finish_eq_ok_iff.1 hfinish
  rw [hstats, (Allocator.frameSize_eq_ok_iff.1 hsize).1, alignment_body hvalid hok]

theorem frameSize_lower (hvalid : e.options.validate = .ok ()) (h : (e.lower q).1.outcome = .ok l) :
    l.stats.frameSize = roundUp (e.body q).allocator.depth e.options.alignment.toNat := by
  rw [stats_lower hvalid h]

theorem exists_assembled (hvalid : e.options.validate = .ok ())
    (h : (e.lower q).1.outcome = .ok l) :
    ∃ lines framed b, Assembled e.options q l lines framed b := by
  obtain ⟨hok, hfinish⟩ := (lower_eq_ok_iff hvalid).1 h
  obtain ⟨hsize, hframe, _⟩ := finish_eq_ok_iff.1 hfinish
  obtain ⟨framed, hlisting, hframed⟩ := Listing.framed_of_withFrame hframe (lines_body_ne_nil hok)
  rw [Allocator.frameSize_eq_ok_iff, alignment_body hvalid hok] at hsize
  exact ⟨_, framed, _, emitted_body hok, hsize.1, hsize.2, hframed, hlisting⟩

theorem lower_eq_error_iff (hvalid : e.options.validate = .ok ())
    (hok : (e.body q).outcome = .ok ()) {f : Failure} :
    (e.lower q).1.outcome = .error f ↔
      (frameTrap? (roundUp (e.body q).allocator.depth e.options.alignment.toNat)).map
      Failure.trapped = some f := by
  rw [outcome_lower hvalid, hok, ← alignment_body hvalid hok]
  exact finish_eq_error_iff (lines_body_ne_nil hok)

/-- A body whose frame stays below half of the words can be finished. -/
theorem exists_lowered (hvalid : e.options.validate = .ok ()) (hok : (e.body q).outcome = .ok ())
    (hsize : roundUp (e.body q).allocator.depth e.options.alignment.toNat < 2 ^ 31) :
    ∃ l, (e.lower q).1.outcome = .ok l := by
  have hlimit : byteLimit = 2 ^ 32 := rfl
  cases hlower : (e.lower q).1.outcome with
  | ok l => exact ⟨l, rfl⟩
  | error f =>
      rw [lower_eq_error_iff hvalid hok, frameTrap?, if_neg (by omega), if_neg (by omega)] at hlower
      cases hlower

end Emitter

/-! ### Compilations -/

theorem Options.outcome_compile {o : Options} (hvalid : o.validate = .ok ()) (p : Program) :
    (o.compile p).outcome =
    (Emitter.lower { options := o } (p.normalForm o.legalize)).1.outcome.map fun l =>
      .ofGenerated p.size ⟨l.listing, p.normalForm o.legalize, l.stats, p.unreachable,
        (PendingReads.ofProgram (p.normalForm o.legalize)).neverRead⟩ := by
  have hgenerate : (Emitter.generate { options := o } p).1.outcome =
      (Emitter.lower { options := o } (p.normalForm o.legalize)).1.outcome.map fun l =>
        ⟨l.listing, p.normalForm o.legalize, l.stats, p.unreachable,
          (PendingReads.ofProgram (p.normalForm o.legalize)).neverRead⟩ := rfl
  simp only [compile, hvalid, hgenerate]
  cases (Emitter.lower { options := o } (p.normalForm o.legalize)).1.outcome <;> rfl

theorem Options.compile_eq_ok_iff {o : Options} {p : Program} {c : Compilation} :
    (o.compile p).outcome = .ok c ↔ o.validate = .ok () ∧
      ∃ l, (Emitter.lower { options := o } (p.normalForm o.legalize)).1.outcome = .ok l ∧
        c = .ofGenerated p.size ⟨l.listing, p.normalForm o.legalize, l.stats, p.unreachable,
          (PendingReads.ofProgram (p.normalForm o.legalize)).neverRead⟩ := by
  cases hvalid : o.validate with
  | error fault => simp [compile, hvalid]
  | ok =>
      rw [outcome_compile hvalid]
      cases (Emitter.lower { options := o } (p.normalForm o.legalize)).1.outcome with
      | error f => simp [Except.map]
      | ok l => simp [Except.map, eq_comm]

theorem Options.compile_eq_error_iff {o : Options} {p : Program} {f : Failure}
    (hvalid : o.validate = .ok ()) :
    (o.compile p).outcome = .error f ↔
      (Emitter.lower { options := o } (p.normalForm o.legalize)).1.outcome = .error f := by
  rw [outcome_compile hvalid]
  cases (Emitter.lower { options := o } (p.normalForm o.legalize)).1.outcome <;> simp [Except.map]

/-- A compilation that succeeds tells the normal form, the events of its lowering, and the
warnings. -/
theorem Options.events_compile {o : Options} {p : Program} {c : Compilation}
    (h : (o.compile p).outcome = .ok c) :
    (o.compile p).events = .normalized p.size c.normalized.size p.unreachable ::
      ((Emitter.lower { options := o } c.normalized).1.events ++ c.warnings.map .warned) := by
  obtain ⟨hvalid, l, hlower, rfl⟩ := compile_eq_ok_iff.1 h
  have hgenerate : (Emitter.generate { options := o } p).1.outcome =
    .ok ⟨l.listing, p.normalForm o.legalize, l.stats,
      p.unreachable, (PendingReads.ofProgram (p.normalForm o.legalize)).neverRead⟩ :=
    congrArg (Except.map _) hlower
  simp only [compile, hvalid, hgenerate]
  rfl

/-- What is computed about the outcome of a compilation holds of what was compiled. -/
theorem Options.exists_compiled {o : Options} {p : Program} {α : Type}
    {fact : Compilation → α} {value : α}
    (h : (o.compile p).outcome.toOption.map fact = some value) :
    ∃ c, (o.compile p).outcome = .ok c ∧ fact c = value := by
  cases hcompile : (o.compile p).outcome with
  | error f =>
      rw [hcompile] at h
      cases h
  | ok c =>
      rw [hcompile] at h
      exact ⟨c, rfl, Option.some.inj h⟩

theorem Compilation.normalized_eq {o : Options} {p : Program} {c : Compilation}
    (h : (o.compile p).outcome = .ok c) : c.normalized = p.normalForm o.legalize := by
  obtain ⟨_, l, _, rfl⟩ := Options.compile_eq_ok_iff.1 h
  rfl

theorem Compilation.exists_assembled {o : Options} {p : Program} {c : Compilation}
    (h : (o.compile p).outcome = .ok c) : o.validate = .ok () ∧
      ∃ lines framed b, Assembled o (p.normalForm o.legalize) ⟨c.listing,
      c.stats⟩ lines framed b := by
  obtain ⟨hvalid, l, hlower, rfl⟩ := Options.compile_eq_ok_iff.1 h
  exact ⟨hvalid, Emitter.exists_assembled (e := { options := o }) hvalid hlower⟩

theorem Compilation.comments_listing {o : Options} {p : Program} {c : Compilation}
    (h : (o.compile p).outcome = .ok c) :
    c.listing.comments = c.normalized.instrs.map Instr.text := by
  obtain ⟨_, lines, framed, b, hassembled⟩ := exists_assembled h
  have hlisting : c.listing = ⟨.directive o.sectionDirective :: framed⟩ := hassembled.listing_eq
  rw [hlisting, Listing.comments, List.filterMap_cons_none rfl, hassembled.frame.comments,
    hassembled.body.comments, normalized_eq h]

end StraightLine
