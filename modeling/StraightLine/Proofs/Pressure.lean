import StraightLine.Proofs.Allocator.Crowding
import StraightLine.Proofs.NormalForm
import StraightLine.Proofs.StackDiscipline

/-!
# Register pressure

How much a program needs at each of its places, read off its text. `needed` are the variables of the
instruction at a place and the ones from in front of it that are still read; `waiting` are the
variables still read there that occur in front of the place or are read at it. If nowhere more is
needed than the pool has registers, a compilation spills nothing and leaves the stack alone. In any
case the frame has at most as many slots as variables wait at once.

Both follow from what the allocator meets when an instruction asks it for a register. It has come to
that place with registers and slots of variables from in front of the place only, the operands that
are seated already belong to the instruction, and the pending reads are the ones from the place on,
since an instruction consumes its reads after its last request.
-/

namespace StraightLine

namespace Program

def before (p : Program) (k : Nat) : Finset Var :=
  ((p.instrs.take k).flatMap Instr.occurrences).toFinset

def readFrom (p : Program) (k : Nat) : Finset Var := ((p.instrs.drop k).flatMap Instr.uses).toFinset

def occurringAt (p : Program) (k : Nat) : Finset Var :=
  (p.instrs[k]?.toList.flatMap Instr.occurrences).toFinset

def readAt (p : Program) (k : Nat) : Finset Var := (p.instrs[k]?.toList.flatMap Instr.uses).toFinset

/-- The variables of the instruction at a place, and those from in front of it that are still
read. -/
def needed (p : Program) (k : Nat) : Finset Var := p.occurringAt k ∪ (p.before k ∩ p.readFrom k)

/-- The variables still read at a place that occur in front of it or are read there. -/
def waiting (p : Program) (k : Nat) : Finset Var := p.readFrom k ∩ (p.before k ∪ p.readAt k)

def peak (p : Program) : Nat := ((List.range p.size).map fun k => (p.waiting k).card).max?.getD 0

variable {p : Program} {k : Nat} {i : Instr} {rest : List Instr} {v : Var}

theorem card_waiting_le_peak (hk : k < p.size) : (p.waiting k).card ≤ p.peak :=
  List.le_max?_getD_of_mem (List.mem_map_of_mem (List.mem_range.2 hk))

theorem getElem?_of_drop (h : p.instrs.drop k = i :: rest) : p.instrs[k]? = some i := by
  rw [← List.head?_drop, h, List.head?_cons]

theorem lt_size_of_drop (h : p.instrs.drop k = i :: rest) : k < p.size :=
  (List.getElem?_eq_some_iff.1 (getElem?_of_drop h)).1

theorem drop_succ_of_drop (h : p.instrs.drop k = i :: rest) : p.instrs.drop (k + 1) = rest := by
  rw [← List.tail_drop, h, List.tail_cons]

theorem mem_of_drop (h : p.instrs.drop k = i :: rest) : i ∈ p.instrs :=
  List.mem_of_getElem? (getElem?_of_drop h)

theorem mem_occurringAt (h : p.instrs.drop k = i :: rest) :
    v ∈ p.occurringAt k ↔ v ∈ i.occurrences := by
  rw [occurringAt, getElem?_of_drop h, List.mem_toFinset]
  simp

theorem mem_readAt (h : p.instrs.drop k = i :: rest) : v ∈ p.readAt k ↔ v ∈ i.uses := by
  rw [readAt, getElem?_of_drop h, List.mem_toFinset]
  simp

theorem mem_before_succ (h : p.instrs.drop k = i :: rest) :
    v ∈ p.before (k + 1) ↔ v ∈ p.before k ∨ v ∈ i.occurrences := by
  rw [before, before, List.take_add_one, getElem?_of_drop h]
  simp

theorem within_of_drop (h : p.instrs.drop k = i :: rest) : i.Within p.vars :=
  within_vars i (mem_of_drop h)

theorem waiting_subset_needed (h : p.instrs.drop k = i :: rest) : p.waiting k ⊆ p.needed k := by
  intro v hv
  rw [waiting, Finset.mem_inter, Finset.mem_union] at hv
  rw [needed, Finset.mem_union, Finset.mem_inter]
  obtain ⟨hread, hbefore | hat⟩ := hv
  · exact Or.inr ⟨hbefore, hread⟩
  · rw [mem_readAt h] at hat
    exact Or.inl ((mem_occurringAt h).2 (List.mem_append_right _ hat))

end Program

/-! ### What a request meets -/

namespace Allocator

/-- The allocator has come to a place of a program: it is ready for the reads from there on, and
only variables from in front of the place have a register or a slot. -/
structure Arrived (a : Allocator) (q : Program) (k : Nat) : Prop where
  ready : a.Ready q.vars ((q.instrs.drop k).flatMap Instr.uses)
  before : ∀ {w}, a.Keeps w → w ∈ q.before k

end Allocator

namespace Allocation

open Allocator

variable {ret : Reg} {i : Instr} {rest : List Instr} {a b c : Allocator} {asm : Asm}
  {us : List Var} {v w : Var} {held : List PoolReg} {q : Program} {k : Nat}

theorem Seated.keeps (h : Seated a us c held) (hw : c.Keeps w) : w ∈ us ∨ a.Keeps w := by
  induction h with
  | nil => exact Or.inr hw
  | snoc _ hv ih =>
      rw [List.mem_append, List.mem_singleton]
      obtain rfl | hw := keeps_acquire hv hw
      · exact Or.inl (Or.inr rfl)
      · exact (ih hw).imp_left Or.inl

/-- A variable with a pending read that has a register or a slot during a selection waits at its
place. -/
theorem Asks.mem_waiting (h : Asks i a c v held) (ha : a.Arrived q k)
    (hk : q.instrs.drop k = i :: rest) (hw : c.Keeps w) (hlive : c.pending.Live w) :
    w ∈ q.waiting k := by
  -- The counts at a request are still those of the place, since reads are consumed behind the last
  -- request.
  have hready := h.ready ha.ready (Program.within_of_drop hk)
  rw [Program.waiting, Finset.mem_inter, Finset.mem_union, Program.readFrom, List.mem_toFinset,
    Program.mem_readAt hk]
  refine ⟨hready.tracks.mem_of_live hlive, ?_⟩
  obtain ⟨us, hsub, hus⟩ := h.exists_seated
  obtain hw | hw := hus.keeps hw
  · exact Or.inr (hsub hw)
  · exact Or.inl (ha.before hw)

/-- Every request of a selection is covered by what its place needs. -/
theorem Asks.covers (h : Asks i a c v held) (ha : a.Arrived q k)
    (hk : q.instrs.drop k = i :: rest) : Covers (q.needed k) c v held := by
  have hoccurs : ∀ {w}, w ∈ i.occurrences → w ∈ q.needed k := fun hw =>
    Finset.mem_union_left _ ((Program.mem_occurringAt hk).2 hw)
  refine ⟨hoccurs h.mem_occurrences, fun s hs => ?_, fun hw hlive => ?_⟩
  · obtain ⟨us, hsub, hus⟩ := h.exists_seated
    obtain ⟨w, hw, hheld⟩ := hus.exists_held hs
    exact ⟨w, hoccurs (List.mem_append_right _ (hsub hw)), hheld⟩
  · exact Program.waiting_subset_needed hk (h.mem_waiting ha hk hw hlive)

theorem Selected.arrived (hsel : Selected ret i a asm b) (ha : a.Arrived q k)
    (hk : q.instrs.drop k = i :: rest) : b.drain.2.Arrived q (k + 1) := by
  have hin := Program.within_of_drop hk
  have hready := ha.ready
  rw [hk, List.flatMap_cons] at hready
  have hkeeps : ∀ {w}, b.Keeps w → w ∈ q.before (k + 1) := by
    refine hsel.preserves_of_asks (P := fun c => ∀ {w}, c.Keeps w → w ∈ q.before (k + 1)) ?_ ?_ ?_
    · intro c d v held r hasks hc hacq w hw
      obtain rfl | hw := keeps_acquire hacq hw
      · exact (Program.mem_before_succ hk).2 (Or.inr hasks.mem_occurrences)
      · exact hc hw
    · intro c d v hc hcon w hw
      obtain ⟨pending, _, rfl⟩ := consume_eq_ok_iff.1 hcon
      exact hc hw
    · intro w hw
      exact (Program.mem_before_succ hk).2 (Or.inl (ha.before hw))
  refine ⟨?_, hkeeps⟩
  rw [Program.drop_succ_of_drop hk]
  exact (hsel.ready hready hin).drain

end Allocation

/-! ### Whole bodies -/

namespace Body

open Allocation Allocator

variable {ret : Reg} {is : List Instr} {a b : Allocator} {lines : List Line} {q : Program} {k : Nat}

/-- The slots of a body stay below the peak of its program. -/
theorem Emitted.depth_le_peak (h : Emitted ret is a lines b) (hk : q.instrs.drop k = is)
    (ha : a.Arrived q k) (hdepth : a.depth ≤ a.slotSize * q.peak) :
    b.depth ≤ b.slotSize * q.peak := by
  induction h generalizing k with
  | nil => exact hdepth
  | @cons i rest a b c asm lines hsel _ ih =>
      have hpeak := Program.card_waiting_le_peak (Program.lt_size_of_drop hk)
      have hin := Program.within_of_drop hk
      refine ih (Program.drop_succ_of_drop hk) (hsel.arrived ha hk) ?_
      refine hsel.preserves_of_asks (P := fun c => c.depth ≤ c.slotSize * q.peak) ?_ ?_ hdepth
      · intro c d v held r hasks hc hacq
        have hgrown := (hasks.ready ha.ready hin).stacked.depth_acquire_le
          (hasks.mem_waiting ha hk) hacq
        rw [(sameLayout_acquire hacq).2.1]
        exact Nat.le_trans hgrown (Nat.max_le.2 ⟨hc, Nat.mul_le_mul_left _ hpeak⟩)
      · intro c d v hc hcon
        obtain ⟨pending, _, rfl⟩ := consume_eq_ok_iff.1 hcon
        exact hc

theorem Emitted.recorded (h : Emitted ret is a lines b) (ha : a.Recorded) : b.Recorded := by
  induction h with
  | nil => exact ha
  | cons hsel _ ih =>
      have hb := hsel.preserves (P := Recorded) Recorded.acquire Recorded.consume ha
      exact ih hb.drain

theorem exists_selected_unspilled {i : Instr} {rest : List Instr} (hk : q.instrs.drop k = i :: rest)
    (ha : a.Arrived q k) (hun : a.Unspilled) (hfits : (q.needed k).card ≤ a.poolSize)
    (hplaced : i.isMisplaced = false) (ret : Reg) :
    ∃ asm b, Selected ret i a asm b ∧ b.Unspilled := by
  have hin := Program.within_of_drop hk
  have hready := ha.ready
  rw [hk, List.flatMap_cons] at hready
  rcases hrun : (select ret 0 i).run a with ⟨f | asm, b⟩
  · obtain ⟨c, v, held, hasks, herror⟩ := asks_of_run_select hready hin hplaced hrun
    have hc := hasks.ready hready hin
    rw [← hasks.sameLayout.1] at hfits
    exact absurd herror ((hasks.covers ha hk).acquire_ne_error hc.pooled hc.knows hfits)
  · have hsel := run_select_eq_ok_iff.1 hrun
    refine ⟨asm, b, hsel, hsel.preserves_of_asks (P := Unspilled)
      (fun hasks hc hacq => ?_) Unspilled.consume hun⟩
    rw [← hasks.sameLayout.1] at hfits
    exact hc.acquire (hasks.covers ha hk) (hasks.ready hready hin).pooled hfits hacq

theorem exists_emitted_unspilled (hk : q.instrs.drop k = is) (ha : a.Arrived q k)
    (hun : a.Unspilled) (hfits : ∀ k < q.size, (q.needed k).card ≤ a.poolSize)
    (hplaced : ∀ i ∈ q.instrs, i.isMisplaced = false) (ret : Reg) :
    ∃ lines b, Emitted ret is a lines b ∧ b.Unspilled := by
  induction is generalizing k a with
  | nil => exact ⟨[], a, .nil, hun⟩
  | cons i rest ih =>
      obtain ⟨asm, b, hsel, hb⟩ :=
        exists_selected_unspilled hk ha hun (hfits k (Program.lt_size_of_drop hk))
        (hplaced i (Program.mem_of_drop hk)) ret
      have hroom : ∀ k < q.size, (q.needed k).card ≤ b.drain.2.poolSize :=
        hsel.sameLayout.1.symm ▸ hfits
      obtain ⟨lines, c, hrest, hc⟩ := ih (Program.drop_succ_of_drop hk)
        (hsel.arrived ha hk) hb.drain hroom
      exact ⟨_, c, .cons hsel hrest, hc⟩

end Body

/-! ### Whole listings -/

theorem Assembled.access?_eq_none {o : Options} {q : Program} {l : Lowered}
    {lines framed : List Line} {b : Allocator} {j : Asm} (h : Assembled o q l lines framed b)
    (hvalid : o.validate = .ok ()) (hzero : l.stats.frameSize = 0) (hj : j ∈ l.listing.instrs) :
    j.access? = none := by
  rw [h.instrs_listing, h.frame.mem_instrs_iff] at hj
  obtain hj | ⟨hne, _⟩ := hj
  · cases haccess : j.access? with
    | none => rfl
    | some access =>
        have hend := (h.access_body hvalid hj haccess).2.2
        have hslot := (Options.validate_eq_ok_iff.1 hvalid).2.1.1
        omega
  · exact absurd hzero hne

namespace Options

open Body

variable {o : Options} {p : Program}

theorem arrived_allocator (hvalid : o.validate = .ok ()) (q : Program) :
    (o.allocator q).Arrived q 0 := by
  refine ⟨ready_allocator hvalid q, fun hw => ?_⟩
  obtain ⟨r, hr⟩ | ⟨s, hs⟩ := hw
  · cases hr
  · cases hs

theorem unspilled_allocator (o : Options) (q : Program) : (o.allocator q).Unspilled :=
  ⟨fun _ => rfl, rfl, rfl, rfl, rfl⟩

theorem recorded_allocator (o : Options) (q : Program) : (o.allocator q).Recorded :=
  fun _ _ ho => by cases ho

/-- **Nothing is spilled while every place needs at most the pool.** -/
theorem spills_nothing_below_pressure (hvalid : o.validate = .ok ())
    (hfits : ∀ k < (p.normalForm o.legalize).size, ((p.normalForm o.legalize).needed k).card ≤
      o.poolSize.toNat) :
    ∃ c, (o.compile p).outcome = .ok c ∧
      c.stats = { stores := 0, reloads := 0, spilled := [], frameSize := 0 } ∧
      ∀ j ∈ c.listing.instrs, j.access? = none ∧ .sp ∉ j.registers := by
  let e : Emitter := { options := o }
  let q := p.normalForm o.legalize
  obtain ⟨lines, b, hemitted, hb⟩ := exists_emitted_unspilled rfl (arrived_allocator hvalid q)
    (unspilled_allocator o q)
    hfits Program.normalForm_not_misplaced (.ret o.returnRegister)
  have hbody : e.body q = ⟨lines, b, .ok ()⟩ := emit_of_emitted hemitted 0
  have hok : (e.body q).outcome = .ok () := by rw [hbody]
  have hframe : roundUp (e.body q).allocator.depth o.alignment.toNat = 0 := by
    rw [hbody, hb.depth_eq]
    exact roundUp_of_dvd (alignment_pos hvalid) (Nat.dvd_zero _)
  obtain ⟨l, hl⟩ := Emitter.exists_lowered (e := e) hvalid hok (by rw [hframe]; decide)
  have hstats : l.stats = ⟨0, 0, [], 0⟩ := by
    rw [Emitter.stats_lower hvalid hl, hframe, hbody, hb.stores_eq, hb.reloads_eq, hb.spilled_eq]
  have hzero : l.stats.frameSize = 0 := by rw [hstats]
  obtain ⟨lines, framed, b, hassembled⟩ := Emitter.exists_assembled hvalid hl
  refine ⟨_, compile_eq_ok_iff.2 ⟨hvalid, l, hl, rfl⟩, hstats, fun j hj => ?_⟩
  exact ⟨hassembled.access?_eq_none hvalid hzero hj,
    hassembled.sp_not_mem_registers hvalid hzero hj⟩

/-- Five variables share three registers, which three of the instructions fill to the last one. -/
theorem spills_nothing_below_pressure_full :
    let o : Options := { poolSize := 3 }
    let p : Program := ⟨[.mov ⟨"a"⟩ (.imm 1), .mov ⟨"b"⟩ (.imm 2),
      .binary .add ⟨"c"⟩ (.var ⟨"a"⟩) (.var ⟨"b"⟩), .binary .mul ⟨"d"⟩ (.var ⟨"c"⟩) (.var ⟨"a"⟩),
      .binary .sub ⟨"e"⟩ (.var ⟨"d"⟩) (.var ⟨"c"⟩), .ret (.var ⟨"e"⟩)]⟩
    let q := p.normalForm o.legalize
    o.validate = .ok () ∧ (∀ k < q.size, (q.needed k).card ≤ 3) ∧ (q.needed 4).card = 3 ∧
      q.vars.length = 5 ∧
      ∃ c, (o.compile p).outcome = .ok c ∧
        c.stats = { stores := 0, reloads := 0, spilled := [], frameSize := 0 } ∧
        ∀ j ∈ c.listing.instrs, j.access? = none ∧ .sp ∉ j.registers := by
  intro o p q
  have hvalid : o.validate = .ok () := by decide
  have hfits : ∀ k < q.size, (q.needed k).card ≤ 3 := by decide +kernel
  exact ⟨hvalid, hfits, by decide +kernel, by decide +kernel,
    spills_nothing_below_pressure hvalid hfits⟩

/-- **The frame is bounded by what waits at once, and by what was spilled.** -/
theorem frame_within_peak {c : Compilation} (h : (o.compile p).outcome = .ok c) :
    c.stats.frameSize ≤ roundUp (o.slotSize.toNat * (p.normalForm o.legalize).peak)
      o.alignment.toNat ∧
      c.stats.frameSize ≤ roundUp (o.slotSize.toNat * c.stats.spilled.toFinset.card)
      o.alignment.toNat := by
  obtain ⟨hvalid, l, hl, rfl⟩ := compile_eq_ok_iff.1 h
  obtain ⟨hok, _⟩ := (Emitter.lower_eq_ok_iff hvalid).1 hl
  have hemitted := Emitter.emitted_body hok
  have hslot := Emitter.slotSize_body hok
  have hpeak := hemitted.depth_le_peak rfl (arrived_allocator hvalid _) (Nat.zero_le _)
  have hspilled := (hemitted.recorded (recorded_allocator o _)).depth_le
    (Emitter.stacked_body hvalid hok)
  rw [hslot] at hpeak hspilled
  show l.stats.frameSize ≤ _ ∧ l.stats.frameSize ≤ roundUp (_ * l.stats.spilled.toFinset.card) _
  rw [Emitter.stats_lower hvalid hl]
  exact ⟨roundUp_le_roundUp hpeak _, roundUp_le_roundUp hspilled _⟩

/-- Four variables wait at once in each half. The second half spills two more variables and finds
slots for them in the frame of the first one, which is as large as the peak allows. -/
theorem frame_within_peak_reused :
    let o : Options := { poolSize := 3, alignment := 8 }
    let p : Program := ⟨[.mov ⟨"a"⟩ (.imm 1), .mov ⟨"b"⟩ (.imm 2), .mov ⟨"c"⟩ (.imm 3),
      .mov ⟨"d"⟩ (.imm 4), .binary .add ⟨"e"⟩ (.var ⟨"a"⟩) (.var ⟨"b"⟩),
      .binary .add ⟨"c"⟩ (.var ⟨"c"⟩) (.var ⟨"d"⟩), .mov ⟨"f"⟩ (.imm 5), .mov ⟨"g"⟩ (.imm 6),
      .mov ⟨"h"⟩ (.imm 7), .binary .add ⟨"c"⟩ (.var ⟨"c"⟩) (.var ⟨"f"⟩),
      .binary .add ⟨"g"⟩ (.var ⟨"g"⟩) (.var ⟨"h"⟩), .binary .add ⟨"c"⟩ (.var ⟨"c"⟩) (.var ⟨"g"⟩),
      .ret (.var ⟨"c"⟩)]⟩
    (p.normalForm o.legalize).peak = 4 ∧ ∃ c, (o.compile p).outcome = .ok c ∧
      c.stats.frameSize = 16 ∧
      c.stats.spilled.toFinset.card = 6 ∧ c.stats.frameSize ≤ roundUp (4 * 4) 8 ∧
      c.stats.frameSize ≤ roundUp (4 * 6) 8 := by
  intro o p
  have hpeak : (p.normalForm o.legalize).peak = 4 := by decide +kernel
  have hfacts : (o.compile p).outcome.toOption.map
      (fun c => (c.stats.frameSize, c.stats.spilled.toFinset.card)) =
      some (16, 6) := by decide +kernel
  obtain ⟨c, hcompile, hvalues⟩ := exists_compiled hfacts
  obtain ⟨hsize, hspilled⟩ : c.stats.frameSize = 16 ∧ c.stats.spilled.toFinset.card = 6 := by
    simpa using hvalues
  have hbounds := frame_within_peak hcompile
  rw [hpeak, hspilled] at hbounds
  exact ⟨hpeak, c, hcompile, hsize, hspilled, hbounds⟩

end Options

end StraightLine
