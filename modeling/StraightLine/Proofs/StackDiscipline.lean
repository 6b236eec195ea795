import Mathlib.Data.Int.ModEq
import StraightLine.Proofs.Emission.Frame
import StraightLine.Proofs.Emission.Simulation

/-!
# Stack discipline

What a listing does with the stack. A listing without stores never names the stack pointer. Any
other listing moves it down in its first instruction and up again at the end, in front of the line
that returns if there is one. Everything that touches memory stands between the two moves and stays
inside the frame: its offset is the start of a slot, and the slot ends inside the frame.

No load finds a slot that was not stored before. The allocator reloads only from slots that it has
handed out, and a slot is handed out together with the store that fills it, so every offset in use
is stored by the code that was emitted or by the code that still waits. `LoadsStored` says this of a
piece of code that follows other code.
-/

namespace StraightLine

def Asm.access? : Asm → Option (Nat × Reg)
  | .lw _ offset base | .sw _ offset base => some (offset, base)
  | _ => none

/-- Every load is of an offset that was stored before, by the code itself or by what ran ahead of
it. -/
def LoadsStored (stored : List Nat) (code : List Asm) : Prop :=
  ∀ front rd offset base back, code = front ++ .lw rd offset base :: back →
    offset ∈ stored ∨ ∃ rs base', .sw rs offset base' ∈ front

namespace LoadsStored

variable {stored stored' : List Nat} {code front back : List Asm} {i : Asm}

theorem of_mem (h : ∀ rd offset base, .lw rd offset base ∈ code → offset ∈ stored) :
    LoadsStored stored code := by
  intro front rd offset base back heq
  refine Or.inl (h rd offset base ?_)
  rw [heq]
  exact List.mem_append_right front List.mem_cons_self

theorem append (hfront : LoadsStored stored front) (hback : LoadsStored stored' back)
    (hstored : ∀ o ∈ stored', o ∈ stored ∨ ∃ rs base, .sw rs o base ∈ front) :
    LoadsStored stored (front ++ back) := by
  intro pre rd offset base post heq
  obtain ⟨mid, rfl, hmid⟩ | ⟨mid, rfl, hmid⟩ := List.append_eq_append_iff.1 heq
  · obtain hoffset | ⟨rs, base', hsw⟩ := hback mid rd offset base post hmid
    · exact (hstored offset hoffset).imp_right fun ⟨rs, base', hsw⟩ => ⟨rs, base',
        List.mem_append_left mid hsw⟩
    · exact Or.inr ⟨rs, base', List.mem_append_right front hsw⟩
  · cases mid with
    | nil =>
        -- The load is the first instruction behind the front.
        rw [List.append_nil] at hstored
        obtain hoffset | ⟨rs, base', hsw⟩ := hback [] rd offset base post hmid.symm
        · exact hstored offset hoffset
        · cases hsw
    | cons j mid =>
        obtain ⟨rfl, _⟩ := List.cons.inj hmid
        exact hfront pre rd offset base mid rfl

theorem insert (h : LoadsStored stored (front ++ back)) (hi : i.access? = none) :
    LoadsStored stored (front ++ i :: back) := by
  intro pre rd offset base post heq
  obtain ⟨mid, rfl, hmid⟩ | ⟨mid, rfl, hmid⟩ := List.append_eq_append_iff.1 heq
  · cases mid with
    | nil =>
        obtain ⟨rfl, _⟩ := List.cons.inj hmid
        cases hi
    | cons j mid =>
        obtain ⟨rfl, rfl⟩ := List.cons.inj hmid
        refine (h (front ++ mid) rd offset base post (List.append_assoc ..).symm).imp_right ?_
        intro ⟨rs, base', hsw⟩
        obtain hsw | hsw := List.mem_append.1 hsw
        · exact ⟨rs, base', List.mem_append_left _ hsw⟩
        · exact ⟨rs, base', List.mem_append_right front (List.mem_cons_of_mem i hsw)⟩
  · cases mid with
    | nil =>
        obtain ⟨rfl, _⟩ := List.cons.inj hmid
        cases hi
    | cons j mid =>
        obtain ⟨rfl, _⟩ := List.cons.inj hmid
        exact h pre rd offset base (mid ++ back) (by rw [List.append_assoc, List.cons_append])

end LoadsStored

/-! ### Loads of the allocator -/

namespace Allocator

variable {a b : Allocator} {v : Var} {r : PoolReg} {excluded : List PoolReg} {grant : Grant}
  {stored : List Nat}

theorem loadsStored_reloadCode (h : ∀ o, a.slot? v = some o → o ∈ stored) :
    LoadsStored stored (a.reloadCode v r) := by
  refine .of_mem fun rd offset base hmem => ?_
  obtain ⟨o, heq, ho⟩ := mem_reloadCode hmem
  cases heq
  exact h offset ho

/-- Spill code loads only what was in use before, or what it stores itself. -/
theorem loadsStored_spillCode (hstack : a.Stacked) :
    LoadsStored a.offsets (a.spillCode v grant) := by
  have hold : ∀ o, a.slot? v = some o → o ∈ a.offsets := fun o ho => (hstack.filled o).2 ⟨v, ho⟩
  cases grant with
  | found how r =>
      cases how with
      | resident => exact .of_mem fun _ _ _ hmem => by cases hmem
      | free | retired => exact loadsStored_reloadCode hold
  | evict r u placement =>
      have hstore : LoadsStored a.offsets [Asm.spill r placement.offset] :=
        .of_mem fun _ _ _ hmem => by
        cases List.mem_singleton.1 hmem
      have hreload : LoadsStored (placement.offset :: a.offsets)
          ((a.store r u placement).reloadCode v r) := by
        refine loadsStored_reloadCode fun o ho => ?_
        rw [slot?_store] at ho
        split at ho
        · exact List.mem_cons.2 (Or.inl (Option.some.inj ho).symm)
        · split at ho
          · cases ho
          · exact List.mem_cons_of_mem _ (hold o ho)
      refine hstore.append hreload fun o ho => ?_
      obtain rfl | ho := List.mem_cons.1 ho
      · exact Or.inr ⟨.pool r, .sp, List.mem_singleton_self _⟩
      · exact Or.inl ho

/-- Every slot in use is stored by the waiting code or was stored before, and the waiting code loads
nothing else. -/
def Grounded (stored : List Nat) (a : Allocator) : Prop :=
  a.Stored stored ∧ LoadsStored stored a.queue

theorem Stored.exists_sw (h : a.Stored stored) :
    ∀ o ∈ a.offsets, o ∈ stored ∨ ∃ rs base, .sw rs o base ∈ a.queue :=
  fun o ho => (h.2 o ho).imp_right fun ⟨s, hs⟩ => ⟨.pool s, .sp, hs⟩

theorem Grounded.acquire (ha : a.Grounded stored) (h : a.acquire v excluded = (.ok r, b)) :
    b.Grounded stored := by
  refine ⟨ha.1.acquire h, ?_⟩
  obtain ⟨grant, _, _, rfl⟩ := acquire_eq_ok_iff.1 h
  rw [queue_settle]
  exact ha.2.append (loadsStored_spillCode ha.1.1) ha.1.exists_sw

theorem Grounded.consume (ha : a.Grounded stored) (h : a.consume v = (.ok (), b)) :
    b.Grounded stored := by
  refine ⟨ha.1.consume h, ?_⟩
  rw [queue_consume h]
  exact ha.2

end Allocator

/-! ### Instructions of a body -/

namespace Allocation

variable {ret : Reg} {i : Instr} {a b : Allocator} {asm : Asm}

theorem Selected.access?_eq_none (hsel : Selected ret i a asm b) : asm.access? = none := by
  cases hsel <;> rfl

theorem Selected.sp_not_mem_registers (hsel : Selected ret i a asm b) (hret : ret ≠ .sp) :
    .sp ∉ asm.registers := by
  cases hsel <;> simp [Asm.registers, hret.symm]

end Allocation

namespace Body

open Allocator

variable {ret : Reg} {is : List Instr} {a b : Allocator} {lines : List Line}

theorem Emitted.loadsStored (h : Emitted ret is a lines b) (ha : a.Stacked)
    (hqueue : a.queue = []) : LoadsStored a.offsets (lines.filterMap Line.instr?) := by
  induction h with
  | nil => exact .of_mem fun _ _ _ hmem => by cases hmem
  | @cons i rest a b c asm lines hsel hrest ih =>
      have hstart : a.Grounded a.offsets :=
        ⟨⟨ha, fun _ hmem => Or.inl hmem⟩,
          by rw [hqueue]; exact .of_mem fun _ _ _ hmem => by cases hmem⟩
      obtain ⟨hstored, hloads⟩ : b.Grounded a.offsets :=
        hsel.preserves Grounded.acquire Grounded.consume hstart
      have hrest : LoadsStored b.offsets (lines.filterMap Line.instr?) := ih hstored.1.drain rfl
      rw [List.filterMap_append, instrs_chunk, List.append_assoc, List.singleton_append]
      exact (hloads.append hrest hstored.exists_sw).insert hsel.access?_eq_none

end Body

/-! ### Whole listings -/

theorem Framed.loadsStored {size : Nat} {returns : Bool} {lines framed : List Line}
    {stored : List Nat} (h : Framed size returns lines framed)
    (hlines : LoadsStored stored (lines.filterMap Line.instr?)) :
    LoadsStored stored (framed.filterMap Line.instr?) := by
  cases h with
  | bare => exact hlines
  | behind =>
      rw [Line.instrs_plain_cons, List.filterMap_append]
      rw [← List.append_nil (lines.filterMap Line.instr?)] at hlines
      show LoadsStored stored ([] ++ .adjustSp _ :: _)
      exact LoadsStored.insert (hlines.insert rfl) rfl
  | before =>
      rw [Line.instrs_plain_cons, List.filterMap_append, Line.instrs_plain_cons]
      rw [List.filterMap_append] at hlines
      show LoadsStored stored ([] ++ .adjustSp _ :: _)
      exact LoadsStored.insert (hlines.insert rfl) rfl

namespace Assembled

open Allocator

variable {o : Options} {q : Program} {l : Lowered} {lines framed : List Line}
  {b : Allocator} {j : Asm}

theorem access_body (h : Assembled o q l lines framed b) (hvalid : o.validate = .ok ())
    (hj : j ∈ lines.filterMap Line.instr?) {offset : Nat} {base : Reg}
    (haccess : j.access? = some (offset, base)) :
    base = .sp ∧ o.slotSize.toNat ∣ offset ∧ offset + o.slotSize.toNat ≤ l.stats.frameSize := by
  obtain ⟨i, _, c, d, hsel⟩ | ⟨s, o', hcode, ho'⟩ :=
    h.body.mem_instrs (Options.queued_allocator hvalid q) hj
  · rw [hsel.access?_eq_none] at haccess
    cases haccess
  · have hpair : (offset, base) = (o', .sp) := by
      obtain rfl | rfl := hcode <;> exact (Option.some.inj haccess).symm
    cases hpair
    have hstack := h.stacked hvalid
    have hslot : b.slotSize = o.slotSize.toNat := h.body.sameLayout.2.1
    obtain ⟨hdvd, hlt⟩ := (mem_offsets hstack.slotSize_pos hstack.slotSize_dvd).1 ho'
    have hround := le_roundUp (n := b.depth) (Options.alignment_pos hvalid)
    have hend : offset + b.slotSize ≤ b.depth :=
      Nat.le_of_lt_add_of_dvd (Nat.add_lt_add_right hlt _)
        (Nat.dvd_add hdvd (Nat.dvd_refl _)) hstack.slotSize_dvd
    rw [hslot] at hdvd hend
    refine ⟨rfl, hdvd, ?_⟩
    rw [h.frameSize_eq]
    omega

/-- A frame has room exactly if something is stored in it. -/
theorem frameSize_pos_iff (h : Assembled o q l lines framed b) (hvalid : o.validate = .ok ()) :
    0 < l.stats.frameSize ↔ ∃ rs offset base, .sw rs offset base ∈ l.listing.instrs := by
  rw [h.instrs_listing]
  constructor
  · intro hpos
    obtain ⟨s, offset, hspill, _⟩ := h.exists_spill_last hvalid (Nat.ne_of_gt hpos)
    exact ⟨.pool s, offset, .sp, h.frame.mem_instrs_iff.2 (Or.inl hspill)⟩
  · intro ⟨rs, offset, base, hmem⟩
    obtain hmem | ⟨_, heq | heq⟩ := h.frame.mem_instrs_iff.1 hmem
    · have hend := (h.access_body hvalid hmem rfl).2.2
      have hslot := Nat.pos_of_ne_zero (Options.validate_eq_ok_iff.1 hvalid).2.1.1
      omega
    · cases heq
    · cases heq

theorem sp_not_mem_registers (h : Assembled o q l lines framed b) (hvalid : o.validate = .ok ())
    (hzero : l.stats.frameSize = 0) (hj : j ∈ l.listing.instrs) : .sp ∉ j.registers := by
  rw [h.instrs_listing, h.frame.mem_instrs_iff] at hj
  obtain hj | ⟨hne, _⟩ := hj
  · obtain ⟨i, _, c, d, hsel⟩ | ⟨s, offset, _, hoffset⟩ :=
      h.body.mem_instrs (Options.queued_allocator hvalid q) hj
    · exact hsel.sp_not_mem_registers (by simp)
    · have hlt := h.offset_lt hvalid hoffset
      omega
  · exact absurd hzero hne

/-- The two moves of the stack pointer enclose every access to memory. -/
theorem exists_enclosed (h : Assembled o q l lines framed b) (hsize : l.stats.frameSize ≠ 0) :
    ∃ inside rest, lines = inside ++ rest ∧ rest.length = (if q.endsInReturn then 1 else 0) ∧
      framed = .plain (.adjustSp (-Int32.ofNat l.stats.frameSize)) ::
        (inside ++ .plain (.adjustSp (Int32.ofNat l.stats.frameSize)) :: rest) ∧
      ∀ i ∈ rest.filterMap Line.instr?, i.access? = none := by
  have hframe := h.frame
  cases hends : q.endsInReturn with
  | false =>
      rw [hends] at hframe
      cases hframe with
      | bare hzero => exact absurd hzero hsize
      | behind => exact ⟨lines, [], (List.append_nil lines).symm, rfl, rfl, fun i hi => by cases hi⟩
  | true =>
      rw [hends] at hframe
      cases hframe with
      | bare hzero => exact absurd hzero hsize
      | @before front last =>
          refine ⟨front, [last], rfl, rfl, rfl, fun i hi => ?_⟩
          -- The last line of a body carries an instruction of the program, never spill code.
          obtain ⟨k, hk⟩ : ∃ k, q.instrs.getLast? = some k := by
            cases hlast : q.instrs.getLast? with
            | none => simp [Program.endsInReturn, hlast] at hends
            | some k => exact ⟨k, rfl⟩
          obtain ⟨front', asm, _, _, hlines, hsel⟩ := h.body.last hk
          obtain ⟨-, rfl⟩ : front = front' ∧ last = Line.commented asm k.text := by
            simpa using List.append_inj' hlines rfl
          cases List.mem_singleton.1 hi
          exact hsel.access?_eq_none

end Assembled

/-! ### Sizes as words -/

theorem toInt_ofNat_modEq (n : Nat) : (Int32.ofNat n).toInt ≡ n [ZMOD 2 ^ 32] := by
  rw [Int32.toInt_ofNat']
  exact Int.bmod_emod ..

theorem toInt_neg_ofNat_modEq (n : Nat) : (-Int32.ofNat n).toInt ≡ -n [ZMOD 2 ^ 32] := by
  rw [Int32.toInt_neg]
  exact Int.ModEq.trans (Int.bmod_emod ..) (toInt_ofNat_modEq n).neg

namespace Options

/-- **A listing uses the stack only inside its frame.** -/
theorem stack_discipline {o : Options} {p : Program} {c : Compilation}
    (h : (o.compile p).outcome = .ok c) :
    o.alignment.toNat ∣ c.stats.frameSize ∧
    (0 < c.stats.frameSize ↔ ∃ rs offset base, .sw rs offset base ∈ c.listing.instrs) ∧
    (c.stats.frameSize = 0 → ∀ i ∈ c.listing.instrs, .sp ∉ i.registers) ∧
    (0 < c.stats.frameSize → ∃ x y inside rest,
      c.listing.lines = .directive o.sectionDirective :: .plain (.addi .sp .sp x) ::
        (inside ++ .plain (.addi .sp .sp y) :: rest) ∧
      rest.length = (if c.normalized.endsInReturn then 1 else 0) ∧
      x.toInt ≡ -c.stats.frameSize [ZMOD 2 ^ 32] ∧ y.toInt ≡ c.stats.frameSize [ZMOD 2 ^ 32] ∧
      (∀ i ∈ (inside ++ rest).filterMap Line.instr?, i.dest? ≠ some .sp) ∧
      (∀ i ∈ rest.filterMap Line.instr?, i.access? = none) ∧
      ∀ i ∈ inside.filterMap Line.instr?, ∀ offset base, i.access? = some (offset, base) →
        base = .sp ∧ o.slotSize.toNat ∣ offset ∧ offset + o.slotSize.toNat ≤ c.stats.frameSize) ∧
    LoadsStored [] c.listing.instrs := by
  obtain ⟨hvalid, lines, framed, b, hassembled⟩ := Compilation.exists_assembled h
  refine ⟨?_, hassembled.frameSize_pos_iff hvalid, ?_, fun hpos => ?_, ?_⟩
  · have hsize : c.stats.frameSize = roundUp b.depth o.alignment.toNat := hassembled.frameSize_eq
    rw [hsize]
    exact dvd_roundUp ..
  · intro hzero i hi
    exact hassembled.sp_not_mem_registers hvalid hzero hi
  · obtain ⟨inside, rest, rfl, hrest, rfl, hlast⟩ := hassembled.exists_enclosed (Nat.ne_of_gt hpos)
    rw [← Compilation.normalized_eq h] at hrest
    refine ⟨_, _, inside, rest, congrArg Listing.lines hassembled.listing_eq, hrest,
      toInt_neg_ofNat_modEq _, toInt_ofNat_modEq _, ?_, hlast, fun i hi offset base haccess => ?_⟩
    · exact hassembled.body.dest?_ne_sp (Options.queued_allocator hvalid _) (by simp)
    · refine hassembled.access_body hvalid ?_ haccess
      rw [List.filterMap_append]
      exact List.mem_append_left _ hi
  · have hloads := hassembled.body.loadsStored (Options.ready_allocator hvalid _).stacked rfl
    rw [offsets_allocator] at hloads
    have hlisting : c.listing.instrs = framed.filterMap Line.instr? := hassembled.instrs_listing
    rw [hlisting]
    exact hassembled.frame.loadsStored hloads

/-- The returned variable is reloaded behind the last store and in front of the move that closes the
frame. -/
theorem stack_discipline_reloaded :
    let o : Options := { poolSize := 3, alignment := 16 }
    let p : Program := ⟨[.mov ⟨"a"⟩ (.imm 1), .mov ⟨"b"⟩ (.imm 2), .mov ⟨"c"⟩ (.imm 3),
      .mov ⟨"d"⟩ (.imm 4), .binary .add ⟨"b"⟩ (.var ⟨"b"⟩) (.var ⟨"c"⟩),
      .binary .mul ⟨"b"⟩ (.var ⟨"b"⟩) (.var ⟨"d"⟩), .ret (.var ⟨"a"⟩)]⟩
    ∃ c, (o.compile p).outcome = .ok c ∧ c.stats.frameSize = 16 ∧
      ∃ x y inside last, c.listing.lines = .directive ".text" :: .plain (.addi .sp .sp x) ::
          (inside ++ [.plain (.addi .sp .sp y), last]) ∧
        x.toInt ≡ -16 [ZMOD 2 ^ 32] ∧ y.toInt ≡ 16 [ZMOD 2 ^ 32] ∧
        .lw (.pool ⟨2⟩) 0 .sp ∈ inside.filterMap Line.instr? ∧
            ∃ rs base, .sw rs 0 base ∈ c.listing.instrs := by
  intro o p
  have hfacts : (o.compile p).outcome.toOption.map
      (fun c => (c.stats.frameSize, c.normalized.endsInReturn,
        decide (.lw (.pool ⟨2⟩) 0 .sp ∈ c.listing.instrs))) = some (16, true, true) := by decide
  obtain ⟨c, hcompile, hvalues⟩ := exists_compiled hfacts
  obtain ⟨hsize, hends, hload⟩ : c.stats.frameSize = 16 ∧ c.normalized.endsInReturn = true ∧
      .lw (.pool ⟨2⟩) 0 .sp ∈ c.listing.instrs := by
    simpa using hvalues
  obtain ⟨_, _, _, henclosed, hstored⟩ := stack_discipline hcompile
  obtain ⟨x, y, inside, rest, hlines, hrest, hx, hy, _, hlast, _⟩ := henclosed (by omega)
  rw [hends, if_pos rfl] at hrest
  rw [hsize] at hx hy
  obtain ⟨last, rfl⟩ := List.length_eq_one_iff.1 hrest
  refine ⟨c, hcompile, hsize, x, y, inside, last, hlines, hx, hy, ?_, ?_⟩
  · rw [Listing.instrs, hlines, List.filterMap_cons_none rfl, Line.instrs_plain_cons,
      List.filterMap_append, Line.instrs_plain_cons] at hload
    simp only [List.mem_cons, List.mem_append, reduceCtorEq, false_or] at hload
    obtain hload | hload := hload
    · exact hload
    · cases hlast _ hload
  · obtain ⟨front, back, hsplit⟩ := List.append_of_mem hload
    obtain hnone | ⟨rs, base, hsw⟩ := hstored front _ 0 .sp back hsplit
    · cases hnone
    · exact ⟨rs, base, by rw [hsplit]; exact List.mem_append_left _ hsw⟩

end Options

end StraightLine
