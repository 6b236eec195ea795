import StraightLine.Proofs.Allocator.Lockstep
import StraightLine.Proofs.Emission.Frame

/-!
# Emission in lockstep

Names of variables reach a listing only through its comments. An emission from an allocator can be
repeated, for the renamed program, from an allocator in lockstep with it: one selection after the
other makes the same choices. The slots of the second allocator may have another size, as long as
there is room for as many of them. With slots of the same size the lines are the same but for the
comments, and so is the whole lowering, whether it succeeds or not.
-/

namespace StraightLine

namespace Allocation

open Allocator

variable {σ : Var → Var} {scope reads : List Var} {ret : Reg} {i : Instr}
  {a b c : Allocator} {asm : Asm}

theorem Selected.slotCount_le (h : Selected ret i a asm b) : a.slotCount ≤ b.slotCount := by
  refine h.preserves (P := fun b => a.slotCount ≤ b.slotCount)
    (fun hb hacq => Nat.le_trans hb (slotCount_le_acquire hacq)) (fun hb hcon => ?_) (Nat.le_refl _)
  obtain ⟨pending, _, rfl⟩ := consume_eq_ok_iff.1 hcon
  exact hb

theorem Selected.lockstep (hsel : Selected ret i a asm c)
    (h : Lockstep σ scope (i.uses ++ reads) a b) (hinj : Set.InjOn σ {v | v ∈ scope})
    (hin : i.Within scope) (hfits : c.FitsAt b.slotSize) :
    ∃ d, Selected ret (i.rename σ) b asm d ∧ Lockstep σ scope reads c d := by
  cases hsel with
  | retWord => exact ⟨b, .retWord, h⟩
  | retVar hv hrel =>
      have hvIn := hin.use List.mem_cons_self
      obtain ⟨b₁, hv', _, h₁⟩ := h.acquire hinj hvIn hv (hfits.of_consume hrel)
      obtain ⟨b₂, hrel', h₂⟩ := h₁.consume hinj hvIn hrel
      exact ⟨b₂, .retVar hv' hrel', h₂⟩
  | movWord hdst =>
      obtain ⟨b₁, hdst', _, h₁⟩ := h.acquire hinj (hin.dst rfl) hdst hfits
      exact ⟨b₁, .movWord hdst', h₁⟩
  | movVar hsrc hdst hrel =>
      have hsrcIn := hin.use List.mem_cons_self
      have hfits₂ := hfits.of_consume hrel
      obtain ⟨b₁, hsrc', hsize₁, h₁⟩ := h.acquire hinj hsrcIn hsrc (hfits₂.of_acquire hdst)
      obtain ⟨b₂, hdst', _, h₂⟩ := h₁.acquire hinj (hin.dst rfl) hdst (hsize₁ ▸ hfits₂)
      obtain ⟨b₃, hrel', h₃⟩ := h₂.consume hinj hsrcIn hrel
      exact ⟨b₃, .movVar hsrc' hdst' hrel', h₃⟩
  | withWord hop hlhs hdst hrel =>
      have hlhsIn := hin.use List.mem_cons_self
      have hfits₂ := hfits.of_consume hrel
      obtain ⟨b₁, hlhs', hsize₁, h₁⟩ := h.acquire hinj hlhsIn hlhs (hfits₂.of_acquire hdst)
      obtain ⟨b₂, hdst', _, h₂⟩ := h₁.acquire hinj (hin.dst rfl) hdst (hsize₁ ▸ hfits₂)
      obtain ⟨b₃, hrel', h₃⟩ := h₂.consume hinj hlhsIn hrel
      exact ⟨b₃, .withWord hop hlhs' hdst' hrel', h₃⟩
  | withVar hlhs hrhs hdst hrelL hrelR =>
      have hlhsIn := hin.use List.mem_cons_self
      have hrhsIn := hin.use (List.mem_cons_of_mem _ List.mem_cons_self)
      have hfits₃ := (hfits.of_consume hrelR).of_consume hrelL
      have hfits₂ := hfits₃.of_acquire hdst
      obtain ⟨b₁, hlhs', hsize₁, h₁⟩ := h.acquire hinj hlhsIn hlhs (hfits₂.of_acquire hrhs)
      obtain ⟨b₂, hrhs', hsize₂, h₂⟩ := h₁.acquire hinj hrhsIn hrhs (hsize₁ ▸ hfits₂)
      obtain ⟨b₃, hdst', _, h₃⟩ :=
        h₂.acquire hinj (hin.dst rfl) hdst ((hsize₂.trans hsize₁) ▸ hfits₃)
      obtain ⟨b₄, hrelL', h₄⟩ := h₃.consume hinj hlhsIn hrelL
      obtain ⟨b₅, hrelR', h₅⟩ := h₄.consume hinj hrhsIn hrelR
      exact ⟨b₅, .withVar hlhs' hrhs' hdst' hrelL' hrelR', h₅⟩

end Allocation

/-! ### Lines without their comments -/

/-- The line with the text of its comment left out. -/
def Line.muted : Line → Line
  | .code instr (some _) => .commented instr ""
  | line => line

def Listing.muted (l : Listing) : Listing := ⟨l.lines.map Line.muted⟩

theorem Listing.instrs_muted (l : Listing) : l.muted.instrs = l.instrs := by
  have hline : ∀ line : Line, line.muted.instr? = line.instr? := by
    rintro (text | ⟨asm, _ | comment⟩) <;> rfl
  rw [instrs, instrs, muted, List.filterMap_map]
  exact congrArg (List.filterMap · l.lines) (funext hline)

namespace Body

open Allocator

variable {σ : Var → Var} {scope : List Var} {ret : Reg} {is : List Instr} {a b c : Allocator}
  {lines : List Line}

theorem muted_chunk (queue : List Asm) (asm : Asm) (i j : Instr) :
    (chunk queue asm i).map Line.muted = (chunk queue asm j).map Line.muted := by
  rw [chunk, chunk, List.map_append, List.map_append]
  rfl

theorem Emitted.slotCount_le (h : Emitted ret is a lines b) : a.slotCount ≤ b.slotCount := by
  induction h with
  | nil => exact Nat.le_refl _
  | cons hsel _ ih => exact Nat.le_trans hsel.slotCount_le ih

/-- An emission can be repeated under other names. With slots of the same size only the comments
change. -/
theorem Emitted.lockstep (hemit : Emitted ret is a lines c)
    (h : Lockstep σ scope (is.flatMap Instr.uses) a b) (hinj : Set.InjOn σ {v | v ∈ scope})
    (hin : ∀ i ∈ is, i.Within scope) (hfits : c.FitsAt b.slotSize) :
    ∃ lines' d, Emitted ret (is.map (Instr.rename σ)) b lines' d ∧ Lockstep σ scope [] c d ∧
      (b.slotSize = a.slotSize → lines'.map Line.muted = lines.map Line.muted) := by
  induction hemit generalizing b with
  | nil => exact ⟨[], b, .nil, h, fun _ => rfl⟩
  | @cons i rest a a' c asm lines hsel hrest ih =>
      rw [List.flatMap_cons] at h
      have hfits' : a'.FitsAt b.slotSize :=
        Nat.lt_of_le_of_lt (Nat.mul_le_mul_right _ hrest.slotCount_le) hfits
      obtain ⟨b', hsel', h'⟩ := hsel.lockstep h hinj (hin i List.mem_cons_self) hfits'
      have hsize' : b'.slotSize = b.slotSize := hsel'.sameLayout.2.1
      obtain ⟨lines', d, hrest', hd, hlines⟩ :=
        ih h'.drain (fun j hj => hin j (List.mem_cons_of_mem i hj)) (hsize'.symm ▸ hfits)
      refine ⟨_, d, .cons hsel' hrest', hd, fun hsize => ?_⟩
      have hsizes : b'.slotSize = a'.slotSize := by rw [hsize', hsize, hsel.sameLayout.2.1]
      rw [List.map_append, List.map_append, hlines hsizes, h'.costs.queue_eq hsizes,
        muted_chunk a'.queue asm (i.rename σ) i]

end Body

/-! ### Whole bodies -/

namespace Emitter

open Body Allocator

variable {σ : Var → Var} {e e' : Emitter} {q : Program}

theorem lockstep_allocator (hvalid : e.options.validate = .ok ())
    (hvalid' : e'.options.validate = .ok ()) (hpool : e'.options.poolSize = e.options.poolSize)
    (hinj : Set.InjOn σ {v | v ∈ q.vars}) :
    Lockstep σ q.vars (q.instrs.flatMap Instr.uses) (e.options.allocator q)
      (e'.options.allocator (q.rename σ)) := by
  have hempty : ∀ (o : Options) (p : Program), (o.allocator p).slotCount = 0 :=
    fun o p => Nat.zero_div _
  refine ⟨⟨Options.ready_allocator hvalid q, (Options.ready_allocator hvalid' _).stacked, ?_,
    ?_, fun _ => rfl, fun _ => rfl, fun v hv => PendingReads.remaining?_ofProgram_rename hinj hv⟩,
    rfl, rfl, rfl, fun _ => rfl⟩
  · rw [hempty, hempty]
  · show pool e'.options.poolSize.toNat = pool e.options.poolSize.toNat
    rw [hpool]

theorem body_lockstep (hvalid : e.options.validate = .ok ())
    (hvalid' : e'.options.validate = .ok ()) (hpool : e'.options.poolSize = e.options.poolSize)
    (hret : e'.options.returnRegister = e.options.returnRegister)
    (hinj : Set.InjOn σ {v | v ∈ q.vars}) (hok : (e.body q).outcome = .ok ())
    (hfits : (e.body q).allocator.FitsAt e'.options.slotSize.toNat) :
    (e'.body (q.rename σ)).outcome = .ok () ∧
      Lockstep σ q.vars [] (e.body q).allocator (e'.body (q.rename σ)).allocator ∧
      (e'.options.slotSize = e.options.slotSize →
        (e'.body (q.rename σ)).lines.map Line.muted = (e.body q).lines.map Line.muted) := by
  obtain ⟨lines, d, hemit, hlockstep, hlines⟩ := (emitted_body hok).lockstep
    (lockstep_allocator hvalid hvalid' hpool hinj) hinj Program.within_vars hfits
  have hbody : e'.body (q.rename σ) = ⟨lines, d, .ok ()⟩ := by
    rw [body, hret]
    exact emit_of_emitted hemit 0
  rw [hbody]
  exact ⟨rfl, hlockstep, fun hsize => hlines (congrArg UInt32.toNat hsize)⟩

end Emitter

/-! ### Whole listings -/

namespace Listing

theorem size_muted (l : Listing) : l.muted.size = l.size := List.length_map _

theorem insert_muted (l : Listing) (index : Nat) (asm : Asm) :
    l.muted.insert index (.plain asm) = (l.insert index (.plain asm)).map muted := by
  rw [insert, insert, size_muted]
  split
  · simp [muted, Except.map, Line.plain, Line.muted]
  · rfl

theorem push_muted (l : Listing) (asm : Asm) :
    l.muted.push (.plain asm) = (l.push (.plain asm)).muted := by
  simp [push, muted, Line.plain, Line.muted]

/-- A frame does not look at comments. -/
theorem withFrame_muted (l : Listing) (frame : Nat) (returns : Bool) :
    l.muted.withFrame frame returns = (l.withFrame frame returns).map muted := by
  rw [withFrame, withFrame, insert_muted]
  split
  · rfl
  · split
    · rfl
    · cases l.insert 1 (.plain (.adjustSp (-Int32.ofNat frame))) with
      | error t => rfl
      | ok opened =>
          simp only [Except.map, bind, Except.bind, size_muted]
          cases returns with
          | true => exact insert_muted ..
          | false => exact congrArg Except.ok (push_muted ..)

end Listing

def Stats.rename (σ : Var → Var) (s : Stats) : Stats :=
  { s with spilled := Var.sorted (s.spilled.map σ) }

def Lowered.muted (l : Lowered) : Lowered := { l with listing := l.listing.muted }

theorem Instr.isMisplaced_rename (σ : Var → Var) (i : Instr) :
    (i.rename σ).isMisplaced = i.isMisplaced := by
  obtain ⟨dst, src⟩ | ⟨op, dst, lhs | x, rhs | y⟩ | ⟨value⟩ := i <;> rfl

theorem Program.rename_not_misplaced {σ : Var → Var} {q : Program}
    (h : ∀ i ∈ q.instrs, i.isMisplaced = false) :
    ∀ i ∈ (q.rename σ).instrs, i.isMisplaced = false := by
  intro j hj
  obtain ⟨i, hi, rfl⟩ := List.mem_map.1 hj
  rw [i.isMisplaced_rename, h i hi]

namespace Emitter

open Body Allocator

variable {σ : Var → Var} {e : Emitter} {q : Program} {draft draft' : Listing} {a b : Allocator}
  {returns : Bool}

theorem finish_lockstep {scope reads : List Var} (h : Lockstep σ scope reads a b)
    (hdepth : b.depth = a.depth) (halign : b.alignment = a.alignment)
    (hdraft : draft'.muted = draft.muted) :
    (finish draft' b returns).map Lowered.muted =
      (finish draft a returns).map fun l => Lowered.muted { l with stats := l.stats.rename σ } := by
  have hsize : b.frameSize = a.frameSize := by rw [frameSize, frameSize, hdepth, halign]
  rw [finish_eq, finish_eq, hsize, h.costs.stores_eq, h.costs.reloads_eq, h.costs.spilled_eq]
  cases a.frameSize with
  | error f => rfl
  | ok frame =>
      have hframe : (draft'.withFrame frame returns).map Listing.muted =
          (draft.withFrame frame returns).map Listing.muted := by
        rw [← Listing.withFrame_muted, ← Listing.withFrame_muted, hdraft]
      simp only [Except.bind]
      cases hl : draft.withFrame frame returns <;> cases hl' :
        draft'.withFrame frame returns <;> rw [hl, hl'] at hframe
      · cases hframe
        rfl
      · cases hframe
      · cases hframe
      · have hlisting := Except.ok.inj hframe
        simp only [Except.mapError, Except.map, Lowered.muted, Stats.rename, hlisting]

theorem lower_rename_of_ok (hvalid : e.options.validate = .ok ())
    (hinj : Set.InjOn σ {v | v ∈ q.vars}) (hok : (e.body q).outcome = .ok ()) :
      (e.body (q.rename σ)).outcome = .ok () ∧
      (e.lower (q.rename σ)).1.outcome.map Lowered.muted =
        (e.lower q).1.outcome.map fun l => Lowered.muted { l with stats := l.stats.rename σ } := by
  have hstack := stacked_body hvalid hok
  have hfits : (e.body q).allocator.FitsAt e.options.slotSize.toNat := by
    rw [FitsAt, ← slotSize_body hok, hstack.slotCount_mul]
    exact hstack.depth_lt
  obtain ⟨hok', hlockstep, hlines⟩ := body_lockstep hvalid hvalid rfl rfl hinj hok hfits
  have hdepth : (e.body (q.rename σ)).allocator.depth = (e.body q).allocator.depth := by
    rw [← hlockstep.mirrors.stacked.slotCount_mul, ← hstack.slotCount_mul,
      hlockstep.mirrors.slotCount_eq, slotSize_body hok, slotSize_body hok']
  have halign : (e.body (q.rename σ)).allocator.alignment = (e.body q).allocator.alignment := by
    rw [alignment_body hvalid hok', alignment_body hvalid hok]
  have hdraft : (e.draftOf (q.rename σ)).muted = (e.draftOf q).muted := by
    simp only [draftOf, Listing.muted, List.map_cons, hlines rfl]
  refine ⟨hok', ?_⟩
  rw [outcome_lower hvalid, outcome_lower hvalid, hok, hok', Program.endsInReturn_rename]
  exact finish_lockstep hlockstep hdepth halign hdraft

/-- **Names do not matter.** Lowering a renamed program gives the same listing but for the comments,
the same costs but for the names of the spilled variables, or the same failure. -/
theorem lower_rename (hvalid : e.options.validate = .ok ()) (hinj : Set.InjOn σ {v | v ∈ q.vars})
    (hplaced : ∀ i ∈ q.instrs, i.isMisplaced = false) :
      (e.lower (q.rename σ)).1.outcome.map Lowered.muted =
      (e.lower q).1.outcome.map fun l => Lowered.muted { l with stats := l.stats.rename σ } := by
  cases hbody : (e.body q).outcome with
  | ok => exact (lower_rename_of_ok hvalid hinj hbody).2
  | error f =>
      have hf := body_eq_overflow hvalid hplaced hbody
      cases hbody' : (e.body (q.rename σ)).outcome with
      | error f' =>
          have hf' := body_eq_overflow hvalid (Program.rename_not_misplaced hplaced) hbody'
          rw [outcome_lower hvalid, outcome_lower hvalid, hbody, hbody', hf, hf']
          rfl
      | ok =>
          -- Giving the names back would emit the body that cannot be emitted.
          obtain ⟨τ, hinj', hback⟩ := Program.exists_inverse hinj
          have hself := (lower_rename_of_ok hvalid hinj' hbody').1
          rw [hback, hbody] at hself
          cases hself

end Emitter

end StraightLine
