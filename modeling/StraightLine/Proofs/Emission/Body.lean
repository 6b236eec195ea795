import StraightLine.Emission.Body
import StraightLine.Proofs.Emission.Select

/-!
# Emitted bodies

`Emitted` is a successful emission as a derivation: one selection after the other, each followed by
the lines of its queue and of its instruction. Facts about whole bodies are proved along it, from
what one selection keeps. The emitted lines hold nothing but selected instructions and stores and
reloads of slots that are in use at the end, and every slot in use at the end has been stored.

From a ready allocator, emission fails only at the first misplaced instruction if there is room, and
only for want of room if nothing is misplaced.
-/

namespace StraightLine

namespace Allocator

variable {a b : Allocator} {v : Var} {r : PoolReg} {excluded : List PoolReg} {base : List Nat}

theorem offsets_consume (h : a.consume v = (.ok (), b)) : b.offsets = a.offsets := by
  obtain ⟨pending, _, rfl⟩ := consume_eq_ok_iff.1 h
  rfl

theorem queue_consume (h : a.consume v = (.ok (), b)) : b.queue = a.queue := by
  obtain ⟨pending, _, rfl⟩ := consume_eq_ok_iff.1 h
  rfl

theorem Stacked.of_consume (hstack : a.Stacked) (h : a.consume v = (.ok (), b)) : b.Stacked := by
  have hb := hstack.consume v
  rw [h] at hb
  exact hb

theorem offsets_subset_acquire (hstack : a.Stacked) (h : a.acquire v excluded = (.ok r, b)) :
    a.offsets ⊆ b.offsets := by
  intro o ho
  have hb := hstack.acquire h
  rw [mem_offsets hstack.slotSize_pos hstack.slotSize_dvd] at ho
  rw [mem_offsets hb.slotSize_pos hb.slotSize_dvd, (sameLayout_acquire h).2.1]
  exact ⟨ho.1, Nat.lt_of_lt_of_le ho.2 (depth_le_acquire h)⟩

/-- The tables are in order and the queue holds only stores and reloads of slots in use. -/
def Queued (a : Allocator) : Prop :=
  a.Stacked ∧ ∀ j ∈ a.queue, ∃ s o, (j = Asm.spill s o ∨ j = Asm.reload s o) ∧ o ∈ a.offsets

theorem Queued.acquire (ha : a.Queued) (h : a.acquire v excluded = (.ok r, b)) : b.Queued := by
  have hb := ha.1.acquire h
  refine ⟨hb, fun j hj => ?_⟩
  have hsub := offsets_subset_acquire ha.1 h
  obtain ⟨grant, _, _, rfl⟩ := acquire_eq_ok_iff.1 h
  rw [queue_settle, List.mem_append] at hj
  obtain hj | hj := hj
  · obtain ⟨s, o, hj, ho⟩ := ha.2 j hj
    exact ⟨s, o, hj, hsub ho⟩
  · obtain ⟨s, o, w, hj, hw⟩ := mem_spillCode hj
    exact ⟨s, o, hj, (hb.filled o).2 ⟨w, hw⟩⟩

theorem Queued.consume (ha : a.Queued) (h : a.consume v = (.ok (), b)) : b.Queued := by
  refine ⟨ha.1.of_consume h, ?_⟩
  rw [queue_consume h, offsets_consume h]
  exact ha.2

/-- Every slot that was not in use before is stored by the waiting code. -/
def Stored (base : List Nat) (a : Allocator) : Prop :=
  a.Stacked ∧ ∀ o ∈ a.offsets, o ∈ base ∨ ∃ s, Asm.spill s o ∈ a.queue

theorem Stored.acquire (ha : a.Stored base) (h : a.acquire v excluded = (.ok r, b)) :
    b.Stored base := by
  have hb := ha.1.acquire h
  refine ⟨hb, fun o ho => ?_⟩
  obtain ⟨grant, hgrants, _, rfl⟩ := acquire_eq_ok_iff.1 h
  rw [queue_settle]
  have hold : o ∈ a.offsets → o ∈ base ∨ ∃ s, Asm.spill s o ∈ a.queue ++ a.spillCode v grant := by
    intro hmem
    exact (ha.2 o hmem).imp_right fun ⟨s, hs⟩ => ⟨s, List.mem_append_left _ hs⟩
  rw [mem_offsets hb.slotSize_pos hb.slotSize_dvd, slotSize_settle] at ho
  cases grant with
  | found how r =>
      rw [depth_settle_found, ← mem_offsets ha.1.slotSize_pos ha.1.slotSize_dvd] at ho
      exact hold ho
  | evict r u placement =>
      rw [depth_settle_evict, hgrants.places.dvd_and_lt_depthAfter ha.1] at ho
      obtain ho | rfl := ho
      · exact hold ho
      · exact Or.inr ⟨r, List.mem_append_right _ List.mem_cons_self⟩

theorem Stored.consume (ha : a.Stored base) (h : a.consume v = (.ok (), b)) : b.Stored base := by
  refine ⟨ha.1.of_consume h, ?_⟩
  rw [queue_consume h, offsets_consume h]
  exact ha.2

end Allocator

/-! ### Views of a line -/

def Line.comment? : Line → Option String
  | .directive _ => none
  | .code _ comment => comment

def Line.plain? : Line → Option Asm
  | .code instr none => some instr
  | _ => none

def Listing.comments (l : Listing) : List String := l.lines.filterMap Line.comment?

def Listing.plainInstrs (l : Listing) : List Asm := l.lines.filterMap Line.plain?

namespace Body

open Allocation Allocator

/-- A successful emission: the instructions, the allocator before, the lines, and the allocator
after. -/
inductive Emitted (ret : Reg) : List Instr → Allocator → List Line → Allocator → Prop
  | nil {a : Allocator} : Emitted ret [] a [] a
  | cons {i : Instr} {rest : List Instr} {a b c : Allocator} {asm : Asm} {lines : List Line}
      (hsel : Selected ret i a asm b) (hrest : Emitted ret rest b.drain.2 lines c) :
      Emitted ret (i :: rest) a (chunk b.queue asm i ++ lines) c

variable {ret : Reg} {index : Nat} {i : Instr} {is : List Instr} {a b : Allocator} {asm j : Asm}
  {lines : List Line} {scope : List Var} {f : Failure}

theorem emit_cons_of_selected (hsel : Selected ret i a asm b) (index : Nat) (rest : List Instr) :
    emit ret index (i :: rest) a = { emit ret (index + 1) rest b.drain.2 with
      lines := chunk b.queue asm i ++ (emit ret (index + 1) rest b.drain.2).lines } := by
  rw [emit, run_select_eq_ok_iff.2 hsel]
  rfl

theorem emitted_of_emit (h : (emit ret index is a).outcome = .ok ()) :
    Emitted ret is a (emit ret index is a).lines (emit ret index is a).allocator := by
  induction is generalizing index a with
  | nil => exact .nil
  | cons i rest ih =>
      rcases hrun : (select ret index i).run a with ⟨f | asm, b⟩
      · rw [emit, hrun] at h
        cases h
      · have hsel := run_select_eq_ok_iff.1 hrun
        rw [emit_cons_of_selected hsel] at h ⊢
        exact .cons hsel (ih h)

theorem emit_of_emitted (h : Emitted ret is a lines b) (index : Nat) :
    emit ret index is a = ⟨lines, b, .ok ()⟩ := by
  induction h generalizing index with
  | nil => rfl
  | cons hsel _ ih => rw [emit_cons_of_selected hsel, ih]

theorem Emitted.of_append {js : List Instr} {c : Allocator} (h : Emitted ret (is ++ js) a lines c) :
    ∃ front back b, Emitted ret is a front b ∧ Emitted ret js b back c ∧ lines = front ++ back := by
  induction is generalizing a lines with
  | nil => exact ⟨[], lines, a, .nil, h, rfl⟩
  | cons k is ih =>
      cases h with
      | cons hsel hrest =>
          obtain ⟨front, back, b, hfront, hback, rfl⟩ := ih hrest
          exact ⟨_, back, b, .cons hsel hfront, hback, (List.append_assoc ..).symm⟩

@[simp] theorem instrs_chunk (queue : List Asm) (asm : Asm) (i : Instr) :
    (chunk queue asm i).filterMap Line.instr? = queue ++ [asm] := by
  have hplain : Line.instr? ∘ Line.plain = some := rfl
  rw [chunk, List.filterMap_append, List.filterMap_map, hplain, List.filterMap_some]
  rfl

@[simp] theorem comments_chunk (queue : List Asm) (asm : Asm) (i : Instr) :
    (chunk queue asm i).filterMap Line.comment? = [i.text] := by
  have hplain : (queue.map Line.plain).filterMap Line.comment? = [] := by
    rw [List.filterMap_eq_nil_iff]
    intro line hline
    obtain ⟨asm, _, rfl⟩ := List.mem_map.1 hline
    rfl
  rw [chunk, List.filterMap_append, hplain]
  rfl

@[simp] theorem plainInstrs_chunk (queue : List Asm) (asm : Asm) (i : Instr) :
    (chunk queue asm i).filterMap Line.plain? = queue := by
  have hplain : Line.plain? ∘ Line.plain = some := rfl
  rw [chunk, List.filterMap_append, List.filterMap_map, hplain, List.filterMap_some]
  exact List.append_nil queue

theorem mem_chunk_append {queue : List Asm} {line : Line} : line ∈ chunk queue asm i ++ lines ↔
    (∃ j ∈ queue, line = .plain j) ∨ line = .commented asm i.text ∨ line ∈ lines := by
  simp [chunk, eq_comm]

theorem mem_instrs_chunk_append {queue : List Asm} :
    j ∈ (chunk queue asm i ++ lines).filterMap Line.instr? ↔
    j ∈ queue ∨ j = asm ∨ j ∈ lines.filterMap Line.instr? := by
  rw [List.filterMap_append, instrs_chunk, List.append_assoc, List.mem_append,
    List.singleton_append, List.mem_cons]

theorem Emitted.comments (h : Emitted ret is a lines b) :
    lines.filterMap Line.comment? = is.map Instr.text := by
  induction h with
  | nil => rfl
  | cons _ _ ih =>
      rw [List.filterMap_append, ih, comments_chunk]
      rfl

theorem Emitted.sameLayout (h : Emitted ret is a lines b) : SameLayout a b := by
  induction h with
  | nil => exact .refl _
  | cons hsel _ ih => exact hsel.sameLayout.trans ih

theorem Emitted.ready (h : Emitted ret is a lines b) (ha : a.Ready scope (is.flatMap Instr.uses))
    (hin : ∀ i ∈ is, i.Within scope) : b.Ready scope [] := by
  induction h with
  | nil => exact ha
  | @cons i rest _ _ _ _ _ hsel _ ih =>
      rw [List.flatMap_cons] at ha
      have hready := hsel.ready ha (hin i List.mem_cons_self)
      exact ih hready.drain fun j hj => hin j (List.mem_cons_of_mem i hj)

theorem Emitted.offsets_subset (h : Emitted ret is a lines b) (ha : a.Stacked) :
    b.Stacked ∧ a.offsets ⊆ b.offsets := by
  induction h with
  | nil => exact ⟨ha, List.Subset.refl _⟩
  | @cons _ _ a _ _ _ _ hsel _ ih =>
      have hstep := hsel.preserves (P := fun b => b.Stacked ∧ a.offsets ⊆ b.offsets)
        (fun hb hacq => ⟨hb.1.acquire hacq,
          List.Subset.trans hb.2 (offsets_subset_acquire hb.1 hacq)⟩)
        (fun hb hcon => ⟨hb.1.of_consume hcon, (offsets_consume hcon).symm ▸ hb.2⟩) ⟨ha,
            List.Subset.refl _⟩
      obtain ⟨hc, hsub⟩ := ih hstep.1.drain
      exact ⟨hc, List.Subset.trans hstep.2 hsub⟩

/-- An emitted line is a selected instruction, or stores or reloads a slot that is in use at the
end. -/
theorem Emitted.mem_instrs (h : Emitted ret is a lines b) (ha : a.Queued)
    (hj : j ∈ lines.filterMap Line.instr?) :
    (∃ i ∈ is, ∃ c d, Selected ret i c j d) ∨
      ∃ s o, (j = Asm.spill s o ∨ j = Asm.reload s o) ∧ o ∈ b.offsets := by
  induction h with
  | nil => cases hj
  | @cons i rest a b c asm lines hsel hrest ih =>
      have hb : b.Queued := hsel.preserves Queued.acquire Queued.consume ha
      obtain hj | rfl | hj := mem_instrs_chunk_append.1 hj
      · obtain ⟨s, o, hj, ho⟩ := hb.2 j hj
        exact Or.inr ⟨s, o, hj, (hrest.offsets_subset hb.1.drain).2 ho⟩
      · exact Or.inl ⟨i, List.mem_cons_self, a, b, hsel⟩
      · have hdrained : b.drain.2.Queued := ⟨hb.1.drain, fun k hk => by cases hk⟩
        refine (ih hdrained hj).imp_left fun ⟨k, hk, hsel'⟩ => ?_
        exact ⟨k, List.mem_cons_of_mem i hk, hsel'⟩

/-- A slot that comes into use is stored. -/
theorem Emitted.exists_spill (h : Emitted ret is a lines b) (ha : a.Stacked) {o : Nat}
    (ho : o ∈ b.offsets) (hnew : o ∉ a.offsets) :
    ∃ s, Asm.spill s o ∈ lines.filterMap Line.instr? := by
  induction h with
  | nil => exact absurd ho hnew
  | @cons i rest a b c asm lines hsel hrest ih =>
      have hstart : a.Stored a.offsets := ⟨ha, fun _ hmem => Or.inl hmem⟩
      have hb : b.Stored a.offsets := hsel.preserves Stored.acquire Stored.consume hstart
      rw [List.filterMap_append, instrs_chunk]
      by_cases hmem : o ∈ b.offsets
      · obtain ⟨s, hs⟩ := (hb.2 o hmem).resolve_left hnew
        exact ⟨s, by simp [hs]⟩
      · obtain ⟨s, hs⟩ := ih hb.1.drain ho hmem
        exact ⟨s, List.mem_append_right _ hs⟩

theorem Emitted.last (h : Emitted ret is a lines b) (hlast : is.getLast? = some i) :
    ∃ front asm c d, lines = front ++ [Line.commented asm i.text] ∧ Selected ret i c asm d := by
  induction h with
  | nil => cases hlast
  | @cons k rest a b c asm lines hsel hrest ih =>
      cases rest with
      | nil =>
          cases hlast
          cases hrest
          exact ⟨b.queue.map Line.plain, asm, a, b, List.append_nil _, hsel⟩
      | cons k' rest' =>
          obtain ⟨front, asm', c', d', hlines, hsel'⟩ := ih hlast
          exact ⟨chunk b.queue asm k ++ front, asm', c', d',
            by rw [hlines, List.append_assoc], hsel'⟩

/-! ### Emission that succeeds -/

theorem emit_eq_error_of_misplaced (h : i.isMisplaced = true) (ret : Reg) (index : Nat)
    (rest : List Instr) (a : Allocator) :
    ∃ cause, (emit ret index (i :: rest) a).outcome =
        .error (.reported (.malformed index cause)) := by
  obtain ⟨cause, hrun⟩ := run_select_of_misplaced h ret index a
  exact ⟨cause, by rw [emit, hrun]⟩

/-- Without misplaced instructions an emission fails only when the stack cannot hold every variable
of the scope. -/
theorem emit_eq_overflow (ha : a.Ready scope (is.flatMap Instr.uses)) (hpool : 3 ≤ a.poolSize)
    (hin : ∀ i ∈ is, i.Within scope) (hplaced : ∀ i ∈ is, i.isMisplaced = false)
    (h : (emit ret index is a).outcome = .error f) :
        f = .trapped .depthOverflow ∧ ¬ a.Roomy scope := by
  induction is generalizing index a with
  | nil => cases h
  | cons i rest ih =>
      rw [List.flatMap_cons] at ha
      have hi := hin i List.mem_cons_self
      rcases hrun : (select ret index i).run a with ⟨f' | asm, b⟩
      · rw [emit, hrun] at h
        cases h
        exact run_select_eq_error ha hpool hi (hplaced i List.mem_cons_self) hrun
      · have hsel := run_select_eq_ok_iff.1 hrun
        rw [emit_cons_of_selected hsel] at h
        obtain ⟨hcause, hfull⟩ := ih (hsel.ready ha hi).drain (hsel.sameLayout.1.symm ▸ hpool)
          (fun j hj => hin j (List.mem_cons_of_mem i hj))
          (fun j hj => hplaced j (List.mem_cons_of_mem i hj)) h
        exact ⟨hcause, fun hroomy => hfull (hroomy.of_sameLayout hsel.sameLayout)⟩

theorem emit_eq_ok (ha : a.Ready scope (is.flatMap Instr.uses)) (hroomy : a.Roomy scope)
    (hin : ∀ i ∈ is, i.Within scope) (hplaced : ∀ i ∈ is, i.isMisplaced = false) :
    (emit ret index is a).outcome = .ok () := by
  cases h : (emit ret index is a).outcome with
  | ok => rfl
  | error f => exact absurd hroomy (emit_eq_overflow ha hroomy.1 hin hplaced h).2

theorem emit_eq_error (ha : a.Ready scope (is.flatMap Instr.uses)) (hroomy : a.Roomy scope)
    (hin : ∀ i ∈ is, i.Within scope) (hmis : ∃ i ∈ is, i.isMisplaced = true) :
    ∃ cause, (emit ret index is a).outcome =
      .error (.reported (.malformed (index + is.findIdx Instr.isMisplaced) cause)) := by
  induction is generalizing index a with
  | nil => simp at hmis
  | cons i rest ih =>
      rw [List.findIdx_cons]
      cases hi : i.isMisplaced with
      | true => exact emit_eq_error_of_misplaced hi ret index rest a
      | false =>
          rw [List.flatMap_cons] at ha
          have hiIn := hin i List.mem_cons_self
          obtain ⟨asm, b, hsel⟩ := exists_selected ha hroomy hiIn hi ret
          have hrest : ∃ j ∈ rest, j.isMisplaced = true := by simpa [hi] using hmis
          obtain ⟨cause, hcause⟩ :=
            ih (hsel.ready ha hiIn).drain (hroomy.of_sameLayout hsel.sameLayout)
            (fun j hj => hin j (List.mem_cons_of_mem i hj)) hrest
          refine ⟨cause, ?_⟩
          rw [emit_cons_of_selected hsel, hcause, cond_false, Nat.add_right_comm, Nat.add_assoc]

end Body

end StraightLine
