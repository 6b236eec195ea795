import Mathlib.Order.Bounds.Basic
import StraightLine.Proofs.Allocator.Runs
import StraightLine.Proofs.Allocator.Values

/-!
# The slot table

A slot changes hands without a sign: storing a variable in the slot of a dead one drops the dead one
from the table. This module shows that nothing is lost that way in any run. The slots handed out
fill the stack without a hole, each of them belongs to one counted variable, and a variable with a
pending read keeps its slot.

The allocator looks for a reusable slot in the list of its offsets. `walk` is the same search with a
counter that goes up by a slot at a time while it is below the depth, and that fails if it ever
passes the depth. It never does, since the slots are tight, so the counter stays in a word as the
depth does. `SavedAt` says which slot a spilled variable gets, without the search: its own, else the
lowest one that a dead variable holds, else a new one on top.
-/

namespace StraightLine

namespace Allocator

/-- A variable without a pending read holds the slot. -/
def Vacant (a : Allocator) (o : Nat) : Prop :=
  ∃ holder, a.slots.preimage? o = some holder ∧ a.pending.remaining? holder = some 0

/-- The slot of a spilled variable and the depth of the stack when it is saved there. -/
inductive SavedAt (a : Allocator) (u : Var) : Nat → Nat → Prop
  | own {o : Nat} (hslot : a.slot? u = some o) : SavedAt a u o a.depth
  | vacant {o : Nat} (hslot : a.slot? u = none) (hleast : IsLeast {o | a.Vacant o} o) :
      SavedAt a u o a.depth
  | top (hslot : a.slot? u = none) (hfull : ∀ o, ¬ a.Vacant o) :
      SavedAt a u a.depth (a.depth + a.slotSize)

/-- Look for a slot that is unbound or vacant, from an offset upwards and a slot at a time. -/
def walk (a : Allocator) (offset : Nat) : Except Failure (Option Nat) :=
  if offset < a.depth ∧ 0 < a.slotSize then
    match a.slots.preimage? offset with
    | none => .ok (some offset)
    | some holder =>
        match a.pending.isDead holder with
        | .error f => .error f
        | .ok true => .ok (some offset)
        | .ok false =>
            if offset + a.slotSize ≤ a.depth then a.walk (offset + a.slotSize)
            else .error (.trapped .depthOverflow)
  else .ok none
termination_by a.depth - offset

variable {a b : Allocator} {u v w : Var} {r s : PoolReg} {excluded : List PoolReg} {o : Nat}
  {grant : Grant} {placement : Placement} {poolSize slotSize : Nat} {pending : PendingReads}

/-! ### The offsets in their order -/

theorem pairwise_offsets (hpos : 0 < a.slotSize) : a.offsets.Pairwise (· < ·) := by
  rw [offsets, List.pairwise_map]
  exact List.pairwise_lt_range.imp fun hlt => Nat.mul_lt_mul_of_pos_right hlt hpos

theorem offset_of_split {front back : List Nat} (h : a.offsets = front ++ o :: back) :
    o = front.length * a.slotSize := by
  have hget : a.offsets[front.length]? = some o := by simp [h]
  rw [offsets, List.getElem?_map, Option.map_eq_some_iff] at hget
  obtain ⟨i, hi, rfl⟩ := hget
  obtain ⟨hlt, rfl⟩ := List.getElem?_eq_some_iff.1 hi
  rw [List.getElem_range]

theorem Stacked.offset_add_le (hstack : a.Stacked) (ho : o ∈ a.offsets) :
    o + a.slotSize ≤ a.depth := by
  obtain ⟨⟨k, hk⟩, hlt⟩ := (mem_offsets hstack.slotSize_pos hstack.slotSize_dvd).1 ho
  obtain ⟨n, hn⟩ := hstack.slotSize_dvd
  rw [hk, hn] at hlt ⊢
  have hkn : k + 1 ≤ n := Nat.lt_of_mul_lt_mul_left hlt
  calc
    a.slotSize * k + a.slotSize = a.slotSize * (k + 1) := (Nat.mul_succ ..).symm
    _ ≤ a.slotSize * n := Nat.mul_le_mul_left _ hkn

theorem Stacked.length_offsets_mul (hstack : a.Stacked) :
    a.offsets.length * a.slotSize = a.depth := by
  rw [offsets, List.length_map, List.length_range, Nat.div_mul_cancel hstack.slotSize_dvd]

theorem Stacked.exists_holder (hstack : a.Stacked) (ho : o ∈ a.offsets) :
    ∃ holder, a.slots.preimage? o = some holder ∧ a.pending.Knows holder := by
  obtain ⟨holder, hholder⟩ := (hstack.filled o).1 ho
  exact ⟨holder, Bijection.image?_eq_some_iff.1 hholder, hstack.knows hholder⟩

/-- From the end of a part of the offsets the walk tries the other part. -/
theorem Stacked.walk_eq (hstack : a.Stacked) (front back : List Nat)
    (h : a.offsets = front ++ back) :
    a.walk (front.length * a.slotSize) = a.firstReusable back := by
  induction back generalizing front with
  | nil =>
      have hend : front.length * a.slotSize = a.depth := by
        rw [← hstack.length_offsets_mul, h, List.append_nil]
      rw [hend, walk, if_neg (fun hlt => Nat.lt_irrefl _ hlt.1), firstReusable]
  | cons o back ih =>
      have ho : o = front.length * a.slotSize := offset_of_split h
      have hmem : o ∈ a.offsets := by simp [h]
      have hnext := ih (front ++ [o]) (by simp [h])
      rw [List.length_append, List.length_singleton, Nat.succ_mul, ← ho] at hnext
      have hle := hstack.offset_add_le hmem
      have hpos := hstack.slotSize_pos
      obtain ⟨holder, hholder, hknows⟩ := hstack.exists_holder hmem
      rw [← ho, walk, if_pos ⟨by omega, hpos⟩, firstReusable]
      obtain hdead | hlive := PendingReads.isDead_of_knows hknows
      · simp only [hholder, hdead]
      · simp only [hholder, hlive, if_pos hle, hnext]

/-! ### Where a spilled variable goes -/

theorem Stacked.mem_offsets_of_vacant (hstack : a.Stacked) (h : a.Vacant o) : o ∈ a.offsets := by
  obtain ⟨holder, hholder, _⟩ := h
  exact (hstack.filled o).2 ⟨holder, Bijection.image?_eq_some_iff.2 hholder⟩

theorem not_vacant_of_live (h : ∃ holder, a.slots.preimage? o = some holder ∧
      a.pending.Live holder) :
    ¬ a.Vacant o := by
  obtain ⟨holder, hholder, hlive⟩ := h
  rintro ⟨dead, hdead, hzero⟩
  rw [hholder] at hdead
  cases hdead
  exact PendingReads.not_live_of_zero hzero hlive

/-- What the search finds is described without the search. -/
theorem Places.savedAt (h : Places a u placement) (hstack : a.Stacked) :
    SavedAt a u placement.offset (a.depthAfter placement) := by
  cases h with
  | own hslot => exact .own hslot
  | @recycled front back o hslot hsplit hfront hdead =>
      have hmem : o ∈ a.offsets := by simp [hsplit]
      obtain ⟨holder, hholder, _⟩ := hstack.exists_holder hmem
      refine .vacant hslot ⟨⟨holder, hholder, hdead holder hholder⟩, fun o' ho' => ?_⟩
      have hother : o' ∈ front ++ o :: back := hsplit ▸ hstack.mem_offsets_of_vacant ho'
      have hsorted := pairwise_offsets hstack.slotSize_pos
      rw [hsplit, List.pairwise_append, List.pairwise_cons] at hsorted
      rw [List.mem_append, List.mem_cons] at hother
      obtain hbefore | rfl | hbehind := hother
      · exact absurd ho' (not_vacant_of_live (hfront o' hbefore))
      · exact Nat.le_refl o'
      · exact Nat.le_of_lt (hsorted.2.1.1 o' hbehind)
  | grown hslot hfull =>
      exact .top hslot fun o ho => not_vacant_of_live (hfull o (hstack.mem_offsets_of_vacant ho)) ho

/-- An acquisition leaves the slot of a live variable alone. -/
theorem Grants.slot?_settle_of_live (h : Grants a v excluded grant) (hstack : a.Stacked)
    (hw : a.slot? w = some o) (hlive : a.pending.Live w) : (a.settle v grant).slot? w = some o := by
  cases grant with
  | found how r => rw [slot?_settle_found, hw]
  | evict r u placement =>
      rw [slot?_settle_evict]
      by_cases hwu : w = u
      · subst hwu
        rw [if_pos rfl, h.places.offset_of_slot hw]
      · have hne := h.places.slot_ne hstack hw hlive hwu
        rw [if_neg hwu, hw, if_neg fun heq => hne (Option.some.inj heq)]

theorem sw_not_mem_reloadCode {rs base : Reg} : Asm.sw rs o base ∉ a.reloadCode v r := by
  intro h
  obtain ⟨_, heq, _⟩ := mem_reloadCode h
  cases heq

theorem Grants.sw_mem_spillCode (h : Grants a v excluded grant) (hstack : a.Stacked) {rs base : Reg}
    (hmem : Asm.sw rs o base ∈ a.spillCode v grant) :
    ∃ s u, rs = .pool s ∧ base = .sp ∧ a.occupant? s = some u ∧ a.pending.Live u ∧
      SavedAt a u o (a.settle v grant).depth ∧ (a.settle v grant).slot? u = some o := by
  cases grant with
  | found how r =>
      cases how with
      | resident => cases hmem
      | free | retired => exact absurd hmem sw_not_mem_reloadCode
  | evict r u placement =>
      obtain heq | hmem := List.mem_cons.1 hmem
      · cases heq
        refine ⟨r, u, rfl, rfl, h.occupant?_of_evict, h.victim_live, ?_, ?_⟩
        · rw [depth_settle_evict]
          exact h.places.savedAt hstack
        · rw [slot?_settle_evict, if_pos rfl]
      · exact absurd hmem sw_not_mem_reloadCode

/-- What any acquisition, failed or not, does to the slots and to the waiting code. -/
theorem Stacked.after_acquire (hstack : a.Stacked) (v : Var) (excluded : List PoolReg) :
    let b := a.after (.acquire v excluded)
    (∀ w o, a.slot? w = some o → a.pending.Live w → b.slot? w = some o) ∧
      ∃ code, b.queue = a.queue ++ code ∧ ∀ rs o base, Asm.sw rs o base ∈ code →
        ∃ s u, rs = .pool s ∧ base = .sp ∧ a.occupant? s = some u ∧ a.pending.Live u ∧
          SavedAt a u o b.depth ∧
          b.slot? u = some o := by
  rcases hacq : a.acquire v excluded with ⟨f | r, b⟩
  · rw [after, hacq, acquire_eq_error hacq]
    exact ⟨fun w o hw _ => hw, [], (List.append_nil _).symm,
      fun _ _ _ hmem => absurd hmem List.not_mem_nil⟩
  · rw [after_acquire_ok hacq]
    obtain ⟨grant, hgrants, _, rfl⟩ := acquire_eq_ok_iff.1 hacq
    exact ⟨fun w o => hgrants.slot?_settle_of_live hstack, a.spillCode v grant, queue_settle ..,
      fun rs o base => hgrants.sw_mem_spillCode hstack⟩

theorem queue_after (a : Allocator) :
    (∀ v, (a.after (.consume v)).queue = a.queue) ∧ (a.after .drain).queue = [] := by
  refine ⟨fun v => ?_, rfl⟩
  obtain ⟨pending, hstate, _⟩ := consume_eq a v
  rw [after, hstate]

/-- **Slots are tight.** The parts: the slots handed out, the search for one, what acquisitions do
to them and queue, and that nothing else queues code. -/
theorem slots_tight (hcreate : create poolSize slotSize pending = .ok a) (calls : List Call) :
    let b := a.run calls
    (slotSize ∣ b.depth ∧ b.depth < byteLimit ∧
          (∀ o, (∃ v, b.slot? v = some o) ↔ slotSize ∣ o ∧ o < b.depth) ∧
        (∀ u v o, b.slot? u = some o → b.slot? v = some o → u = v) ∧
        ∀ v o, b.slot? v = some o → b.pending.Knows v) ∧
      ((∃ found, b.walk 0 = .ok found ∧ b.firstReusable b.offsets = .ok found) ∧
        ∀ u f, b.place u = .error f → f = .trapped .depthOverflow ∧
        byteLimit ≤ b.depth + slotSize) ∧
      (∀ v excluded, let c := b.after (.acquire v excluded)
        (∀ w o, b.slot? w = some o → b.pending.Live w → c.slot? w = some o) ∧
          ∃ code, c.queue = b.queue ++ code ∧ ∀ rs o base, Asm.sw rs o base ∈ code →
            ∃ s u, rs = .pool s ∧ base = .sp ∧ b.occupant? s = some u ∧ b.pending.Live u ∧
              SavedAt b u o c.depth ∧
              c.slot? u = some o) ∧
      a.queue = [] ∧ (∀ v, (b.after (.consume v)).queue = b.queue) ∧
          (b.after .drain).queue = [] := by
  intro b
  obtain ⟨⟨_, _, hpos⟩, hinitial⟩ := create_eq_ok_iff.1 hcreate
  have hstack : b.Stacked := Stacked.run (hinitial ▸ stacked_initial hpos) calls
  have hsize : b.slotSize = slotSize := by rw [(sizes_run a calls).2, hinitial, initial]
  have hwalk := hstack.walk_eq [] b.offsets rfl
  rw [List.length_nil, Nat.zero_mul] at hwalk
  obtain ⟨found, hfound⟩ : ∃ found, b.firstReusable b.offsets = .ok found :=
    exists_firstReusable hstack
  refine ⟨⟨hsize ▸ hstack.slotSize_dvd, hstack.depth_lt, fun o => ?_,
    fun u v o => Bijection.image?_injective, fun v o => hstack.knows⟩,
    ⟨⟨found, hwalk.trans hfound, hfound⟩, fun u f hf => ?_⟩, hstack.after_acquire, hinitial ▸ rfl,
    b.queue_after⟩
  · rw [← hstack.filled, mem_offsets hstack.slotSize_pos hstack.slotSize_dvd, hsize]
  · obtain ⟨hcause, _, hlimit⟩ := place_eq_error hstack hf
    exact ⟨hcause, hsize ▸ hlimit⟩

/-- In a pool of one register `a` and `b` have been spilled and `a` was read for the last time. When
`d` comes, `c` is saved in the slot of `a`, and `b` keeps its own. -/
theorem slots_tight_recycled :
    let pending := PendingReads.ofList [(⟨"a"⟩, 1), (⟨"b"⟩, 1), (⟨"c"⟩, 1), (⟨"d"⟩, 1)]
    let start := initial 1 4 4 pending
    let b := start.run [.acquire ⟨"a"⟩ [], .acquire ⟨"b"⟩ [], .acquire ⟨"c"⟩ [],
      .consume ⟨"a"⟩, .drain]
    let c := b.after (.acquire ⟨"d"⟩ [])
    create 1 4 pending = .ok start ∧ b.depth = 8 ∧ b.slot? ⟨"a"⟩ = some 0 ∧
      (∃ v, b.slot? v = some 4) ∧
      c.queue = [Asm.spill ⟨0⟩ 0] ∧ SavedAt b ⟨"c"⟩ 0 c.depth ∧ c.slot? ⟨"c"⟩ = some 0 ∧
      c.slot? ⟨"b"⟩ = some 4 := by
  intro pending start b c
  have hcreate : create 1 4 pending = .ok start := rfl
  have hdepth : b.depth = 8 := by decide +kernel
  have hcount : b.pending.remaining? ⟨"b"⟩ = some 1 := by decide +kernel
  have hbefore : b.queue = [] := by decide +kernel
  have hqueue : c.queue = [Asm.spill ⟨0⟩ 0] := by decide +kernel
  obtain ⟨⟨_, _, hfilled, _⟩, _, hacquire, _⟩ := slots_tight hcreate
    [.acquire ⟨"a"⟩ [], .acquire ⟨"b"⟩ [], .acquire ⟨"c"⟩ [], .consume ⟨"a"⟩, .drain]
  obtain ⟨hkept, code, hcode, hstores⟩ := hacquire ⟨"d"⟩ []
  have hspill : code = [Asm.spill ⟨0⟩ 0] := by
    rw [← hqueue, hcode, hbefore, List.nil_append]
  obtain ⟨s, u, hs, _, hu, _, hsaved, hslot⟩ :=
    hstores (.pool ⟨0⟩) 0 .sp (by rw [hspill]; exact List.mem_singleton_self _)
  cases hs
  have hvictim : b.occupant? ⟨0⟩ = some ⟨"c"⟩ := by decide +kernel
  cases hvictim.symm.trans hu
  exact ⟨hcreate, hdepth, by decide +kernel, (hfilled 4).2 ⟨by decide, hdepth ▸ by decide⟩, hqueue,
    hsaved, hslot, hkept ⟨"b"⟩ 4 (by decide +kernel) ⟨0, hcount⟩⟩

end Allocator

end StraightLine
