import Mathlib.Data.List.Nodup
import StraightLine.Proofs.Allocator.Grants

/-!
# The tables of the allocator

Two invariants that every run of the allocator keeps, whoever asks and for whatever exclusions.
`Pooled`: the recency list is a rearrangement of the pool, and variables sit only in registers of
the pool. `Stacked`: the slots handed out are exactly the multiples of the slot size below the
depth, each of them belongs to a variable that was counted, and the depth fits a word. No slot is
ever without a holder, so the number of slots is at most the number of counted variables; this is
what bounds the frame.
-/

namespace StraightLine

namespace Allocator

variable {a b : Allocator} {u v w : Var} {r s : PoolReg} {excluded : List PoolReg} {offset : Nat}
  {grant : Grant} {placement : Placement}

/-! ### What an acquisition leaves alone -/

@[simp] theorem poolSize_settle (a : Allocator) (v : Var) (grant : Grant) :
    (a.settle v grant).poolSize = a.poolSize := by
  rcases grant with ⟨_ | _ | _, r⟩ | ⟨r, u, placement⟩ <;> simp [settle, bind_eq,
    store_eq, touch, log]

@[simp] theorem slotSize_settle (a : Allocator) (v : Var) (grant : Grant) :
    (a.settle v grant).slotSize = a.slotSize := by
  rcases grant with ⟨_ | _ | _, r⟩ | ⟨r, u, placement⟩ <;> simp [settle, bind_eq,
    store_eq, touch, log]

@[simp] theorem alignment_settle (a : Allocator) (v : Var) (grant : Grant) :
    (a.settle v grant).alignment = a.alignment := by
  rcases grant with ⟨_ | _ | _, r⟩ | ⟨r, u, placement⟩ <;> simp [settle, bind_eq,
    store_eq, touch, log]

@[simp] theorem recency_settle (a : Allocator) (v : Var) (grant : Grant) :
    (a.settle v grant).recency = a.recency.erase grant.register ++ [grant.register] := by
  rcases grant with ⟨_ | _ | _, r⟩ | ⟨r, u, placement⟩ <;>
    simp [settle, bind_eq, store_eq, touch, log, Grant.register]

@[simp] theorem slot?_settle_found (a : Allocator) (v w : Var) (how : Find) (r : PoolReg) :
    (a.settle v (.found how r)).slot? w = a.slot? w := by
  cases how with
  | resident => rfl
  | free => exact slot?_bind ..
  | retired => exact slot?_bind ..

@[simp] theorem depth_settle_found (a : Allocator) (v : Var) (how : Find) (r : PoolReg) :
    (a.settle v (.found how r)).depth = a.depth := by
  cases how <;> simp [settle, bind_eq, touch, log]

theorem slot?_settle_evict (a : Allocator) (v w : Var) (r : PoolReg) (u : Var)
    (placement : Placement) :
    (a.settle v (.evict r u placement)).slot? w =
      if w = u then some placement.offset
      else if a.slot? w = some placement.offset then none else a.slot? w := by
  rw [settle, slot?_bind, slot?_store]

theorem depth_settle_evict (a : Allocator) (v : Var) (r : PoolReg) (u : Var)
    (placement : Placement) :
    (a.settle v (.evict r u placement)).depth = a.depthAfter placement := by
  simp [settle, bind_eq, store_eq]

theorem spilled_settle_found (a : Allocator) (v : Var) (how : Find) (r : PoolReg) :
    (a.settle v (.found how r)).spilled = a.spilled := by
  cases how <;> simp [settle, bind_eq, touch, log]

theorem spilled_settle_evict (a : Allocator) (v : Var) (r : PoolReg) (u : Var)
    (placement : Placement) :
    (a.settle v (.evict r u placement)).spilled = Var.insertSorted u a.spilled := by
  simp [settle, bind_eq, store_eq]

/-! ### Registers -/

structure Pooled (a : Allocator) : Prop where
  recency_perm : a.recency.Perm (pool a.poolSize)
  mem_recency : ∀ {v r}, a.register? v = some r → r ∈ a.recency

theorem pooled_initial (poolSize slotSize alignment : Nat) (pending : PendingReads) :
    (initial poolSize slotSize alignment pending).Pooled :=
  ⟨List.Perm.refl _, fun h => by cases h⟩

theorem Grants.mem_recency (h : Grants a v excluded grant) (hpool : a.Pooled) :
    grant.register ∈ a.recency := by
  cases hv : a.register? v with
  | none => exact (Allocator.mem_candidates.1 (h.mem_candidates hv)).1
  | some t =>
      rw [h.register_of_resident hv]
      exact hpool.mem_recency hv

theorem Pooled.acquire (hpool : a.Pooled) (h : a.acquire v excluded = (.ok r, b)) : b.Pooled := by
  obtain ⟨grant, hgrants, rfl, rfl⟩ := acquire_eq_ok_iff.1 h
  have hmem := hgrants.mem_recency hpool
  have hperm : (a.settle v grant).recency.Perm a.recency := by
    rw [recency_settle]
    exact (List.perm_append_singleton _ _).trans (List.perm_cons_erase hmem).symm
  constructor
  · rw [poolSize_settle]
    exact hperm.trans hpool.recency_perm
  · intro w s hw
    rw [hgrants.register?_settle] at hw
    rw [hperm.mem_iff]
    split at hw
    · exact Option.some.inj hw ▸ hmem
    · split at hw
      · cases hw
      · exact hpool.mem_recency hw

/-! ### Slots -/

structure Stacked (a : Allocator) : Prop where
  slotSize_pos : 0 < a.slotSize
  slotSize_dvd : a.slotSize ∣ a.depth
  depth_lt : a.depth < byteLimit
  filled : ∀ o, o ∈ a.offsets ↔ ∃ v, a.slot? v = some o
  knows : ∀ {v o}, a.slot? v = some o → a.pending.Knows v

theorem stacked_initial {poolSize slotSize alignment : Nat} {pending : PendingReads}
    (hslot : 0 < slotSize) : (initial poolSize slotSize alignment pending).Stacked where
  slotSize_pos := hslot
  slotSize_dvd := Nat.dvd_zero slotSize
  depth_lt := show 0 < byteLimit by decide
  filled := fun o => by simp [initial, offsets, slot?]
  knows := fun h => by cases h

theorem mem_offsets (hpos : 0 < a.slotSize) (hdvd : a.slotSize ∣ a.depth) :
    offset ∈ a.offsets ↔ a.slotSize ∣ offset ∧ offset < a.depth := by
  obtain ⟨n, hn⟩ := hdvd
  rw [offsets, hn, Nat.mul_div_cancel_left n hpos]
  simp only [List.mem_map, List.mem_range]
  constructor
  · intro ⟨k, hk, hoffset⟩
    rw [← hoffset, Nat.mul_comm k]
    exact ⟨Nat.dvd_mul_right _ _, Nat.mul_lt_mul_of_pos_left hk hpos⟩
  · intro ⟨⟨k, hk⟩, hlt⟩
    rw [hk] at hlt ⊢
    exact ⟨k, Nat.lt_of_mul_lt_mul_left hlt, Nat.mul_comm k _⟩

theorem Stacked.slot_lt (h : a.Stacked) (hslot : a.slot? v = some offset) :
    a.slotSize ∣ offset ∧ offset < a.depth :=
  (mem_offsets h.slotSize_pos h.slotSize_dvd).1 ((h.filled offset).2 ⟨v, hslot⟩)

theorem Grants.victim_live (h : Grants a v excluded (.evict r u placement)) : a.pending.Live u := by
  cases h with
  | evict _ hsplit hfull hheld _ =>
      obtain ⟨w, hw, hlive⟩ := hfull r (by simp [hsplit])
      rw [hheld] at hw
      cases hw
      exact hlive

theorem Places.offset_mem (h : Places a u placement) (hstack : a.Stacked) :
    placement.offset ∈ a.offsets ∨ placement = .grown a.depth := by
  cases h with
  | own hslot => exact Or.inl ((hstack.filled _).2 ⟨u, hslot⟩)
  | recycled _ hsplit => exact Or.inl (by simp [Placement.offset, hsplit])
  | grown => exact Or.inr rfl

theorem Places.depthAfter_lt (h : Places a u placement) (hstack : a.Stacked) :
    a.depthAfter placement < byteLimit := by
  cases h with
  | own => exact hstack.depth_lt
  | recycled => exact hstack.depth_lt
  | grown _ _ hfits => exact hfits

theorem Places.dvd_depthAfter (h : Places a u placement) (hstack : a.Stacked) :
    a.slotSize ∣ a.depthAfter placement := by
  cases h with
  | own => exact hstack.slotSize_dvd
  | recycled => exact hstack.slotSize_dvd
  | grown => exact Nat.dvd_add hstack.slotSize_dvd (Nat.dvd_refl _)

theorem Places.depth_le (h : Places a u placement) : a.depth ≤ a.depthAfter placement := by
  cases h with
  | own => exact Nat.le_refl _
  | recycled => exact Nat.le_refl _
  | grown => exact Nat.le_add_right _ _

/-- A placement makes its own offset part of the stack and no other. -/
theorem Places.dvd_and_lt_depthAfter (h : Places a u placement) (hstack : a.Stacked) :
    (a.slotSize ∣ offset ∧ offset < a.depthAfter placement) ↔ offset ∈ a.offsets ∨
      offset = placement.offset := by
  rw [mem_offsets hstack.slotSize_pos hstack.slotSize_dvd]
  obtain hmem | rfl := h.offset_mem hstack
  · have hdepth : a.depthAfter placement = a.depth := by
      cases h with
      | own => rfl
      | recycled => rfl
      | grown =>
          rw [mem_offsets hstack.slotSize_pos hstack.slotSize_dvd, Placement.offset] at hmem
          omega
    rw [hdepth]
    refine ⟨Or.inl, fun hor => ?_⟩
    obtain hin | rfl := hor
    · exact hin
    · exact (mem_offsets hstack.slotSize_pos hstack.slotSize_dvd).1 hmem
  · have hpos := hstack.slotSize_pos
    obtain ⟨n, hn⟩ := hstack.slotSize_dvd
    simp only [depthAfter, Placement.offset]
    constructor
    · intro ⟨⟨k, hk⟩, hlt⟩
      rw [hk, hn, ← Nat.mul_succ] at hlt
      have hkn : k < n + 1 := Nat.lt_of_mul_lt_mul_left hlt
      obtain hlt' | rfl := Nat.lt_succ_iff_lt_or_eq.1 hkn
      · refine Or.inl ⟨⟨k, hk⟩, ?_⟩
        rw [hk, hn]
        exact Nat.mul_lt_mul_of_pos_left hlt' hpos
      · exact Or.inr (hk.trans hn.symm)
    · intro hor
      obtain ⟨hdvd, hlt⟩ | rfl := hor
      · exact ⟨hdvd, by omega⟩
      · exact ⟨⟨n, hn⟩, by omega⟩

theorem Places.offset_of_slot (h : Places a u placement) (hslot : a.slot? u = some offset) :
    placement.offset = offset := by
  cases h with
  | own hown => exact Option.some.inj (hown.symm.trans hslot)
  | recycled hnone => rw [hslot] at hnone; cases hnone
  | grown hnone => rw [hslot] at hnone; cases hnone

theorem Places.holder_settle (h : Places a u placement) (v : Var) (r : PoolReg) (o : Nat) :
    (a.settle v (.evict r u placement)).slots.preimage? o =
      if o = placement.offset then some u else a.slots.preimage? o := by
  have hinsert : (a.settle v (.evict r u placement)).slots.preimage? o = if o =
      placement.offset then some u
      else if a.slots.preimage? o = some u then none else a.slots.preimage? o := by
    rw [settle, bind_eq, store_eq]
    exact Bijection.preimage?_insert ..
  rw [hinsert]
  by_cases ho : o = placement.offset
  · rw [if_pos ho, if_pos ho]
  · have helsewhere : a.slots.preimage? o ≠ some u := fun heq =>
      ho (h.offset_of_slot (Bijection.image?_eq_some_iff.2 heq)).symm
    rw [if_neg ho, if_neg ho, if_neg helsewhere]

theorem slots_settle_found (a : Allocator) (v : Var) (how : Find) (r : PoolReg) :
    (a.settle v (.found how r)).slots = a.slots := by
  cases how <;> simp [settle, bind_eq, touch, log]

theorem Grants.places (h : Grants a v excluded (.evict r u placement)) : Places a u placement := by
  cases h with
  | evict _ _ _ _ hplace => exact hplace

theorem Grants.occupant?_of_evict (h : Grants a v excluded (.evict r u placement)) :
    a.occupant? r = some u := by
  cases h with
  | evict _ _ _ hheld => exact hheld

theorem Stacked.congr (h : a.Stacked) (hsize : b.slotSize = a.slotSize) (hdepth : b.depth = a.depth)
    (hslots : ∀ w, b.slot? w = a.slot? w) (hknows : ∀ w, a.pending.Knows w → b.pending.Knows w) :
    b.Stacked where
  slotSize_pos := hsize ▸ h.slotSize_pos
  slotSize_dvd := by
    rw [hsize, hdepth]
    exact h.slotSize_dvd
  depth_lt := hdepth ▸ h.depth_lt
  filled := fun o => by
    have hoffsets : b.offsets = a.offsets := by rw [offsets, offsets, hsize, hdepth]
    simp only [hoffsets, hslots]
    exact h.filled o
  knows := fun {w o} hw => hknows w (h.knows (hslots w ▸ hw))

theorem Stacked.evict (hstack : a.Stacked) (hgrants : Grants a v excluded (.evict r u placement)) :
    (a.settle v (.evict r u placement)).Stacked := by
  have hplace := hgrants.places
  have hdvd : (a.settle v (.evict r u placement)).slotSize ∣
      (a.settle v (.evict r u placement)).depth := by
    rw [slotSize_settle, depth_settle_evict]
    exact hplace.dvd_depthAfter hstack
  have hpos : 0 < (a.settle v (.evict r u placement)).slotSize := by
    rw [slotSize_settle]
    exact hstack.slotSize_pos
  refine ⟨hpos, hdvd, ?_, fun o => ?_, fun {w o} hw => ?_⟩
  · rw [depth_settle_evict]
    exact hplace.depthAfter_lt hstack
  · rw [mem_offsets hpos hdvd, slotSize_settle, depth_settle_evict,
      hplace.dvd_and_lt_depthAfter hstack]
    simp only [slot?_settle_evict]
    constructor
    · intro ho
      by_cases hoff : o = placement.offset
      · exact ⟨u, by rw [if_pos rfl, hoff]⟩
      · obtain ⟨w, hw⟩ := (hstack.filled o).1 (ho.resolve_right hoff)
        have hwu : w ≠ u := by
          intro heq
          rw [heq] at hw
          exact hoff (hplace.offset_of_slot hw).symm
        refine ⟨w, ?_⟩
        rw [if_neg hwu, hw, if_neg fun heq => hoff (Option.some.inj heq)]
    · intro ⟨w, hw⟩
      split at hw
      · exact Or.inr (Option.some.inj hw).symm
      · split at hw
        · cases hw
        · exact Or.inl ((hstack.filled o).2 ⟨w, hw⟩)
  · rw [pending_settle]
    rw [slot?_settle_evict] at hw
    split at hw
    · next heq => exact heq ▸ hgrants.victim_live.knows
    · split at hw
      · cases hw
      · exact hstack.knows hw

theorem Stacked.acquire (hstack : a.Stacked) (h : a.acquire v excluded = (.ok r, b)) :
    b.Stacked := by
  obtain ⟨grant, hgrants, rfl, rfl⟩ := acquire_eq_ok_iff.1 h
  cases grant with
  | found how r =>
      refine hstack.congr (slotSize_settle ..) (depth_settle_found ..)
        (slot?_settle_found a v · how r) ?_
      intro w hw
      rw [pending_settle]
      exact hw
  | evict r u placement => exact hstack.evict hgrants

theorem depth_le_acquire (h : a.acquire v excluded = (.ok r, b)) : a.depth ≤ b.depth := by
  obtain ⟨grant, hgrants, rfl, rfl⟩ := acquire_eq_ok_iff.1 h
  cases grant with
  | found how r => exact Nat.le_of_eq (depth_settle_found a v how r).symm
  | evict r u placement =>
      rw [depth_settle_evict]
      exact hgrants.places.depth_le

/-! ### The slots that spill code names -/

theorem mem_reloadCode {i : Asm} (hi : i ∈ a.reloadCode v r) :
    ∃ o, i = Asm.reload r o ∧ a.slot? v = some o := by
  obtain ⟨o, ho, rfl⟩ := List.mem_map.1 hi
  exact ⟨o, rfl, by simpa using ho⟩

/-- Spill code stores and reloads slots that are in use once the acquisition is done. -/
theorem mem_spillCode {i : Asm} (hi : i ∈ a.spillCode v grant) :
    ∃ s o w, (i = Asm.spill s o ∨ i = Asm.reload s o) ∧ (a.settle v grant).slot? w = some o := by
  cases grant with
  | found how r =>
      cases how with
      | resident => cases hi
      | free | retired =>
          obtain ⟨o, rfl, ho⟩ := mem_reloadCode hi
          exact ⟨r, o, v, Or.inr rfl, by rw [slot?_settle_found, ho]⟩
  | evict r u placement =>
      obtain rfl | hi := List.mem_cons.1 hi
      · exact ⟨r, placement.offset, u, Or.inl rfl, by rw [slot?_settle_evict, if_pos rfl]⟩
      · obtain ⟨o, rfl, ho⟩ := mem_reloadCode hi
        exact ⟨r, o, v, Or.inr rfl, by rw [settle, slot?_bind, ho]⟩

/-! ### Consuming and draining -/

theorem consume_eq_ok_iff : a.consume v = (.ok (), b) ↔
    ∃ pending, a.pending.consume v = .ok pending ∧ b = { a with pending } := by
  rw [consume]
  split
  · next pending h => simp [h, eq_comm]
  · next f h => simp [h]

theorem consume_eq (a : Allocator) (v : Var) : ∃ pending, (a.consume v).2 = { a with pending } ∧
    (pending = a.pending ∨ a.pending.consume v = .ok pending) := by
  rw [consume]
  split
  · next pending h => exact ⟨pending, rfl, Or.inr h⟩
  · exact ⟨a.pending, rfl, Or.inl rfl⟩

theorem Pooled.consume (hpool : a.Pooled) (v : Var) : (a.consume v).2.Pooled := by
  obtain ⟨pending, hstate, _⟩ := consume_eq a v
  rw [hstate]
  exact ⟨hpool.recency_perm, hpool.mem_recency⟩

theorem Stacked.consume (hstack : a.Stacked) (v : Var) : (a.consume v).2.Stacked := by
  obtain ⟨pending, hstate, hpending⟩ := consume_eq a v
  rw [hstate]
  refine hstack.congr rfl rfl (fun _ => rfl) fun w hw => ?_
  obtain rfl | hpending := hpending
  · exact hw
  · exact (PendingReads.knows_consume hpending).2 hw

theorem Pooled.drain (hpool : a.Pooled) : a.drain.2.Pooled :=
  ⟨hpool.recency_perm, hpool.mem_recency⟩

theorem Stacked.drain (hstack : a.Stacked) : a.drain.2.Stacked :=
  hstack.congr rfl rfl (fun _ => rfl) fun _ hw => hw

/-! ### How far the stack can grow -/

def slotHolders (a : Allocator) : List Var := a.offsets.filterMap a.slots.preimage?

theorem mem_slotHolders (hstack : a.Stacked) : v ∈ a.slotHolders ↔ ∃ o, a.slot? v = some o := by
  simp only [slotHolders, List.mem_filterMap]
  constructor
  · intro ⟨o, _, hv⟩
    exact ⟨o, Bijection.image?_eq_some_iff.2 hv⟩
  · intro ⟨o, hv⟩
    exact ⟨o, (hstack.filled o).2 ⟨v, hv⟩, Bijection.image?_eq_some_iff.1 hv⟩

theorem nodup_slotHolders (hstack : a.Stacked) : a.slotHolders.Nodup := by
  have hoffsets : a.offsets.Nodup := by
    refine List.Nodup.map (fun m n hmn => ?_) List.nodup_range
    exact Nat.eq_of_mul_eq_mul_right hstack.slotSize_pos hmn
  exact hoffsets.filterMap fun o o' w ho ho' => Bijection.preimage?_injective ho ho'

theorem length_slotHolders (hstack : a.Stacked) : a.slotHolders.length * a.slotSize = a.depth := by
  have hlength : a.slotHolders.length = a.offsets.length := by
    refine List.filterMap_length_eq_length.2 fun o ho => ?_
    obtain ⟨w, hw⟩ := (hstack.filled o).1 ho
    rw [Bijection.image?_eq_some_iff.1 hw]
    rfl
  rw [hlength, offsets, List.length_map, List.length_range, Nat.div_mul_cancel hstack.slotSize_dvd]

/-- The stack holds at most one slot for each variable of a scope that every holder belongs to. -/
theorem Stacked.depth_le {scope : List Var} (hstack : a.Stacked)
    (hholders : ∀ {w o}, a.slot? w = some o → w ∈ scope) : a.depth ≤ a.slotSize * scope.length := by
  have hsub : a.slotHolders ⊆ scope := by
    intro w hw
    obtain ⟨o, ho⟩ := (mem_slotHolders hstack).1 hw
    exact hholders ho
  rw [← length_slotHolders hstack, Nat.mul_comm]
  exact Nat.mul_le_mul_left _ ((nodup_slotHolders hstack).length_le_of_subset hsub)

theorem Stacked.depth_add_le {scope : List Var} (hstack : a.Stacked)
    (hholders : ∀ {w o}, a.slot? w = some o → w ∈ scope) (hu : u ∈ scope)
    (hslot : a.slot? u = none) : a.depth + a.slotSize ≤ a.slotSize * scope.length := by
  have hfresh : u ∉ a.slotHolders := by
    intro hmem
    obtain ⟨o, ho⟩ := (mem_slotHolders hstack).1 hmem
    rw [hslot] at ho
    cases ho
  have hsub : u :: a.slotHolders ⊆ scope := by
    intro w hw
    obtain rfl | hw := List.mem_cons.1 hw
    · exact hu
    · obtain ⟨o, ho⟩ := (mem_slotHolders hstack).1 hw
      exact hholders ho
  have hnodup : (u :: a.slotHolders).Nodup := List.nodup_cons.2 ⟨hfresh, nodup_slotHolders hstack⟩
  have hle : a.slotHolders.length + 1 ≤ scope.length := hnodup.length_le_of_subset hsub
  calc
    a.depth + a.slotSize = a.slotSize * (a.slotHolders.length + 1) := by
      rw [← length_slotHolders hstack, Nat.mul_succ, Nat.mul_comm]
    _ ≤ a.slotSize * scope.length := Nat.mul_le_mul_left _ hle

end Allocator

end StraightLine
