import StraightLine.Proofs.Emission.Select
import StraightLine.Proofs.Renaming

/-!
# Allocators in lockstep

What the allocator decides does not depend on the names of the variables nor on the size of a slot.
Two allocators over the same pool are in lockstep when the second holds the variables of the first
under other names, in the same registers and in the slots of the same places. A request that the
first can answer, the second answers with the same register, and both are in lockstep again; the
second only needs room for as many slots of its own size as the first hands out.
-/

namespace StraightLine

/-! ### Ascending lists -/

namespace Var

theorem eq_of_pairwise_lt {us vs : List Var} (hus : us.Pairwise (· < ·)) (hvs : vs.Pairwise (· < ·))
    (h : ∀ v, v ∈ us ↔ v ∈ vs) : us = vs := by
  have hirrefl : ∀ v : Var, ¬ v < v := fun v => String.lt_irrefl v.name
  have hnodup : ∀ {ws : List Var}, ws.Pairwise (· < ·) → ws.Nodup := fun hws =>
    hws.imp fun {u v} (hlt : u < v) (heq : u = v) => hirrefl v (heq ▸ hlt)
  have hperm : us.Perm vs := (List.perm_ext_iff_of_nodup (hnodup hus) (hnodup hvs)).2 h
  exact hperm.eq_of_pairwise (fun u v _ _ huv hvu => absurd (lt_trans huv hvu) (hirrefl u)) hus hvs

theorem sorted_map_insertSorted (σ : Var → Var) (u : Var) (vs : List Var) :
    sorted ((insertSorted u vs).map σ) = insertSorted (σ u) (sorted (vs.map σ)) := by
  refine eq_of_pairwise_lt (pairwise_sorted _)
    (pairwise_insertSorted (pairwise_sorted _)) fun w => ?_
  simp only [mem_sorted, mem_insertSorted, List.mem_map]
  constructor
  · rintro ⟨v, rfl | hv, rfl⟩
    · exact Or.inl rfl
    · exact Or.inr ⟨v, hv, rfl⟩
  · rintro (rfl | ⟨v, hv, rfl⟩)
    · exact ⟨u, Or.inl rfl, rfl⟩
    · exact ⟨v, Or.inr hv, rfl⟩

end Var

def Placement.moved (f : Nat → Nat) : Placement → Placement
  | .own offset => .own (f offset)
  | .recycled offset => .recycled (f offset)
  | .grown offset => .grown (f offset)

/-- The grant for variables of other names and a stack of other offsets. -/
def Grant.moved (σ : Var → Var) (f : Nat → Nat) : Grant → Grant
  | .found how r => .found how r
  | .evict r u placement => .evict r (σ u) (placement.moved f)

@[simp] theorem Placement.offset_moved (f : Nat → Nat) (placement : Placement) :
    (placement.moved f).offset = f placement.offset := by
  cases placement <;> rfl

@[simp] theorem Grant.register_moved (σ : Var → Var) (f : Nat → Nat) (grant : Grant) :
    (grant.moved σ f).register = grant.register := by
  cases grant <;> rfl

namespace Allocator

variable {σ : Var → Var} {scope reads : List Var} {a b c : Allocator} {u v w : Var} {r : PoolReg}
  {excluded : List PoolReg} {offset size : Nat} {grant : Grant} {placement : Placement}

/-! ### Slots by their places -/

def slotCount (a : Allocator) : Nat := a.depth / a.slotSize

def holder? (a : Allocator) (n : Nat) : Option Var := a.slots.preimage? (n * a.slotSize)

/-- The offset, on another stack, of the slot at the place of an offset. -/
def sameSlot (a b : Allocator) (offset : Nat) : Nat := offset / a.slotSize * b.slotSize

theorem sameSlot_of_size_eq (hsize : b.slotSize = a.slotSize) (hdvd : a.slotSize ∣ offset) :
    a.sameSlot b offset = offset := by
  rw [sameSlot, hsize, Nat.div_mul_cancel hdvd]

theorem Stacked.slotCount_mul (h : a.Stacked) : a.slotCount * a.slotSize = a.depth :=
  Nat.div_mul_cancel h.slotSize_dvd

theorem Stacked.dvd_of_mem_offsets (h : a.Stacked) (ho : offset ∈ a.offsets) :
    a.slotSize ∣ offset :=
  ((mem_offsets h.slotSize_pos h.slotSize_dvd).1 ho).1

theorem Places.dvd_offset (h : Places a u placement) (hstack : a.Stacked) :
    a.slotSize ∣ placement.offset := by
  obtain hmem | rfl := h.offset_mem hstack
  · exact hstack.dvd_of_mem_offsets hmem
  · exact hstack.slotSize_dvd

theorem slotCount_settle_found (a : Allocator) (v : Var) (how : Find) (r : PoolReg) :
    (a.settle v (.found how r)).slotCount = a.slotCount := by
  rw [slotCount, slotCount, depth_settle_found, slotSize_settle]

theorem slotCount_settle_evict (a : Allocator) (v : Var) (r : PoolReg) (u : Var)
    (placement : Placement) :
    (a.settle v (.evict r u placement)).slotCount = a.depthAfter placement / a.slotSize := by
  rw [slotCount, depth_settle_evict, slotSize_settle]

theorem slotCount_le_acquire (h : a.acquire v excluded = (.ok r, b)) :
    a.slotCount ≤ b.slotCount := by
  rw [slotCount, slotCount, (sameLayout_acquire h).2.1]
  exact Nat.div_le_div_right (depth_le_acquire h)

/-- There is room for the slots handed out if each had a given size. -/
def FitsAt (a : Allocator) (size : Nat) : Prop := a.slotCount * size < byteLimit

theorem FitsAt.of_acquire (h : b.FitsAt size) (hacq : a.acquire v excluded = (.ok r, b)) :
    a.FitsAt size :=
  Nat.lt_of_le_of_lt (Nat.mul_le_mul_right size (slotCount_le_acquire hacq)) h

theorem FitsAt.of_consume (h : b.FitsAt size) (hcon : a.consume v = (.ok (), b)) :
    a.FitsAt size := by
  obtain ⟨pending, _, rfl⟩ := consume_eq_ok_iff.1 hcon
  exact h

/-! ### The tables of two allocators -/

/-- The second allocator holds the variables of the first under other names, in the same registers
and in slots at the same places. -/
structure Mirrors (σ : Var → Var) (scope reads : List Var) (a b : Allocator) : Prop where
  ready : a.Ready scope reads
  stacked : b.Stacked
  slotCount_eq : b.slotCount = a.slotCount
  recency_eq : b.recency = a.recency
  occupant?_eq : ∀ r, b.occupant? r = (a.occupant? r).map σ
  holder?_eq : ∀ n, b.holder? n = (a.holder? n).map σ
  remaining?_eq : ∀ v ∈ scope, b.pending.remaining? (σ v) = a.pending.remaining? v

namespace Mirrors

theorem mem_scope_of_occupant (h : Mirrors σ scope reads a b) (hw : a.occupant? r = some w) :
    w ∈ scope :=
  h.ready.mem_scope (Bijection.image?_eq_some_iff.2 hw)

theorem mem_scope_of_holder (h : Mirrors σ scope reads a b)
    (hw : a.slots.preimage? offset = some w) : w ∈ scope :=
  h.ready.tracks.knows_iff.1 (h.ready.stacked.knows (Bijection.image?_eq_some_iff.2 hw))

theorem live (h : Mirrors σ scope reads a b) (hw : w ∈ scope) (hlive : a.pending.Live w) :
    b.pending.Live (σ w) := by
  obtain ⟨k, hk⟩ := hlive
  exact ⟨k, (h.remaining?_eq w hw).trans hk⟩

theorem candidates_eq (h : Mirrors σ scope reads a b) (excluded : List PoolReg) :
    b.candidates excluded = a.candidates excluded := by
  rw [candidates, candidates, h.recency_eq]

theorem occupant?_of_eq_some (h : Mirrors σ scope reads a b) (hw : a.occupant? r = some w) :
    b.occupant? r = some (σ w) := by
  rw [h.occupant?_eq, hw, Option.map_some]

theorem register?_eq (h : Mirrors σ scope reads a b) (hinj : Set.InjOn σ {v | v ∈ scope})
    (hv : v ∈ scope) : b.register? (σ v) = a.register? v := by
  refine Option.ext fun r => ?_
  have hb : b.register? (σ v) = some r ↔ b.occupant? r = some (σ v) := Bijection.image?_eq_some_iff
  have ha : a.register? v = some r ↔ a.occupant? r = some v := Bijection.image?_eq_some_iff
  rw [hb, ha, h.occupant?_eq, Option.map_eq_some_iff]
  constructor
  · intro ⟨w, hw, heq⟩
    exact hinj (h.mem_scope_of_occupant hw) hv heq ▸ hw
  · intro hr
    exact ⟨v, hr, rfl⟩

theorem sameSlot_mul (h : Mirrors σ scope reads a b) (n : Nat) :
    a.sameSlot b (n * a.slotSize) = n * b.slotSize := by
  rw [sameSlot, Nat.mul_div_cancel n h.ready.stacked.slotSize_pos]

theorem offsets_eq (h : Mirrors σ scope reads a b) : b.offsets = a.offsets.map (a.sameSlot b) := by
  have hcount : b.depth / b.slotSize = a.depth / a.slotSize := h.slotCount_eq
  rw [offsets, offsets, hcount, List.map_map]
  exact List.map_congr_left fun n _ => (h.sameSlot_mul n).symm

theorem sameSlot_depth (h : Mirrors σ scope reads a b) : a.sameSlot b a.depth = b.depth := by
  have hcount : a.depth / a.slotSize = b.slotCount := h.slotCount_eq.symm
  rw [sameSlot, hcount, h.stacked.slotCount_mul]

theorem preimage?_sameSlot (h : Mirrors σ scope reads a b) (hdvd : a.slotSize ∣ offset) :
    b.slots.preimage? (a.sameSlot b offset) = (a.slots.preimage? offset).map σ := by
  have hplace : offset / a.slotSize * a.slotSize = offset := Nat.div_mul_cancel hdvd
  have hholder := h.holder?_eq (offset / a.slotSize)
  rw [holder?, holder?, hplace] at hholder
  exact hholder

theorem sameSlot_injective (h : Mirrors σ scope reads a b) {o o' : Nat} (ho : a.slotSize ∣ o)
    (ho' : a.slotSize ∣ o') (heq : a.sameSlot b o = a.sameSlot b o') : o = o' := by
  obtain ⟨k, rfl⟩ := ho
  obtain ⟨k', rfl⟩ := ho'
  rw [Nat.mul_comm _ k, h.sameSlot_mul, Nat.mul_comm _ k', h.sameSlot_mul] at heq
  rw [Nat.eq_of_mul_eq_mul_right h.stacked.slotSize_pos heq]

theorem slot?_eq (h : Mirrors σ scope reads a b) (hinj : Set.InjOn σ {v | v ∈ scope})
    (hv : v ∈ scope) : b.slot? (σ v) = (a.slot? v).map (a.sameSlot b) := by
  refine Option.ext fun o => ?_
  rw [Option.map_eq_some_iff]
  constructor
  · intro ho
    have hmem : o ∈ b.offsets := (h.stacked.filled o).2 ⟨σ v, ho⟩
    rw [h.offsets_eq] at hmem
    obtain ⟨o', ho', rfl⟩ := List.mem_map.1 hmem
    have hpre := Bijection.image?_eq_some_iff.1 ho
    rw [h.preimage?_sameSlot (h.ready.stacked.dvd_of_mem_offsets ho')] at hpre
    obtain ⟨w, hw, heq⟩ := Option.map_eq_some_iff.1 hpre
    have hwv : w = v := hinj (h.mem_scope_of_holder hw) hv heq
    exact ⟨o', Bijection.image?_eq_some_iff.2 (hwv ▸ hw), rfl⟩
  · intro ⟨o', ho', heq⟩
    have hpre : a.slots.preimage? o' = some v := Bijection.image?_eq_some_iff.1 ho'
    have hdvd := (h.ready.stacked.slot_lt ho').1
    refine Bijection.image?_eq_some_iff.2 ?_
    rw [← heq, h.preimage?_sameSlot hdvd, hpre, Option.map_some]

/-! ### The same decisions -/

theorem live_holder (h : Mirrors σ scope reads a b) (hmem : offset ∈ a.offsets)
    (hholder : ∃ w, a.slots.preimage? offset = some w ∧ a.pending.Live w) :
    ∃ w, b.slots.preimage? (a.sameSlot b offset) = some w ∧ b.pending.Live w := by
  obtain ⟨w, hw, hlive⟩ := hholder
  have hsame := h.preimage?_sameSlot (h.ready.stacked.dvd_of_mem_offsets hmem)
  rw [hw, Option.map_some] at hsame
  exact ⟨σ w, hsame, h.live (h.mem_scope_of_holder hw) hlive⟩

theorem places (h : Mirrors σ scope reads a b) (hinj : Set.InjOn σ {v | v ∈ scope}) (hu : u ∈ scope)
    (hplace : Places a u placement)
    (hfits : a.depthAfter placement / a.slotSize * b.slotSize < byteLimit) :
    Places b (σ u) (placement.moved (a.sameSlot b)) := by
  cases hplace with
  | own hslot => exact .own (by rw [h.slot?_eq hinj hu, hslot, Option.map_some])
  | @recycled front back o hslot hsplit hfront hdead =>
      have hnone : b.slot? (σ u) = none := by rw [h.slot?_eq hinj hu, hslot, Option.map_none]
      have hsplit' : b.offsets = front.map (a.sameSlot b) ++ a.sameSlot b o :: back.map
          (a.sameSlot b) := by
        rw [h.offsets_eq, hsplit, List.map_append, List.map_cons]
      have hdvd : a.slotSize ∣ o := h.ready.stacked.dvd_of_mem_offsets (by rw [hsplit]; simp)
      refine .recycled hnone hsplit' (fun o' ho' => ?_) fun holder hholder => ?_
      · obtain ⟨x, hx, rfl⟩ := List.mem_map.1 ho'
        exact h.live_holder (by rw [hsplit]; exact List.mem_append_left _ hx) (hfront x hx)
      · rw [h.preimage?_sameSlot hdvd] at hholder
        obtain ⟨w, hw, rfl⟩ := Option.map_eq_some_iff.1 hholder
        rw [h.remaining?_eq w (h.mem_scope_of_holder hw)]
        exact hdead w hw
  | grown hslot hfull _ =>
      have hnone : b.slot? (σ u) = none := by rw [h.slot?_eq hinj hu, hslot, Option.map_none]
      have hcount : (a.depth + a.slotSize) / a.slotSize = b.slotCount + 1 := by
        rw [Nat.add_div_right _ h.ready.stacked.slotSize_pos, h.slotCount_eq, slotCount]
      rw [depthAfter, hcount, Nat.succ_mul, h.stacked.slotCount_mul] at hfits
      rw [Placement.moved, h.sameSlot_depth]
      refine .grown hnone (fun o' ho' => ?_) hfits
      rw [h.offsets_eq] at ho'
      obtain ⟨x, hx, rfl⟩ := List.mem_map.1 ho'
      exact h.live_holder hx (hfull x hx)

theorem live_occupant (h : Mirrors σ scope reads a b)
    (hheld : ∃ w, a.occupant? r = some w ∧ a.pending.Live w) :
    ∃ w, b.occupant? r = some w ∧ b.pending.Live w := by
  obtain ⟨w, hw, hlive⟩ := hheld
  exact ⟨σ w, h.occupant?_of_eq_some hw, h.live (h.mem_scope_of_occupant hw) hlive⟩

/-- What the first state allows for a variable, the second allows for its new name. -/
theorem grants (h : Mirrors σ scope reads a b) (hinj : Set.InjOn σ {v | v ∈ scope}) (hv : v ∈ scope)
    (hgrants : Grants a v excluded grant) (hfits : (a.settle v grant).FitsAt b.slotSize) :
    Grants b (σ v) excluded (grant.moved σ (a.sameSlot b)) := by
  have hregister := h.register?_eq hinj hv
  have hcandidates := h.candidates_eq excluded
  cases hgrants with
  | resident hheld => exact .resident (hregister.trans hheld)
  | free hnew hfirst =>
      refine .free (hregister.trans hnew) ?_
      have hfree : (fun r => (b.occupant? r).isNone) = fun r => (a.occupant? r).isNone := by
        funext r
        rw [h.occupant?_eq, Option.isNone_map]
      rw [hcandidates, hfree, hfirst]
  | retired hnew hsplit hfront hfull hheld hdead =>
      refine .retired (hregister.trans hnew) (hcandidates.trans hsplit)
        (fun s hs => h.live_occupant (hfront s hs))
        (fun s hs => ?_) (h.occupant?_of_eq_some hheld) ?_
      · rw [h.occupant?_eq, Ne, Option.map_eq_none_iff]
        exact hfull s (hcandidates ▸ hs)
      · rw [h.remaining?_eq _ (h.mem_scope_of_occupant hheld), hdead]
  | evict hnew hsplit hfull hheld hplace =>
      rw [FitsAt, slotCount_settle_evict] at hfits
      exact .evict (hregister.trans hnew) (hcandidates.trans hsplit)
        (fun s hs => h.live_occupant (hfull s (hcandidates ▸ hs))) (h.occupant?_of_eq_some hheld)
        (h.places hinj (h.mem_scope_of_occupant hheld) hplace hfits)

/-! ### The same tables afterwards -/

theorem slotCount_settle (h : Mirrors σ scope reads a b) (v : Var) (grant : Grant) :
    (b.settle (σ v) (grant.moved σ (a.sameSlot b))).slotCount = (a.settle v grant).slotCount := by
  have hcount : b.depth / b.slotSize = a.depth / a.slotSize := h.slotCount_eq
  cases grant with
  | found how r =>
      rw [Grant.moved, slotCount_settle_found, slotCount_settle_found]
      exact hcount
  | evict r u placement =>
      rw [Grant.moved, slotCount_settle_evict, slotCount_settle_evict]
      cases placement with
      | own => exact hcount
      | recycled => exact hcount
      | grown =>
          simp only [Placement.moved, depthAfter]
          rw [Nat.add_div_right _ h.stacked.slotSize_pos,
            Nat.add_div_right _ h.ready.stacked.slotSize_pos, hcount]

theorem holder?_settle (h : Mirrors σ scope reads a b) (hgrants : Grants a v excluded grant)
    (hgrants' : Grants b (σ v) excluded (grant.moved σ (a.sameSlot b))) (n : Nat) :
    (b.settle (σ v) (grant.moved σ (a.sameSlot b))).holder? n =
        ((a.settle v grant).holder? n).map σ := by
  rw [holder?, holder?, slotSize_settle, slotSize_settle]
  cases grant with
  | found how r =>
      rw [Grant.moved, slots_settle_found, slots_settle_found]
      exact h.holder?_eq n
  | evict r u placement =>
      have hplace := hgrants.places
      have hdvd := hplace.dvd_offset h.ready.stacked
      have hplace' : Places b (σ u) (placement.moved (a.sameSlot b)) := hgrants'.places
      have hiff : n * b.slotSize = a.sameSlot b placement.offset ↔
          n * a.slotSize = placement.offset := by
        rw [← h.sameSlot_mul n]
        exact ⟨h.sameSlot_injective (Nat.dvd_mul_left _ n) hdvd, congrArg _⟩
      have hholder : b.slots.preimage? (n * b.slotSize) =
          (a.slots.preimage? (n * a.slotSize)).map σ := h.holder?_eq n
      rw [Grant.moved, hplace'.holder_settle, hplace.holder_settle, Placement.offset_moved, hholder]
      by_cases hn : n * a.slotSize = placement.offset
      · rw [if_pos hn, if_pos (hiff.2 hn), Option.map_some]
      · rw [if_neg hn, if_neg fun heq => hn (hiff.1 heq)]

theorem settle (h : Mirrors σ scope reads a b) (hv : v ∈ scope)
    (hgrants : Grants a v excluded grant)
    (hgrants' : Grants b (σ v) excluded (grant.moved σ (a.sameSlot b))) :
    Mirrors σ scope reads (a.settle v grant) (b.settle (σ v) (grant.moved σ (a.sameSlot b))) := by
  have hacquire : a.acquire v excluded = (.ok grant.register, a.settle v grant) :=
    acquire_eq_ok_iff.2 ⟨grant, hgrants, rfl, rfl⟩
  have hacquire' := acquire_eq_ok_iff.2 ⟨_, hgrants', rfl, rfl⟩
  refine ⟨h.ready.acquire hv hacquire, h.stacked.acquire hacquire', h.slotCount_settle v grant,
    ?_, fun s => ?_, h.holder?_settle hgrants hgrants', fun w hw => ?_⟩
  · rw [recency_settle, recency_settle, Grant.register_moved, h.recency_eq]
  · rw [hgrants'.occupant?_settle, hgrants.occupant?_settle, Grant.register_moved, h.occupant?_eq]
    split <;> rfl
  · rw [pending_settle, pending_settle]
    exact h.remaining?_eq w hw

end Mirrors

/-! ### The same costs -/

/-- Two allocators have stored and reloaded as often, and spilled the same variables up to their
names. With slots of the same size the same code waits to be emitted. -/
structure SameCosts (σ : Var → Var) (a b : Allocator) : Prop where
  stores_eq : b.stores = a.stores
  reloads_eq : b.reloads = a.reloads
  spilled_eq : b.spilled = Var.sorted (a.spilled.map σ)
  queue_eq : b.slotSize = a.slotSize → b.queue = a.queue

theorem Mirrors.reloadCode_eq (h : Mirrors σ scope reads a b) (hinj : Set.InjOn σ {v | v ∈ scope})
    (hv : v ∈ scope) (r : PoolReg) :
    b.reloadCode (σ v) r = (a.slot? v).toList.map fun o => Asm.reload r (a.sameSlot b o) := by
  rw [reloadCode, h.slot?_eq hinj hv]
  cases a.slot? v <;> rfl

theorem Mirrors.length_reloadCode (h : Mirrors σ scope reads a b)
    (hinj : Set.InjOn σ {v | v ∈ scope}) (hv : v ∈ scope) (r : PoolReg) :
    (b.reloadCode (σ v) r).length = (a.reloadCode v r).length := by
  rw [h.reloadCode_eq hinj hv, reloadCode, List.length_map, List.length_map]

theorem Mirrors.reloadCode_of_size_eq (h : Mirrors σ scope reads a b)
    (hinj : Set.InjOn σ {v | v ∈ scope}) (hv : v ∈ scope) (hsize : b.slotSize = a.slotSize)
    (r : PoolReg) : b.reloadCode (σ v) r = a.reloadCode v r := by
  rw [h.reloadCode_eq hinj hv, reloadCode]
  refine List.map_congr_left fun o ho => ?_
  have hslot : a.slot? v = some o := by simpa using ho
  rw [sameSlot_of_size_eq hsize (h.ready.stacked.slot_lt hslot).1]

/-- The code that loads the variable of an acquisition is the same before and after its register is
bound. -/
theorem reloadCode_settle_evict (a : Allocator) (v : Var) (r : PoolReg) (u : Var)
    (placement : Placement) :
    (a.settle v (.evict r u placement)).reloadCode v r =
      (a.store r u placement).reloadCode v r := by
  rw [reloadCode, reloadCode, settle, slot?_bind]

theorem reloads_settle_evict (a : Allocator) (v : Var) (r : PoolReg) (u : Var)
    (placement : Placement) :
    (a.settle v (.evict r u placement)).reloads =
      a.reloads + ((a.settle v (.evict r u placement)).reloadCode v r).length := by
  rw [reloadCode_settle_evict, settle, bind_eq, store_eq]

theorem SameCosts.settle_found (h : SameCosts σ a b) (hmirrors : Mirrors σ scope reads a b)
    (hinj : Set.InjOn σ {v | v ∈ scope}) (hv : v ∈ scope) (how : Find) (r : PoolReg) :
    SameCosts σ (a.settle v (.found how r)) (b.settle (σ v) (.found how r)) := by
  cases how with
  | resident => exact ⟨h.stores_eq, h.reloads_eq, h.spilled_eq, h.queue_eq⟩
  | free | retired =>
      simp only [settle, bind_eq]
      refine ⟨h.stores_eq, ?_, h.spilled_eq, fun hsize => ?_⟩
      · exact congrArg₂ (· + ·) h.reloads_eq (hmirrors.length_reloadCode hinj hv r)
      · exact congrArg₂ (· ++ ·) (h.queue_eq hsize) (hmirrors.reloadCode_of_size_eq hinj hv hsize r)

theorem SameCosts.settle_evict (h : SameCosts σ a b)
    (hafter : Mirrors σ scope reads (a.settle v (.evict r u placement))
      (b.settle (σ v) (.evict r (σ u) (placement.moved (a.sameSlot b)))))
    (hinj : Set.InjOn σ {v | v ∈ scope}) (hv : v ∈ scope) (hdvd : a.slotSize ∣ placement.offset) :
    SameCosts σ (a.settle v (.evict r u placement))
        (b.settle (σ v) (.evict r (σ u) (placement.moved (a.sameSlot b)))) where
  stores_eq := by
    simp only [settle, bind_eq, store_eq, h.stores_eq]
  reloads_eq := by
    rw [reloads_settle_evict, reloads_settle_evict, h.reloads_eq, hafter.length_reloadCode hinj hv]
  spilled_eq := by
    simp only [settle, bind_eq, store_eq, h.spilled_eq, Var.sorted_map_insertSorted]
  queue_eq := by
    intro hsize
    rw [slotSize_settle, slotSize_settle] at hsize
    have hreload := hafter.reloadCode_of_size_eq hinj hv
      (by rw [slotSize_settle, slotSize_settle, hsize]) r
    rw [reloadCode_settle_evict, reloadCode_settle_evict] at hreload
    rw [queue_settle, queue_settle, h.queue_eq hsize, spillCode, spillCode, hreload,
      Placement.offset_moved, sameSlot_of_size_eq hsize hdvd]

/-! ### Lockstep -/

/-- Two allocators have the same tables and the same costs, up to the names of the variables and the
size of a slot. -/
structure Lockstep (σ : Var → Var) (scope reads : List Var) (a b : Allocator) : Prop where
  mirrors : Mirrors σ scope reads a b
  costs : SameCosts σ a b

/-- A register that the first allocator hands out, the second hands out too. -/
theorem Lockstep.acquire (h : Lockstep σ scope reads a b) (hinj : Set.InjOn σ {v | v ∈ scope})
    (hv : v ∈ scope) (hacq : a.acquire v excluded = (.ok r, c)) (hfits : c.FitsAt b.slotSize) :
    ∃ d, b.acquire (σ v) excluded = (.ok r, d) ∧ d.slotSize = b.slotSize ∧
        Lockstep σ scope reads c d := by
  obtain ⟨grant, hgrants, rfl, rfl⟩ := acquire_eq_ok_iff.1 hacq
  have hgrants' := h.mirrors.grants hinj hv hgrants hfits
  have hafter := h.mirrors.settle hv hgrants hgrants'
  refine ⟨_, acquire_eq_ok_iff.2 ⟨_, hgrants', Grant.register_moved .., rfl⟩,
    slotSize_settle .., hafter, ?_⟩
  cases grant with
  | found how r => exact h.costs.settle_found h.mirrors hinj hv how r
  | evict r u placement =>
      exact h.costs.settle_evict hafter hinj hv (hgrants.places.dvd_offset h.mirrors.ready.stacked)

theorem Lockstep.consume (h : Lockstep σ scope (v :: reads) a b)
    (hinj : Set.InjOn σ {v | v ∈ scope}) (hv : v ∈ scope) (hcon : a.consume v = (.ok (), c)) :
    ∃ d, b.consume (σ v) = (.ok (), d) ∧ Lockstep σ scope reads c d := by
  have hready := h.mirrors.ready.consume hcon
  have hlive : b.pending.Live (σ v) :=
    h.mirrors.live hv (h.mirrors.ready.tracks.live hv List.mem_cons_self)
  obtain ⟨pending, hpending, rfl⟩ := consume_eq_ok_iff.1 hcon
  obtain ⟨pending', hpending'⟩ := PendingReads.exists_consume_of_live hlive
  have hcon' : b.consume (σ v) = (.ok (), { b with pending := pending' }) :=
    consume_eq_ok_iff.2 ⟨_, hpending', rfl⟩
  have hstacked := h.mirrors.stacked.consume (σ v)
  rw [hcon'] at hstacked
  refine ⟨_, hcon', ⟨hready, hstacked, h.mirrors.slotCount_eq, h.mirrors.recency_eq,
    h.mirrors.occupant?_eq, h.mirrors.holder?_eq, fun w hw => ?_⟩, h.costs.stores_eq,
    h.costs.reloads_eq, h.costs.spilled_eq, h.costs.queue_eq⟩
  rw [PendingReads.remaining?_consume hpending', PendingReads.remaining?_consume hpending,
    h.mirrors.remaining?_eq v hv, h.mirrors.remaining?_eq w hw]
  by_cases hwv : w = v
  · rw [if_pos hwv, if_pos (congrArg σ hwv)]
  · rw [if_neg hwv, if_neg fun heq => hwv (hinj hw hv heq)]

theorem Lockstep.drain (h : Lockstep σ scope reads a b) :
    Lockstep σ scope reads a.drain.2 b.drain.2 :=
  ⟨⟨h.mirrors.ready.drain, h.mirrors.stacked.drain, h.mirrors.slotCount_eq, h.mirrors.recency_eq,
    h.mirrors.occupant?_eq, h.mirrors.holder?_eq, h.mirrors.remaining?_eq⟩, h.costs.stores_eq,
    h.costs.reloads_eq, h.costs.spilled_eq, fun _ => rfl⟩

end Allocator

end StraightLine
