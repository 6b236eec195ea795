import Mathlib.Data.Finset.Dedup
import Mathlib.Data.Finset.Card
import StraightLine.Proofs.Allocator.Progress

/-!
# Crowded registers and slots

The allocator spills only when it has to. A request that evicts a variable, or that is refused,
meets a pool in which every register it may take holds a variable with a pending read. Together with
the variables in the registers it stays away from and the one that asks, these are more variables
than the pool has registers. The stack grows only when every slot belongs to a variable with a
pending read and one more such variable needs a slot.

Both are stated for a set of variables that covers the request, so that a caller who knows the
pending reads can bound evictions and slots by counting.
-/

namespace StraightLine

namespace Allocator

variable {a b : Allocator} {u v w : Var} {r s : PoolReg} {excluded : List PoolReg}
  {placement : Placement} {S : Finset Var} {f : Failure}

def Keeps (a : Allocator) (v : Var) : Prop :=
  (∃ r, a.register? v = some r) ∨ ∃ o, a.slot? v = some o

theorem Grants.keeps_victim (h : Grants a v excluded (.evict r u placement)) : a.Keeps u :=
  Or.inl ⟨r, Bijection.image?_eq_some_iff.2 h.occupant?_of_evict⟩

theorem keeps_acquire (h : a.acquire v excluded = (.ok r, b)) (hw : b.Keeps w) :
    w = v ∨ a.Keeps w := by
  obtain ⟨s, hs⟩ | ⟨o, ho⟩ := hw
  · rw [register?_acquire h] at hs
    split at hs
    · next heq => exact Or.inl heq
    · split at hs
      · cases hs
      · exact Or.inr (Or.inl ⟨s, hs⟩)
  · obtain ⟨grant, hgrants, _, rfl⟩ := acquire_eq_ok_iff.1 h
    right
    cases grant with
    | found how r =>
        rw [slot?_settle_found] at ho
        exact Or.inr ⟨o, ho⟩
    | evict r u placement =>
        rw [slot?_settle_evict] at ho
        split at ho
        · next heq => exact heq ▸ hgrants.keeps_victim
        · split at ho
          · cases ho
          · exact Or.inr ⟨o, ho⟩

/-! ### Registers -/

/-- Every register outside the excluded ones holds a variable with a pending read. -/
def Crowded (a : Allocator) (excluded : List PoolReg) : Prop :=
  ∀ s ∈ a.candidates excluded, ∃ w, a.occupant? s = some w ∧ a.pending.Live w

theorem Grants.crowded (h : Grants a v excluded (.evict r u placement)) :
    a.register? v = none ∧ a.Crowded excluded := by
  cases h with
  | evict hnew _ hfull => exact ⟨hnew, hfull⟩

theorem Refused.crowded (h : Refused a v excluded f)
    (hknows : ∀ {w r}, a.register? w = some r → a.pending.Knows w) :
    a.register? v = none ∧ a.Crowded excluded := by
  cases h with
  | exhausted hnew hnil =>
      refine ⟨hnew, fun s hs => ?_⟩
      rw [hnil] at hs
      cases hs
  | unknown _ _ _ _ hheld hunknown =>
      obtain ⟨n, hn⟩ := hknows (Bijection.image?_eq_some_iff.2 hheld)
      rw [hunknown] at hn
      cases hn
  | unplaced hnew _ hfull => exact ⟨hnew, hfull⟩

def residents (a : Allocator) : List Var := a.recency.filterMap a.occupant?

theorem mem_residents (hw : w ∈ a.residents) : ∃ s ∈ a.recency, a.register? w = some s := by
  obtain ⟨s, hs, hheld⟩ := List.mem_filterMap.1 hw
  exact ⟨s, hs, Bijection.image?_eq_some_iff.2 hheld⟩

theorem Pooled.nodup_residents (hpool : a.Pooled) : a.residents.Nodup := by
  have hnodup : a.recency.Nodup := hpool.recency_perm.nodup_iff.2 (nodup_pool a.poolSize)
  exact hnodup.filterMap fun s s' w hs hs' => Bijection.preimage?_injective hs hs'

theorem Pooled.length_residents (hpool : a.Pooled)
    (hfull : ∀ s ∈ a.recency, (a.occupant? s).isSome) : a.residents.length = a.poolSize := by
  rw [residents, List.filterMap_length_eq_length.2 hfull, hpool.recency_perm.length_eq, length_pool]

/-- The set has the variable of a request, the ones in the registers it stays away from, and every
variable with a pending read that has a register or a slot. -/
structure Covers (S : Finset Var) (a : Allocator) (v : Var) (excluded : List PoolReg) : Prop where
  asking : v ∈ S
  held : ∀ s ∈ excluded, ∃ w ∈ S, a.register? w = some s
  live : ∀ {w}, a.Keeps w → a.pending.Live w → w ∈ S

/-- A request that meets a crowded pool needs one variable more than there are registers. -/
theorem Covers.poolSize_lt (h : Covers S a v excluded) (hpool : a.Pooled)
    (hnew : a.register? v = none) (hcrowded : a.Crowded excluded) : a.poolSize < S.card := by
  have hoccupied : ∀ s ∈ a.recency, ∃ w ∈ S, a.register? w = some s := by
    intro s hs
    -- A register outside the candidates is one that the request stays away from.
    by_cases hmem : s ∈ excluded
    · exact h.held s hmem
    · obtain ⟨w, hw, hlive⟩ := hcrowded s (mem_candidates.2 ⟨hs, hmem⟩)
      have hheld : a.register? w = some s := Bijection.image?_eq_some_iff.2 hw
      exact ⟨w, h.live (Or.inl ⟨s, hheld⟩) hlive, hheld⟩
  have hlength := hpool.length_residents fun s hs => by
    obtain ⟨w, _, hheld⟩ := hoccupied s hs
    have hocc : a.occupant? s = some w := Bijection.image?_eq_some_iff.1 hheld
    rw [hocc]
    rfl
  have hfresh : v ∉ a.residents := by
    intro hmem
    obtain ⟨s, _, hheld⟩ := mem_residents hmem
    rw [hnew] at hheld
    cases hheld
  have hsub : v :: a.residents ⊆ S.toList := by
    intro w hw
    rw [Finset.mem_toList]
    obtain rfl | hw := List.mem_cons.1 hw
    · exact h.asking
    · obtain ⟨s, hs, hheld⟩ := mem_residents hw
      obtain ⟨w', hw', hheld'⟩ := hoccupied s hs
      rw [Bijection.image?_injective hheld hheld']
      exact hw'
  have hnodup : (v :: a.residents).Nodup := List.nodup_cons.2 ⟨hfresh, hpool.nodup_residents⟩
  have hle := hnodup.length_le_of_subset hsub
  rw [List.length_cons, hlength, Finset.length_toList] at hle
  exact hle

/-! ### A run without spills -/

structure Unspilled (a : Allocator) : Prop where
  slot?_eq : ∀ v, a.slot? v = none
  depth_eq : a.depth = 0
  stores_eq : a.stores = 0
  reloads_eq : a.reloads = 0
  spilled_eq : a.spilled = []

theorem Unspilled.found (h : a.Unspilled) (v : Var) (how : Find) (r : PoolReg) :
    (a.settle v (.found how r)).Unspilled := by
  have hcode : ∀ e, (a.log e).reloadCode v r = [] := by
    intro e
    have hslot : (a.log e).slot? v = none := h.slot?_eq v
    rw [reloadCode, hslot]
    rfl
  refine ⟨fun w => ?_, ?_, ?_, ?_, ?_⟩
  · rw [slot?_settle_found, h.slot?_eq]
  · rw [depth_settle_found, h.depth_eq]
  · cases how <;> simp [settle, bind_eq, touch, log, h.stores_eq]
  · cases how with
    | resident => exact h.reloads_eq
    | free | retired =>
        show ((a.log _).bind v r).reloads = 0
        rw [bind_eq, hcode]
        exact h.reloads_eq
  · rw [spilled_settle_found, h.spilled_eq]

/-- While the variables that cover a request fit the pool, it is granted without a spill. -/
theorem Unspilled.acquire (h : a.Unspilled) (hcovers : Covers S a v excluded) (hpool : a.Pooled)
    (hfits : S.card ≤ a.poolSize) (hacq : a.acquire v excluded = (.ok r, b)) : b.Unspilled := by
  obtain ⟨grant, hgrants, _, rfl⟩ := acquire_eq_ok_iff.1 hacq
  cases grant with
  | found how r => exact h.found v how r
  | evict r u placement =>
      obtain ⟨hnew, hcrowded⟩ := hgrants.crowded
      exact absurd (hcovers.poolSize_lt hpool hnew hcrowded) (Nat.not_lt.2 hfits)

theorem Unspilled.consume (h : a.Unspilled) (hcon : a.consume v = (.ok (), b)) : b.Unspilled := by
  obtain ⟨pending, _, rfl⟩ := consume_eq_ok_iff.1 hcon
  exact ⟨h.slot?_eq, h.depth_eq, h.stores_eq, h.reloads_eq, h.spilled_eq⟩

theorem Unspilled.drain (h : a.Unspilled) : a.drain.2.Unspilled :=
  ⟨h.slot?_eq, h.depth_eq, h.stores_eq, h.reloads_eq, h.spilled_eq⟩

theorem Covers.acquire_ne_error (h : Covers S a v excluded) (hpool : a.Pooled)
    (hknows : ∀ {w r}, a.register? w = some r → a.pending.Knows w) (hfits : S.card ≤ a.poolSize) :
    a.acquire v excluded ≠ (.error f, b) := by
  intro herror
  obtain ⟨hnew, hcrowded⟩ := (acquire_eq_error_iff.1 herror).1.crowded hknows
  exact absurd (h.poolSize_lt hpool hnew hcrowded) (Nat.not_lt.2 hfits)

/-! ### Slots -/

/-- The stack grows to at most one slot for each variable with a pending read that has a register or
a slot. -/
theorem Stacked.depth_acquire_le (hstack : a.Stacked)
    (hlive : ∀ {w}, a.Keeps w → a.pending.Live w → w ∈ S)
    (hacq : a.acquire v excluded = (.ok r, b)) : b.depth ≤ max a.depth (a.slotSize * S.card) := by
  obtain ⟨grant, hgrants, _, rfl⟩ := acquire_eq_ok_iff.1 hacq
  cases grant with
  | found how r =>
      rw [depth_settle_found]
      exact Nat.le_max_left ..
  | evict r u placement =>
      rw [depth_settle_evict]
      cases hgrants.places with
      | own | recycled => exact Nat.le_max_left ..
      | grown hslot hfull =>
          have hholders : ∀ {w o}, a.slot? w = some o → w ∈ S.toList := by
            intro w o ho
            obtain ⟨holder, hholder, hholderLive⟩ := hfull o ((hstack.filled o).2 ⟨w, ho⟩)
            cases (Bijection.image?_eq_some_iff.1 ho).symm.trans hholder
            exact Finset.mem_toList.2 (hlive (Or.inr ⟨o, ho⟩) hholderLive)
          have hu : u ∈ S.toList :=
            Finset.mem_toList.2 (hlive hgrants.keeps_victim hgrants.victim_live)
          have hgrown := hstack.depth_add_le hholders hu hslot
          rw [Finset.length_toList] at hgrown
          exact Nat.le_trans hgrown (Nat.le_max_right ..)

/-- Every variable that has a slot is counted among the spilled ones. -/
def Recorded (a : Allocator) : Prop := ∀ w o, a.slot? w = some o → w ∈ a.spilled

theorem Recorded.acquire (h : a.Recorded) (hacq : a.acquire v excluded = (.ok r, b)) :
    b.Recorded := by
  obtain ⟨grant, _, _, rfl⟩ := acquire_eq_ok_iff.1 hacq
  intro w o ho
  cases grant with
  | found how r =>
      rw [slot?_settle_found] at ho
      rw [spilled_settle_found]
      exact h w o ho
  | evict r u placement =>
      rw [slot?_settle_evict] at ho
      rw [spilled_settle_evict, Var.mem_insertSorted]
      split at ho
      · next heq => exact Or.inl heq
      · split at ho
        · cases ho
        · exact Or.inr (h w o ho)

theorem Recorded.consume (h : a.Recorded) (hcon : a.consume v = (.ok (), b)) : b.Recorded := by
  obtain ⟨pending, _, rfl⟩ := consume_eq_ok_iff.1 hcon
  exact h

theorem Recorded.drain (h : a.Recorded) : a.drain.2.Recorded := h

theorem Recorded.depth_le (h : a.Recorded) (hstack : a.Stacked) :
    a.depth ≤ a.slotSize * a.spilled.toFinset.card := by
  rw [← Finset.length_toList]
  exact hstack.depth_le fun ho => Finset.mem_toList.2 (List.mem_toFinset.2 (h _ _ ho))

end Allocator

end StraightLine
