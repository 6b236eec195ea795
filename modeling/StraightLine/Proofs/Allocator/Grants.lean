import StraightLine.Allocator.Acquire
import StraightLine.Proofs.ReadCounts

/-!
# What an acquisition can do

`acquire` decides by `plan` and acts by `settle`. This module says once what the two can do, and the
rest of the theory reaches them only through it. `Grants` lists the four ways in which a register is
found, each with what the state says about the register, and `Places` the three slots that a spilled
variable can get. For the acting half there is one equation for each table that binding and storing
change.
-/

namespace StraightLine

namespace Allocator

variable {a b : Allocator} {u v w : Var} {r s : PoolReg} {excluded : List PoolReg} {offset : Nat}
  {grant : Grant} {placement : Placement}

/-! ### Deciding -/

/-- The slots that the state allows for a variable that loses its register. A slot is recycled only
when every slot below it belongs to a live variable, and the stack grows only when all do. -/
inductive Places (a : Allocator) (v : Var) : Placement → Prop
  | own {offset : Nat} (hslot : a.slot? v = some offset) : Places a v (.own offset)
  | recycled {front back : List Nat} {offset : Nat} (hslot : a.slot? v = none)
      (hsplit : a.offsets = front ++ offset :: back)
      (hfront : ∀ o ∈ front, ∃ holder, a.slots.preimage? o = some holder ∧ a.pending.Live holder)
      (hdead : ∀ holder, a.slots.preimage? offset = some holder →
          a.pending.remaining? holder = some 0) :
      Places a v (.recycled offset)
  | grown (hslot : a.slot? v = none)
      (hfull : ∀ o ∈ a.offsets, ∃ holder, a.slots.preimage? o = some holder ∧ a.pending.Live holder)
      (hfits : a.depth + a.slotSize < byteLimit) : Places a v (.grown a.depth)

theorem firstReusable_eq_some {os : List Nat} (h : a.firstReusable os = .ok (some offset)) :
    ∃ front back, os = front ++ offset :: back ∧
      (∀ o ∈ front, ∃ holder, a.slots.preimage? o = some holder ∧ a.pending.Live holder) ∧
      ∀ holder, a.slots.preimage? offset = some holder → a.pending.remaining? holder = some 0 := by
  induction os with
  | nil => cases h
  | cons o os ih =>
      rw [firstReusable] at h
      split at h
      · next hnone =>
          cases h
          refine ⟨[], os, rfl, by simp, fun holder hholder => ?_⟩
          rw [hnone] at hholder
          cases hholder
      · next holder hholder =>
          split at h
          · cases h
          · next hdead =>
              cases h
              refine ⟨[], os, rfl, by simp, fun holder' hholder' => ?_⟩
              rw [hholder] at hholder'
              cases hholder'
              exact PendingReads.isDead_eq_true_iff.1 hdead
          · next hlive =>
              obtain ⟨front, back, hos, hfront, hoffset⟩ := ih h
              refine ⟨o :: front, back, by rw [hos, List.cons_append], fun o' ho' => ?_, hoffset⟩
              obtain rfl | ho' := List.mem_cons.1 ho'
              · exact ⟨holder, hholder, PendingReads.isDead_eq_false_iff.1 hlive⟩
              · exact hfront o' ho'

theorem firstReusable_eq_none {os : List Nat} (h : a.firstReusable os = .ok none) :
    ∀ o ∈ os, ∃ holder, a.slots.preimage? o = some holder ∧ a.pending.Live holder := by
  induction os with
  | nil => simp
  | cons o os ih =>
      rw [firstReusable] at h
      split at h
      · cases h
      · next holder hholder =>
          split at h
          · cases h
          · cases h
          · next hlive =>
              intro o' ho'
              obtain rfl | ho' := List.mem_cons.1 ho'
              · exact ⟨holder, hholder, PendingReads.isDead_eq_false_iff.1 hlive⟩
              · exact ih h o' ho'

theorem places_of_place (h : a.place v = .ok placement) : Places a v placement := by
  rw [place] at h
  split at h
  · next hslot =>
      cases h
      exact .own hslot
  · next hslot =>
      split at h
      · cases h
      · next hfound =>
          cases h
          obtain ⟨front, back, hsplit, hfront, hdead⟩ := firstReusable_eq_some hfound
          exact .recycled hslot hsplit hfront hdead
      · next hfull =>
          split at h
          · next hfits =>
              cases h
              exact .grown hslot (firstReusable_eq_none hfull) hfits
          · cases h

theorem firstReusable_of_split {front back : List Nat}
    (hfront : ∀ o ∈ front, ∃ holder, a.slots.preimage? o = some holder ∧ a.pending.Live holder)
    (hdead : ∀ holder, a.slots.preimage? offset = some holder →
        a.pending.remaining? holder = some 0) :
    a.firstReusable (front ++ offset :: back) = .ok (some offset) := by
  induction front with
  | nil =>
      rw [List.nil_append, firstReusable]
      cases hholder : a.slots.preimage? offset with
      | none => rfl
      | some holder => simp only [PendingReads.isDead_eq_true_iff.2 (hdead holder hholder)]
  | cons o front ih =>
      obtain ⟨holder, hholder, hlive⟩ := hfront o List.mem_cons_self
      rw [List.cons_append, firstReusable, hholder]
      simp only [PendingReads.isDead_eq_false_iff.2 hlive]
      exact ih fun o' ho' => hfront o' (List.mem_cons_of_mem o ho')

theorem firstReusable_of_full {os : List Nat}
    (hfull : ∀ o ∈ os, ∃ holder, a.slots.preimage? o = some holder ∧ a.pending.Live holder) :
    a.firstReusable os = .ok none := by
  induction os with
  | nil => rfl
  | cons o os ih =>
      obtain ⟨holder, hholder, hlive⟩ := hfull o List.mem_cons_self
      rw [firstReusable, hholder]
      simp only [PendingReads.isDead_eq_false_iff.2 hlive]
      exact ih fun o' ho' => hfull o' (List.mem_cons_of_mem o ho')

theorem place_of_places (h : Places a v placement) : a.place v = .ok placement := by
  cases h with
  | own hslot => rw [place, hslot]
  | recycled hslot hsplit hfront hdead =>
      rw [place, hslot, hsplit, firstReusable_of_split hfront hdead]
  | grown hslot hfull hfits =>
      rw [place, hslot, firstReusable_of_full hfull]
      exact if_pos hfits

/-- The grants that the state allows for a variable. A free register comes before a retired one and
a retired one before an eviction, and among equals the least recently used one comes first. -/
inductive Grants (a : Allocator) (v : Var) (excluded : List PoolReg) : Grant → Prop
  | resident {r : PoolReg} (hheld : a.register? v = some r) :
      Grants a v excluded (.found .resident r)
  | free {r : PoolReg} (hnew : a.register? v = none)
      (hfirst : (a.candidates excluded).find? (fun r => (a.occupant? r).isNone) = some r) :
      Grants a v excluded (.found .free r)
  | retired {front back : List PoolReg} {r : PoolReg} {u : Var} (hnew : a.register? v = none)
      (hsplit : a.candidates excluded = front ++ r :: back)
      (hfront : ∀ s ∈ front, ∃ w, a.occupant? s = some w ∧ a.pending.Live w)
      (hfull : ∀ s ∈ a.candidates excluded, a.occupant? s ≠ none)
      (hheld : a.occupant? r = some u) (hdead : a.pending.remaining? u = some 0) :
      Grants a v excluded (.found .retired r)
  | evict {rest : List PoolReg} {r : PoolReg} {u : Var} {placement : Placement}
      (hnew : a.register? v = none)
      (hsplit : a.candidates excluded = r :: rest)
      (hfull : ∀ s ∈ a.candidates excluded, ∃ w, a.occupant? s = some w ∧ a.pending.Live w)
      (hheld : a.occupant? r = some u) (hplace : Places a u placement) :
      Grants a v excluded (.evict r u placement)

theorem mem_holders :
    (r, u) ∈ a.holders excluded ↔ r ∈ a.candidates excluded ∧ a.occupant? r = some u := by
  rw [holders, List.mem_filterMap]
  constructor
  · rintro ⟨s, hs, heq⟩
    obtain ⟨w, hw, hpair⟩ := Option.map_eq_some_iff.1 heq
    cases hpair
    exact ⟨hs, hw⟩
  · rintro ⟨hr, hu⟩
    exact ⟨r, hr, by rw [hu]; rfl⟩

theorem map_fst_holders (hfull : ∀ s ∈ a.candidates excluded, a.occupant? s ≠ none) :
    (a.holders excluded).map Prod.fst = a.candidates excluded := by
  rw [holders]
  generalize a.candidates excluded = cs at hfull
  induction cs with
  | nil => rfl
  | cons c cs ih =>
      obtain ⟨x, hx⟩ := Option.ne_none_iff_exists'.1 (hfull c List.mem_cons_self)
      have htail := ih fun s hs => hfull s (List.mem_cons_of_mem c hs)
      simp [hx, htail]

theorem firstRetired_eq_some {p : PendingReads} {hs : List (PoolReg × Var)}
    (h : firstRetired p hs = .ok (some r)) :
    ∃ front u back, hs = front ++ (r, u) :: back ∧ (∀ e ∈ front, p.Live e.2) ∧
      p.remaining? u = some 0 := by
  induction hs with
  | nil => cases h
  | cons e hs ih =>
      obtain ⟨s, w⟩ := e
      rw [firstRetired] at h
      split at h
      · cases h
      · next hdead =>
          cases h
          exact ⟨[], w, hs, rfl, by simp, PendingReads.isDead_eq_true_iff.1 hdead⟩
      · next hlive =>
          obtain ⟨front, u, back, hsplit, hfront, hdead⟩ := ih h
          refine ⟨(s, w) :: front, u, back, by rw [hsplit, List.cons_append], fun e he => ?_, hdead⟩
          obtain rfl | he := List.mem_cons.1 he
          · exact PendingReads.isDead_eq_false_iff.1 hlive
          · exact hfront e he

theorem firstRetired_eq_none {p : PendingReads} {hs : List (PoolReg × Var)}
    (h : firstRetired p hs = .ok none) : ∀ e ∈ hs, p.Live e.2 := by
  induction hs with
  | nil => simp
  | cons e hs ih =>
      obtain ⟨s, w⟩ := e
      rw [firstRetired] at h
      split at h
      · cases h
      · cases h
      · next hlive =>
          intro e he
          obtain rfl | he := List.mem_cons.1 he
          · exact PendingReads.isDead_eq_false_iff.1 hlive
          · exact ih h e he

theorem candidates_of_holders {front back : List (PoolReg × Var)}
    (hfull : ∀ s ∈ a.candidates excluded, a.occupant? s ≠ none)
    (hsplit : a.holders excluded = front ++ (r, u) :: back)
      (hlive : ∀ e ∈ front, a.pending.Live e.2) : a.occupant? r = some u ∧
      a.candidates excluded = front.map Prod.fst ++ r :: back.map Prod.fst ∧
      ∀ s ∈ front.map Prod.fst, ∃ w, a.occupant? s = some w ∧ a.pending.Live w := by
  have hfst := map_fst_holders hfull
  have hmem : (r, u) ∈ a.holders excluded := by simp [hsplit]
  rw [hsplit, List.map_append, List.map_cons] at hfst
  refine ⟨(mem_holders.1 hmem).2, hfst.symm, fun s hs => ?_⟩
  obtain ⟨e, he, rfl⟩ := List.mem_map.1 hs
  have heheld : e ∈ a.holders excluded := by simp [hsplit, he]
  exact ⟨e.2, (mem_holders.1 heheld).2, hlive e he⟩

theorem live_candidates (hfull : ∀ s ∈ a.candidates excluded, a.occupant? s ≠ none)
    (hlive : ∀ e ∈ a.holders excluded, a.pending.Live e.2) :
    ∀ s ∈ a.candidates excluded, ∃ w, a.occupant? s = some w ∧ a.pending.Live w := by
  intro s hs
  obtain ⟨w, hw⟩ := Option.ne_none_iff_exists'.1 (hfull s hs)
  exact ⟨w, hw, hlive (s, w) (mem_holders.2 ⟨hs, hw⟩)⟩

theorem grants_of_planEviction (hnew : a.register? v = none)
    (hfull : ∀ s ∈ a.candidates excluded, a.occupant? s ≠ none)
    (h : a.planEviction excluded = .ok grant) : Grants a v excluded grant := by
  rw [planEviction] at h
  split at h
  · cases h
  · next r hfound =>
      cases h
      obtain ⟨front, u, back, hsplit, hlive, hdead⟩ := firstRetired_eq_some hfound
      obtain ⟨hheld, hcandidates, hfront⟩ := candidates_of_holders hfull hsplit hlive
      exact .retired hnew hcandidates hfront hfull hheld hdead
  · next hnone =>
      have hlive := firstRetired_eq_none hnone
      split at h
      · cases h
      · next r u rest hsplit =>
          have hfirst : a.holders excluded = [] ++ (r, u) :: rest := hsplit
          obtain ⟨hheld, hcandidates, _⟩ := candidates_of_holders hfull hfirst (by simp)
          cases hplace : a.place u with
          | error f =>
              rw [hplace] at h
              cases h
          | ok placement =>
              rw [hplace] at h
              cases h
              exact .evict hnew hcandidates (live_candidates hfull hlive) hheld
                (places_of_place hplace)

theorem occupied_of_find?
    (h : (a.candidates excluded).find? (fun s => (a.occupant? s).isNone) = none) :
    ∀ s ∈ a.candidates excluded, a.occupant? s ≠ none := by
  intro s hs heq
  have hocc := List.find?_eq_none.1 h s hs
  rw [heq] at hocc
  exact hocc rfl

theorem grants_of_plan (h : a.plan v excluded = .ok grant) : Grants a v excluded grant := by
  rw [plan] at h
  split at h
  · next hheld =>
      cases h
      exact .resident hheld
  · next hnew =>
      split at h
      · next hfirst =>
          cases h
          exact .free hnew hfirst
      · next hnone => exact grants_of_planEviction hnew (occupied_of_find? hnone) h

theorem firstRetired_of_split {p : PendingReads} {front back : List (PoolReg × Var)}
    (hfront : ∀ e ∈ front, p.Live e.2) (hdead : p.remaining? u = some 0) :
    firstRetired p (front ++ (r, u) :: back) = .ok (some r) := by
  induction front with
  | nil =>
      rw [List.nil_append, firstRetired]
      simp only [PendingReads.isDead_eq_true_iff.2 hdead]
  | cons e front ih =>
      rw [List.cons_append, firstRetired]
      simp only [PendingReads.isDead_eq_false_iff.2 (hfront e List.mem_cons_self)]
      exact ih fun e' he' => hfront e' (List.mem_cons_of_mem e he')

theorem firstRetired_of_live {p : PendingReads} {hs : List (PoolReg × Var)}
    (h : ∀ e ∈ hs, p.Live e.2) : firstRetired p hs = .ok none := by
  induction hs with
  | nil => rfl
  | cons e hs ih =>
      rw [firstRetired]
      simp only [PendingReads.isDead_eq_false_iff.2 (h e List.mem_cons_self)]
      exact ih fun e' he' => h e' (List.mem_cons_of_mem e he')

theorem plan_of_full (hnew : a.register? v = none)
    (hfull : ∀ s ∈ a.candidates excluded, a.occupant? s ≠ none) :
    a.plan v excluded = a.planEviction excluded := by
  have hnone : (a.candidates excluded).find? (fun s => (a.occupant? s).isNone) = none :=
    List.find?_eq_none.2 fun s hs => by simpa [Option.isNone_iff_eq_none] using hfull s hs
  rw [plan, hnew]
  simp only [hnone]

theorem holders_of_candidates {front back : List PoolReg}
    (hsplit : a.candidates excluded = front ++ r :: back)
    (hfront : ∀ s ∈ front, ∃ w, a.occupant? s = some w ∧ a.pending.Live w)
    (hheld : a.occupant? r = some u) :
    ∃ before behind, a.holders excluded = before ++ (r, u) :: behind ∧
      ∀ e ∈ before, a.pending.Live e.2 := by
  let pair : PoolReg → Option (PoolReg × Var) := fun s => (a.occupant? s).map fun w => (s, w)
  have hpair : pair r = some (r, u) := by simp only [pair, hheld, Option.map_some]
  refine ⟨front.filterMap pair, back.filterMap pair, ?_, fun e he => ?_⟩
  · rw [holders, hsplit, List.filterMap_append, List.filterMap_cons_some hpair]
  · obtain ⟨s, hs, hse⟩ := List.mem_filterMap.1 he
    obtain ⟨w, hw, hwlive⟩ := hfront s hs
    simp only [pair, hw, Option.map_some, Option.some.injEq] at hse
    exact hse ▸ hwlive

theorem occupied_of_live (hfull : ∀ s ∈ a.candidates excluded, ∃ w, a.occupant? s = some w ∧
      a.pending.Live w) :
    ∀ s ∈ a.candidates excluded, a.occupant? s ≠ none := by
  intro s hs hnone
  obtain ⟨w, hw, _⟩ := hfull s hs
  rw [hnone] at hw
  cases hw

/-- Once every candidate holds a live variable, the first one is evicted if its variable gets a
slot. -/
theorem planEviction_of_live {rest : List PoolReg} (hsplit : a.candidates excluded = r :: rest)
    (hfull : ∀ s ∈ a.candidates excluded, ∃ w, a.occupant? s = some w ∧ a.pending.Live w)
    (hheld : a.occupant? r = some u) :
    a.planEviction excluded = (a.place u).map fun placement => .evict r u placement := by
  have hlive : ∀ e ∈ a.holders excluded, a.pending.Live e.2 := by
    intro e he
    obtain ⟨hmem, hw⟩ := mem_holders.1 he
    obtain ⟨w, hw', hwlive⟩ := hfull e.1 hmem
    rw [hw] at hw'
    cases hw'
    exact hwlive
  obtain ⟨tail, htail⟩ : ∃ tail, a.holders excluded = (r, u) :: tail := by
    rw [holders, hsplit, List.filterMap_cons, hheld]
    exact ⟨_, rfl⟩
  rw [planEviction, firstRetired_of_live hlive, htail]

theorem plan_of_grants (h : Grants a v excluded grant) : a.plan v excluded = .ok grant := by
  cases h with
  | resident hheld => rw [plan, hheld]
  | free hnew hfirst =>
      rw [plan, hnew]
      simp only [hfirst]
  | retired hnew hsplit hfront hfull hheld hdead =>
      obtain ⟨before, behind, hholders, hlive⟩ := holders_of_candidates hsplit hfront hheld
      rw [plan_of_full hnew hfull, planEviction, hholders, firstRetired_of_split hlive hdead]
  | evict hnew hsplit hfull hheld hplace =>
      rw [plan_of_full hnew (occupied_of_live hfull), planEviction_of_live hsplit hfull hheld,
        place_of_places hplace]
      rfl

/-- What is planned is exactly what the state allows. -/
theorem plan_eq_ok_iff : a.plan v excluded = .ok grant ↔ Grants a v excluded grant :=
  ⟨grants_of_plan, plan_of_grants⟩

theorem Grants.mem_candidates (h : Grants a v excluded grant) (hnew : a.register? v = none) :
    grant.register ∈ a.candidates excluded := by
  cases h with
  | resident hheld =>
      rw [hnew] at hheld
      cases hheld
  | free _ hfirst => exact List.mem_of_find?_eq_some hfirst
  | retired _ hsplit => simp [Grant.register, hsplit]
  | evict _ hsplit => simp [Grant.register, hsplit]

theorem Grants.register_of_resident (h : Grants a v excluded grant)
    (hheld : a.register? v = some r) : grant.register = r := by
  cases h with
  | resident hheld' => exact Option.some.inj (hheld'.symm.trans hheld)
  | free hnew => rw [hheld] at hnew; cases hnew
  | retired hnew => rw [hheld] at hnew; cases hnew
  | evict hnew => rw [hheld] at hnew; cases hnew

theorem mem_candidates : r ∈ a.candidates excluded ↔ r ∈ a.recency ∧ r ∉ excluded := by
  simp [candidates]

/-! ### Acting -/

/-- The code that brings a variable into a register: nothing if it has no slot. -/
def reloadCode (a : Allocator) (v : Var) (r : PoolReg) : List Asm :=
  (a.slot? v).toList.map (Asm.reload r)

theorem load_eq (a : Allocator) (v : Var) (r : PoolReg) : a.load v r = { a with
    queue := a.queue ++ a.reloadCode v r
    reloads := a.reloads + (a.reloadCode v r).length
    journal := a.journal ++ (a.slot? v).toList.map (Event.reload v r) } := by
  rw [load, reloadCode]
  split
  · next hslot => simp [hslot]
  · next offset hslot => simp [hslot, log]

theorem bind_eq (a : Allocator) (v : Var) (r : PoolReg) : a.bind v r = { a with
    registers := a.registers.insert v r
    recency := a.recency.erase r ++ [r]
    queue := a.queue ++ a.reloadCode v r
    reloads := a.reloads + (a.reloadCode v r).length
    journal := a.journal ++ (a.slot? v).toList.map (Event.reload v r) } := by
  rw [bind, load_eq]
  rfl

def depthAfter (a : Allocator) : Placement → Nat
  | .grown _ => a.depth + a.slotSize
  | _ => a.depth

theorem store_eq (a : Allocator) (r : PoolReg) (u : Var) (placement : Placement) :
    a.store r u placement = { a with
    queue := a.queue ++ [Asm.spill r placement.offset]
    slots := a.slots.insert u placement.offset
    depth := a.depthAfter placement
    stores := a.stores + 1
    spilled := Var.insertSorted u a.spilled
    journal := a.journal ++ [.spill u r placement.offset] } := by
  cases placement <;> rfl

@[simp] theorem register?_bind (a : Allocator) (v w : Var) (r : PoolReg) :
    (a.bind v r).register? w =
    if w = v then some r else if a.register? w = some r then none else a.register? w := by
  rw [bind_eq]
  exact Bijection.image?_insert ..

theorem occupant?_bind_of_new (hnew : a.register? v = none) :
    (a.bind v r).occupant? s = if s = r then some v else a.occupant? s := by
  have helsewhere : a.occupant? s ≠ some v := by
    intro heq
    have hheld : a.register? v = some s := Bijection.image?_eq_some_iff.2 heq
    rw [hnew] at hheld
    cases hheld
  have hinsert : (a.bind v r).occupant? s =
      if s = r then some v else if a.occupant? s = some v then none else a.occupant? s := by
    rw [bind_eq]
    exact Bijection.preimage?_insert ..
  rw [hinsert, if_neg helsewhere]

@[simp] theorem slot?_bind (a : Allocator) (v w : Var) (r : PoolReg) :
    (a.bind v r).slot? w = a.slot? w := by
  rw [bind_eq]
  rfl

@[simp] theorem pending_bind (a : Allocator) (v : Var) (r : PoolReg) :
    (a.bind v r).pending = a.pending := by
  rw [bind_eq]

@[simp] theorem queue_bind (a : Allocator) (v : Var) (r : PoolReg) :
    (a.bind v r).queue = a.queue ++ a.reloadCode v r := by
  rw [bind_eq]

@[simp] theorem register?_store (a : Allocator) (r : PoolReg) (u w : Var) (placement : Placement) :
    (a.store r u placement).register? w = a.register? w := by
  rw [store_eq]
  rfl

@[simp] theorem slot?_store (a : Allocator) (r : PoolReg) (u w : Var) (placement : Placement) :
    (a.store r u placement).slot? w =
      if w = u then some placement.offset
      else if a.slot? w = some placement.offset then none else a.slot? w := by
  rw [store_eq]
  exact Bijection.image?_insert ..

@[simp] theorem pending_store (a : Allocator) (r : PoolReg) (u : Var) (placement : Placement) :
    (a.store r u placement).pending = a.pending := by
  rw [store_eq]

@[simp] theorem queue_store (a : Allocator) (r : PoolReg) (u : Var) (placement : Placement) :
    (a.store r u placement).queue = a.queue ++ [Asm.spill r placement.offset] := by
  rw [store_eq]

/-! ### Deciding and acting -/

theorem acquire_eq_ok_iff : a.acquire v excluded = (.ok r, b) ↔
    ∃ grant, Grants a v excluded grant ∧ grant.register = r ∧ a.settle v grant = b := by
  simp only [← plan_eq_ok_iff]
  rw [acquire]
  split
  · next f hplan => simp [hplan]
  · next grant hplan => simp [hplan]

/-- A failed acquisition leaves the allocator as it was. -/
theorem acquire_eq_error {f : Failure} (h : a.acquire v excluded = (.error f, b)) : b = a := by
  rw [acquire] at h
  split at h
  · cases h
    rfl
  · cases h

@[simp] theorem pending_settle (a : Allocator) (v : Var) (grant : Grant) :
    (a.settle v grant).pending = a.pending := by
  cases grant with
  | found how r =>
      cases how with
      | resident => rfl
      | free => exact pending_bind ..
      | retired => exact pending_bind ..
  | evict r u placement => simp [settle]

/-- The code that an acquisition queues. -/
def spillCode (a : Allocator) (v : Var) : Grant → List Asm
  | .found .resident _ => []
  | .found _ r => a.reloadCode v r
  | .evict r u placement => Asm.spill r placement.offset :: (a.store r u placement).reloadCode v r

theorem queue_settle (a : Allocator) (v : Var) (grant : Grant) :
    (a.settle v grant).queue = a.queue ++ a.spillCode v grant := by
  cases grant with
  | found how r =>
      cases how with
      | resident => exact (List.append_nil _).symm
      | free => exact queue_bind ..
      | retired => exact queue_bind ..
  | evict r u placement => rw [settle, queue_bind, queue_store, List.append_assoc]; rfl

/-- After an acquisition the variable holds the register, and no other variable has lost or gained
one but the previous occupant. -/
theorem Grants.register?_settle (h : Grants a v excluded grant) (w : Var) :
    (a.settle v grant).register? w =
    if w = v then some grant.register
    else if a.register? w = some grant.register then none else a.register? w := by
  cases h with
  | @resident r hheld =>
      show a.register? w = _
      by_cases hw : w = v
      · rw [if_pos hw, hw, hheld]
        rfl
      · have hother : a.register? w ≠ some r := fun heq => hw (Bijection.image?_injective heq hheld)
        rw [if_neg hw, Grant.register, if_neg hother]
  | free => exact register?_bind ..
  | retired => exact register?_bind ..
  | evict => rw [settle, register?_bind, register?_store]; rfl

theorem Grants.occupant?_settle (h : Grants a v excluded grant) (s : PoolReg) :
    (a.settle v grant).occupant? s = if s = grant.register then some v else a.occupant? s := by
  cases h with
  | @resident r hheld =>
      show a.occupant? s = _
      by_cases hs : s = r
      · rw [hs]
        exact (Bijection.image?_eq_some_iff.1 hheld).trans (if_pos rfl).symm
      · exact (if_neg hs).symm
  | free hnew => exact occupant?_bind_of_new hnew
  | retired hnew => exact occupant?_bind_of_new hnew
  | @evict rest r u placement hnew =>
      rw [settle, occupant?_bind_of_new (by rw [register?_store, hnew]), store_eq]
      rfl

theorem register?_acquire (h : a.acquire v excluded = (.ok r, b)) (w : Var) :
    b.register? w = if w = v then some r else if a.register? w =
      some r then none else a.register? w := by
  obtain ⟨grant, hgrants, rfl, rfl⟩ := acquire_eq_ok_iff.1 h
  exact hgrants.register?_settle w

theorem register?_acquire_self (h : a.acquire v excluded = (.ok r, b)) :
    b.register? v = some r := by
  rw [register?_acquire h, if_pos rfl]

theorem pending_acquire (h : a.acquire v excluded = (.ok r, b)) : b.pending = a.pending := by
  obtain ⟨grant, _, rfl, rfl⟩ := acquire_eq_ok_iff.1 h
  exact pending_settle a v grant

theorem register?_acquire_of_mem (h : a.acquire v excluded = (.ok r, b))
    (hw : a.register? w = some s) (hs : s ∈ excluded) : b.register? w = some s := by
  obtain ⟨grant, hgrants, rfl, rfl⟩ := acquire_eq_ok_iff.1 h
  rw [hgrants.register?_settle]
  by_cases hwv : w = v
  · subst hwv
    rw [if_pos rfl, hgrants.register_of_resident hw]
  · have hother : s ≠ grant.register := by
      intro heq
      cases hv : a.register? v with
      | none => exact (mem_candidates.1 (hgrants.mem_candidates hv)).2 (heq ▸ hs)
      | some t =>
          rw [heq, hgrants.register_of_resident hv] at hw
          exact hwv (Bijection.image?_injective hw hv)
    rw [if_neg hwv, hw, if_neg fun heq => hother (Option.some.inj heq)]

end Allocator

end StraightLine
