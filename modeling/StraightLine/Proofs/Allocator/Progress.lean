import StraightLine.Proofs.Allocator.Tables

/-!
# Acquisitions that fail

An acquisition can fail for three reasons: every register of the pool is excluded, a variable in a
register or a slot was never counted, or the stack would outgrow a word. `Refused` states each of
them about the state alone, and an acquisition fails exactly if the state refuses it. While the
tables are in order and the pool is larger than the excluded part, only the last reason is left, and
then a counted variable without a slot needs one more.
-/

namespace StraightLine

namespace Allocator

variable {a b : Allocator} {u v : Var} {r : PoolReg} {excluded : List PoolReg} {f : Failure}

theorem exists_firstReusable {os : List Nat} (hstack : a.Stacked) :
    ∃ found, a.firstReusable os = .ok found := by
  induction os with
  | nil => exact ⟨none, rfl⟩
  | cons o os ih =>
      rw [firstReusable]
      split
      · exact ⟨some o, rfl⟩
      · next holder hholder =>
          have hknows : a.pending.Knows holder :=
            hstack.knows (Bijection.image?_eq_some_iff.2 hholder)
          obtain hdead | hlive := PendingReads.isDead_of_knows hknows
          · exact ⟨some o, by rw [hdead]⟩
          · rw [hlive]
            exact ih

theorem place_eq_error (hstack : a.Stacked) (h : a.place u = .error f) :
    f = .trapped .depthOverflow ∧ a.slot? u = none ∧ byteLimit ≤ a.depth + a.slotSize := by
  rw [place] at h
  split at h
  · cases h
  · next hslot =>
      obtain ⟨found, hfound⟩ : ∃ found, a.firstReusable a.offsets = .ok found :=
        exists_firstReusable hstack
      rw [hfound] at h
      cases found with
      | some o => cases h
      | none =>
          simp only at h
          split at h
          · cases h
          · next hfits =>
              cases h
              exact ⟨rfl, hslot, Nat.le_of_not_lt hfits⟩

theorem length_pool (poolSize : Nat) : (pool poolSize).length = poolSize := by
  simp [pool]

theorem nodup_pool (poolSize : Nat) : (pool poolSize).Nodup := by
  refine List.Nodup.map (fun i j hij => ?_) List.nodup_range
  exact PoolReg.mk.inj hij

/-! ### Why an acquisition fails -/

/-- The failures that the state forces on an acquisition: no register is left to take, an occupant
that was never counted stands in front of every retired one, or the victim gets no slot. -/
inductive Refused (a : Allocator) (v : Var) (excluded : List PoolReg) : Failure → Prop
  | exhausted (hnew : a.register? v = none) (hnil : a.candidates excluded = []) :
      Refused a v excluded (a.exhausted excluded)
  | unknown {front back : List PoolReg} {r : PoolReg} {u : Var} (hnew : a.register? v = none)
      (hsplit : a.candidates excluded = front ++ r :: back)
      (hfront : ∀ s ∈ front, ∃ w, a.occupant? s = some w ∧ a.pending.Live w)
      (hfull : ∀ s ∈ a.candidates excluded, a.occupant? s ≠ none)
      (hheld : a.occupant? r = some u) (hunknown : a.pending.remaining? u = none) :
      Refused a v excluded (.reported (.unknownUsage u))
  | unplaced {rest : List PoolReg} {r : PoolReg} {u : Var} {f : Failure}
      (hnew : a.register? v = none)
      (hsplit : a.candidates excluded = r :: rest)
      (hfull : ∀ s ∈ a.candidates excluded, ∃ w, a.occupant? s = some w ∧ a.pending.Live w)
      (hheld : a.occupant? r = some u) (hplace : a.place u = .error f) : Refused a v excluded f

theorem firstRetired_eq_error {p : PendingReads} {hs : List (PoolReg × Var)}
    (h : firstRetired p hs = .error f) :
    ∃ front r u back, hs = front ++ (r, u) :: back ∧ (∀ e ∈ front, p.Live e.2) ∧
      p.remaining? u = none ∧
      f = .reported (.unknownUsage u) := by
  induction hs with
  | nil => cases h
  | cons e hs ih =>
      obtain ⟨s, w⟩ := e
      rw [firstRetired] at h
      split at h
      · next herror =>
          cases h
          obtain ⟨hunknown, hf⟩ := PendingReads.isDead_eq_error_iff.1 herror
          exact ⟨[], s, w, hs, rfl, by simp, hunknown, hf⟩
      · cases h
      · next hlive =>
          obtain ⟨front, r, u, back, hsplit, hfront, hunknown, hf⟩ := ih h
          refine ⟨(s, w) :: front, r, u, back, by rw [hsplit, List.cons_append],
            fun e he => ?_, hunknown, hf⟩
          obtain rfl | he := List.mem_cons.1 he
          · exact PendingReads.isDead_eq_false_iff.1 hlive
          · exact hfront e he

theorem firstRetired_of_unknown {p : PendingReads} {front back : List (PoolReg × Var)}
    (hfront : ∀ e ∈ front, p.Live e.2) (hunknown : p.remaining? u = none) :
    firstRetired p (front ++ (r, u) :: back) = .error (.reported (.unknownUsage u)) := by
  induction front with
  | nil =>
      rw [List.nil_append, firstRetired]
      simp only [PendingReads.isDead_eq_error_iff.2 ⟨hunknown, rfl⟩]
  | cons e front ih =>
      rw [List.cons_append, firstRetired]
      simp only [PendingReads.isDead_eq_false_iff.2 (hfront e List.mem_cons_self)]
      exact ih fun e' he' => hfront e' (List.mem_cons_of_mem e he')

theorem refused_of_planEviction (hnew : a.register? v = none)
    (hfull : ∀ s ∈ a.candidates excluded, a.occupant? s ≠ none)
    (h : a.planEviction excluded = .error f) : Refused a v excluded f := by
  rw [planEviction] at h
  split at h
  · next herror =>
      cases h
      obtain ⟨front, r, u, back, hsplit, hlive, hunknown, rfl⟩ := firstRetired_eq_error herror
      obtain ⟨hheld, hcandidates, hfront⟩ := candidates_of_holders hfull hsplit hlive
      exact .unknown hnew hcandidates hfront hfull hheld hunknown
  · cases h
  · next hnone =>
      have hlive := firstRetired_eq_none hnone
      split at h
      · next hnil =>
          cases h
          have hfst := map_fst_holders hfull
          rw [hnil, List.map_nil] at hfst
          exact .exhausted hnew hfst.symm
      · next r u rest hsplit =>
          have hfirst : a.holders excluded = [] ++ (r, u) :: rest := hsplit
          obtain ⟨hheld, hcandidates, _⟩ := candidates_of_holders hfull hfirst (by simp)
          cases hplace : a.place u with
          | ok placement =>
              rw [hplace] at h
              cases h
          | error f' =>
              rw [hplace] at h
              cases h
              exact .unplaced hnew hcandidates (live_candidates hfull hlive) hheld hplace

theorem refused_of_plan (h : a.plan v excluded = .error f) : Refused a v excluded f := by
  rw [plan] at h
  split at h
  · cases h
  · next hnew =>
      split at h
      · cases h
      · next hnone => exact refused_of_planEviction hnew (occupied_of_find? hnone) h

theorem plan_of_refused (h : Refused a v excluded f) : a.plan v excluded = .error f := by
  cases h with
  | exhausted hnew hnil =>
      have hholders : a.holders excluded = [] := by rw [holders, hnil, List.filterMap_nil]
      rw [plan_of_full hnew (by simp [hnil]), planEviction, hholders]
      rfl
  | unknown hnew hsplit hfront hfull hheld hunknown =>
      obtain ⟨before, behind, hholders, hlive⟩ := holders_of_candidates hsplit hfront hheld
      rw [plan_of_full hnew hfull, planEviction, hholders, firstRetired_of_unknown hlive hunknown]
  | unplaced hnew hsplit hfull hheld hplace =>
      rw [plan_of_full hnew (occupied_of_live hfull),
        planEviction_of_live hsplit hfull hheld, hplace]
      rfl

theorem acquire_eq_error_iff :
    a.acquire v excluded = (.error f, b) ↔ Refused a v excluded f ∧ b = a := by
  have hplan : a.plan v excluded = .error f ↔ Refused a v excluded f :=
    ⟨refused_of_plan, plan_of_refused⟩
  rw [← hplan, acquire]
  split
  · next hplan => simp [hplan, eq_comm]
  · next hplan => simp [hplan]

/-! ### Acquisitions of counted variables -/

theorem candidates_ne_nil (hpool : a.Pooled) (hlen : excluded.length < a.poolSize) :
    a.candidates excluded ≠ [] := by
  intro hnil
  have hsub : a.recency ⊆ excluded := by
    intro r hr
    apply Decidable.byContradiction
    intro hnot
    have hmem : r ∈ a.candidates excluded := mem_candidates.2 ⟨hr, hnot⟩
    rw [hnil] at hmem
    cases hmem
  have hnodup : a.recency.Nodup := hpool.recency_perm.nodup_iff.2 (nodup_pool a.poolSize)
  have hle : a.recency.length ≤ excluded.length := hnodup.length_le_of_subset hsub
  rw [hpool.recency_perm.length_eq, length_pool] at hle
  omega

/-- A counted variable has no slot, and the stack cannot take another one. -/
def Outgrown (a : Allocator) : Prop :=
  ∃ w, a.pending.Knows w ∧ a.slot? w = none ∧ byteLimit ≤ a.depth + a.slotSize

theorem acquire_eq_overflow (hpool : a.Pooled) (hstack : a.Stacked)
    (hknows : ∀ {w r}, a.register? w = some r → a.pending.Knows w)
    (hlen : excluded.length < a.poolSize) (h : a.acquire v excluded = (.error f, b)) :
    f = .trapped .depthOverflow ∧ a.Outgrown := by
  have hcounted : ∀ {w r}, a.occupant? r = some w → a.pending.Knows w := fun hw =>
    hknows (Bijection.image?_eq_some_iff.2 hw)
  cases (acquire_eq_error_iff.1 h).1 with
  | exhausted _ hnil => exact absurd hnil (candidates_ne_nil hpool hlen)
  | unknown _ _ _ _ hheld hunknown =>
      obtain ⟨n, hn⟩ := hcounted hheld
      rw [hunknown] at hn
      cases hn
  | unplaced _ _ _ hheld hplace =>
      obtain ⟨hcause, hslot, hlimit⟩ := place_eq_error hstack hplace
      exact ⟨hcause, _, hcounted hheld, hslot, hlimit⟩

end Allocator

end StraightLine
