import StraightLine.Proofs.Allocator.Runs

/-!
# Refused acquisitions

When a run of the allocator is refused a register, said without the search that finds one. While the
stack can take another slot there are two reasons. The variable may be `Barred`: it sits in no
register and the whole pool is excluded. Or it may be `Blocked`: no register is free to be taken,
and the least recently used of the idle ones holds a variable that was never counted, so that nobody
knows whether it may be dropped. The search for a slot never fails, since in every run the holders
of slots are counted. A refused acquisition leaves the allocator as it was.
-/

namespace StraightLine

theorem PendingReads.not_live_iff {p : PendingReads} {v : Var} :
    ¬ p.Live v ↔ p.remaining? v = none ∨ p.remaining? v = some 0 := by
  rw [Live]
  cases p.remaining? v with
  | none => simp
  | some n => cases n <;> simp

namespace Allocator

/-- The variable sits in no register, and every register of the pool is excluded. -/
def Barred (a : Allocator) (v : Var) (excluded : List PoolReg) : Prop :=
  a.register? v = none ∧ ∀ r : PoolReg, r.index < a.poolSize → r ∈ excluded

/-- The register is not excluded and no read of its occupant is pending: none is left, or none was
counted. -/
def Idle (a : Allocator) (excluded : List PoolReg) (r : PoolReg) (u : Var) : Prop :=
  r ∉ excluded ∧ a.occupant? r = some u ∧
    (a.pending.remaining? u = none ∨ a.pending.remaining? u = some 0)

/-- Of the idle registers the least recently used one is held by the variable. -/
def FirstIdle (a : Allocator) (excluded : List PoolReg) (u : Var) : Prop :=
  ∃ front r back, a.recency = front ++ r :: back ∧ a.Idle excluded r u ∧
    ∀ s ∈ front, ∀ w, ¬ a.Idle excluded s w

/-- The variable sits in no register, no register that may be given is free, and the first idle one
holds a variable that was never counted. -/
def Blocked (a : Allocator) (v : Var) (excluded : List PoolReg) (u : Var) : Prop :=
  a.register? v = none ∧ (∀ r : PoolReg, r.index < a.poolSize → r ∉ excluded →
    a.occupant? r ≠ none) ∧
    a.FirstIdle excluded u ∧ a.pending.remaining? u = none

variable {a : Allocator} {u v : Var} {r : PoolReg} {excluded : List PoolReg} {f : Failure}
  {poolSize slotSize : Nat} {pending : PendingReads}

theorem Pooled.mem_recency_iff (h : a.Pooled) : r ∈ a.recency ↔ r.index < a.poolSize := by
  rw [h.recency_perm.mem_iff, pool, List.mem_map]
  constructor
  · rintro ⟨i, hi, rfl⟩
    exact List.mem_range.1 hi
  · intro hr
    exact ⟨r.index, List.mem_range.2 hr, rfl⟩

theorem Pooled.mem_candidates_iff (h : a.Pooled) :
    r ∈ a.candidates excluded ↔ r.index < a.poolSize ∧ r ∉ excluded := by
  rw [mem_candidates, h.mem_recency_iff]

theorem Pooled.candidates_eq_nil_iff (h : a.Pooled) :
    a.candidates excluded = [] ↔ ∀ r : PoolReg, r.index < a.poolSize → r ∈ excluded := by
  simp only [List.eq_nil_iff_forall_not_mem, h.mem_candidates_iff, not_and, Decidable.not_not]

/-- The first idle register is the first candidate whose occupant is not live. -/
theorem firstIdle_iff : a.FirstIdle excluded u ↔
    ∃ front r back, a.candidates excluded = front ++ r :: back ∧ a.occupant? r = some u ∧
      ¬ a.pending.Live u ∧
      ∀ s ∈ front, ∀ w, a.occupant? s = some w → a.pending.Live w := by
  simp only [FirstIdle, Idle, ← PendingReads.not_live_iff]
  constructor
  · rintro ⟨front, r, back, hsplit, ⟨hr, hheld, hidle⟩, hfront⟩
    refine ⟨front.filter fun s => !excluded.contains s, r,
      back.filter fun s => !excluded.contains s, ?_, hheld, hidle, ?_⟩
    · rw [candidates, hsplit, List.filter_append, List.filter_cons_of_pos (by simpa using hr)]
    · intro s hs w hw
      obtain ⟨hs, hallowed⟩ := List.mem_filter.1 hs
      exact Classical.byContradiction fun hlive => hfront s hs w
        ⟨by simpa using hallowed, hw, hlive⟩
  · rintro ⟨front, r, back, hsplit, hheld, hidle, hfront⟩
    rw [candidates, List.filter_eq_append_iff] at hsplit
    obtain ⟨before, behind, hrecency, rfl, hbehind⟩ := hsplit
    obtain ⟨skipped, rest, rfl, hskipped, hr, -⟩ := List.filter_eq_cons_iff.1 hbehind
    refine ⟨before ++ skipped, r, rest, by rw [hrecency, List.append_assoc],
      ⟨by simpa using hr, hheld, hidle⟩, ?_⟩
    rintro s hs w ⟨hallowed, hw, hlive⟩
    obtain hs | hs := List.mem_append.1 hs
    · exact hlive (hfront s (List.mem_filter.2 ⟨hs, by simpa using hallowed⟩) w hw)
    · exact hskipped s hs (by simpa using hallowed)

theorem Refused.barred_or_blocked (h : Refused a v excluded f) (hpool : a.Pooled)
    (hstack : a.Stacked) (hfits : a.depth + a.slotSize < byteLimit) :
      a.Barred v excluded ∧ f = a.exhausted excluded ∨
      ∃ u, a.Blocked v excluded u ∧ f = .reported (.unknownUsage u) := by
  cases h with
  | exhausted hnew hnil => exact Or.inl ⟨⟨hnew, hpool.candidates_eq_nil_iff.1 hnil⟩, rfl⟩
  | @unknown front back r u hnew hsplit hfront hfull hheld hunknown =>
      refine Or.inr ⟨u, ⟨hnew, fun s hs hallowed => ?_,
        firstIdle_iff.2 ⟨front, r, back, hsplit, hheld, ?_, ?_⟩, hunknown⟩, rfl⟩
      · exact hfull s (hpool.mem_candidates_iff.2 ⟨hs, hallowed⟩)
      · exact PendingReads.not_live_iff.2 (Or.inl hunknown)
      · intro s hs w hw
        obtain ⟨w', hw', hlive⟩ := hfront s hs
        cases hw.symm.trans hw'
        exact hlive
  | unplaced _ _ _ _ hplace =>
      have hlimit := (place_eq_error hstack hplace).2.2
      omega

theorem Barred.refused (h : a.Barred v excluded) (hpool : a.Pooled) :
    Refused a v excluded (a.exhausted excluded) :=
  .exhausted h.1 (hpool.candidates_eq_nil_iff.2 h.2)

theorem Blocked.refused (h : a.Blocked v excluded u) (hpool : a.Pooled) :
    Refused a v excluded (.reported (.unknownUsage u)) := by
  obtain ⟨hnew, hoccupied, hidle, hunknown⟩ := h
  obtain ⟨front, r, back, hsplit, hheld, -, hlive⟩ := firstIdle_iff.1 hidle
  have hfull : ∀ s ∈ a.candidates excluded, a.occupant? s ≠ none := by
    intro s hs
    obtain ⟨hindex, hallowed⟩ := hpool.mem_candidates_iff.1 hs
    exact hoccupied s hindex hallowed
  refine .unknown hnew hsplit (fun s hs => ?_) hfull hheld hunknown
  obtain ⟨w, hw⟩ := Option.ne_none_iff_exists'.1 (hfull s (by simp [hsplit, hs]))
  exact ⟨w, hw, hlive s hs w hw⟩

theorem acquire_fst_eq_error_iff :
    (a.acquire v excluded).1 = .error f ↔ Refused a v excluded f := by
  constructor
  · intro h
    exact (acquire_eq_error_iff.1 (Prod.ext h rfl)).1
  · intro h
    rw [acquire_eq_error_iff.2 ⟨h, rfl⟩]

theorem acquire_fst_eq_ok_iff :
    (∃ r, (a.acquire v excluded).1 = .ok r) ↔ ∀ f, ¬ Refused a v excluded f := by
  simp only [← acquire_fst_eq_error_iff]
  cases (a.acquire v excluded).1 <;> simp

theorem exhausted_of_named (h : ∀ r ∈ excluded, r.index < PoolReg.count) :
    a.exhausted excluded = .reported (.noEvictableRegister a.poolSize excluded) :=
  if_pos (List.all_eq_true.2 fun r hr => decide_eq_true (h r hr))

/-- **An acquisition fails exactly when it must, and then changes nothing.** -/
theorem refused_iff_barred_or_blocked (hcreate : create poolSize slotSize pending = .ok a)
    (calls : List Call) (v : Var) (excluded : List PoolReg)
    (hnamed : ∀ r ∈ excluded, r.index < PoolReg.count)
    (hfits : (a.run calls).depth + slotSize < byteLimit) :
    let b := a.run calls
    ((b.acquire v excluded).1 = .error (.reported (.noEvictableRegister poolSize excluded)) ↔
        b.Barred v excluded) ∧
      (∀ u, (b.acquire v excluded).1 = .error (.reported (.unknownUsage u)) ↔
          b.Blocked v excluded u) ∧
      ((∃ r, (b.acquire v excluded).1 = .ok r) ↔ ¬ b.Barred v excluded ∧
          ∀ u, ¬ b.Blocked v excluded u) ∧
      ∀ f, (b.acquire v excluded).1 = .error f → (b.acquire v excluded).2 = b := by
  intro b
  obtain ⟨⟨_, _, hpos⟩, hinitial⟩ := create_eq_ok_iff.1 hcreate
  have hpool : b.Pooled := Pooled.run (hinitial ▸ pooled_initial ..) calls
  have hstack : b.Stacked := Stacked.run (hinitial ▸ stacked_initial hpos) calls
  have hsizes : b.poolSize = poolSize ∧ b.slotSize = slotSize := by
    obtain ⟨hpoolSize, hslotSize⟩ := sizes_run a calls
    exact ⟨hpoolSize.trans (by rw [hinitial, initial]), hslotSize.trans (by rw [hinitial, initial])⟩
  have hexhausted : b.exhausted excluded = .reported (.noEvictableRegister poolSize excluded) := by
    rw [exhausted_of_named hnamed, hsizes.1]
  have hreasons : ∀ f, Refused b v excluded f → b.Barred v excluded ∧ f = b.exhausted excluded ∨
      ∃ u, b.Blocked v excluded u ∧ f = .reported (.unknownUsage u) := fun f hf =>
    hf.barred_or_blocked hpool hstack (by rw [hsizes.2]; exact hfits)
  refine ⟨?_, fun u => ?_, ?_, fun f hf => acquire_eq_error (Prod.ext hf rfl)⟩
  · rw [acquire_fst_eq_error_iff, ← hexhausted]
    refine ⟨fun h => ?_, fun h => h.refused hpool⟩
    obtain ⟨hbarred, -⟩ | ⟨u, -, hf⟩ := hreasons _ h
    · exact hbarred
    · rw [hexhausted] at hf
      cases hf
  · rw [acquire_fst_eq_error_iff]
    refine ⟨fun h => ?_, fun h => h.refused hpool⟩
    obtain ⟨-, hf⟩ | ⟨w, hblocked, hf⟩ := hreasons _ h
    · rw [hexhausted] at hf
      cases hf
    · cases hf
      exact hblocked
  · rw [acquire_fst_eq_ok_iff]
    constructor
    · intro h
      exact ⟨fun hbarred => h _ (hbarred.refused hpool),
        fun u hblocked => h _ (hblocked.refused hpool)⟩
    · rintro ⟨hbarred, hblocked⟩ f hf
      obtain ⟨h, -⟩ | ⟨u, h, -⟩ := hreasons f hf
      · exact hbarred h
      · exact hblocked u h

/-- The counts of a pool of two registers leave `g` out. While `g` is in a register, `x` is refused
one because of it, or because both registers are excluded; it gets the register of `a` when only
that of `g` is excluded. -/
theorem refused_iff_barred_or_blocked_uncounted :
    let pending := PendingReads.ofList [(⟨"a"⟩, 1), (⟨"x"⟩, 1)]
    let start := initial 2 4 4 pending
    let calls : List Call := [.acquire ⟨"a"⟩ [], .acquire ⟨"g"⟩ [], .drain]
    let b := start.run calls
    create 2 4 pending = .ok start ∧ b.depth + 4 < byteLimit ∧
      (b.acquire ⟨"x"⟩ []).1 = .error (.reported (.unknownUsage ⟨"g"⟩)) ∧ b.Blocked ⟨"x"⟩ [] ⟨"g"⟩ ∧
      (b.acquire ⟨"x"⟩ []).2 = b ∧
      (b.acquire ⟨"x"⟩ [⟨1⟩, ⟨0⟩, ⟨1⟩]).1 =
        .error (.reported (.noEvictableRegister 2 [⟨1⟩, ⟨0⟩, ⟨1⟩])) ∧
      b.Barred ⟨"x"⟩ [⟨1⟩, ⟨0⟩, ⟨1⟩] ∧ (b.acquire ⟨"x"⟩ [⟨1⟩]).1 = .ok ⟨0⟩ ∧
          ∀ u, ¬ b.Blocked ⟨"x"⟩ [⟨1⟩] u := by
  intro pending start calls b
  have hcreate : create 2 4 pending = .ok start := rfl
  have hfits : b.depth + 4 < byteLimit := by decide +kernel
  have hunknown : (b.acquire ⟨"x"⟩ []).1 = .error (.reported (.unknownUsage ⟨"g"⟩)) := by
    decide +kernel
  have hexcluded : (b.acquire ⟨"x"⟩ [⟨1⟩, ⟨0⟩, ⟨1⟩]).1 =
      .error (.reported (.noEvictableRegister 2 [⟨1⟩, ⟨0⟩, ⟨1⟩])) := by
    decide +kernel
  have hgiven : (b.acquire ⟨"x"⟩ [⟨1⟩]).1 = .ok ⟨0⟩ := by decide +kernel
  obtain ⟨-, hblocked, -, hkept⟩ := refused_iff_barred_or_blocked hcreate calls ⟨"x"⟩ []
    (by decide) hfits
  obtain ⟨hbarred, -⟩ := refused_iff_barred_or_blocked hcreate calls ⟨"x"⟩ [⟨1⟩, ⟨0⟩, ⟨1⟩]
    (by decide) hfits
  obtain ⟨-, -, hok, -⟩ := refused_iff_barred_or_blocked hcreate calls ⟨"x"⟩ [⟨1⟩] (by decide) hfits
  exact ⟨hcreate, hfits, hunknown, (hblocked ⟨"g"⟩).1 hunknown, hkept _ hunknown, hexcluded,
    hbarred.1 hexcluded, hgiven, (hok.1 ⟨⟨0⟩, hgiven⟩).2⟩

end Allocator

end StraightLine
