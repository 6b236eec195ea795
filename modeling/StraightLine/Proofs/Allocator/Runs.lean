import StraightLine.Proofs.Allocator.Progress

/-!
# Runs of the allocator

Whoever uses an allocator asks it for registers, tells it of reads and takes the code that waits, in
any order and with any exclusions, and goes on after a call that failed. This module follows such
runs. An invariant is kept by every run as soon as successful acquisitions, consumed reads and
drains keep it, since a failed acquisition leaves the allocator as it was.

The first result is about registers. At every point of a run each variable has one register of the
pool and each register one variable, the recency list is the pool in some order, and an acquisition
moves nothing but its own variable and the one that held the register before.
-/

namespace StraightLine

inductive Call where
  | acquire (v : Var) (excluded : List PoolReg)
  | consume (v : Var)
  | drain

namespace Allocator

/-- The allocator after a call, whether or not the call failed. -/
def after (a : Allocator) : Call → Allocator
  | .acquire v excluded => (a.acquire v excluded).2
  | .consume v => (a.consume v).2
  | .drain => a.drain.2

def run (a : Allocator) (calls : List Call) : Allocator := calls.foldl after a

variable {a b c : Allocator} {v w : Var} {r s : PoolReg} {excluded : List PoolReg}
  {poolSize slotSize : Nat} {pending : PendingReads}

/-! ### What runs keep -/

theorem create_eq_ok_iff : create poolSize slotSize pending = .ok a ↔
    (0 < poolSize ∧ poolSize ≤ PoolReg.count ∧ 0 < slotSize) ∧
    a = initial poolSize slotSize slotSize pending := by
  rw [create]
  split
  · next hpool =>
      constructor
      · intro h
        cases h
      · rintro ⟨⟨hpos, hle, _⟩, _⟩
        omega
  · next hpool =>
      split
      · next hslot =>
          constructor
          · intro h
            cases h
          · rintro ⟨⟨_, _, hpos⟩, _⟩
            omega
      · next hslot =>
          rw [Except.ok.injEq, eq_comm]
          exact ⟨fun h => ⟨by omega, h⟩, And.right⟩

theorem after_acquire_ok (h : a.acquire v excluded = (.ok r, b)) :
    a.after (.acquire v excluded) = b := by
  rw [after, h]

/-- An invariant of successful acquisitions, consumed reads and drains is an invariant of every
call. -/
theorem after_induction {P : Allocator → Prop}
    (hacquire : ∀ {b c v excluded r}, P b → b.acquire v excluded = (.ok r, c) → P c)
    (hconsume : ∀ {b} v, P b → P (b.consume v).2) (hdrain : ∀ {b}, P b → P b.drain.2) (h : P a)
      (call : Call) :
    P (a.after call) := by
  cases call with
  | acquire v excluded =>
      rcases hacq : a.acquire v excluded with ⟨f | r, b⟩
      · rw [after, hacq, acquire_eq_error hacq]
        exact h
      · rw [after_acquire_ok hacq]
        exact hacquire h hacq
  | consume v => exact hconsume v h
  | drain => exact hdrain h

theorem run_induction {P : Allocator → Prop}
    (hacquire : ∀ {b c v excluded r}, P b → b.acquire v excluded = (.ok r, c) → P c)
    (hconsume : ∀ {b} v, P b → P (b.consume v).2) (hdrain : ∀ {b}, P b → P b.drain.2) (h : P a)
    (calls : List Call) : P (a.run calls) := by
  induction calls generalizing a with
  | nil => exact h
  | cons call calls ih => exact ih (after_induction hacquire hconsume hdrain h call)

theorem Pooled.run (h : a.Pooled) (calls : List Call) : (a.run calls).Pooled :=
  run_induction (fun hb => hb.acquire) (fun v hb => hb.consume v) (fun hb => hb.drain) h calls

theorem Stacked.run (h : a.Stacked) (calls : List Call) : (a.run calls).Stacked :=
  run_induction (fun hb => hb.acquire) (fun v hb => hb.consume v) (fun hb => hb.drain) h calls

theorem sizes_run (a : Allocator) (calls : List Call) :
    (a.run calls).poolSize = a.poolSize ∧ (a.run calls).slotSize = a.slotSize := by
  refine run_induction (P := fun b => b.poolSize = a.poolSize ∧ b.slotSize = a.slotSize) ?_ ?_ ?_
    ⟨rfl, rfl⟩ calls
  · intro b c v excluded r hb hacq
    obtain ⟨grant, _, _, rfl⟩ := acquire_eq_ok_iff.1 hacq
    rw [poolSize_settle, slotSize_settle]
    exact hb
  · intro b v hb
    obtain ⟨pending, hstate, _⟩ := consume_eq b v
    rw [hstate]
    exact hb
  · exact fun hb => hb

/-! ### Registers -/

theorem Pooled.index_lt (h : a.Pooled) (hv : a.register? v = some r) : r.index < a.poolSize := by
  have hmem : r ∈ pool a.poolSize := h.recency_perm.mem_iff.1 (h.mem_recency hv)
  obtain ⟨i, hi, rfl⟩ := List.mem_map.1 hmem
  exact List.mem_range.1 hi

theorem occupant?_acquire (h : a.acquire v excluded = (.ok r, b)) (s : PoolReg) :
    b.occupant? s = if s = r then some v else a.occupant? s := by
  obtain ⟨grant, hgrants, rfl, rfl⟩ := acquire_eq_ok_iff.1 h
  exact hgrants.occupant?_settle s

theorem register?_of_acquire_mem (h : a.acquire v excluded = (.ok r, b)) (hr : r ∈ excluded) :
    a.register? v = some r := by
  obtain ⟨grant, hgrants, rfl, rfl⟩ := acquire_eq_ok_iff.1 h
  cases hv : a.register? v with
  | none => exact absurd hr (mem_candidates.1 (hgrants.mem_candidates hv)).2
  | some s => rw [hgrants.register_of_resident hv]

theorem occupant?_acquire_of_mem (h : a.acquire v excluded = (.ok r, b)) (hs : s ∈ excluded) :
    b.occupant? s = a.occupant? s := by
  rw [occupant?_acquire h]
  by_cases hsr : s = r
  · subst hsr
    have hheld : a.occupant? s = some v :=
      Bijection.image?_eq_some_iff.1 (register?_of_acquire_mem h hs)
    rw [if_pos rfl, hheld]
  · rw [if_neg hsr]

theorem register?_acquire_of_ne (h : a.acquire v excluded = (.ok r, b)) (hwv : w ≠ v)
    (hw : a.occupant? r ≠ some w) : b.register? w = a.register? w := by
  have helsewhere : a.register? w ≠ some r := fun heq => hw (Bijection.image?_eq_some_iff.1 heq)
  rw [register?_acquire h, if_neg hwv, if_neg helsewhere]

theorem acquire_eq_of_fst (h : (a.acquire v excluded).1 = .ok r) :
    a.acquire v excluded = (.ok r, a.after (.acquire v excluded)) :=
  Prod.ext h rfl

/-- **Registers are exclusive.** The last part is the contract of an acquisition at any point of a
run. -/
theorem registers_exclusive (hcreate : create poolSize slotSize pending = .ok a)
    (calls : List Call) :
    let b := a.run calls
    (∀ v r, b.register? v = some r ↔ b.occupant? r = some v) ∧
      (∀ v r, b.register? v = some r → r.index < poolSize) ∧ b.recency.Perm (pool poolSize) ∧
      ∀ v excluded r c, b.acquire v excluded = (.ok r, c) →
        c.register? v = some r ∧ (r ∈ excluded → b.register? v = some r) ∧
          (∀ w, w ≠ v → b.occupant? r ≠ some w → c.register? w = b.register? w) ∧
          (∀ s, s ≠ r → c.occupant? s = b.occupant? s) ∧
              ∀ s ∈ excluded, c.occupant? s = b.occupant? s := by
  intro b
  obtain ⟨_, hinitial⟩ := create_eq_ok_iff.1 hcreate
  have hpooled : b.Pooled := Pooled.run (hinitial ▸ pooled_initial ..) calls
  have hsize : b.poolSize = poolSize := by rw [(sizes_run a calls).1, hinitial, initial]
  refine ⟨fun v r => Bijection.image?_eq_some_iff, fun v r hv => hsize ▸ hpooled.index_lt hv,
    hsize ▸ hpooled.recency_perm, fun v excluded r c h => ?_⟩
  refine ⟨register?_acquire_self h, register?_of_acquire_mem h, fun w => register?_acquire_of_ne h,
    fun s hs => ?_, fun s => occupant?_acquire_of_mem h⟩
  rw [occupant?_acquire h, if_neg hs]

/-- With all three registers taken and the first one excluded, `d` takes the second one from `b`;
the exclusions name a register twice and one outside the pool. -/
theorem registers_exclusive_pinned :
    let pending := PendingReads.ofList [(⟨"a"⟩, 1), (⟨"b"⟩, 1), (⟨"c"⟩, 1), (⟨"d"⟩, 1)]
    let start := initial 3 4 4 pending
    let b := start.run [.acquire ⟨"a"⟩ [], .acquire ⟨"b"⟩ [], .acquire ⟨"c"⟩ []]
    let excluded : List PoolReg := [⟨0⟩, ⟨40⟩, ⟨0⟩]
    let c := b.after (.acquire ⟨"d"⟩ excluded)
    create 3 4 pending = .ok start ∧ b.acquire ⟨"d"⟩ excluded = (.ok ⟨1⟩, c) ∧
      c.register? ⟨"d"⟩ = some ⟨1⟩ ∧ c.register? ⟨"c"⟩ = b.register? ⟨"c"⟩ ∧
      c.occupant? ⟨0⟩ = b.occupant? ⟨0⟩ ∧
      b.occupant? ⟨0⟩ = some ⟨"a"⟩ ∧ b.occupant? ⟨1⟩ = some ⟨"b"⟩ ∧
      b.register? ⟨"c"⟩ = some ⟨2⟩ := by
  intro pending start b excluded c
  have hcreate : create 3 4 pending = .ok start := rfl
  have hgiven : (b.acquire ⟨"d"⟩ excluded).1 = .ok ⟨1⟩ := by decide +kernel
  have hacq : b.acquire ⟨"d"⟩ excluded = (.ok ⟨1⟩, c) := acquire_eq_of_fst hgiven
  obtain ⟨_, _, _, hcontract⟩ :=
    registers_exclusive hcreate [.acquire ⟨"a"⟩ [], .acquire ⟨"b"⟩ [], .acquire ⟨"c"⟩ []]
  obtain ⟨hself, _, hothers, _, hexcluded⟩ := hcontract _ _ _ _ hacq
  refine ⟨hcreate, hacq, hself, hothers ⟨"c"⟩ (by decide) (by decide +kernel),
    hexcluded ⟨0⟩ (by decide), ?_⟩
  exact ⟨by decide +kernel, by decide +kernel, by decide +kernel⟩

end Allocator

end StraightLine
