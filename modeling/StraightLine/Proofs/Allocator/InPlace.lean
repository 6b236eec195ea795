import StraightLine.Emission.Select
import StraightLine.Proofs.Allocator.SlotTable

/-!
# Acquiring in place

`Allocator.acquire` plans first and then carries the plan out. Here the same acquisition is written
a second time as a program that works on one allocator, looks and acts by turns, and stops at the
first failure with the allocator as it then is: `seat` binds a variable and loads it, `reuse` goes
through the registers until one has a dead occupant, `slotFor` finds a slot and makes the stack
grow, `save` stores an occupant. None of these puts anything back when a later part fails.

The program does what `acquire` says, in its answer and in the allocator it leaves, wherever the
stack is in order, and so in every run. That a refused acquisition leaves no trace is then a fact
about the order in which the program looks and acts: whatever can refuse comes before whatever
changes a table.
-/

namespace StraightLine

namespace Allocation

variable {α : Type} {a : Allocator} {excluded : List PoolReg}

/-! ### The program -/

/-- Look something up in the allocator. Looking can fail and changes nothing. -/
def ask (look : Allocator → Except Failure α) : Allocation α := ExceptT.mk fun a => (look a, a)

def report (e : Event) : Allocation Unit := modify fun a => a.log e

/-- Bind a variable to a register, and load it if it has a slot. -/
def seat (v : Var) (r : PoolReg) : Allocation Unit := do
  modify fun a => { a with registers := a.registers.insert v r }
  modify fun a => a.touch r
  match (← get).slot? v with
  | none => return
  | some offset =>
      report (.reload v r offset)
      modify fun a => { a with queue := a.queue ++ [Asm.reload r offset] }
      modify fun a => { a with reloads := a.reloads + 1 }

/-- Seat a variable in the first of some registers whose occupant is dead. -/
def reuse (v : Var) (excluded : List PoolReg) : List PoolReg → Allocation (Option PoolReg)
  | [] => return none
  | r :: rest => do
      if excluded.contains r then reuse v excluded rest
      else
        let retired ←
          match (← get).occupant? r with
          | none => pure false
          | some u => ask fun a => a.pending.isDead u
        if retired then
          report (.found .retired v r)
          seat v r
          return some r
        else reuse v excluded rest

/-- The slot for a variable: its own, one that the walk finds, or a new one, for which the stack
grows. -/
def slotFor (u : Var) : Allocation Nat := do
  match (← get).slot? u with
  | some offset => return offset
  | none =>
      match ← ask fun a => a.walk 0 with
      | some offset => return offset
      | none =>
          let a ← get
          if a.depth + a.slotSize < byteLimit then
            modify fun a => { a with depth := a.depth + a.slotSize }
            return a.depth
          else throw (.trapped .depthOverflow)

def save (r : PoolReg) (u : Var) : Allocation Unit := do
  let offset ← slotFor u
  report (.spill u r offset)
  modify fun a => { a with queue := a.queue ++ [Asm.spill r offset] }
  modify fun a => { a with slots := a.slots.insert u offset }
  modify fun a => { a with stores := a.stores + 1 }
  modify fun a => { a with spilled := Var.insertSorted u a.spilled }

/-- Take the first register that is not excluded from its occupant. -/
def evict (v : Var) (excluded order : List PoolReg) : Allocation PoolReg := do
  match order.find? fun r => !excluded.contains r with
  | none => throw ((← get).exhausted excluded)
  | some r =>
      match (← get).occupant? r with
      | none => pure ()
      | some u => save r u
      seat v r
      return r

def acquireInPlace (v : Var) (excluded : List PoolReg) : Allocation PoolReg := do
  match (← get).register? v with
  | some r =>
      modify fun a => a.touch r
      report (.found .resident v r)
      return r
  | none =>
      let a ← get
      let order := a.recency
      match order.find? fun r => (a.occupant? r).isNone && !excluded.contains r with
      | some r =>
          report (.found .free v r)
          seat v r
          return r
      | none =>
          match ← reuse v excluded order with
          | some r => return r
          | none => evict v excluded order

/-! ### What its parts do -/

@[simp] theorem run_get (a : Allocator) : (get : Allocation Allocator).run a = (.ok a, a) := rfl

@[simp] theorem run_modify (f : Allocator → Allocator) (a : Allocator) :
    (modify f : Allocation Unit).run a = (.ok (), f a) := rfl

@[simp] theorem run_throw (f : Failure) (a : Allocator) :
    (throw f : Allocation α).run a = (.error f, a) := rfl

@[simp] theorem run_ask (look : Allocator → Except Failure α) (a : Allocator) :
    (ask look).run a = (look a, a) := rfl

@[simp] theorem run_report (e : Event) (a : Allocator) : (report e).run a = (.ok (), a.log e) := rfl

@[simp] theorem run_seat (v : Var) (r : PoolReg) (a : Allocator) :
    (seat v r).run a = (.ok (), a.bind v r) := by
  have hslot : ({ a with registers := a.registers.insert v r }.touch r).slot? v = a.slot? v := rfl
  simp only [seat, run_bind, run_modify, run_get, Allocator.bind, Allocator.load, hslot]
  cases a.slot? v with
  | none => rfl
  | some offset => rfl

theorem run_reuse (v : Var) (excluded order : List PoolReg) (a : Allocator) :
    (reuse v excluded order).run a =
      match Allocator.firstRetired a.pending ((order.filter fun r => !excluded.contains r).filterMap
        fun r => (a.occupant? r).map fun u => (r, u)) with
      | .error f => (.error f, a)
      | .ok none => (.ok none, a)
      | .ok (some r) => (.ok (some r), (a.log (.found .retired v r)).bind v r) := by
  induction order with
  | nil => rfl
  | cons r rest ih =>
      rw [reuse]
      by_cases hexcluded : excluded.contains r = true
      · rw [if_pos hexcluded, List.filter_cons_of_neg (by simpa using hexcluded), ih]
      · rw [if_neg hexcluded, List.filter_cons_of_pos (by simpa using hexcluded)]
        simp only [run_bind, run_get]
        cases hheld : a.occupant? r with
        | none =>
            rw [List.filterMap_cons_none (by rw [hheld]; rfl)]
            exact ih
        | some u =>
            rw [List.filterMap_cons_some (by rw [hheld]; rfl), Allocator.firstRetired]
            simp only [run_bind, run_ask]
            cases a.pending.isDead u with
            | error f => rfl
            | ok dead =>
                cases dead with
                | true => simp only [↓reduceIte, run_bind, run_report, run_seat, run_pure]
                | false => exact ih

theorem run_slotFor (hstack : a.Stacked) (u : Var) :
    (slotFor u).run a =
      match a.place u with
      | .error f => (.error f, a)
      | .ok placement => (.ok placement.offset, { a with depth := a.depthAfter placement }) := by
  have hwalk := hstack.walk_eq [] a.offsets rfl
  rw [List.length_nil, Nat.zero_mul] at hwalk
  rw [Allocator.place]
  simp only [slotFor, run_bind, run_get]
  cases a.slot? u with
  | some offset => rfl
  | none =>
      simp only [run_bind, run_ask, hwalk]
      cases a.firstReusable a.offsets with
      | error f => rfl
      | ok found =>
          cases found with
          | some offset => rfl
          | none =>
              simp only [run_bind, run_get]
              split <;> rfl

theorem run_save (hstack : a.Stacked) (r : PoolReg) (u : Var) :
    (save r u).run a =
      match a.place u with
      | .error f => (.error f, a)
      | .ok placement => (.ok (), a.store r u placement) := by
  simp only [save, run_bind, run_slotFor hstack]
  cases a.place u with
  | error f => rfl
  | ok placement => cases placement <;> rfl

/-- Once no register is free and none is retired, the first one that is not excluded is taken. -/
theorem run_evict (hstack : a.Stacked) (hfull : ∀ s ∈ a.candidates excluded, a.occupant? s ≠ none)
    (hlive : Allocator.firstRetired a.pending (a.holders excluded) = .ok none) (v : Var) :
    (evict v excluded a.recency).run a =
      match a.planEviction excluded with
      | .error f => (.error f, a)
      | .ok grant => (.ok grant.register, a.settle v grant) := by
  have hfirst : a.recency.find? (fun r => !excluded.contains r) = (a.candidates excluded).head? :=
    List.head?_filter.symm
  rw [Allocator.planEviction, hlive, Allocator.holders]
  simp only [evict, hfirst]
  cases hcandidates : a.candidates excluded with
  | nil => simp only [List.head?_nil, List.filterMap_nil, run_bind, run_get, run_throw]
  | cons r rest =>
      obtain ⟨u, hheld⟩ : ∃ u, a.occupant? r = some u :=
        Option.ne_none_iff_exists'.1 (hfull r (hcandidates ▸ List.mem_cons_self))
      rw [List.filterMap_cons_some (by rw [hheld]; rfl)]
      simp only [List.head?_cons, run_bind, run_get, hheld, run_save hstack]
      cases a.place u with
      | error f => rfl
      | ok placement => simp only [run_seat, run_pure]; rfl

/-- **Acquiring in place is acquiring.** The program gives the planned answer and leaves the planned
allocator. -/
theorem run_acquireInPlace (hstack : a.Stacked) (v : Var) (excluded : List PoolReg) :
    (acquireInPlace v excluded).run a = a.acquire v excluded := by
  rw [Allocator.acquire, Allocator.plan]
  simp only [acquireInPlace, run_bind, run_get]
  cases hv : a.register? v with
  | some r => rfl
  | none =>
      have hfree : a.recency.find? (fun r => (a.occupant? r).isNone && !excluded.contains r) =
          (a.candidates excluded).find? fun r => (a.occupant? r).isNone := by
        rw [Allocator.candidates, List.find?_filter]
        refine congrArg (List.find? · a.recency) (funext fun r => ?_)
        cases a.occupant? r <;> simp
      simp only [run_bind, run_get, hfree]
      cases hfound : (a.candidates excluded).find? fun r => (a.occupant? r).isNone with
      | some r => simp only [run_bind, run_report, run_seat, run_pure]; rfl
      | none =>
          have hheld : (a.recency.filter fun r => !excluded.contains r).filterMap
              (fun r => (a.occupant? r).map fun u => (r, u)) = a.holders excluded := rfl
          simp only [run_bind, run_reuse, hheld]
          cases hretired : Allocator.firstRetired a.pending (a.holders excluded) with
          | error f => simp only [Allocator.planEviction, hretired]
          | ok found =>
              cases found with
              | some r =>
                  simp only [Allocator.planEviction, hretired]
                  rfl
              | none => exact run_evict hstack (Allocator.occupied_of_find? hfound) hretired v

end Allocation

/-! ### Runs in place -/

namespace Allocator

variable {a : Allocator} {poolSize slotSize : Nat} {pending : PendingReads}

/-- The allocator after a call in place, whether or not the call failed. -/
def afterInPlace (a : Allocator) : Call → Allocator
  | .acquire v excluded => ((Allocation.acquireInPlace v excluded).run a).2
  | .consume v => (a.consume v).2
  | .drain => a.drain.2

def runInPlace (a : Allocator) (calls : List Call) : Allocator := calls.foldl afterInPlace a

theorem Stacked.afterInPlace_eq (hstack : a.Stacked) (call : Call) :
    a.afterInPlace call = a.after call := by
  cases call with
  | acquire v excluded => rw [afterInPlace, Allocation.run_acquireInPlace hstack, after]
  | consume v => rfl
  | drain => rfl

theorem Stacked.runInPlace_eq (hstack : a.Stacked) (calls : List Call) :
    a.runInPlace calls = a.run calls := by
  induction calls generalizing a with
  | nil => rfl
  | cons call calls ih =>
      have hnext : (a.after call).Stacked := hstack.run [call]
      rw [runInPlace, List.foldl_cons, hstack.afterInPlace_eq, ← runInPlace, ih hnext]
      rfl

/-- **A refused acquisition leaves no trace.** In every run in place, failed calls among them, an
acquisition does what `acquire` says, and one that fails leaves the allocator as it was. -/
theorem acquireInPlace_of_run (hcreate : create poolSize slotSize pending = .ok a)
    (calls : List Call) (v : Var) (excluded : List PoolReg) :
    let b := a.runInPlace calls
    b = a.run calls ∧ (Allocation.acquireInPlace v excluded).run b = b.acquire v excluded ∧
      ∀ f c, (Allocation.acquireInPlace v excluded).run b = (.error f, c) → c = b := by
  intro b
  obtain ⟨⟨_, _, hpos⟩, hinitial⟩ := create_eq_ok_iff.1 hcreate
  have hstart : a.Stacked := hinitial ▸ stacked_initial hpos
  have hrun : b = a.run calls := hstart.runInPlace_eq calls
  have hstack : b.Stacked := hrun ▸ hstart.run calls
  have hacquire := Allocation.run_acquireInPlace hstack v excluded
  exact ⟨hrun, hacquire, fun f c hrefused => acquire_eq_error (hacquire.symm.trans hrefused)⟩

end Allocator

end StraightLine
