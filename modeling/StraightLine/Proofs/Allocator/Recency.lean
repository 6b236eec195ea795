import Mathlib.Data.List.Induction
import Mathlib.Data.List.ReduceOption
import StraightLine.Proofs.Allocator.Refusals

/-!
# Recency

The allocator keeps its registers in an order that it rearranges as it goes. This module says what
the order is in terms of the run alone. `handouts` lists what the calls of a run hand out, and
`lastHandout` numbers the last call that handed a register out. At every point of a run the
registers that were never handed out stand first, in the order of the pool, and the others follow in
the order of their last handouts.

`Dated` carries this through a run: the order agrees with a clock of last uses, and a register has
an occupant exactly if it was used. One call sets the clock of at most one register, the one it
hands out, and moves that register to the end. The choice of a register for a variable from outside
is then read off the order: `LeastRecent` says it with clocks and occupants only.

The list stands for a cache that keeps its keys by recency. `RecencyCache` is what is asked of such
a cache, and every one of them shows the registers in the order of the list.
-/

namespace StraightLine

/-- A cache of any number of registers, as far as the order of its keys goes: a register that is put
or promoted becomes the most recent one, and the others keep their order. -/
structure RecencyCache where
  State : Type
  empty : State
  put : State → PoolReg → State
  promote : State → PoolReg → State
  /-- The keys, the most recent one first. -/
  keys : State → List PoolReg
  keys_empty : keys empty = []
  keys_put : ∀ c r, keys (put c r) = r :: (keys c).erase r
  keys_promote : ∀ c r, r ∈ keys c → keys (promote c r) = r :: (keys c).erase r

namespace Allocator

/-- The register that a call hands out: none if it asks for none or is refused. -/
def handed? (a : Allocator) : Call → Option PoolReg
  | .acquire v excluded => (a.acquire v excluded).1.toOption
  | _ => none

/-- What the calls of a run hand out, one answer for each call. -/
def handouts (a : Allocator) : List Call → List (Option PoolReg)
  | [] => []
  | call :: calls => a.handed? call :: (a.after call).handouts calls

/-- The number of the last call that handed the register out, where calls count from one; zero if
none did. -/
def lastHandout (a : Allocator) (calls : List Call) (r : PoolReg) : Nat :=
  (a.handouts calls).length - (a.handouts calls).reverse.idxOf (some r)

def Usable (a : Allocator) (excluded : List PoolReg) (r : PoolReg) : Prop :=
  r.index < a.poolSize ∧ r ∉ excluded

/-- The register that a variable from outside gets, by a clock of last uses that is zero for unused
registers. The first unused register comes first, then the idle one that was used longest ago, then
the one that was used longest ago. -/
inductive LeastRecent (a : Allocator) (time : PoolReg → Nat) (excluded : List PoolReg) :
    PoolReg → Prop
  | unused {r : PoolReg} (hr : a.Usable excluded r) (htime : time r = 0)
      (hfirst : ∀ s, a.Usable excluded s → time s = 0 → s ≠ r → r.index < s.index) :
      LeastRecent a time excluded r
  | idle {r : PoolReg} {u : Var} (hused : ∀ s, a.Usable excluded s → time s ≠ 0)
      (hr : a.Idle excluded r u)
      (hdead : a.pending.remaining? u = some 0)
      (holdest : ∀ s w, a.Idle excluded s w → s ≠ r → time r < time s) :
      LeastRecent a time excluded r
  | busy {r : PoolReg} (hused : ∀ s, a.Usable excluded s → time s ≠ 0)
      (hbusy : ∀ s w, ¬ a.Idle excluded s w)
      (hr : a.Usable excluded r) (holdest : ∀ s, a.Usable excluded s → s ≠ r → time r < time s) :
      LeastRecent a time excluded r

/-- By a clock of last uses the first register comes before the second: it was used earlier, or both
were never used and it is the first of the two in the pool. -/
def UsedBefore (time : PoolReg → Nat) (r s : PoolReg) : Prop :=
  time r < time s ∨ time r = 0 ∧ time s = 0 ∧ r.index < s.index

/-- The registers stand in the order of a clock that has come to some number, and the clock knows
which of them are occupied. -/
structure Dated (time : PoolReg → Nat) (now : Nat) (a : Allocator) : Prop where
  pooled : a.Pooled
  ordered : a.recency.Pairwise (UsedBefore time)
  time_le : ∀ r, time r ≤ now
  unbound_iff : ∀ r, a.occupant? r = none ↔ time r = 0

variable {a b : Allocator} {time : PoolReg → Nat} {now poolSize slotSize : Nat} {v : Var}
  {r s : PoolReg} {excluded : List PoolReg} {calls : List Call} {pending : PendingReads}

/-! ### Handouts of a run -/

theorem run_concat (a : Allocator) (calls : List Call) (call : Call) :
    a.run (calls ++ [call]) = (a.run calls).after call := by
  rw [run, run, List.foldl_append]
  rfl

theorem handouts_concat (a : Allocator) (calls : List Call) (call : Call) :
    a.handouts (calls ++ [call]) = a.handouts calls ++ [(a.run calls).handed? call] := by
  induction calls generalizing a with
  | nil => rfl
  | cons first calls ih => exact congrArg (a.handed? first :: ·) (ih (a.after first))

theorem length_handouts (a : Allocator) (calls : List Call) :
    (a.handouts calls).length = calls.length := by
  induction calls generalizing a with
  | nil => rfl
  | cons call calls ih => exact congrArg (· + 1) (ih (a.after call))

theorem lastHandout_concat (a : Allocator) (calls : List Call) (call : Call) (r : PoolReg) :
    a.lastHandout (calls ++ [call]) r =
      if (a.run calls).handed? call = some r then calls.length + 1 else a.lastHandout calls r := by
  have hlength := length_handouts a calls
  rw [lastHandout, lastHandout, handouts_concat, List.reverse_append, List.length_append,
    List.reverse_singleton, List.singleton_append, List.length_singleton, List.idxOf_cons]
  by_cases hcall : (a.run calls).handed? call = some r
  · simp [hcall, hlength]
  · rw [if_neg hcall, beq_false_of_ne hcall, cond_false, Nat.add_sub_add_right]

theorem lastHandout_eq_zero_iff : a.lastHandout calls r = 0 ↔ some r ∉ a.handouts calls := by
  rw [lastHandout, Nat.sub_eq_zero_iff_le, ← List.length_reverse, ← List.mem_reverse]
  constructor
  · intro hle hmem
    exact absurd (List.idxOf_lt_length_of_mem hmem) (Nat.not_lt.2 hle)
  · intro hnot
    exact Nat.le_of_eq (List.idxOf_eq_length hnot).symm

theorem handed?_eq_some_iff {call : Call} : a.handed? call = some r ↔
    ∃ v excluded, call = .acquire v excluded ∧ a.acquire v excluded = (.ok r, a.after call) := by
  constructor
  · intro h
    cases call with
    | acquire v excluded =>
        refine ⟨v, excluded, rfl, acquire_eq_of_fst ?_⟩
        rw [handed?] at h
        cases hfst : (a.acquire v excluded).1 with
        | error f =>
            rw [hfst] at h
            cases h
        | ok s =>
            rw [hfst] at h
            cases h
            rfl
    | consume v => cases h
    | drain => cases h
  · rintro ⟨v, excluded, rfl, hacq⟩
    rw [handed?, hacq]
    rfl

theorem after_of_handed?_eq_none {call : Call} (h : a.handed? call = none) :
    ∃ pending queue, a.after call = { a with pending, queue } := by
  cases call with
  | acquire v excluded =>
      rcases hacq : a.acquire v excluded with ⟨f | r, b⟩
      · rw [after, hacq, acquire_eq_error hacq]
        exact ⟨a.pending, a.queue, rfl⟩
      · rw [handed?, hacq] at h
        cases h
  | consume v =>
      obtain ⟨pending, hstate, _⟩ := consume_eq a v
      exact ⟨pending, a.queue, hstate⟩
  | drain => exact ⟨a.pending, [], rfl⟩

/-! ### The order along a run -/

theorem recency_acquire (h : a.acquire v excluded = (.ok r, b)) :
    b.recency = a.recency.erase r ++ [r] := by
  obtain ⟨grant, _, rfl, rfl⟩ := acquire_eq_ok_iff.1 h
  exact recency_settle ..

theorem Pooled.mem_recency_of_acquire (hpool : a.Pooled) (h : a.acquire v excluded = (.ok r, b)) :
    r ∈ a.recency := by
  obtain ⟨grant, hgrants, rfl, rfl⟩ := acquire_eq_ok_iff.1 h
  exact hgrants.mem_recency hpool

theorem pairwise_pool (poolSize : Nat) : (pool poolSize).Pairwise fun r s => r.index < s.index := by
  rw [pool, List.pairwise_map]
  exact List.pairwise_lt_range

theorem Pooled.nodup_recency (h : a.Pooled) : a.recency.Nodup :=
  h.recency_perm.nodup_iff.2 (nodup_pool a.poolSize)

theorem dated_initial (poolSize slotSize alignment : Nat) (pending : PendingReads) :
    (initial poolSize slotSize alignment pending).Dated (fun _ => 0) 0 where
  pooled := pooled_initial ..
  ordered := (pairwise_pool poolSize).imp fun hlt => Or.inr ⟨rfl, rfl, hlt⟩
  time_le := fun _ => Nat.le_refl 0
  unbound_iff := fun r => by
    have hfree : (initial poolSize slotSize alignment pending).occupant? r = none := rfl
    simp [hfree]

theorem Dated.acquire (ha : a.Dated time now) (h : a.acquire v excluded = (.ok r, b)) :
    b.Dated (fun s => if s = r then now + 1 else time s) (now + 1) := by
  refine ⟨ha.pooled.acquire h, ?_, fun s => ?_, fun s => ?_⟩
  · rw [recency_acquire h, List.pairwise_append]
    have hkeep : ∀ s ∈ a.recency.erase r, s ≠ r :=
      fun s hs => (ha.pooled.nodup_recency.mem_erase_iff.1 hs).1
    refine ⟨?_, List.pairwise_singleton _ _, fun s hs t ht => ?_⟩
    · refine List.Pairwise.imp_of_mem (fun {s t} hs ht hst => ?_)
        (ha.ordered.sublist List.erase_sublist)
      rw [UsedBefore, if_neg (hkeep s hs), if_neg (hkeep t ht)]
      exact hst
    · rw [List.mem_singleton.1 ht, UsedBefore, if_neg (hkeep s hs), if_pos rfl]
      exact Or.inl (Nat.lt_succ_of_le (ha.time_le s))
  · show (if s = r then now + 1 else time s) ≤ now + 1
    split
    · exact Nat.le_refl _
    · exact Nat.le_succ_of_le (ha.time_le s)
  · rw [occupant?_acquire h]
    split
    · simp
    · exact ha.unbound_iff s

theorem Dated.after_of_none (ha : a.Dated time now) {call : Call} (h : a.handed? call = none) :
    (a.after call).Dated time (now + 1) := by
  obtain ⟨pending, queue, hafter⟩ := after_of_handed?_eq_none h
  rw [hafter]
  exact ⟨⟨ha.pooled.recency_perm, ha.pooled.mem_recency⟩, ha.ordered,
    fun s => Nat.le_succ_of_le (ha.time_le s), ha.unbound_iff⟩

/-- At every point of a run the registers stand in the order of their last handouts. -/
theorem Dated.run (ha : a.Dated (fun _ => 0) 0) (calls : List Call) :
    (a.run calls).Dated (a.lastHandout calls) calls.length := by
  induction calls using List.reverseRecOn with
  | nil => exact ha
  | append_singleton calls call ih =>
      have hclock : a.lastHandout (calls ++ [call]) = fun s =>
          if (a.run calls).handed? call = some s then calls.length + 1 else a.lastHandout calls s :=
        funext (lastHandout_concat a calls call)
      rw [run_concat, List.length_append, List.length_singleton, hclock]
      cases hcall : (a.run calls).handed? call with
      | none =>
          simp only [reduceCtorEq, if_false]
          exact ih.after_of_none hcall
      | some r =>
          obtain ⟨v, excluded, -, hacq⟩ := handed?_eq_some_iff.1 hcall
          simp only [Option.some.injEq, eq_comm (a := r)]
          exact ih.acquire hacq

/-! ### The order of the registers -/

theorem Dated.recency_eq (ha : a.Dated time now) : a.recency =
    (pool a.poolSize).filter (fun r => time r = 0) ++ a.recency.filter
    (fun r => !decide (time r = 0)) := by
  have hperm := ha.pooled.recency_perm
  have hanti : ∀ r s, UsedBefore time r s → UsedBefore time s r → r = s := by
    intro r s hrs hsr
    rw [UsedBefore] at hrs hsr
    omega
  refine List.Perm.eq_of_pairwise (fun r s _ _ => hanti r s) ha.ordered ?_ ?_
  · rw [List.pairwise_append]
    refine ⟨?_, ha.ordered.sublist List.filter_sublist, fun r hr s hs => ?_⟩
    · refine List.Pairwise.imp_of_mem (fun {r s} hr hs hlt => ?_)
        ((pairwise_pool a.poolSize).sublist List.filter_sublist)
      simp only [List.mem_filter, decide_eq_true_eq] at hr hs
      exact Or.inr ⟨hr.2, hs.2, hlt⟩
    · simp only [List.mem_filter, decide_eq_true_eq, Bool.not_eq_true',
        decide_eq_false_iff_not] at hr hs
      exact Or.inl (by omega)
  · have hsplit := List.filter_append_perm (fun r => decide (time r = 0)) a.recency
    exact hsplit.symm.trans ((hperm.filter _).append_right _)

theorem Dated.mem_recency_of_used (ha : a.Dated time now) (hr : time r ≠ 0) : r ∈ a.recency := by
  obtain ⟨w, hw⟩ := Option.ne_none_iff_exists'.1 (mt (ha.unbound_iff r).1 hr)
  exact ha.pooled.mem_recency (Bijection.image?_eq_some_iff.2 hw)

/-! ### The choice of a register -/

theorem Dated.first_of_split (ha : a.Dated time now) {front back : List PoolReg}
    (hsplit : a.candidates excluded = front ++ r :: back) (hs : a.Usable excluded s)
    (hfront : s ∉ front) (hne : s ≠ r) : UsedBefore time r s := by
  have hordered : (a.candidates excluded).Pairwise (UsedBefore time) :=
    ha.ordered.sublist List.filter_sublist
  have hmem : s ∈ a.candidates excluded := ha.pooled.mem_candidates_iff.2 hs
  rw [hsplit] at hordered hmem
  obtain hmem | hmem := List.mem_append.1 hmem
  · exact absurd hmem hfront
  · obtain heq | hback := List.mem_cons.1 hmem
    · exact absurd heq hne
    · exact List.rel_of_pairwise_cons (List.pairwise_append.1 hordered).2.1 hback

theorem Idle.usable {u : Var} (h : a.Idle excluded r u) (hpool : a.Pooled) : a.Usable excluded r :=
  ⟨hpool.index_lt (Bijection.image?_eq_some_iff.2 h.2.1), h.1⟩

theorem Idle.not_live {u : Var} (h : a.Idle excluded r u) :
    ¬ ∃ w, a.occupant? r = some w ∧ a.pending.Live w := by
  rintro ⟨w, hw, hlive⟩
  cases h.2.1.symm.trans hw
  exact PendingReads.not_live_iff.2 h.2.2 hlive

/-- A variable from outside gets the register that was used longest ago. -/
theorem Dated.leastRecent (ha : a.Dated time now) (hnew : a.register? v = none)
    (h : a.acquire v excluded = (.ok r, b)) : a.LeastRecent time excluded r := by
  have husable : ∀ {s}, s ∈ a.candidates excluded ↔ a.Usable excluded s :=
    ha.pooled.mem_candidates_iff
  have hused_of_full : (∀ s ∈ a.candidates excluded, a.occupant? s ≠ none) →
      ∀ s, a.Usable excluded s → time s ≠ 0 :=
    fun hfull s hs => mt (ha.unbound_iff s).2 (hfull s (husable.2 hs))
  have holder : ∀ {s}, time s ≠ 0 → UsedBefore time r s → time r < time s := by
    intro s hs hbefore
    rw [UsedBefore] at hbefore
    omega
  obtain ⟨grant, hgrants, rfl, rfl⟩ := acquire_eq_ok_iff.1 h
  have hmem : a.Usable excluded grant.register := husable.1 (hgrants.mem_candidates hnew)
  cases hgrants with
  | resident hheld =>
      rw [hnew] at hheld
      cases hheld
  | @free r _ hfirst =>
      obtain ⟨hfree, front, back, hsplit, hfront⟩ := List.find?_eq_some_iff_append.1 hfirst
      have hunused : time r = 0 := (ha.unbound_iff r).1 (Option.isNone_iff_eq_none.1 hfree)
      refine .unused hmem hunused fun s hs hs0 hne => ?_
      have hnot : s ∉ front := by
        intro hs'
        have hbound := hfront s hs'
        simp [(ha.unbound_iff s).2 hs0] at hbound
      have hbefore := ha.first_of_split hsplit hs hnot hne
      rw [UsedBefore] at hbefore
      show r.index < s.index
      omega
  | @retired front back r u _ hsplit hfront hfull hheld hdead =>
      have hused := hused_of_full hfull
      refine .idle hused ⟨hmem.2, hheld, Or.inr hdead⟩ hdead fun s w hs hne => ?_
      have hsu := hs.usable ha.pooled
      exact holder (hused s hsu)
        (ha.first_of_split hsplit hsu (fun hs' => hs.not_live (hfront s hs')) hne)
  | @evict rest r u placement _ hsplit hfull hheld _ =>
      have hused := hused_of_full (occupied_of_live hfull)
      have hfirst : a.candidates excluded = [] ++ r :: rest := hsplit
      refine .busy hused (fun s w hs => hs.not_live (hfull s (husable.2 (hs.usable ha.pooled))))
        hmem fun s hs hne => ?_
      exact holder (hused s hs) (ha.first_of_split hfirst hs List.not_mem_nil hne)

/-! ### Caches that keep their keys by recency -/

theorem reverse_erase_of_nodup {rs : List PoolReg} (h : rs.Nodup) (r : PoolReg) :
    (rs.erase r).reverse = rs.reverse.erase r := by
  rw [h.erase_eq_filter, (List.nodup_reverse.2 h).erase_eq_filter, List.filter_reverse]

end Allocator

namespace RecencyCache

open Allocator

variable {a : Allocator}

def follow (cache : RecencyCache) (poolSize : Nat) (handouts : List (Option PoolReg)) :
    cache.State :=
  handouts.reduceOption.foldl cache.promote ((pool poolSize).foldl cache.put cache.empty)

theorem keys_fill (cache : RecencyCache) {rs : List PoolReg} (h : rs.Nodup) :
    cache.keys (rs.foldl cache.put cache.empty) = rs.reverse := by
  induction rs using List.reverseRecOn with
  | nil => exact cache.keys_empty
  | append_singleton rs r ih =>
      obtain ⟨hrs, hr⟩ : rs.Nodup ∧ r ∉ rs := by
        obtain ⟨hrs, _, hne⟩ := List.nodup_append.1 h
        exact ⟨hrs, fun hr => hne r hr r (List.mem_singleton_self r) rfl⟩
      rw [List.foldl_append, List.foldl_cons, List.foldl_nil, cache.keys_put, ih hrs,
        List.reverse_append]
      rw [List.erase_of_not_mem (by simpa using hr)]
      rfl

/-- Every cache shows the registers in the order of the allocator. -/
theorem keys_follow (cache : RecencyCache) (ha : a.Dated (fun _ => 0) 0)
    (hstart : a.recency = pool a.poolSize) (calls : List Call) :
    cache.keys (cache.follow a.poolSize (a.handouts calls)) = (a.run calls).recency.reverse := by
  induction calls using List.reverseRecOn with
  | nil => exact (cache.keys_fill (nodup_pool a.poolSize)).trans (congrArg List.reverse hstart.symm)
  | append_singleton calls call ih =>
      have hdated := ha.run calls
      rw [follow] at ih ⊢
      rw [handouts_concat, List.reduceOption_append, List.foldl_append, run_concat]
      cases hcall : (a.run calls).handed? call with
      | none =>
          obtain ⟨pending, queue, hafter⟩ := after_of_handed?_eq_none hcall
          rw [hafter]
          exact ih
      | some r =>
          obtain ⟨v, excluded, -, hacq⟩ := handed?_eq_some_iff.1 hcall
          have hmem : r ∈ (a.run calls).recency.reverse :=
            List.mem_reverse.2 (hdated.pooled.mem_recency_of_acquire hacq)
          rw [recency_acquire hacq, List.reverse_append,
            reverse_erase_of_nodup hdated.pooled.nodup_recency, ← ih]
          exact cache.keys_promote _ r (ih ▸ hmem)

/-- A cache that is the list of its keys. Promoting a register that it does not hold does
nothing. -/
def ofList : RecencyCache where
  State := List PoolReg
  empty := []
  put := fun c r => r :: c.erase r
  promote := fun c r => if r ∈ c then r :: c.erase r else c
  keys := fun c => c
  keys_empty := rfl
  keys_put := fun _ _ => rfl
  keys_promote := fun _ _ hr => if_pos hr

end RecencyCache

namespace Allocator

variable {a : Allocator} {poolSize slotSize : Nat} {pending : PendingReads}

/-- **The allocator takes the least recently used register.** The order is that of the last
handouts, registers that were never handed out are the free ones, and a variable from outside gets
the first register that the order and the occupants allow. -/
theorem registers_by_recency (hcreate : create poolSize slotSize pending = .ok a)
    (calls : List Call) :
    let b := a.run calls
    (∃ used, b.recency = (pool poolSize).filter (fun r => some r ∉ a.handouts calls) ++ used ∧
        (∀ r, r ∈ used ↔ some r ∈ a.handouts calls) ∧
        used.Pairwise fun r s => a.lastHandout calls r < a.lastHandout calls s) ∧
      (∀ r, b.occupant? r = none ↔ some r ∉ a.handouts calls) ∧
      (∀ v excluded r c, b.register? v = none → b.acquire v excluded = (.ok r, c) →
        b.LeastRecent (a.lastHandout calls) excluded r) ∧
      ∀ cache : RecencyCache, cache.keys (cache.follow poolSize (a.handouts calls)) =
          b.recency.reverse := by
  intro b
  obtain ⟨_, hinitial⟩ := create_eq_ok_iff.1 hcreate
  have hstart : a.Dated (fun _ => 0) 0 := hinitial ▸ dated_initial ..
  have hdated : b.Dated (a.lastHandout calls) calls.length := hstart.run calls
  have hsize : a.poolSize = poolSize := by rw [hinitial, initial]
  have hnever : ∀ r, a.lastHandout calls r = 0 ↔ some r ∉ a.handouts calls :=
    fun r => lastHandout_eq_zero_iff
  refine ⟨⟨b.recency.filter fun r => !decide (a.lastHandout calls r = 0), ?_, fun r => ?_, ?_⟩,
    fun r => ?_, fun v excluded r c => hdated.leastRecent, fun cache => ?_⟩
  · have horder := hdated.recency_eq
    simp only [hnever] at horder ⊢
    rwa [(sizes_run a calls).1, hsize] at horder
  · rw [List.mem_filter, Bool.not_eq_true', decide_eq_false_iff_not, hnever, Decidable.not_not]
    refine ⟨And.right, fun hmem => ⟨hdated.mem_recency_of_used ?_, hmem⟩⟩
    rw [ne_eq, hnever, Decidable.not_not]
    exact hmem
  · refine List.Pairwise.imp_of_mem (fun {r s} hr hs hbefore => ?_)
      (hdated.ordered.sublist List.filter_sublist)
    simp only [List.mem_filter, Bool.not_eq_true', decide_eq_false_iff_not] at hr hs
    rw [UsedBefore] at hbefore
    omega
  · rw [hdated.unbound_iff, hnever]
  · rw [← hsize]
    exact cache.keys_follow hstart (by rw [hinitial, initial]) calls

/-- In a pool of four registers `a`, `b` and `c` are live and `a` was asked for again. The register
that nobody had comes first; with it excluded, `d` gets the register of `b`, and the register of `c`
when that of `b` is excluded too. -/
theorem registers_by_recency_asked_again :
    let pending := PendingReads.ofList [(⟨"a"⟩, 1), (⟨"b"⟩, 1), (⟨"c"⟩, 1), (⟨"d"⟩, 1)]
    let start := initial 4 4 4 pending
    let calls : List Call := [.acquire ⟨"a"⟩ [], .acquire ⟨"b"⟩ [], .acquire ⟨"c"⟩ [],
      .consume ⟨"x"⟩, .acquire ⟨"a"⟩ [], .drain]
    let b := start.run calls
    create 4 4 pending = .ok start ∧ b.recency = [⟨3⟩, ⟨1⟩, ⟨2⟩, ⟨0⟩] ∧
      RecencyCache.ofList.keys (RecencyCache.ofList.follow 4 (start.handouts calls)) =
      [⟨0⟩, ⟨2⟩, ⟨1⟩, ⟨3⟩] ∧
      (b.occupant? ⟨3⟩ = none ∧ some ⟨3⟩ ∉ start.handouts calls) ∧ start.lastHandout calls ⟨0⟩ = 5 ∧
      b.LeastRecent (start.lastHandout calls) [] ⟨3⟩ ∧
        b.LeastRecent (start.lastHandout calls) [⟨3⟩] ⟨1⟩ ∧
      b.LeastRecent (start.lastHandout calls) [⟨3⟩, ⟨1⟩] ⟨2⟩ := by
  intro pending start calls b
  have hcreate : create 4 4 pending = .ok start := rfl
  have hrecency : b.recency = [⟨3⟩, ⟨1⟩, ⟨2⟩, ⟨0⟩] := by decide +kernel
  have hnew : b.register? ⟨"d"⟩ = none := by decide +kernel
  have hgiven : (b.acquire ⟨"d"⟩ []).1 = .ok ⟨3⟩ := by decide +kernel
  have hgiven₁ : (b.acquire ⟨"d"⟩ [⟨3⟩]).1 = .ok ⟨1⟩ := by decide +kernel
  have hgiven₂ : (b.acquire ⟨"d"⟩ [⟨3⟩, ⟨1⟩]).1 = .ok ⟨2⟩ := by decide +kernel
  have hfree : b.occupant? ⟨3⟩ = none := by decide +kernel
  obtain ⟨-, hunbound, hchoice, hcache⟩ := registers_by_recency hcreate calls
  refine ⟨hcreate, hrecency, ?_, ⟨hfree, (hunbound ⟨3⟩).1 hfree⟩, by decide +kernel, ?_⟩
  · rw [hcache, hrecency]
    rfl
  · exact ⟨hchoice _ _ _ _ hnew (acquire_eq_of_fst hgiven),
      hchoice _ _ _ _ hnew (acquire_eq_of_fst hgiven₁),
      hchoice _ _ _ _ hnew (acquire_eq_of_fst hgiven₂)⟩

end Allocator

end StraightLine
