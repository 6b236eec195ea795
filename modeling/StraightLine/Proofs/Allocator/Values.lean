import StraightLine.Proofs.Allocator.Tables
import StraightLine.Proofs.Semantics.Machine
import StraightLine.Semantics.Evaluator

/-!
# Where values are kept

A run of the allocator goes along with a machine that executes the spill code and with the words
that the variables stand for. `Holds` says where the word of one variable is: in its register, or,
while it has none, in its slot. `Faithful` says that every live variable that stands for a word is
held so. The machine is taken behind the code that still waits in the queue, so it does not matter
when the queue is emitted.

Binding a variable takes the register from its occupant. This keeps the invariant if the occupant is
dead or its word was stored before, and storing is what an eviction does first. A store can
overwrite a slot only if its holder is dead.
-/

namespace StraightLine

namespace Allocator

/-- The word of a variable is in its register, or in its slot while it has no register. -/
def Holds (a : Allocator) (m : Machine) (v : Var) (x : Int32) : Prop :=
  (∃ r, a.register? v = some r ∧ m.reg (.pool r) = x) ∨
    (a.register? v = none ∧ ∃ o, a.slot? v = some o ∧ m.slot o = x)

/-- Every live variable that stands for a word is held. -/
def Faithful (a : Allocator) (m : Machine) (words : Env) : Prop :=
  ∀ v x, words v = some x → a.pending.Live v → a.Holds m v x

end Allocator

/-- Let a variable that stands for no word yet stand for a given one. -/
def Env.note (words : Env) (v : Var) (x : Int32) : Env :=
  if words v = none then words.set v x else words

namespace Env

variable {words : Env} {v w : Var} {x y : Int32}

theorem note_of_ne (h : w ≠ v) : words.note v x w = words w := by
  rw [note]
  split
  · exact set_of_ne h
  · rfl

theorem note_self (words : Env) (v : Var) (x : Int32) :
    words.note v x v = some ((words v).getD x) := by
  rw [note]
  cases h : words v with
  | none => simp
  | some y => simp [h]

theorem note_eq_of_some (h : words w = some y) : words.note v x w = some y := by
  by_cases hw : w = v
  · rw [hw, note_self, ← hw, h]
    rfl
  · rw [note_of_ne hw, h]

end Env

namespace Allocator

variable {a b : Allocator} {u v w : Var} {r s : PoolReg} {excluded : List PoolReg} {offset : Nat}
  {grant : Grant} {placement : Placement} {m : Machine} {words : Env} {x : Int32}

/-! ### Reloading -/

theorem slot_run_reloadCode (a : Allocator) (v : Var) (r : PoolReg) (m : Machine) (o : Nat) :
    (m.run (a.reloadCode v r)).slot o = m.slot o := by
  rw [reloadCode]
  cases a.slot? v <;> rfl

theorem reg_run_reloadCode_of_ne (hs : s ≠ r) :
    (m.run (a.reloadCode v r)).reg (.pool s) = m.reg (.pool s) := by
  rw [reloadCode]
  cases a.slot? v with
  | none => rfl
  | some o => exact if_neg fun heq => hs (Reg.pool.inj heq)

theorem reg_run_reloadCode_self (hslot : a.slot? v = some offset) :
    (m.run (a.reloadCode v r)).reg (.pool r) = m.slot offset := by
  rw [reloadCode, hslot]
  exact if_pos rfl

theorem Faithful.bind (h : a.Faithful m words) (hnew : a.register? v = none)
    (hbackup : ∀ u x, a.register? u = some r → words u = some x → a.pending.Live u →
      ∃ o, a.slot? u = some o ∧ m.slot o = x) :
    (a.bind v r).Faithful (m.run (a.reloadCode v r))
      (words.note v ((m.run (a.reloadCode v r)).reg (.pool r))) := by
  intro w x hx hlive
  rw [pending_bind] at hlive
  by_cases hwv : w = v
  · subst hwv
    refine Or.inl ⟨r, by simp, ?_⟩
    rw [Env.note_self, Option.some.injEq] at hx
    cases hw : words w with
    | none =>
        rw [hw] at hx
        exact hx
    | some y =>
        rw [hw, Option.getD_some] at hx
        subst hx
        obtain ⟨s, hs, _⟩ | ⟨_, o, ho, hslot⟩ := h w y hw hlive
        · rw [hnew] at hs
          cases hs
        · rw [reg_run_reloadCode_self ho, hslot]
  · rw [Env.note_of_ne hwv] at hx
    obtain ⟨s, hs, hreg⟩ | ⟨hnone, o, ho, hslot⟩ := h w x hx hlive
    · by_cases hsr : s = r
      · subst hsr
        obtain ⟨o, ho, hslot⟩ := hbackup w x hs hx hlive
        refine Or.inr ⟨by simp [hwv, hs], o, by rw [slot?_bind, ho], ?_⟩
        rw [slot_run_reloadCode, hslot]
      · refine Or.inl ⟨s, by simp [hwv, hs, hsr], ?_⟩
        rw [reg_run_reloadCode_of_ne hsr, hreg]
    · refine Or.inr ⟨by simp [hwv, hnone], o, by rw [slot?_bind, ho], ?_⟩
      rw [slot_run_reloadCode, hslot]

/-! ### Storing -/

/-- The slot that an eviction writes belongs to no live variable but the victim. -/
theorem Places.slot_ne (hplace : Places a u placement) (hstack : a.Stacked)
    (hw : a.slot? w = some offset) (hlive : a.pending.Live w) (hne : w ≠ u) :
    offset ≠ placement.offset := by
  intro heq
  subst heq
  cases hplace with
  | own hown => exact hne (Bijection.image?_injective hw hown)
  | recycled _ _ _ hdead =>
      have hzero := hdead w (Bijection.image?_eq_some_iff.1 hw)
      exact PendingReads.not_live_of_zero hzero hlive
  | grown => exact Nat.lt_irrefl _ (hstack.slot_lt hw).2

theorem Places.offset_lt (hplace : Places a u placement) (hstack : a.Stacked) :
    placement.offset < byteLimit := by
  have hdepth := hstack.depth_lt
  cases hplace with
  | own hown => exact Nat.lt_trans (hstack.slot_lt hown).2 hdepth
  | @recycled front back o _ hsplit =>
      have hmem : o ∈ a.offsets := by simp [hsplit]
      exact Nat.lt_trans ((mem_offsets hstack.slotSize_pos hstack.slotSize_dvd).1 hmem).2 hdepth
  | grown => exact hdepth

theorem Faithful.store (h : a.Faithful m words) (hstack : a.Stacked)
    (hheld : a.register? u = some r) (hplace : Places a u placement) :
    (a.store r u placement).Faithful (m.step (Asm.spill r placement.offset)) words := by
  intro w x hx hlive
  rw [pending_store] at hlive
  obtain ⟨s, hs, hreg⟩ | ⟨hnone, o, ho, hslot⟩ := h w x hx hlive
  · exact Or.inl ⟨s, by rw [register?_store, hs], hreg⟩
  · have hwu : w ≠ u := by
      intro heq
      rw [heq, hheld] at hnone
      cases hnone
    have hne : o ≠ placement.offset := hplace.slot_ne hstack ho hlive hwu
    have hlt : o < byteLimit := Nat.lt_trans (hstack.slot_lt ho).2 hstack.depth_lt
    refine Or.inr ⟨by rw [register?_store, hnone], o, by simp [hwu, ho, hne], ?_⟩
    rw [Machine.step_spill, Machine.slot_setMem_of_ne (hplace.offset_lt hstack) hlt hne, hslot]

theorem Faithful.slot_store (h : a.Faithful m words) (hheld : a.register? u = some r)
    (hlive : a.pending.Live u) (hx : words u = some x) :
    (m.step (Asm.spill r offset)).slot offset = x := by
  obtain ⟨s, hs, hreg⟩ | ⟨hnone, _⟩ := h u x hx hlive
  · rw [hheld] at hs
    cases hs
    rw [Machine.step_spill, Machine.slot_setMem_self, hreg]
  · rw [hheld] at hnone
    cases hnone

/-! ### Acquiring -/

theorem Faithful.settle (h : a.Faithful m words) (hstack : a.Stacked)
    (hgrants : Grants a v excluded grant) :
    (a.settle v grant).Faithful (m.run (a.spillCode v grant))
      (words.note v ((m.run (a.spillCode v grant)).reg (.pool grant.register))) := by
  cases hgrants with
  | @resident r hheld =>
      intro w x hx hlive
      by_cases hwv : w = v
      · subst hwv
        rw [Env.note_self, Option.some.injEq] at hx
        cases hw : words w with
        | none =>
            rw [hw] at hx
            exact Or.inl ⟨r, hheld, hx⟩
        | some y =>
            rw [hw, Option.getD_some] at hx
            exact h w x (by rw [hw, hx]) hlive
      · rw [Env.note_of_ne hwv] at hx
        exact h w x hx hlive
  | @free r hnew hfirst =>
      refine Faithful.bind h hnew fun u x hu => ?_
      have hnone : a.occupant? r = none := by simpa using List.find?_some hfirst
      have hocc : a.occupant? r = some u := Bijection.image?_eq_some_iff.1 hu
      rw [hocc] at hnone
      cases hnone
  | @retired front back r u hnew hsplit hfront hfull hheld hdead =>
      refine Faithful.bind h hnew fun w x hw _ hlive => ?_
      have hwu : w = u := Bijection.image?_injective hw (Bijection.image?_eq_some_iff.2 hheld)
      subst hwu
      exact absurd hlive (PendingReads.not_live_of_zero hdead)
  | @evict rest r u placement hnew hsplit hfull hheld hplace =>
      have hu : a.register? u = some r := Bijection.image?_eq_some_iff.2 hheld
      refine (h.store hstack hu hplace).bind (by rw [register?_store, hnew])
        fun w x hw hx hlive => ?_
      rw [register?_store] at hw
      rw [pending_store] at hlive
      have hwu : w = u := Bijection.image?_injective hw hu
      subst hwu
      exact ⟨placement.offset, by simp, h.slot_store hu hlive hx⟩

theorem sp_run_spillCode (a : Allocator) (v : Var) (grant : Grant) (m : Machine) :
    (m.run (a.spillCode v grant)).reg .sp = m.reg .sp := by
  refine Machine.reg_run_of_ne fun i hi => ?_
  obtain ⟨s, o, _, rfl | rfl, _⟩ := mem_spillCode hi <;> simp [Asm.spill, Asm.reload, Asm.dest?]

theorem sp_run_acquire (h : a.acquire v excluded = (.ok r, b)) (m : Machine) :
    (m.run b.queue).reg .sp = (m.run a.queue).reg .sp := by
  obtain ⟨grant, _, _, rfl⟩ := acquire_eq_ok_iff.1 h
  rw [queue_settle, Machine.run_append, sp_run_spillCode]

/-- An acquisition keeps every live word, and the register it gives holds the word of its
variable. -/
theorem Faithful.acquire (hstack : a.Stacked) (h : a.Faithful (m.run a.queue) words)
    (hacq : a.acquire v excluded = (.ok r, b)) :
    b.Faithful (m.run b.queue) (words.note v ((m.run b.queue).reg (.pool r))) := by
  obtain ⟨grant, hgrants, rfl, rfl⟩ := acquire_eq_ok_iff.1 hacq
  rw [queue_settle, Machine.run_append]
  exact h.settle hstack hgrants

theorem Faithful.reg_eq (h : b.Faithful m words) (hheld : b.register? v = some r)
    (hlive : b.pending.Live v) (hx : words v = some x) : m.reg (.pool r) = x := by
  obtain ⟨s, hs, hreg⟩ | ⟨hnone, _⟩ := h v x hx hlive
  · rw [hheld] at hs
    cases hs
    exact hreg
  · rw [hheld] at hnone
    cases hnone

/-! ### Consuming and writing -/

theorem Faithful.consume (h : a.Faithful m words) (v : Var) : (a.consume v).2.Faithful m words := by
  obtain ⟨pending, hstate, hpending⟩ := consume_eq a v
  rw [hstate]
  intro w x hx hlive
  refine h w x hx ?_
  obtain rfl | hpending := hpending
  · exact hlive
  · exact PendingReads.live_of_live_consume hpending hlive

/-- Writing the register of a variable gives the variable the word, and no other variable loses its
own. -/
theorem Faithful.write (h : a.Faithful m words) (hheld : a.register? v = some r) (x : Int32) :
    a.Faithful (m.setReg (.pool r) x) (words.set v x) := by
  intro w y hy hlive
  by_cases hwv : w = v
  · subst hwv
    rw [Env.set_self, Option.some.injEq] at hy
    exact Or.inl ⟨r, hheld, by simp [hy]⟩
  · rw [Env.set_of_ne hwv] at hy
    obtain ⟨s, hs, hreg⟩ | ⟨hnone, o, ho, hslot⟩ := h w y hy hlive
    · have hsr : s ≠ r := by
        intro heq
        rw [heq] at hs
        exact hwv (Bijection.image?_injective hs hheld)
      exact Or.inl ⟨s, hs, by simp [hsr, hreg]⟩
    · exact Or.inr ⟨hnone, o, ho, hslot⟩

end Allocator

end StraightLine
