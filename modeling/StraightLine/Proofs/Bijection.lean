import Mathlib.Data.Finset.Option
import Mathlib.Data.Finset.Prod
import StraightLine.Bijection

/-!
# Partial bijections as sets of pairs

A partial bijection is kept as two tables, but it stands for one set of pairs. `Pairs.step` says
what an update does to a set of pairs, with no table in sight: an insertion takes out every pair
that holds the key or the value and then adds the new pair, and a removal takes out the pairs of a
key or of a value and gives back their other sides, of which an arbitrary set may have many.

`Bijection.pairs` reads a bijection as a set. One update of the bijection is one update of its set:
the sets that come up have no two pairs with a common side, so a removal gives back one other side
or none. A run of updates then answers and ends as it does on the set, and at its end both tables
hold the whole set, each pair once.
-/

namespace StraightLine

inductive Update (α β : Type) where
  | insert (a : α) (b : β)
  | removeKey (a : α)
  | removeValue (b : β)

variable {α β : Type} [DecidableEq α] [DecidableEq β]

namespace Pairs

/-- The other sides that an update gives back, and the set of pairs after it. -/
def step (s : Finset (α × β)) : Update α β → Finset (α ⊕ β) × Finset (α × β)
  | .insert a b => (∅, insert (a, b) {p ∈ s | p.1 ≠ a ∧ p.2 ≠ b})
  | .removeKey a => ({p ∈ s | p.1 = a}.image fun p => .inr p.2, {p ∈ s | p.1 ≠ a})
  | .removeValue b => ({p ∈ s | p.2 = b}.image fun p => .inl p.1, {p ∈ s | p.2 ≠ b})

def run (s : Finset (α × β)) : List (Update α β) → List (Finset (α ⊕ β)) × Finset (α × β)
  | [] => ([], s)
  | u :: us => ((step s u).1 :: (run (step s u).2 us).1, (run (step s u).2 us).2)

end Pairs

/-- A table has as many entries as the pairs that it holds, since no key has two. -/
theorem Table.size_eq_card (t : Table α β) : t.size = t.entries.toFinset.card :=
  (List.toFinset_card_of_nodup (List.Nodup.of_map Prod.fst t.nodup_keys)).symm

namespace Bijection

def step (m : Bijection α β) : Update α β → Option (α ⊕ β) × Bijection α β
  | .insert a b => (none, m.insert a b)
  | .removeKey a => ((m.removeKey a).1.map .inr, (m.removeKey a).2)
  | .removeValue b => ((m.removeValue b).1.map .inl, (m.removeValue b).2)

def run (m : Bijection α β) : List (Update α β) → List (Option (α ⊕ β)) × Bijection α β
  | [] => ([], m)
  | u :: us => ((m.step u).1 :: ((m.step u).2.run us).1, ((m.step u).2.run us).2)

def pairs (m : Bijection α β) : Finset (α × β) := m.forward.entries.toFinset

variable {m : Bijection α β} {a : α} {b : β}

/-! ### The two tables -/

theorem mem_pairs : (a, b) ∈ m.pairs ↔ m.image? a = some b := by
  rw [pairs, List.mem_toFinset]
  exact Table.mem_entries_iff

theorem mem_pairs_iff_preimage? : (a, b) ∈ m.pairs ↔ m.preimage? b = some a := by
  rw [mem_pairs, image?_eq_some_iff]

theorem injOn_fst_pairs (m : Bijection α β) : (m.pairs : Set (α × β)).InjOn Prod.fst := by
  rintro ⟨a, b⟩ hp ⟨a', b'⟩ hq heq
  cases heq
  have hvalue : some b = some b' := (mem_pairs.1 hp).symm.trans (mem_pairs.1 hq)
  rw [Option.some.inj hvalue]

theorem injOn_snd_pairs (m : Bijection α β) : (m.pairs : Set (α × β)).InjOn Prod.snd := by
  rintro ⟨a, b⟩ hp ⟨a', b'⟩ hq heq
  cases heq
  have hkey : some a = some a' :=
    (mem_pairs_iff_preimage?.1 hp).symm.trans (mem_pairs_iff_preimage?.1 hq)
  rw [Option.some.inj hkey]

theorem toFinset_backward (m : Bijection α β) :
    m.backward.entries.toFinset = m.pairs.image Prod.swap := by
  ext ⟨b, a⟩
  rw [List.mem_toFinset, Table.mem_entries_iff, Finset.mem_image]
  constructor
  · intro h
    exact ⟨(a, b), mem_pairs_iff_preimage?.2 h, rfl⟩
  · rintro ⟨⟨a', b'⟩, hmem, hswap⟩
    cases hswap
    exact mem_pairs_iff_preimage?.1 hmem

theorem size_forward (m : Bijection α β) : m.forward.size = m.pairs.card := m.forward.size_eq_card

theorem size_backward (m : Bijection α β) : m.backward.size = m.pairs.card := by
  rw [Table.size_eq_card, toFinset_backward, Finset.card_image_of_injective _ Prod.swap_injective]

/-! ### One update -/

theorem pairs_empty : (empty : Bijection α β).pairs = ∅ := rfl

theorem pairs_insert (m : Bijection α β) (a : α) (b : β) :
    (m.insert a b).pairs = Insert.insert (a, b) {p ∈ m.pairs | p.1 ≠ a ∧ p.2 ≠ b} := by
  ext ⟨x, y⟩
  rw [mem_pairs, image?_insert, Finset.mem_insert, Finset.mem_filter, mem_pairs]
  by_cases hx : x = a
  · simp [hx, eq_comm]
  · have hnew : (x, y) ≠ (a, b) := fun heq => hx (congrArg Prod.fst heq)
    rw [if_neg hx, or_iff_right hnew]
    by_cases hxb : m.image? x = some b
    · -- The pair that held the value is gone, and the filter drops it for its value.
      rw [if_pos hxb, hxb]
      exact ⟨nofun, fun ⟨heq, _, hy⟩ => absurd (Option.some.inj heq).symm hy⟩
    · rw [if_neg hxb]
      exact ⟨fun h => ⟨h, hx, fun hy => hxb (hy ▸ h)⟩, And.left⟩

theorem pairs_removeKey (m : Bijection α β) (a : α) :
    (m.removeKey a).2.pairs = {p ∈ m.pairs | p.1 ≠ a} := by
  ext ⟨x, y⟩
  rw [mem_pairs, image?_removeKey, Finset.mem_filter, mem_pairs]
  by_cases hx : x = a <;> simp [hx]

theorem pairs_removeValue (m : Bijection α β) (b : β) :
    (m.removeValue b).2.pairs = {p ∈ m.pairs | p.2 ≠ b} := by
  ext ⟨x, y⟩
  rw [mem_pairs_iff_preimage?, preimage?_removeValue, Finset.mem_filter, mem_pairs_iff_preimage?]
  by_cases hy : y = b <;> simp [hy]

theorem toFinset_image? (m : Bijection α β) (a : α) :
    ((m.image? a).map Sum.inr).toFinset =
      ({p ∈ m.pairs | p.1 = a}.image fun p => Sum.inr p.2 : Finset (α ⊕ β)) := by
  ext side
  rw [Option.mem_toFinset, Option.mem_def, Option.map_eq_some_iff, Finset.mem_image]
  constructor
  · rintro ⟨b, hb, rfl⟩
    exact ⟨(a, b), Finset.mem_filter.2 ⟨mem_pairs.2 hb, rfl⟩, rfl⟩
  · rintro ⟨⟨x, b⟩, hmem, rfl⟩
    obtain ⟨hpair, rfl⟩ := Finset.mem_filter.1 hmem
    exact ⟨b, mem_pairs.1 hpair, rfl⟩

theorem toFinset_preimage? (m : Bijection α β) (b : β) :
    ((m.preimage? b).map Sum.inl).toFinset =
      ({p ∈ m.pairs | p.2 = b}.image fun p => Sum.inl p.1 : Finset (α ⊕ β)) := by
  ext side
  rw [Option.mem_toFinset, Option.mem_def, Option.map_eq_some_iff, Finset.mem_image]
  constructor
  · rintro ⟨a, ha, rfl⟩
    exact ⟨(a, b), Finset.mem_filter.2 ⟨mem_pairs_iff_preimage?.2 ha, rfl⟩, rfl⟩
  · rintro ⟨⟨a, y⟩, hmem, rfl⟩
    obtain ⟨hpair, rfl⟩ := Finset.mem_filter.1 hmem
    exact ⟨a, mem_pairs_iff_preimage?.1 hpair, rfl⟩

/-- One update of a bijection is one update of its pairs. -/
theorem step_pairs (m : Bijection α β) (u : Update α β) :
    Pairs.step m.pairs u = ((m.step u).1.toFinset, (m.step u).2.pairs) := by
  cases u with
  | insert a b => rw [Pairs.step, step, pairs_insert, Option.toFinset_none]
  | removeKey a => rw [Pairs.step, step, pairs_removeKey, removeKey_fst, toFinset_image?]
  | removeValue b => rw [Pairs.step, step, pairs_removeValue, removeValue_fst, toFinset_preimage?]

/-! ### Runs of updates -/

theorem run_pairs (m : Bijection α β) (us : List (Update α β)) :
    Pairs.run m.pairs us = ((m.run us).1.map Option.toFinset, (m.run us).2.pairs) := by
  induction us generalizing m with
  | nil => rfl
  | cons u us ih => rw [Pairs.run, step_pairs, ih, run, List.map_cons]

/-- **A bijection is its set of pairs.** After any updates both tables hold the pairs of the
reference set, each of them once, and every update has given back the other side of the one pair
that it took out. -/
theorem run_refines_pairs (us : List (Update α β)) :
    let m := ((empty : Bijection α β).run us).2
    let s := (Pairs.run (∅ : Finset (α × β)) us).2
    (∀ a b, m.image? a = some b ↔ m.preimage? b = some a) ∧
      (m.forward.size = m.backward.size ∧ m.size = s.card) ∧
      (m.forward.entries.toFinset = s ∧ m.backward.entries.toFinset = s.image Prod.swap) ∧
      ((∀ a b, m.image? a = some b ↔ (a, b) ∈ s) ∧ ∀ a b, m.preimage? b = some a ↔ (a, b) ∈ s) ∧
      ((s : Set (α × β)).InjOn Prod.fst ∧ (s : Set (α × β)).InjOn Prod.snd) ∧
      ((empty : Bijection α β).run us).1.map Option.toFinset =
          (Pairs.run (∅ : Finset (α × β)) us).1 := by
  intro m s
  have hrun := run_pairs (empty : Bijection α β) us
  rw [pairs_empty] at hrun
  have hpairs : m.pairs = s := congrArg Prod.snd hrun.symm
  rw [← hpairs]
  refine ⟨fun a b => image?_eq_some_iff, ⟨?_, size_forward m⟩, ⟨rfl, toFinset_backward m⟩, ?_,
    ⟨injOn_fst_pairs m, injOn_snd_pairs m⟩, congrArg Prod.fst hrun.symm⟩
  · rw [size_forward, size_backward]
  · exact ⟨fun a b => mem_pairs.symm, fun a b => mem_pairs_iff_preimage?.symm⟩

/-- An insertion that takes its key from one pair and its value from another leaves one pair behind,
and nothing of the two is found again. -/
example :
    ((empty : Bijection Nat Nat).run [.insert 0 10, .insert 1 11, .insert 0 11, .removeKey 1,
      .removeValue 10,
    .removeValue 11, .removeKey 0]).1 = [none, none, none, none, none, some (.inl 0), none] := by
      decide

end Bijection

end StraightLine
