import StraightLine.Table

/-!
# Partial bijections

A partial bijection pairs keys with values so that a key has at most one value and a value at most one
key. It is kept as two tables, one for each direction, and the type carries that they are inverse to
each other. Inserting a pair first drops the pairs that hold its key or its value.
-/

namespace StraightLine

/-- Pairs of keys and values, where neither side occurs twice. -/
structure Bijection (α β : Type) [DecidableEq α] [DecidableEq β] where
  forward : Table α β
  backward : Table β α
  inverse : ∀ a b, forward.get? a = some b ↔ backward.get? b = some a

namespace Bijection

variable {α β : Type} [DecidableEq α] [DecidableEq β]

def empty : Bijection α β := ⟨Table.empty, Table.empty, by simp⟩

def image? (m : Bijection α β) (a : α) : Option β := m.forward.get? a

def preimage? (m : Bijection α β) (b : β) : Option α := m.backward.get? b

def hasValue (m : Bijection α β) (b : β) : Bool := (m.preimage? b).isSome

def size (m : Bijection α β) : Nat := m.forward.size

theorem image?_eq_some_iff {m : Bijection α β} {a : α} {b : β} :
    m.image? a = some b ↔ m.preimage? b = some a := m.inverse a b

theorem image?_injective {m : Bijection α β} {a a' : α} {b : β} (h : m.image? a = some b)
    (h' : m.image? a' = some b) : a = a' := by
  rw [image?_eq_some_iff] at h h'
  exact Option.some.inj (h.symm.trans h')

theorem preimage?_injective {m : Bijection α β} {a : α} {b b' : β} (h : m.preimage? b = some a)
    (h' : m.preimage? b' = some a) : b = b' := by
  rw [← image?_eq_some_iff] at h h'
  exact Option.some.inj (h.symm.trans h')

theorem inverse_erase {m : Bijection α β} {a : α} {b : β} (h : m.image? a = some b) (x : α) (y : β) :
    (m.forward.erase a).get? x = some y ↔ (m.backward.erase b).get? y = some x := by
  have hinv : ∀ x y, m.forward.get? x = some y ↔ m.backward.get? y = some x := m.inverse
  rw [Table.get?_erase, Table.get?_erase]
  by_cases hx : x = a
  · subst hx
    by_cases hy : y = b
    · simp [hy]
    · rw [if_pos rfl, if_neg hy, ← hinv]
      have hne : m.forward.get? x ≠ some y := fun heq => hy (Option.some.inj (heq.symm.trans h))
      simp [hne]
  · by_cases hy : y = b
    · subst hy
      rw [if_neg hx, if_pos rfl]
      have hne : m.forward.get? x ≠ some y := fun heq => hx (image?_injective heq h)
      simp [hne]
    · rw [if_neg hx, if_neg hy, hinv]

/-- Drop the pair of a key and return its value. -/
def removeKey (m : Bijection α β) (a : α) : Option β × Bijection α β :=
  match h : m.image? a with
  | none => (none, m)
  | some b => (some b, ⟨m.forward.erase a, m.backward.erase b, inverse_erase h⟩)

/-- Drop the pair of a value and return its key. -/
def removeValue (m : Bijection α β) (b : β) : Option α × Bijection α β :=
  match h : m.preimage? b with
  | none => (none, m)
  | some a =>
      (some a, ⟨m.forward.erase a, m.backward.erase b, inverse_erase (image?_eq_some_iff.2 h)⟩)

theorem removeKey_fst (m : Bijection α β) (a : α) : (m.removeKey a).1 = m.image? a := by
  rw [removeKey]
  split <;> next h => exact h.symm

theorem removeValue_fst (m : Bijection α β) (b : β) : (m.removeValue b).1 = m.preimage? b := by
  rw [removeValue]
  split <;> next h => exact h.symm

theorem image?_removeKey (m : Bijection α β) (a x : α) :
    (m.removeKey a).2.image? x = if x = a then none else m.image? x := by
  rw [removeKey]
  split
  · next h =>
      by_cases hx : x = a
      · rw [hx, if_pos rfl]
        exact h
      · rw [if_neg hx]
  · exact Table.get?_erase m.forward a x

theorem preimage?_removeKey (m : Bijection α β) (a : α) (y : β) :
    (m.removeKey a).2.preimage? y = if m.preimage? y = some a then none else m.preimage? y := by
  apply Option.ext
  intro x
  rw [← image?_eq_some_iff, image?_removeKey]
  by_cases hx : x = a
  · subst hx
    by_cases hy : m.preimage? y = some x <;> simp [hy]
  · by_cases hy : m.preimage? y = some a
    · rw [if_neg hx, if_pos hy, image?_eq_some_iff, hy]
      simpa using Ne.symm hx
    · rw [if_neg hx, if_neg hy, image?_eq_some_iff]

theorem preimage?_removeValue (m : Bijection α β) (b y : β) :
    (m.removeValue b).2.preimage? y = if y = b then none else m.preimage? y := by
  rw [removeValue]
  split
  · next h =>
      by_cases hy : y = b
      · rw [hy, if_pos rfl]
        exact h
      · rw [if_neg hy]
  · exact Table.get?_erase m.backward b y

theorem image?_removeValue (m : Bijection α β) (b : β) (x : α) :
    (m.removeValue b).2.image? x = if m.image? x = some b then none else m.image? x := by
  apply Option.ext
  intro y
  rw [image?_eq_some_iff, preimage?_removeValue]
  by_cases hy : y = b
  · subst hy
    by_cases hx : m.image? x = some y <;> simp [hx]
  · by_cases hx : m.image? x = some b
    · rw [if_neg hy, if_pos hx, ← image?_eq_some_iff, hx]
      simpa using Ne.symm hy
    · rw [if_neg hy, if_neg hx, ← image?_eq_some_iff]

/-- The bijection without the pairs that hold a key or a value. -/
def without (m : Bijection α β) (a : α) (b : β) : Bijection α β := ((m.removeKey a).2.removeValue b).2

theorem image?_without (m : Bijection α β) (a x : α) (b : β) :
    (m.without a b).image? x = if x = a ∨ m.image? x = some b then none else m.image? x := by
  rw [without, image?_removeValue, image?_removeKey]
  by_cases hx : x = a <;> simp [hx]

theorem preimage?_without (m : Bijection α β) (a : α) (b y : β) :
    (m.without a b).preimage? y = if y = b ∨ m.preimage? y = some a then none else m.preimage? y := by
  rw [without, preimage?_removeValue, preimage?_removeKey]
  by_cases hy : y = b <;> simp [hy]

theorem inverse_put {m : Bijection α β} {a : α} {b : β} (ha : m.image? a = none)
    (hb : m.preimage? b = none) (x : α) (y : β) :
    (m.forward.put a b).get? x = some y ↔ (m.backward.put b a).get? y = some x := by
  have hinv : m.forward.get? x = some y ↔ m.backward.get? y = some x := m.inverse x y
  rw [Table.get?_put, Table.get?_put]
  by_cases hx : x = a
  · subst hx
    by_cases hy : y = b
    · simp [hy]
    · rw [if_pos rfl, if_neg hy, ← hinv]
      have hnone : m.forward.get? x = none := ha
      simp [hnone, Ne.symm hy]
  · by_cases hy : y = b
    · subst hy
      have hnone : m.backward.get? y = none := hb
      rw [if_neg hx, if_pos rfl, hinv, hnone]
      simp [Ne.symm hx]
    · rw [if_neg hx, if_neg hy, hinv]

/-- Pair a key with a value, dropping the pairs that held either. -/
def insert (m : Bijection α β) (a : α) (b : β) : Bijection α β :=
  ⟨(m.without a b).forward.put a b, (m.without a b).backward.put b a,
    inverse_put (by simp [image?_without]) (by simp [preimage?_without])⟩

@[simp] theorem image?_empty (a : α) : (empty : Bijection α β).image? a = none := rfl

@[simp] theorem preimage?_empty (b : β) : (empty : Bijection α β).preimage? b = none := rfl

theorem image?_insert (m : Bijection α β) (a x : α) (b : β) :
    (m.insert a b).image? x =
      if x = a then some b else if m.image? x = some b then none else m.image? x := by
  show ((m.without a b).forward.put a b).get? x = _
  rw [Table.get?_put]
  by_cases hx : x = a
  · simp [hx]
  · rw [if_neg hx, if_neg hx]
    show (m.without a b).image? x = _
    simp [image?_without, hx]

theorem preimage?_insert (m : Bijection α β) (a : α) (b y : β) :
    (m.insert a b).preimage? y =
      if y = b then some a else if m.preimage? y = some a then none else m.preimage? y := by
  show ((m.without a b).backward.put b a).get? y = _
  rw [Table.get?_put]
  by_cases hy : y = b
  · simp [hy]
  · rw [if_neg hy, if_neg hy]
    show (m.without a b).preimage? y = _
    simp [preimage?_without, hy]

end Bijection

end StraightLine
