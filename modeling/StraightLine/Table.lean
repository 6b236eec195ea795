/-!
# Tables

A table is a finite map, kept as a list of entries in the order in which their keys came. A key has one
entry, which is part of the type. Putting a value under a key that is there replaces the value in place.
The view of a table is `get?`: each operation is described by what it does to the view, and the entries
are exactly the pairs that the view gives.
-/

namespace StraightLine

structure Table (κ : Type) (α : Type) where
  entries : List (κ × α)
  nodup_keys : (entries.map Prod.fst).Nodup

namespace Table

variable {κ α : Type} [DecidableEq κ]

def empty : Table κ α := ⟨[], List.nodup_nil⟩

/-- The value that a list of entries gives a key. -/
def valueIn? (k : κ) : List (κ × α) → Option α
  | [] => none
  | (l, b) :: rest => if k = l then some b else valueIn? k rest

def get? (t : Table κ α) (k : κ) : Option α := valueIn? k t.entries

def size (t : Table κ α) : Nat := t.entries.length

/-- The keys in the order in which they came. -/
def keys (t : Table κ α) : List κ := t.entries.map Prod.fst

/-- Replace the value of a key in a list of entries, or add the key at the end. -/
def putEntry (k : κ) (a : α) : List (κ × α) → List (κ × α)
  | [] => [(k, a)]
  | (l, b) :: rest => if k = l then (k, a) :: rest else (l, b) :: putEntry k a rest

theorem mem_keys_putEntry {k l : κ} {a : α} {es : List (κ × α)} :
    l ∈ (putEntry k a es).map Prod.fst ↔ l = k ∨ l ∈ es.map Prod.fst := by
  induction es with
  | nil => simp [putEntry]
  | cons e rest ih =>
      rw [putEntry]
      split
      · next heq => simp [heq]
      · rw [List.map_cons, List.mem_cons, ih, List.map_cons, List.mem_cons, or_left_comm]

theorem nodup_putEntry {k : κ} {a : α} {es : List (κ × α)} (h : (es.map Prod.fst).Nodup) :
    ((putEntry k a es).map Prod.fst).Nodup := by
  induction es with
  | nil => simp [putEntry]
  | cons e rest ih =>
      rw [List.map_cons, List.nodup_cons] at h
      rw [putEntry]
      split
      · next heq =>
          rw [List.map_cons, List.nodup_cons, heq]
          exact h
      · next hne =>
          rw [List.map_cons, List.nodup_cons, mem_keys_putEntry]
          refine ⟨?_, ih h.2⟩
          rintro (heq | hmem)
          · exact hne heq.symm
          · exact h.1 hmem

def put (t : Table κ α) (k : κ) (a : α) : Table κ α :=
  ⟨putEntry k a t.entries, nodup_putEntry t.nodup_keys⟩

def erase (t : Table κ α) (k : κ) : Table κ α :=
  ⟨t.entries.filter fun e => e.1 ≠ k,
    t.nodup_keys.sublist (List.Sublist.map Prod.fst List.filter_sublist)⟩

/-- The table of a list of pairs, where a later pair replaces an earlier one of the same key. -/
def ofList (es : List (κ × α)) : Table κ α := es.foldl (fun t e => t.put e.1 e.2) empty

@[simp] theorem get?_empty (k : κ) : (empty : Table κ α).get? k = none := rfl

@[simp] theorem get?_put (t : Table κ α) (k l : κ) (a : α) :
    (t.put k a).get? l = if l = k then some a else t.get? l := by
  rcases t with ⟨es, hnodup⟩
  simp only [put, get?]
  clear hnodup
  induction es with
  | nil => simp [putEntry, valueIn?]
  | cons e rest ih =>
      rw [putEntry]
      split
      · next heq =>
          subst heq
          by_cases h : l = e.1 <;> simp [valueIn?, h]
      · next hne =>
          rw [valueIn?, ih, valueIn?]
          by_cases h : l = e.1
          · simp [h, Ne.symm hne]
          · simp [h]

@[simp] theorem get?_erase (t : Table κ α) (k l : κ) :
    (t.erase k).get? l = if l = k then none else t.get? l := by
  rcases t with ⟨es, hnodup⟩
  simp only [erase, get?]
  clear hnodup
  induction es with
  | nil => simp [valueIn?]
  | cons e rest ih =>
      rw [List.filter_cons, valueIn?]
      by_cases hk : e.1 = k
      · by_cases hl : l = k
        · simpa [hk, hl] using ih
        · simpa [hk, hl] using ih
      · by_cases hl : l = e.1
        · simp [hl, hk, valueIn?]
        · simpa [hk, hl, valueIn?] using ih

theorem valueIn?_eq_none_of_not_mem {k : κ} {es : List (κ × α)} (h : k ∉ es.map Prod.fst) :
    valueIn? k es = none := by
  induction es with
  | nil => rfl
  | cons e rest ih =>
      rw [List.map_cons, List.mem_cons, not_or] at h
      rw [valueIn?, if_neg h.1, ih h.2]

/-- The entries are the pairs that the view gives. -/
theorem mem_entries_iff {t : Table κ α} {k : κ} {a : α} : (k, a) ∈ t.entries ↔ t.get? k = some a := by
  rcases t with ⟨es, hnodup⟩
  simp only [get?]
  induction es with
  | nil => simp [valueIn?]
  | cons e rest ih =>
      rcases e with ⟨l, b⟩
      rw [List.map_cons, List.nodup_cons] at hnodup
      rw [List.mem_cons, ih hnodup.2, valueIn?]
      by_cases h : k = l
      · subst h
        simp [valueIn?_eq_none_of_not_mem hnodup.1, eq_comm]
      · simp [h]

/-- The keys are those that the view gives a value. -/
theorem mem_keys_iff {t : Table κ α} {k : κ} : k ∈ t.keys ↔ ∃ a, t.get? k = some a := by
  rw [keys, List.mem_map]
  constructor
  · rintro ⟨⟨l, a⟩, hmem, rfl⟩
    exact ⟨a, mem_entries_iff.1 hmem⟩
  · intro ⟨a, ha⟩
    exact ⟨(k, a), mem_entries_iff.2 ha, rfl⟩

end Table

end StraightLine
