import StraightLine.PendingReads

/-!
# Counting reads

What the rest of the theory knows about the counts of pending reads. A variable is known when it has
a count and live when the count is positive. The counts of a program track its list of reads: every
variable of the program is known, and its count is the number of its reads in the list. Consuming
the first read of a tracked list succeeds and leaves the counts of the remaining list, so a run that
consumes its reads in order never meets a count that is missing or used up.
-/

namespace StraightLine

namespace PendingReads

/-- A read of the variable is still to come. -/
def Live (p : PendingReads) (v : Var) : Prop := ∃ n, p.remaining? v = some (n + 1)

/-- The variable was counted, whether or not a read of it is still to come. -/
def Knows (p : PendingReads) (v : Var) : Prop := ∃ n, p.remaining? v = some n

theorem Live.knows {p : PendingReads} {v : Var} (h : p.Live v) : p.Knows v := by
  obtain ⟨n, hn⟩ := h
  exact ⟨n + 1, hn⟩

theorem not_live_of_zero {p : PendingReads} {v : Var} (h : p.remaining? v = some 0) :
    ¬ p.Live v := by
  rintro ⟨n, hn⟩
  rw [h] at hn
  cases hn

theorem isDead_eq_true_iff {p : PendingReads} {v : Var} :
    p.isDead v = .ok true ↔ p.remaining? v = some 0 := by
  rw [isDead]
  split
  · next n hn => simp [hn]
  · next hn => simp [hn]

theorem isDead_eq_false_iff {p : PendingReads} {v : Var} : p.isDead v = .ok false ↔ p.Live v := by
  rw [isDead, Live]
  split
  · next n hn =>
      cases n with
      | zero => simp [hn]
      | succ n => simp [hn]
  · next hn => simp [hn]

theorem isDead_eq_error_iff {p : PendingReads} {v : Var} {f : Failure} :
    p.isDead v = .error f ↔ p.remaining? v = none ∧ f = .reported (.unknownUsage v) := by
  rw [isDead]
  split
  · next n hn => simp [hn]
  · next hn => simp [hn, eq_comm]

theorem isDead_of_knows {p : PendingReads} {v : Var} (h : p.Knows v) :
    p.isDead v = .ok true ∨ p.isDead v = .ok false := by
  obtain ⟨n, hn⟩ := h
  rw [isDead_eq_true_iff, isDead_eq_false_iff]
  cases n with
  | zero => exact Or.inl hn
  | succ n => exact Or.inr ⟨n, hn⟩

/-! ### Consuming a read -/

theorem exists_consume_of_live {p : PendingReads} {v : Var} (h : p.Live v) :
    ∃ q, p.consume v = .ok q := by
  obtain ⟨n, hn⟩ := h
  exact ⟨⟨p.counts.put v n⟩, by simp only [consume, hn]⟩

theorem remaining?_consume {p q : PendingReads} {v : Var} (h : p.consume v = .ok q) (w : Var) :
    q.remaining? w = if w = v then (p.remaining? v).map (· - 1) else p.remaining? w := by
  rw [consume] at h
  split at h
  · next n hn =>
      cases h
      show (p.counts.put v n).get? w = _
      rw [Table.get?_put, hn]
      rfl
  · cases h

theorem knows_consume {p q : PendingReads} {v w : Var} (h : p.consume v = .ok q) :
    q.Knows w ↔ p.Knows w := by
  rw [Knows, Knows, remaining?_consume h]
  by_cases hw : w = v
  · subst hw
    cases p.remaining? w <;> simp
  · rw [if_neg hw]

theorem live_of_live_consume {p q : PendingReads} {v w : Var} (h : p.consume v = .ok q)
    (hlive : q.Live w) : p.Live w := by
  obtain ⟨n, hn⟩ := hlive
  rw [remaining?_consume h] at hn
  by_cases hw : w = v
  · subst hw
    rw [if_pos rfl, Option.map_eq_some_iff] at hn
    obtain ⟨k, hk, hkn⟩ := hn
    exact ⟨k - 1, by rw [hk, show k - 1 + 1 = k by omega]⟩
  · rw [if_neg hw] at hn
    exact ⟨n, hn⟩

/-! ### The counts of a program -/

theorem count_addReads (us : List Var) (p : PendingReads) (v : Var) :
    ((us.foldl addRead p).remaining? v).getD 0 = (p.remaining? v).getD 0 + us.count v := by
  induction us generalizing p with
  | nil => simp
  | cons u us ih =>
      rw [List.foldl_cons, ih, remaining?_addRead, List.count_cons]
      by_cases hv : v = u
      · subst hv
        simp
        omega
      · rw [if_neg hv]
        simp [Ne.symm hv]

theorem knows_addReads {us : List Var} {p : PendingReads} {v : Var} :
    (us.foldl addRead p).Knows v ↔ v ∈ us ∨ p.Knows v := by
  induction us generalizing p with
  | nil => simp
  | cons u us ih =>
      rw [List.foldl_cons, ih, Knows, Knows, remaining?_addRead, List.mem_cons]
      by_cases hv : v = u
      · simp [hv]
      · simp [hv]

theorem count_addInstr (p : PendingReads) (i : Instr) (v : Var) :
    ((p.addInstr i).remaining? v).getD 0 = (p.remaining? v).getD 0 + i.uses.count v := by
  rw [addInstr, count_addReads]
  cases i.dst? with
  | none => rfl
  | some d =>
      show ((p.note d).remaining? v).getD 0 + _ = _
      rw [remaining?_note]
      by_cases hv : v = d
      · subst hv
        simp
      · rw [if_neg hv]

theorem knows_addInstr {p : PendingReads} {i : Instr} {v : Var} :
    (p.addInstr i).Knows v ↔ v ∈ i.occurrences ∨ p.Knows v := by
  rw [addInstr, knows_addReads, Instr.occurrences, List.mem_append]
  cases i.dst? with
  | none => simp
  | some d =>
      show v ∈ i.uses ∨ (p.note d).Knows v ↔ _
      rw [Knows, remaining?_note]
      by_cases hv : v = d
      · simp [hv]
      · simp [hv, Knows]

theorem count_addInstrs (is : List Instr) (p : PendingReads) (v : Var) :
    ((is.foldl addInstr p).remaining? v).getD 0 =
      (p.remaining? v).getD 0 + (is.flatMap Instr.uses).count v := by
  induction is generalizing p with
  | nil => simp
  | cons i is ih =>
      rw [List.foldl_cons, ih, count_addInstr, List.flatMap_cons, List.count_append]
      omega

theorem knows_addInstrs {is : List Instr} {p : PendingReads} {v : Var} :
    (is.foldl addInstr p).Knows v ↔ v ∈ is.flatMap Instr.occurrences ∨ p.Knows v := by
  induction is generalizing p with
  | nil => simp
  | cons i is ih =>
      rw [List.foldl_cons, ih, knows_addInstr, List.flatMap_cons, List.mem_append,
        or_left_comm, or_assoc]

/-- The counts know exactly the variables of a scope and give each the number of its reads in a
list. -/
def Tracks (p : PendingReads) (scope reads : List Var) : Prop :=
  ∀ v, p.remaining? v = if v ∈ scope then some (reads.count v) else none

theorem tracks_ofProgram (p : Program) :
    (ofProgram p).Tracks p.vars (p.instrs.flatMap Instr.uses) := by
  intro v
  have hempty : (⟨Table.empty⟩ : PendingReads).remaining? v = none := rfl
  have hcount := count_addInstrs p.instrs ⟨Table.empty⟩ v
  have hknows : (p.instrs.foldl addInstr ⟨Table.empty⟩).Knows v ↔ _ := knows_addInstrs
  rw [hempty, Option.getD_none, Nat.zero_add] at hcount
  have hnot : ¬ (⟨Table.empty⟩ : PendingReads).Knows v := by
    rintro ⟨n, hn⟩
    rw [hempty] at hn
    cases hn
  rw [or_iff_left hnot] at hknows
  have hscope : v ∈ p.vars ↔ v ∈ p.instrs.flatMap Instr.occurrences := Var.mem_sorted
  rw [ofProgram]
  split
  · next hv =>
      obtain ⟨n, hn⟩ := hknows.2 (hscope.1 hv)
      rw [hn] at hcount
      rw [hn, ← hcount, Option.getD_some]
  · next hv =>
      cases hn : (p.instrs.foldl addInstr ⟨Table.empty⟩).remaining? v with
      | none => rfl
      | some n => exact absurd (hscope.2 (hknows.1 ⟨n, hn⟩)) hv

theorem Tracks.knows_iff {p : PendingReads} {scope reads : List Var}
    (h : p.Tracks scope reads) {v : Var} : p.Knows v ↔ v ∈ scope := by
  rw [Knows, h v]
  by_cases hv : v ∈ scope <;> simp [hv]

theorem Tracks.live {p : PendingReads} {scope reads : List Var} (h : p.Tracks scope reads) {v : Var}
    (hscope : v ∈ scope) (hv : v ∈ reads) : p.Live v := by
  have hpos : 0 < reads.count v := List.count_pos_iff.2 hv
  exact ⟨reads.count v - 1,
    by rw [h v, if_pos hscope, show reads.count v - 1 + 1 = reads.count v by omega]⟩

theorem Tracks.mem_of_live {p : PendingReads} {scope reads : List Var}
    (h : p.Tracks scope reads) {v : Var} (hlive : p.Live v) : v ∈ reads := by
  obtain ⟨n, hn⟩ := hlive
  rw [h v] at hn
  split at hn
  · exact List.count_pos_iff.1 (by rw [Option.some.inj hn]; exact Nat.succ_pos n)
  · cases hn

theorem Tracks.consume {p q : PendingReads} {scope reads : List Var} {v : Var}
    (h : p.Tracks scope (v :: reads)) (hq : p.consume v = .ok q) : q.Tracks scope reads := by
  intro w
  rw [remaining?_consume hq, h v, h w]
  by_cases hw : w = v
  · subst hw
    by_cases hscope : w ∈ scope <;> simp [hscope]
  · simp [hw, Ne.symm hw]

end PendingReads

end StraightLine
