import Mathlib.Data.Nat.Nth
import StraightLine.Proofs.Naming
import StraightLine.Proofs.Text.Tokens

/-!
# Fresh temporaries

The supply looks for a temporary by a loop: it tries one number after the other, passes over those
whose names are taken, and marks the name that it hands out as taken. The loop has no bound of its
own. It ends because the taken names are finitely many and different numbers have different names,
and it finds what the bounded search of `TempSupply.fresh` finds. So the temporaries of a run are
numbered by the least free numbers, in ascending order.

In normal form an instruction either keeps its place alone or gets one temporary, which is moved to
right in front of the operator that reads it. Hence each temporary is assigned once and read once,
and there are as many as the normal form has instructions more than the program up to its return.
-/

namespace StraightLine

/-! ### The search as a loop -/

namespace TempSupply

variable {s s' : TempSupply} {n : Nat}

/-- A search that ends: the numbers that are passed over are taken, and the first free one is handed
out and taken from then on. -/
inductive Search : TempSupply → Var → TempSupply → Prop
  | found {s : TempSupply} (hfree : Var.temp s.next ∉ s.taken) :
      Search s (Var.temp s.next) ⟨Var.temp s.next :: s.taken, s.next + 1⟩
  | passed {s s' : TempSupply} {t : Var} (htaken : Var.temp s.next ∈ s.taken)
      (hrest : Search ⟨s.taken, s.next + 1⟩ t s') :
      Search s t s'

inductive Searches : TempSupply → List Var → TempSupply → Prop
  | nil {s : TempSupply} : Searches s [] s
  | cons {s s' s'' : TempSupply} {t : Var} {ts : List Var} (hfirst : Search s t s')
      (hrest : Searches s' ts s'') :
      Searches s (t :: ts) s''

theorem search_of_passed (hnext : s.next ≤ n)
    (htaken : ∀ m, s.next ≤ m → m < n → Var.temp m ∈ s.taken) (hfree : Var.temp n ∉ s.taken) :
    Search s (Var.temp n) ⟨Var.temp n :: s.taken, n + 1⟩ := by
  -- on the number of candidates that are passed over
  induction hd : n - s.next generalizing s with
  | zero =>
      obtain rfl : n = s.next := by omega
      exact .found hfree
  | succ d ih =>
      refine .passed (htaken s.next (Nat.le_refl _) (by omega)) ?_
      refine @ih ⟨s.taken, s.next + 1⟩ (show s.next + 1 ≤ n by omega)
        (fun m hm => htaken m (Nat.le_of_succ_le hm)) hfree ?_
      show n - (s.next + 1) = d
      omega

/-- The second supply has the same numbers left to try as the first, whatever it has marked below
them. -/
def SameAhead (s s' : TempSupply) : Prop :=
  s'.next = s.next ∧ ∀ n, s.next ≤ n → (Var.temp n ∈ s'.taken ↔ Var.temp n ∈ s.taken)

/-- The loop ends, with the temporary that the bounded search finds. -/
theorem exists_search (h : s.SameAhead s') :
    ∃ r, Search s' s.fresh.1 r ∧ s.fresh.2.SameAhead r := by
  obtain ⟨hnext, hahead⟩ := h
  let n := firstFree s.taken s.taken.length s.next
  have hle : s.next ≤ n := le_firstFree ..
  have hfree : Var.temp n ∉ s'.taken := fun hmem => s.fresh_not_mem ((hahead n hle).1 hmem)
  have htaken : ∀ m, s'.next ≤ m → m < n → Var.temp m ∈ s'.taken := by
    intro m hm hlt
    rw [hnext] at hm
    exact (hahead m hm).2 (mem_of_lt_firstFree hm hlt)
  refine ⟨⟨Var.temp n :: s'.taken, n + 1⟩, search_of_passed (hnext.trans_le hle) htaken hfree, rfl,
    fun m hm => ?_⟩
  have hlater : n + 1 ≤ m := hm
  have hne : Var.temp m ≠ Var.temp n := fun heq => absurd (Var.temp_injective heq) (by omega)
  rw [List.mem_cons, or_iff_right hne]
  exact hahead m (by omega)

theorem exists_searches (h : s.SameAhead s') (count : Nat) :
    ∃ r, Searches s' ((List.range count).map s.nth) r := by
  induction count generalizing s s' with
  | zero => exact ⟨s', .nil⟩
  | succ count ih =>
      obtain ⟨r, hfirst, hahead⟩ := exists_search h
      obtain ⟨r', hrest⟩ := ih hahead
      rw [List.range_succ_eq_map, List.map_cons, List.map_map]
      exact ⟨r', .cons hfirst hrest⟩

/-! ### The numbers of temporaries -/

theorem infinite_free (taken : List Var) : {n | Var.temp n ∉ taken}.Infinite := by
  refine Set.infinite_of_forall_exists_gt fun n => ⟨firstFree taken taken.length (n + 1), ?_, ?_⟩
  · exact firstFree_not_mem (Nat.le_refl _)
  · exact le_firstFree ..

/-- The search passes over no free number. -/
theorem count_firstFree (taken : List Var) (tries next : Nat) :
    Nat.count (fun n => Var.temp n ∉ taken) (firstFree taken tries next) =
      Nat.count (fun n => Var.temp n ∉ taken) next := by
  obtain ⟨d, hd⟩ := Nat.exists_eq_add_of_le (le_firstFree taken tries next)
  have hnone : Nat.count (fun m => Var.temp (next + m) ∉ taken) d = 0 := by
    refine Nat.count_of_forall_not fun m hm hfree => ?_
    have hlt : next + m < firstFree taken tries next := by omega
    exact hfree (mem_of_lt_firstFree (Nat.le_add_right next m) hlt)
  rw [hd, Nat.count_add, hnone, Nat.add_zero]

/-- From a number on, the temporaries are numbered by the free numbers that follow those below
it. -/
theorem nth_mk (taken : List Var) (next k : Nat) : nth ⟨taken, next⟩ k =
    Var.temp (Nat.nth (fun n => Var.temp n ∉ taken)
    (Nat.count (fun n => Var.temp n ∉ taken) next + k)) := by
  induction k generalizing next with
  | zero =>
      rw [Nat.add_zero, ← count_firstFree taken taken.length next,
        Nat.nth_count (firstFree_not_mem (Nat.le_refl _))]
      rfl
  | succ k ih =>
      have hnext := ih (firstFree taken taken.length next + 1)
      rw [Nat.count_succ, if_pos (firstFree_not_mem (Nat.le_refl _)), count_firstFree,
        Nat.add_assoc, Nat.add_comm 1 k] at hnext
      exact hnext

theorem nth_avoiding (taken : List Var) (k : Nat) :
    (avoiding taken).nth k = Var.temp (Nat.nth (fun n => Var.temp n ∉ taken) k) := by
  rw [avoiding, nth_mk, Nat.count_zero, Nat.zero_add]

end TempSupply

theorem Var.exists_decimal_temp (n : Nat) :
    ∃ digits, (Var.temp n).name.toList = '$' :: digits ∧ Text.Decimal digits n := by
  refine ⟨(Text.natural n).toList, ?_, Text.decimal_natural n⟩
  rw [Var.temp, String.toList_append]
  rfl

/-! ### Temporaries in normal form -/

namespace NormalForm

variable {legalize : Bool} {t : Var} {i : Instr} {is js : List Instr} {s : TempSupply}
  {scope : List Var}

theorem Rewrites.one_or_two (h : Rewrites legalize t i js) :
    (∃ j, js = [j] ∧ j.dst? = i.dst? ∧ j.uses = i.uses) ∨
    ∃ a op dst lhs rhs, js = [.mov t (.imm a), .binary op dst lhs rhs] ∧ i.dst? = some dst ∧
      (Instr.binary op dst lhs rhs).uses.Perm (t :: i.uses) := by
  cases h with
  | mov | ret | folded | vars | swapped | word => exact Or.inl ⟨_, rfl, rfl, rfl⟩
  | leftTemp => exact Or.inr ⟨_, _, _, _, _, rfl, rfl, .refl _⟩
  | swappedTemp | rightTemp => exact Or.inr ⟨_, _, _, _, _, rfl, rfl, .swap ..⟩

/-- How a list goes over into normal form: an instruction stays one, or it becomes two by the next
temporary of the supply. -/
inductive Unfolds : TempSupply → List Instr → List Instr → Prop
  | nil {s : TempSupply} : Unfolds s [] []
  | one {s : TempSupply} {i j : Instr} {is js : List Instr} (hdst : j.dst? = i.dst?)
      (huses : j.uses = i.uses)
      (hrest : Unfolds s is js) : Unfolds s (i :: is) (j :: js)
  | two {s : TempSupply} {i : Instr} {a : Int32} {op : Operator} {dst : Var} {lhs rhs : Operand}
      {is js : List Instr}
      (hdst : i.dst? = some dst)
      (huses : (Instr.binary op dst lhs rhs).uses.Perm (s.fresh.1 :: i.uses))
      (hrest : Unfolds s.fresh.2 is js) :
      Unfolds s (i :: is) (.mov s.fresh.1 (.imm a) :: .binary op dst lhs rhs :: js)

theorem unfolds_ofInstrs (legalize : Bool) (is : List Instr) (s : TempSupply) :
    Unfolds s is (ofInstrs legalize is s).1 := by
  induction is generalizing s with
  | nil => exact .nil
  | cons i rest ih =>
      have hrest := ih (ofInstr legalize i s).2
      have hsupply := supply_ofInstr legalize i s
      rw [ofInstrs]
      obtain ⟨j, hj, hdst, huses⟩ | ⟨a, op, dst, lhs, rhs, hjs, hdst, huses⟩ :=
        (rewrites_ofInstr legalize i s).one_or_two
      · rw [hj, List.length_singleton, if_pos rfl] at hsupply
        rw [hsupply] at hrest
        simp only [hj, hsupply]
        exact .one hdst huses hrest
      · rw [hjs, if_neg (by simp)] at hsupply
        rw [hsupply] at hrest
        simp only [hjs, hsupply]
        exact .two hdst huses hrest

/-- The variables of a list that are not in scope, in order. -/
def outside (scope vs : List Var) : List Var := vs.filter fun v => v ∉ scope

theorem outside_append (scope vs ws : List Var) :
    outside scope (vs ++ ws) = outside scope vs ++ outside scope ws :=
  List.filter_append ..

theorem outside_eq_nil {vs : List Var} (h : vs ⊆ scope) : outside scope vs = [] := by
  rw [outside, List.filter_eq_nil_iff]
  intro v hv
  simp [h hv]

theorem count_outside (ht : t ∉ scope) (vs : List Var) : (outside scope vs).count t = vs.count t :=
  List.count_filter (p := fun v => decide (v ∉ scope)) (decide_eq_true ht)

theorem outside_of_perm {vs ws : List Var} (h : vs.Perm (t :: ws)) (ht : t ∉ scope)
    (hws : ws ⊆ scope) : outside scope vs = [t] := by
  have hfilter : (outside scope vs).Perm (outside scope (t :: ws)) := h.filter _
  have hsplit : outside scope (t :: ws) = [t] ++ outside scope ws :=
    List.filter_cons_of_pos (by simpa using ht)
  rw [hsplit, outside_eq_nil hws, List.append_nil] at hfilter
  exact List.perm_singleton.1 hfilter

/-- The new names of a normal form are the first temporaries of the supply, assigned in their order
and read in their order, and there is one for each instruction that has been added. -/
theorem Unfolds.exists_temps (h : Unfolds s is js) (hin : ∀ i ∈ is, i.Within scope)
    (hscope : scope ⊆ s.taken) :
    ∃ count, js.length = is.length + count ∧
      outside scope (js.filterMap Instr.dst?) = (List.range count).map s.nth ∧
      outside scope (js.flatMap Instr.uses) = (List.range count).map s.nth := by
  induction h with
  | nil => exact ⟨0, rfl, rfl, rfl⟩
  | @one s i j is js hdst huses _ ih =>
      obtain ⟨hi, his⟩ := List.forall_mem_cons.1 hin
      obtain ⟨count, hlength, hassigned, hread⟩ := ih his hscope
      have hsub : j.dst?.toList ⊆ scope := fun v hv => hi v (List.mem_append_left _ (hdst ▸ hv))
      refine ⟨count, ?_, ?_, ?_⟩
      · rw [List.length_cons, List.length_cons, hlength, Nat.add_right_comm]
      · rw [← List.singleton_append, List.filterMap_append, outside_append, hassigned]
        rw [show [j].filterMap Instr.dst? = j.dst?.toList by cases hj : j.dst? <;> simp [hj],
          outside_eq_nil hsub]
        rfl
      · rw [List.flatMap_cons, outside_append, hread, huses, outside_eq_nil fun v hv => hi.use hv]
        rfl
  | @two s i a op dst lhs rhs is js hdst huses _ ih =>
      obtain ⟨hi, his⟩ := List.forall_mem_cons.1 hin
      obtain ⟨count, hlength, hassigned, hread⟩ := ih his hscope
      have hfresh : s.fresh.1 ∉ scope := fun hmem => s.fresh_not_mem (hscope hmem)
      have hknown : dst ∈ scope := hi dst (List.mem_append_left _ (by simp [hdst]))
      have htemps : (List.range (count + 1)).map s.nth =
          [s.fresh.1] ++ (List.range count).map s.fresh.2.nth := by
        rw [List.range_succ_eq_map, List.map_cons, List.map_map]
        rfl
      refine ⟨count + 1, ?_, ?_, ?_⟩
      · simp only [List.length_cons, hlength]
        omega
      · have hpair : outside scope [s.fresh.1, dst] = [s.fresh.1] :=
          outside_of_perm (.refl _) hfresh (by simpa using hknown)
        rw [htemps, ← hassigned, ← hpair, ← outside_append]
        rfl
      · rw [htemps, ← hread, ← outside_of_perm huses hfresh fun v hv => hi.use hv, ← outside_append]
        rfl

/-- A new name is assigned by the move of a word, and the operator behind the move reads it. -/
theorem Unfolds.exists_pair (h : Unfolds s is js) (hin : ∀ i ∈ is, i.Within scope) (ht : t ∉ scope)
    (hassigned : t ∈ js.filterMap Instr.dst?) : ∃ front a op dst lhs rhs back,
      js = front ++ .mov t (.imm a) :: .binary op dst lhs rhs :: back ∧
      t ∈ (Instr.binary op dst lhs rhs).uses := by
  induction h with
  | nil => cases hassigned
  | @one s i j is js hdst _ _ ih =>
      obtain ⟨hi, his⟩ := List.forall_mem_cons.1 hin
      have hrest : t ∈ js.filterMap Instr.dst? := by
        obtain ⟨k, hk, hkt⟩ := List.mem_filterMap.1 hassigned
        obtain rfl | hk := List.mem_cons.1 hk
        · exact absurd (hi t (List.mem_append_left _ (by simp [← hdst, hkt]))) ht
        · exact List.mem_filterMap.2 ⟨k, hk, hkt⟩
      obtain ⟨front, a, op, dst, lhs, rhs, back, rfl, hread⟩ := ih his hrest
      exact ⟨j :: front, a, op, dst, lhs, rhs, back, rfl, hread⟩
  | @two s i a op dst lhs rhs is js hdst huses _ ih =>
      obtain ⟨hi, his⟩ := List.forall_mem_cons.1 hin
      have hmem : t = s.fresh.1 ∨ t = dst ∨ t ∈ js.filterMap Instr.dst? := by
        simpa [Instr.dst?] using hassigned
      obtain rfl | rfl | hrest := hmem
      · exact ⟨[], a, op, dst, lhs, rhs, js, rfl, huses.mem_iff.2 List.mem_cons_self⟩
      · exact absurd (hi t (List.mem_append_left _ (by simp [hdst]))) ht
      · obtain ⟨front, a', op', dst', lhs', rhs', back, rfl, hread⟩ := ih his hrest
        exact ⟨.mov s.fresh.1 (.imm a) :: .binary op dst lhs rhs :: front, a', op', dst', lhs',
          rhs', back, rfl, hread⟩

end NormalForm

namespace Program

variable {p : Program} {legalize : Bool} {v : Var}

/-- The variables that the normal form assigns and the program does not mention, in the order of
their assignments. -/
def temporaries (p : Program) (legalize : Bool) : List Var :=
  NormalForm.outside p.vars ((p.normalForm legalize).instrs.filterMap Instr.dst?)

theorem exists_temporaries_eq (p : Program) (legalize : Bool) : ∃ count,
    (p.normalForm legalize).instrs.length = p.reachable.length + count ∧
      p.temporaries legalize = (List.range count).map (TempSupply.avoiding p.vars).nth ∧
      NormalForm.outside p.vars ((p.normalForm legalize).instrs.flatMap Instr.uses) =
        (List.range count).map (TempSupply.avoiding p.vars).nth :=
  (NormalForm.unfolds_ofInstrs legalize p.reachable (.avoiding p.vars)).exists_temps
    reachable_within (List.Subset.refl _)

theorem nodup_temporaries (p : Program) (legalize : Bool) : (p.temporaries legalize).Nodup := by
  obtain ⟨count, _, htemps, _⟩ := p.exists_temporaries_eq legalize
  rw [htemps]
  exact List.nodup_range.map (TempSupply.nth_injective _)

theorem outside_uses (p : Program) (legalize : Bool) :
    NormalForm.outside p.vars ((p.normalForm legalize).instrs.flatMap Instr.uses) =
      p.temporaries legalize := by
  obtain ⟨count, _, htemps, hread⟩ := p.exists_temporaries_eq legalize
  rw [htemps, hread]

theorem mem_vars_or_mem_temporaries (h : v ∈ (p.normalForm legalize).vars) :
    v ∈ p.vars ∨ v ∈ p.temporaries legalize := by
  by_cases hknown : v ∈ p.vars
  · exact Or.inl hknown
  · obtain hreached | ⟨_, hread⟩ := mem_vars_normalForm h
    · exact absurd (occurrences_reachable_subset p hreached) hknown
    · rw [← outside_uses]
      exact Or.inr (List.mem_filter.2 ⟨hread, by simpa using hknown⟩)

/-- **Temporaries get the least free numbers and are used once.** Every search of a run ends. The
temporaries are named by a dollar sign and the least numbers in decimal that name no variable of the
program, in ascending order, and they are the only names that normal form adds. Each of them is
assigned once, by the move of a word, and read once, by the operator right behind it; and normal
form has one instruction for each instruction up to the return and one for each temporary. -/
theorem temporaries_least_free (p : Program) (legalize : Bool) :
    (∃ s, TempSupply.Searches (.avoiding p.vars) (p.temporaries legalize) s) ∧
    ({n | Var.temp n ∉ p.vars}.Infinite ∧ p.temporaries legalize =
      (List.range (p.temporaries legalize).length).map
      fun k => Var.temp (Nat.nth (fun n => Var.temp n ∉ p.vars) k)) ∧
    (∀ n, ∃ digits, (Var.temp n).name.toList = '$' :: digits ∧ Text.Decimal digits n) ∧
    (∀ v ∈ (p.normalForm legalize).vars, v ∈ p.vars ∨ v ∈ p.temporaries legalize) ∧
    (∀ t ∈ p.temporaries legalize, t ∉ p.vars ∧
        ((p.normalForm legalize).instrs.filterMap Instr.dst?).count t = 1 ∧
      ((p.normalForm legalize).instrs.flatMap Instr.uses).count t = 1 ∧
      ∃ front a op dst lhs rhs back,
        (p.normalForm legalize).instrs =
        front ++ .mov t (.imm a) :: .binary op dst lhs rhs :: back ∧
        t ∈ (Instr.binary op dst lhs rhs).uses) ∧
    (p.normalForm legalize).instrs.length =
        p.reachable.length + (p.temporaries legalize).length := by
  obtain ⟨count, hlength, htemps, _⟩ := p.exists_temporaries_eq legalize
  have hcount : (p.temporaries legalize).length = count := by
    rw [htemps, List.length_map, List.length_range]
  refine ⟨?_, ⟨TempSupply.infinite_free p.vars, ?_⟩, Var.exists_decimal_temp,
    fun v => mem_vars_or_mem_temporaries, ?_, ?_⟩
  · rw [htemps]
    exact TempSupply.exists_searches ⟨rfl, fun _ _ => Iff.rfl⟩ count
  · rw [hcount, htemps]
    exact List.map_congr_left fun k _ => TempSupply.nth_avoiding p.vars k
  · intro t ht
    obtain ⟨hassigned, hnew⟩ := List.mem_filter.1 ht
    have hfresh : t ∉ p.vars := by simpa using hnew
    have honce := List.count_eq_one_of_mem (p.nodup_temporaries legalize) ht
    refine ⟨hfresh, ?_, ?_, ?_⟩
    · rwa [temporaries, NormalForm.count_outside hfresh] at honce
    · rwa [← outside_uses, NormalForm.count_outside hfresh] at honce
    · exact (NormalForm.unfolds_ofInstrs legalize p.reachable _).exists_pair reachable_within
        hfresh hassigned
  · rw [hlength, hcount]

/-- In a program that uses the names of two temporaries itself, the factors go to the ones between
and behind them. -/
theorem temporaries_least_free_sparse :
    let p : Program := ⟨[.mov ⟨"$0"⟩ (.imm 1), .binary .mul ⟨"$2"⟩ (.var ⟨"$0"⟩) (.imm 3),
      .binary .sub ⟨"r"⟩ (.imm 4) (.var ⟨"$2"⟩), .ret (.var ⟨"r"⟩), .mov ⟨"$03"⟩ (.imm 0)]⟩
    p.temporaries true = [⟨"$1"⟩, ⟨"$3"⟩] ∧
      Var.temp (Nat.nth (fun n => Var.temp n ∉ p.vars) 1) = ⟨"$3"⟩ ∧
      ((p.normalForm true).instrs.flatMap Instr.uses).count ⟨"$3"⟩ = 1 ∧
      (p.normalForm true).instrs.length = 4 + 2 ∧
      ∃ front a op dst lhs rhs back, (p.normalForm true).instrs =
        front ++ .mov ⟨"$3"⟩ (.imm a) :: .binary op dst lhs rhs :: back ∧
        ⟨"$3"⟩ ∈ (Instr.binary op dst lhs rhs).uses := by
  intro p
  have htemps : p.temporaries true = [⟨"$1"⟩, ⟨"$3"⟩] := by decide
  obtain ⟨_, ⟨_, hnumbers⟩, _, _, honce, hlength⟩ := temporaries_least_free p true
  obtain ⟨_, _, hread, hplace⟩ := honce ⟨"$3"⟩ (by rw [htemps]; decide)
  rw [htemps] at hnumbers hlength
  exact ⟨htemps, (List.cons.inj (List.cons.inj hnumbers).2).1.symm, hread, hlength, hplace⟩

end Program

end StraightLine
