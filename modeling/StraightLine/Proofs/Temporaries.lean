import StraightLine.Proofs.NormalForm
import StraightLine.Proofs.Renaming

/-!
# The names of temporaries

A supply hands out its temporaries one after the other, each once and none that is taken. What
normal form makes of a list of instructions depends on names only in this way: if the variables of
the instructions are renamed and another supply is used, it is the same list, with the variables and
the temporaries renamed. With the same instructions the two lists are equal as soon as the second
supply does not avoid a temporary that the first one needs.
-/

namespace StraightLine

namespace TempSupply

/-- The temporary that the supply hands out after `k` others. -/
def nth (s : TempSupply) : Nat → Var
  | 0 => s.fresh.1
  | k + 1 => s.fresh.2.nth k

theorem nth_not_mem (s : TempSupply) (k : Nat) : s.nth k ∉ s.taken := by
  induction k generalizing s with
  | zero => exact s.fresh_not_mem
  | succ k ih => exact ih s.fresh.2

theorem exists_nth_eq_temp (s : TempSupply) (k : Nat) : ∃ n, s.next ≤ n ∧ s.nth k = Var.temp n := by
  induction k generalizing s with
  | zero => exact ⟨_, le_firstFree .., rfl⟩
  | succ k ih =>
      obtain ⟨n, hn, heq⟩ := ih s.fresh.2
      have hnext : s.next ≤ firstFree s.taken s.taken.length s.next := le_firstFree ..
      exact ⟨n, Nat.le_trans (Nat.le_succ_of_le hnext) hn, heq⟩

theorem nth_succ_ne_fresh (s : TempSupply) (k : Nat) : s.nth (k + 1) ≠ s.fresh.1 := by
  intro h
  obtain ⟨n, hn, heq⟩ := s.fresh.2.exists_nth_eq_temp k
  have hsame : n = firstFree s.taken s.taken.length s.next := Var.temp_injective (heq.symm.trans h)
  have hlater : firstFree s.taken s.taken.length s.next + 1 ≤ n := hn
  omega

theorem nth_injective (s : TempSupply) : Function.Injective s.nth := by
  intro k
  induction k generalizing s with
  | zero =>
      intro l h
      cases l with
      | zero => rfl
      | succ l => exact absurd h.symm (s.nth_succ_ne_fresh l)
  | succ k ih =>
      intro l h
      cases l with
      | zero => exact absurd h (s.nth_succ_ne_fresh k)
      | succ l => rw [ih s.fresh.2 h]

/-- A supply that avoids more names hands out the same temporary unless it avoids that one. -/
theorem fresh_eq {s s' : TempSupply} (hnext : s'.next = s.next) (hsub : s.taken ⊆ s'.taken)
    (hfree : s.fresh.1 ∉ s'.taken) : s'.fresh.1 = s.fresh.1 ∧ s'.fresh.2.next = s.fresh.2.next := by
  let n := firstFree s.taken s.taken.length s.next
  let n' := firstFree s'.taken s'.taken.length s.next
  have hle : s.next ≤ n := le_firstFree ..
  have hle' : s.next ≤ n' := le_firstFree ..
  have hnot : Var.temp n' ∉ s'.taken := firstFree_not_mem (Nat.le_refl _)
  have heq : n' = n := by
    refine Nat.le_antisymm (Nat.le_of_not_lt fun hlt => ?_) (Nat.le_of_not_lt fun hlt => ?_)
    · exact hfree (mem_of_lt_firstFree hle hlt)
    · exact hnot (hsub (mem_of_lt_firstFree hle' hlt))
  rw [fresh, fresh, hnext]
  exact ⟨congrArg Var.temp heq, congrArg (· + 1) heq⟩

/-- A renaming of names that one supply avoids to names that another avoids extends to their
temporaries. -/
theorem exists_renaming (s s' : TempSupply) {σ : Var → Var} {scope : List Var}
    (hinj : Set.InjOn σ {v | v ∈ scope}) (hs : scope ⊆ s.taken)
    (hs' : ∀ v ∈ scope, σ v ∈ s'.taken) :
    ∃ τ : Var → Var, (∀ k, τ (s.nth k) = s'.nth k) ∧ (∀ v ∈ scope, τ v = σ v) ∧
      Set.InjOn τ {v | v ∈ scope ∨ ∃ k, v = s.nth k} := by
  classical
  let τ : Var → Var := fun v => if h : ∃ k, v = s.nth k then s'.nth h.choose else σ v
  have htemp : ∀ k, τ (s.nth k) = s'.nth k := by
    intro k
    have h : ∃ l, s.nth k = s.nth l := ⟨k, rfl⟩
    have hk : h.choose = k := s.nth_injective h.choose_spec.symm
    exact (dif_pos h).trans (congrArg s'.nth hk)
  have hscope : ∀ v ∈ scope, τ v = σ v := by
    intro v hv
    refine dif_neg ?_
    rintro ⟨k, rfl⟩
    exact s.nth_not_mem k (hs hv)
  refine ⟨τ, htemp, hscope, ?_⟩
  rintro v (hv | ⟨k, rfl⟩) w (hw | ⟨l, rfl⟩) heq
  · rw [hscope v hv, hscope w hw] at heq
    exact hinj hv hw heq
  · rw [hscope v hv, htemp] at heq
    exact absurd (heq ▸ hs' v hv) (s'.nth_not_mem l)
  · rw [hscope w hw, htemp] at heq
    exact absurd (heq ▸ hs' w hw) (s'.nth_not_mem k)
  · rw [htemp, htemp] at heq
    rw [s'.nth_injective heq]

end TempSupply

namespace NormalForm

variable {σ : Var → Var} {legalize : Bool} {t t' v : Var} {i : Instr} {is js js' : List Instr}
  {s s' : TempSupply}

theorem Rewrites.unique (h : Rewrites legalize t i js) (h' : Rewrites legalize t i js') :
    js = js' := by
  cases h with
  | mov | ret | folded | vars => cases h'; rfl
  | swapped hfits =>
      cases h' with
      | swapped => rfl
      | swappedTemp hwide => rw [hfits] at hwide; cases hwide
      | leftTemp hop => exact absurd rfl hop
  | swappedTemp hwide =>
      cases h' with
      | swapped hfits => rw [hfits] at hwide; cases hwide
      | swappedTemp => rfl
      | leftTemp hop => exact absurd rfl hop
  | leftTemp hop =>
      cases h' with
      | swapped => exact absurd rfl hop
      | swappedTemp => exact absurd rfl hop
      | leftTemp => rfl
  | word hop hfits =>
      cases h' with
      | word => rfl
      | rightTemp hwide => simp [hop, hfits] at hwide
  | rightTemp hwide =>
      cases h' with
      | word hop hfits => simp [hop, hfits] at hwide
      | rightTemp => rfl

/-- The temporary can be chosen anew if it is not needed. -/
theorem Rewrites.of_single (h : Rewrites legalize t i js) (hlen : js.length = 1) (t' : Var) :
    Rewrites legalize t' i js := by
  cases h with
  | mov => exact .mov
  | ret => exact .ret
  | folded => exact .folded
  | vars => exact .vars
  | swapped hfits => exact .swapped hfits
  | word hop hfits => exact .word hop hfits
  | swappedTemp | leftTemp | rightTemp => cases hlen

theorem Rewrites.mem_occurrences (h : Rewrites legalize t i js)
    (hv : v ∈ js.flatMap Instr.occurrences) :
    v ∈ i.occurrences ∨ v = t ∧ v ∈ js.flatMap Instr.uses := by
  cases h with
  | mov | ret => exact Or.inl (by simpa using hv)
  | folded | vars | swapped | word => exact Or.inl hv
  | @swappedTemp dst w =>
      have hmem : v ∈ [t, dst, w, t] := hv
      show v ∈ [dst, w] ∨ v = t ∧ v ∈ [w, t]
      grind
  | @leftTemp op dst w =>
      have hmem : v ∈ [t, dst, t, w] := hv
      show v ∈ [dst, w] ∨ v = t ∧ v ∈ [t, w]
      grind
  | @rightTemp op dst w =>
      have hmem : v ∈ [t, dst, w, t] := hv
      show v ∈ [dst, w] ∨ v = t ∧ v ∈ [w, t]
      grind

theorem Rewrites.temp_mem (h : Rewrites legalize t i js) (hlen : js.length ≠ 1) :
    t ∈ js.flatMap Instr.occurrences := by
  cases h with
  | mov | ret | folded | vars | swapped | word => exact absurd rfl hlen
  | swappedTemp | leftTemp | rightTemp => simp [Instr.occurrences, Instr.dst?]

theorem Rewrites.rename (h : Rewrites legalize t i js) (σ : Var → Var) :
    Rewrites legalize (σ t) (i.rename σ) (js.map (Instr.rename σ)) := by
  cases h with
  | mov => exact .mov
  | ret => exact .ret
  | folded => exact .folded
  | vars => exact .vars
  | swapped hfits => exact .swapped hfits
  | swappedTemp hwide => exact .swappedTemp hwide
  | leftTemp hop => exact .leftTemp hop
  | word hop hfits => exact .word hop hfits
  | rightTemp hwide => exact .rightTemp hwide

/-! ### Lists of instructions -/

theorem ofInstr_rename (htemp : ∀ k, σ (s.nth k) = s'.nth k) :
    (ofInstr legalize (i.rename σ) s').1 = (ofInstr legalize i s).1.map (Instr.rename σ) ∧
      ∀ k, σ ((ofInstr legalize i s).2.nth k) = (ofInstr legalize (i.rename σ) s').2.nth k := by
  have hfresh : σ s.fresh.1 = s'.fresh.1 := htemp 0
  have hrewrites := (rewrites_ofInstr legalize i s).rename σ
  rw [hfresh] at hrewrites
  have heq := (rewrites_ofInstr legalize (i.rename σ) s').unique hrewrites
  refine ⟨heq, fun k => ?_⟩
  rw [supply_ofInstr, supply_ofInstr, heq, List.length_map]
  split
  · exact htemp k
  · exact htemp (k + 1)

/-- Under other names and with another supply, variables and temporaries get their new names and
nothing else changes. -/
theorem ofInstrs_rename (is : List Instr) (htemp : ∀ k, σ (s.nth k) = s'.nth k) :
    (ofInstrs legalize (is.map (Instr.rename σ)) s').1 =
      (ofInstrs legalize is s).1.map (Instr.rename σ) := by
  induction is generalizing s s' with
  | nil => rfl
  | cons i rest ih =>
      obtain ⟨hhead, htemp'⟩ : (ofInstr legalize (i.rename σ) s').1 =
          (ofInstr legalize i s).1.map (Instr.rename σ) ∧ _ :=
        ofInstr_rename htemp
      rw [List.map_cons, ofInstrs, ofInstrs, List.map_append, ← hhead, ← ih htemp']

theorem mem_occurrences_ofInstrs (h : v ∈ (ofInstrs legalize is s).1.flatMap Instr.occurrences) :
    v ∈ is.flatMap Instr.occurrences ∨ (∃ k, v = s.nth k) ∧
      v ∈ (ofInstrs legalize is s).1.flatMap Instr.uses := by
  induction is generalizing s with
  | nil => cases h
  | cons i rest ih =>
      rw [ofInstrs, List.flatMap_append] at h ⊢
      rw [List.flatMap_cons]
      obtain h | h := List.mem_append.1 h
      · obtain hmem | ⟨rfl, hread⟩ := (rewrites_ofInstr legalize i s).mem_occurrences h
        · exact Or.inl (List.mem_append_left _ hmem)
        · exact Or.inr ⟨⟨0, rfl⟩, List.mem_append_left _ hread⟩
      · obtain hmem | ⟨⟨k, hk⟩, hread⟩ := ih h
        · exact Or.inl (List.mem_append_right _ hmem)
        · refine Or.inr ⟨?_, List.mem_append_right _ hread⟩
          rw [supply_ofInstr] at hk
          split at hk
          · exact ⟨k, hk⟩
          · exact ⟨k + 1, hk⟩

theorem ofInstr_eq (hnext : s'.next = s.next) (hsub : s.taken ⊆ s'.taken)
    (hfree : ∀ v ∈ (ofInstr legalize i s).1.flatMap Instr.occurrences, v ∈ s'.taken → v ∈ s.taken) :
    (ofInstr legalize i s').1 = (ofInstr legalize i s).1 ∧
      (ofInstr legalize i s').2.next = (ofInstr legalize i s).2.next := by
  have hrewrites := rewrites_ofInstr legalize i s
  have hrewrites' := rewrites_ofInstr legalize i s'
  rw [supply_ofInstr, supply_ofInstr]
  by_cases hlen : (ofInstr legalize i s).1.length = 1
  · have heq := hrewrites'.unique (hrewrites.of_single hlen _)
    rw [heq, if_pos hlen, if_pos hlen]
    exact ⟨rfl, hnext⟩
  · -- A temporary that is needed occurs, so the second supply does not avoid it.
    have hused := hfree _ (hrewrites.temp_mem hlen)
    obtain ⟨hfresh, hnext'⟩ :=
      TempSupply.fresh_eq hnext hsub fun hmem => s.fresh_not_mem (hused hmem)
    rw [hfresh] at hrewrites'
    have heq := hrewrites'.unique hrewrites
    rw [heq, if_neg hlen, if_neg hlen]
    exact ⟨rfl, hnext'⟩

theorem ofInstrs_eq (hnext : s'.next = s.next) (hsub : s.taken ⊆ s'.taken)
    (hfree : ∀ v ∈ (ofInstrs legalize is s).1.flatMap Instr.occurrences, v ∈ s'.taken →
      v ∈ s.taken) :
    (ofInstrs legalize is s').1 = (ofInstrs legalize is s).1 := by
  induction is generalizing s s' with
  | nil => rfl
  | cons i rest ih =>
      rw [ofInstrs, List.flatMap_append] at hfree
      obtain ⟨hhead, hnext'⟩ :=
        ofInstr_eq hnext hsub fun v hv => hfree v (List.mem_append_left _ hv)
      have hrest := ih hnext' (by rwa [taken_ofInstr, taken_ofInstr]) fun v hv => by
        rw [taken_ofInstr, taken_ofInstr]
        exact hfree v (List.mem_append_right _ hv)
      exact congrArg₂ (· ++ ·) hhead hrest

end NormalForm

end StraightLine
