import StraightLine.Text.Decimal
import StraightLine.Variable

/-!
# Temporaries

A temporary is a variable named by a dollar sign and a number. The supply hands them out in ascending
order and passes over the names that are taken. Looking at one candidate more than there are taken names
is enough: numbers have different names, so the candidates cannot all be taken.
-/

namespace StraightLine

def Var.temp (n : Nat) : Var := ⟨"$" ++ Text.natural n⟩

theorem Var.temp_injective {m n : Nat} (h : Var.temp m = Var.temp n) : m = n := by
  have hname : ("$" ++ Text.natural m).toList = ("$" ++ Text.natural n).toList :=
    congrArg String.toList (congrArg Var.name h)
  rw [String.toList_append, String.toList_append] at hname
  exact Text.natural_injective (String.toList_inj.1 (List.append_cancel_left hname))

/-- The names that must not be used, and the first number that has not been tried. -/
structure TempSupply where
  taken : List Var
  next : Nat

namespace TempSupply

def avoiding (taken : List Var) : TempSupply := ⟨taken, 0⟩

/-- The first number from `n` on, among the next `tries`, whose temporary is not taken; the number after
them if all are taken. -/
def firstFree (taken : List Var) : Nat → Nat → Nat
  | 0, n => n
  | tries + 1, n => if taken.contains (Var.temp n) then firstFree taken tries (n + 1) else n

/-- A temporary that is not taken, and the supply after it. -/
def fresh (s : TempSupply) : Var × TempSupply :=
  let n := firstFree s.taken s.taken.length s.next
  (Var.temp n, ⟨s.taken, n + 1⟩)

theorem le_firstFree (taken : List Var) (tries n : Nat) : n ≤ firstFree taken tries n := by
  induction tries generalizing n with
  | zero => exact Nat.le_refl n
  | succ tries ih =>
      rw [firstFree]
      split
      · exact Nat.le_trans (Nat.le_succ n) (ih (n + 1))
      · exact Nat.le_refl n

/-- Every number that is passed over is taken. -/
theorem mem_of_lt_firstFree {taken : List Var} {tries n k : Nat} (hle : n ≤ k)
    (hlt : k < firstFree taken tries n) : Var.temp k ∈ taken := by
  induction tries generalizing n with
  | zero => exact absurd hlt (Nat.not_lt.2 hle)
  | succ tries ih =>
      rw [firstFree] at hlt
      split at hlt
      · next htaken =>
          rcases Nat.eq_or_lt_of_le hle with rfl | hlt'
          · simpa using htaken
          · exact ih hlt' hlt
      · exact absurd hlt (Nat.not_lt.2 hle)

/-- Taking a name away leaves the search at higher numbers as it was. -/
theorem firstFree_erase {taken : List Var} {m tries n : Nat} (h : m < n) :
    firstFree (taken.erase (Var.temp m)) tries n = firstFree taken tries n := by
  induction tries generalizing n with
  | zero => rfl
  | succ tries ih =>
      have hne : Var.temp n ≠ Var.temp m := fun heq => Nat.ne_of_gt h (Var.temp_injective heq)
      rw [firstFree, firstFree, ih (Nat.lt_succ_of_lt h)]
      simp [List.mem_erase_of_ne hne]

/-- The search finds a name that is not taken. -/
theorem firstFree_not_mem {taken : List Var} {tries n : Nat} (h : taken.length ≤ tries) :
    Var.temp (firstFree taken tries n) ∉ taken := by
  induction tries generalizing taken n with
  | zero =>
      have hnil : taken = [] := List.eq_nil_of_length_eq_zero (Nat.le_zero.1 h)
      simp [hnil]
  | succ tries ih =>
      rw [firstFree]
      split
      · next htaken =>
          have hmem : Var.temp n ∈ taken := by simpa using htaken
          have hlength : (taken.erase (Var.temp n)).length ≤ tries := by
            rw [List.length_erase_of_mem hmem]
            omega
          have hfree := ih (n := n + 1) hlength
          rw [firstFree_erase (Nat.lt_add_one n)] at hfree
          intro hin
          have hle := le_firstFree taken tries (n + 1)
          refine hfree ((List.mem_erase_of_ne ?_).2 hin)
          exact fun heq => absurd (Var.temp_injective heq) (by omega)
      · next hfree => simpa using hfree

theorem fresh_not_mem (s : TempSupply) : s.fresh.1 ∉ s.taken := firstFree_not_mem (Nat.le_refl _)

end TempSupply

end StraightLine
