/-!
# Variables

A variable is its name, and any text can be a name; only identifiers can be written in program text.
Variables are ordered by the code points of their names. `Var.sorted` turns a list of occurrences into
the ascending list of the variables that occur, each once.
-/

namespace StraightLine

structure Var where
  name : String
deriving DecidableEq

/-- Whether a character can open an identifier: an ASCII letter, an underscore or a dollar sign. -/
def isIdentifierStart (c : Char) : Bool := c.isAlpha || c = '_' || c = '$'

/-- Whether a character can continue an identifier. -/
def isIdentifierPart (c : Char) : Bool := c.isAlphanum || c = '_' || c = '$'

def isIdentifier : List Char → Bool
  | [] => false
  | c :: rest => isIdentifierStart c && rest.all isIdentifierPart

namespace Var

instance : LT Var := ⟨fun v w => v.name < w.name⟩

instance (v w : Var) : Decidable (v < w) := inferInstanceAs (Decidable (v.name < w.name))

theorem lt_trans {u v w : Var} (h : u < v) (h' : v < w) : u < w := String.lt_trans h h'

theorem lt_of_not_lt_of_ne {v w : Var} (h : ¬ v < w) (hne : v ≠ w) : w < v := by
  apply Decidable.byContradiction
  intro h'
  have hname : v.name = w.name := String.le_antisymm (String.not_lt.1 h') (String.not_lt.1 h)
  cases v
  cases w
  exact hne (congrArg Var.mk hname)

/-- Put a variable at its place in an ascending list, unless it is there. -/
def insertSorted (v : Var) : List Var → List Var
  | [] => [v]
  | w :: rest =>
      if v = w then w :: rest
      else if v < w then v :: w :: rest
      else w :: insertSorted v rest

/-- The variables of a list in ascending order, each once. -/
def sorted (vs : List Var) : List Var := vs.foldr insertSorted []

theorem mem_insertSorted {u v : Var} {vs : List Var} : u ∈ insertSorted v vs ↔ u = v ∨ u ∈ vs := by
  induction vs with
  | nil => simp [insertSorted]
  | cons w rest ih =>
      rw [insertSorted]
      split
      · next heq => simp [heq]
      · split
        · simp
        · simp [ih, or_left_comm]

@[simp] theorem mem_sorted {u : Var} {vs : List Var} : u ∈ sorted vs ↔ u ∈ vs := by
  induction vs with
  | nil => simp [sorted]
  | cons v rest ih =>
      have hstep : sorted (v :: rest) = insertSorted v (sorted rest) := rfl
      rw [hstep, mem_insertSorted, ih, List.mem_cons]

theorem pairwise_insertSorted {v : Var} {vs : List Var} (h : vs.Pairwise (· < ·)) :
    (insertSorted v vs).Pairwise (· < ·) := by
  induction vs with
  | nil => simp [insertSorted]
  | cons w rest ih =>
      have hw := List.pairwise_cons.1 h
      rw [insertSorted]
      split
      · exact h
      · next hne =>
          split
          · next hlt =>
              refine List.pairwise_cons.2 ⟨fun u hu => ?_, h⟩
              rcases List.mem_cons.1 hu with rfl | hu
              · exact hlt
              · exact lt_trans hlt (hw.1 u hu)
          · next hlt =>
              refine List.pairwise_cons.2 ⟨fun u hu => ?_, ih hw.2⟩
              rcases mem_insertSorted.1 hu with rfl | hu
              · exact lt_of_not_lt_of_ne hlt hne
              · exact hw.1 u hu

/-- The sorted list ascends strictly, so it names no variable twice. -/
theorem pairwise_sorted (vs : List Var) : (sorted vs).Pairwise (· < ·) := by
  induction vs with
  | nil => exact List.Pairwise.nil
  | cons v rest ih => exact pairwise_insertSorted ih

end Var

end StraightLine
