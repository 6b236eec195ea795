import Mathlib.Algebra.Group.Nat.Defs
import StraightLine.Semantics.Evaluator

/-!
# What a run depends on

The folder, the evaluator and the machine share one arithmetic, `Operator.apply`, which wraps to 32
bits.

A run reads an environment only at the variables that it exposes: those it reads before it assigns
them. Environments that agree there give the same returned word. Runs also compose, and a run is
compared with another by `Outcome.Agree`: both return the same word, both finish, or both get stuck
at the same variable, and where they end with environments, these agree on the variables of a scope.
-/

namespace StraightLine

/-- The value of an operator on integers, which have no bound. -/
def Operator.onIntegers : Operator → Int → Int → Int
  | .add, a, b => a + b
  | .sub, a, b => a - b
  | .mul, a, b => a * b

/-- **Arithmetic wraps.** The word that an operator gives is the exact integer reduced to 32
bits. -/
theorem Operator.toInt_apply (op : Operator) (a b : Int32) :
    (op.apply a b).toInt = (op.onIntegers a.toInt b.toInt).bmod (2 ^ 32) := by
  cases op with
  | add => exact Int32.toInt_add a b
  | sub => exact Int32.toInt_sub a b
  | mul => exact Int32.toInt_mul a b

/-- Two environments give the same words to the variables of a scope. -/
def Env.Agree (scope : List Var) (e f : Env) : Prop := ∀ v ∈ scope, e v = f v

theorem Env.Agree.set {scope : List Var} {e f : Env} (h : e.Agree scope f) (v : Var) (x : Int32) :
    (e.set v x).Agree scope (f.set v x) := by
  intro w hw
  by_cases hwv : w = v
  · rw [hwv, set_self, set_self]
  · rw [set_of_ne hwv, set_of_ne hwv, h w hw]

theorem Env.Agree.set_of_not_mem {scope : List Var} {e f : Env} (h : e.Agree scope f) {v : Var}
    (hv : v ∉ scope) (x : Int32) : (e.set v x).Agree scope f := by
  intro w hw
  have hwv : w ≠ v := fun heq => hv (heq ▸ hw)
  rw [set_of_ne hwv, h w hw]

namespace Outcome

def value? : Outcome → Option Int32
  | .returned x _ => some x
  | _ => none

/-- Go on from the environment in which a run finishes. -/
def andThen (o : Outcome) (next : Env → Outcome) : Outcome :=
  match o with
  | .finished env => next env
  | o => o

inductive Agree (scope : List Var) : Outcome → Outcome → Prop
  | returned {x : Int32} {e f : Env} (h : e.Agree scope f) : Agree scope (.returned x e)
      (.returned x f)
  | finished {e f : Env} (h : e.Agree scope f) : Agree scope (.finished e) (.finished f)
  | stuck {v : Var} : Agree scope (.stuck v) (.stuck v)

theorem Agree.value?_eq {scope : List Var} {o o' : Outcome} (h : o.Agree scope o') :
    o.value? = o'.value? := by
  cases h <;> rfl

theorem Agree.andThen {scope : List Var} {o o' : Outcome} {next next' : Env → Outcome}
    (h : o.Agree scope o') (hnext : ∀ e f, e.Agree scope f → (next e).Agree scope (next' f)) :
    (o.andThen next).Agree scope (o'.andThen next') := by
  cases h with
  | returned h => exact .returned h
  | finished h => exact hnext _ _ h
  | stuck => exact .stuck

end Outcome

namespace Instr

variable {i : Instr} {e f : Env} {d : Var} {x : Int32}

theorem eval_congr {operand : Operand} (h : ∀ v, operand = .var v → e v = f v) :
    operand.eval e = operand.eval f := by
  cases operand with
  | imm value => rfl
  | var v => simp only [Operand.eval, h v rfl]

theorem effect_congr (h : ∀ v ∈ i.uses, e v = f v) : i.effect e = i.effect f := by
  have hoperand : ∀ operand ∈ i.operands, operand.eval e = operand.eval f := by
    intro operand hmem
    refine eval_congr fun v hv => h v (mem_uses.2 ?_)
    rw [← hv]
    exact hmem
  cases i with
  | mov dst src => simp only [effect, hoperand src (by simp [operands])]
  | binary op dst lhs rhs =>
      simp only [effect, hoperand lhs (by simp [operands]), hoperand rhs (by simp [operands])]
  | ret value => simp only [effect, hoperand value (by simp [operands])]

theorem eq_none_of_effect_eq_stuck {v : Var} (h : i.effect e = .stuck v) :
    v ∈ i.uses ∧ e v = none := by
  have hoperand : ∀ operand ∈ i.operands, operand.eval e = .error v → v ∈ i.uses ∧ e v = none := by
    intro operand hmem herror
    cases operand with
    | imm value => cases herror
    | var w =>
        cases hw : e w with
        | some value => simp [Operand.eval, hw] at herror
        | none =>
            obtain rfl : w = v := by simpa [Operand.eval, hw] using herror
            exact ⟨mem_uses.2 hmem, hw⟩
  cases i with
  | mov dst src =>
      simp only [effect] at h
      split at h <;> cases h
      next hsrc => exact hoperand src (by simp [operands]) hsrc
  | binary op dst lhs rhs =>
      simp only [effect] at h
      split at h
      · next hlhs =>
          cases h
          exact hoperand lhs (by simp [operands]) hlhs
      · split at h <;> cases h
        next hrhs => exact hoperand rhs (by simp [operands]) hrhs
  | ret value =>
      simp only [effect] at h
      split at h <;> cases h
      next hvalue => exact hoperand value (by simp [operands]) hvalue

theorem dst_of_effect_eq_assign (h : i.effect e = .assign d x) : i.dst? = some d := by
  cases i with
  | mov dst src =>
      simp only [effect] at h
      split at h <;> cases h
      rfl
  | binary op dst lhs rhs =>
      simp only [effect] at h
      split at h
      · cases h
      · split at h <;> cases h
        rfl
  | ret value =>
      simp only [effect] at h
      split at h <;> cases h

end Instr

/-- The variable is read by an instruction, and no instruction before it assigns the variable. -/
def Exposed (is : List Instr) (v : Var) : Prop :=
  ∃ front i back, is = front ++ i :: back ∧ v ∈ i.uses ∧ ∀ j ∈ front, j.dst? ≠ some v

theorem Exposed.mem_reads {is : List Instr} {v : Var} (h : Exposed is v) :
    v ∈ is.flatMap Instr.uses := by
  obtain ⟨front, i, back, rfl, huse, _⟩ := h
  exact List.mem_flatMap.2 ⟨i, List.mem_append_right front List.mem_cons_self, huse⟩

@[simp] theorem not_exposed_nil (v : Var) : ¬ Exposed [] v := by
  intro ⟨front, i, back, hnil, _⟩
  exact List.append_ne_nil_of_right_ne_nil front (List.cons_ne_nil i back) hnil.symm

@[simp] theorem exposed_cons_iff {i : Instr} {is : List Instr} {v : Var} :
    Exposed (i :: is) v ↔ v ∈ i.uses ∨ (i.dst? ≠ some v ∧ Exposed is v) := by
  constructor
  · intro ⟨front, j, back, his, huse, hfront⟩
    cases front with
    | nil =>
        cases his
        exact Or.inl huse
    | cons k front =>
        cases his
        exact Or.inr ⟨hfront i List.mem_cons_self, front, j, back, rfl, huse, fun k hk =>
          hfront k (List.mem_cons_of_mem i hk)⟩
  · intro h
    obtain huse | ⟨hdst, front, j, back, his, huse, hfront⟩ := h
    · exact ⟨[], i, is, rfl, huse, by simp⟩
    · exact ⟨i :: front, j, back, by rw [his, List.cons_append], huse,
        List.forall_mem_cons.2 ⟨hdst, hfront⟩⟩

instance decidableExposed : (is : List Instr) → (v : Var) → Decidable (Exposed is v)
  | [], v => isFalse (not_exposed_nil v)
  | _ :: is, v =>
      have := decidableExposed is v
      decidable_of_iff' _ exposed_cons_iff

namespace Program

theorem evalInstrs_append (is js : List Instr) (env : Env) :
    evalInstrs (is ++ js) env = (evalInstrs is env).andThen (evalInstrs js) := by
  induction is generalizing env with
  | nil => rfl
  | cons i is ih =>
      rw [List.cons_append, evalInstrs, evalInstrs]
      cases i.effect env with
      | assign dst value => exact ih (env.set dst value)
      | result value => rfl
      | stuck v => rfl

theorem evalInstrs_ne_stuck {is : List Instr} {env : Env} (h : ∀ v, env v ≠ none) (v : Var) :
    evalInstrs is env ≠ .stuck v := by
  induction is generalizing env with
  | nil => simp [evalInstrs]
  | cons i is ih =>
      rw [evalInstrs]
      cases heffect : i.effect env with
      | assign d x =>
          refine ih fun w => ?_
          by_cases hw : w = d
          · rw [hw, Env.set_self]
            exact Option.some_ne_none x
          · rw [Env.set_of_ne hw]
            exact h w
      | result x => simp
      | stuck w => exact absurd (Instr.eq_none_of_effect_eq_stuck heffect).2 (h w)

/-- A run gives the same word in environments that agree on what it exposes. -/
theorem value?_evalInstrs_congr {is : List Instr} {e f : Env} (h : ∀ v, Exposed is v → e v = f v) :
    (evalInstrs is e).value? = (evalInstrs is f).value? := by
  induction is generalizing e f with
  | nil => rfl
  | cons i is ih =>
      have heffect : i.effect e = i.effect f :=
        Instr.effect_congr fun v hv => h v (exposed_cons_iff.2 (Or.inl hv))
      rw [evalInstrs, evalInstrs, ← heffect]
      cases hcase : i.effect e with
      | assign d x =>
          refine ih fun v hv => ?_
          by_cases hvd : v = d
          · rw [hvd, Env.set_self, Env.set_self]
          · have hdst : i.dst? ≠ some v := by
              rw [Instr.dst_of_effect_eq_assign hcase]
              exact fun heq => hvd (Option.some.inj heq).symm
            rw [Env.set_of_ne hvd, Env.set_of_ne hvd, h v (exposed_cons_iff.2 (Or.inr ⟨hdst, hv⟩))]
      | result x => rfl
      | stuck v => rfl

end Program

end StraightLine
