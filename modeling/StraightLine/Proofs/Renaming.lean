import Mathlib.Data.Set.Function
import StraightLine.Emission.Emitter
import StraightLine.Proofs.ReadCounts

/-!
# Renaming variables

A renaming gives new names to the variables of a program. It has to keep different variables of the
program apart and may do anything elsewhere. What is counted on a program is then counted on the
renamed one: every variable has as many pending reads under its new name.
-/

namespace StraightLine

variable {σ τ : Var → Var}

def Operand.rename (σ : Var → Var) : Operand → Operand
  | .var v => .var (σ v)
  | .imm value => .imm value

def Instr.rename (σ : Var → Var) : Instr → Instr
  | .mov dst src => .mov (σ dst) (src.rename σ)
  | .binary op dst lhs rhs => .binary op (σ dst) (lhs.rename σ) (rhs.rename σ)
  | .ret value => .ret (value.rename σ)

def Program.rename (σ : Var → Var) (p : Program) : Program := ⟨p.instrs.map (Instr.rename σ)⟩

namespace Operand

theorem rename_congr {operand : Operand} (h : ∀ v, operand.var? = some v → σ v = τ v) :
    operand.rename σ = operand.rename τ := by
  cases operand with
  | var v => exact congrArg Operand.var (h v rfl)
  | imm value => rfl

theorem rename_rename (σ τ : Var → Var) (operand : Operand) :
    (operand.rename σ).rename τ = operand.rename fun v => τ (σ v) := by
  cases operand <;> rfl

theorem rename_id (operand : Operand) : operand.rename (fun v => v) = operand := by
  cases operand <;> rfl

theorem var?_rename (σ : Var → Var) (operand : Operand) :
    (operand.rename σ).var? = operand.var?.map σ := by
  cases operand <;> rfl

end Operand

namespace Instr

variable {i : Instr}

theorem uses_rename (σ : Var → Var) (i : Instr) : (i.rename σ).uses = i.uses.map σ := by
  have hoperands : (i.rename σ).operands = i.operands.map (Operand.rename σ) := by cases i <;> rfl
  rw [uses, uses, hoperands, List.filterMap_map, List.map_filterMap]
  exact congrArg (List.filterMap · i.operands) (funext (Operand.var?_rename σ))

theorem dst?_rename (σ : Var → Var) (i : Instr) : (i.rename σ).dst? = i.dst?.map σ := by
  cases i <;> rfl

theorem occurrences_rename (σ : Var → Var) (i : Instr) :
    (i.rename σ).occurrences = i.occurrences.map σ := by
  rw [occurrences, occurrences, uses_rename, dst?_rename, List.map_append]
  cases i.dst? <;> rfl

@[simp] theorem isReturn_rename (σ : Var → Var) (i : Instr) :
    (i.rename σ).isReturn = i.isReturn := by
  cases i <;> rfl

theorem rename_congr (h : ∀ v ∈ i.occurrences, σ v = τ v) : i.rename σ = i.rename τ := by
  have hdst : ∀ v, i.dst? = some v → σ v = τ v :=
    fun v hv => h v (List.mem_append_left _ (by simp [hv]))
  have huse : ∀ operand ∈ i.operands, operand.rename σ = operand.rename τ := by
    intro operand hmem
    refine Operand.rename_congr fun v hv => h v (List.mem_append_right _ ?_)
    exact List.mem_filterMap.2 ⟨operand, hmem, hv⟩
  cases i with
  | mov dst src => simp only [rename, hdst dst rfl, huse src (by simp [operands])]
  | binary op dst lhs rhs =>
      simp only [rename, hdst dst rfl, huse lhs (by simp [operands]), huse rhs (by simp [operands])]
  | ret value => simp only [rename, huse value (by simp [operands])]

theorem rename_id (i : Instr) : i.rename (fun v => v) = i := by
  cases i <;> simp only [rename, Operand.rename_id]

theorem rename_rename (σ τ : Var → Var) (i : Instr) :
    (i.rename σ).rename τ = i.rename fun v => τ (σ v) := by
  cases i <;> simp only [rename, Operand.rename_rename]

end Instr

namespace Program

variable {p : Program} {v w : Var}

theorem flatMap_uses_rename (σ : Var → Var) (is : List Instr) :
    (is.map (Instr.rename σ)).flatMap Instr.uses = (is.flatMap Instr.uses).map σ := by
  rw [List.flatMap_map, List.map_flatMap]
  exact congrArg (List.flatMap · is) (funext (Instr.uses_rename σ))

theorem mem_vars_rename : w ∈ (p.rename σ).vars ↔ ∃ v ∈ p.vars, σ v = w := by
  have hoccurrences : (p.rename σ).instrs.flatMap Instr.occurrences =
      (p.instrs.flatMap Instr.occurrences).map σ := by
    rw [rename, List.flatMap_map, List.map_flatMap]
    exact congrArg (List.flatMap · p.instrs) (funext (Instr.occurrences_rename σ))
  rw [vars, Var.mem_sorted, hoccurrences, List.mem_map]
  simp only [vars, Var.mem_sorted]

theorem endsInReturn_rename (σ : Var → Var) (p : Program) :
    (p.rename σ).endsInReturn = p.endsInReturn := by
  rw [endsInReturn, endsInReturn, rename, List.getLast?_map]
  cases p.instrs.getLast? with
  | none => rfl
  | some i => exact i.isReturn_rename σ

theorem map_rename_eq_self {is : List Instr} (h : ∀ v ∈ is.flatMap Instr.occurrences, σ v = v) :
    is.map (Instr.rename σ) = is := by
  refine (List.map_congr_left fun i hi => ?_).trans (List.map_id is)
  exact (Instr.rename_congr fun v hv => h v (List.mem_flatMap.2 ⟨i, hi, hv⟩)).trans i.rename_id

theorem rename_id (p : Program) : p.rename (fun v => v) = p :=
  congrArg Program.mk (map_rename_eq_self fun _ _ => rfl)

/-- A renaming is undone by one that gives the variables their names back. -/
theorem rename_rename_of_inverse (h : ∀ v ∈ p.vars, τ (σ v) = v) : (p.rename σ).rename τ = p := by
  have hself : p.instrs.map (Instr.rename fun v => τ (σ v)) = p.instrs :=
    map_rename_eq_self fun v hv => h v (Var.mem_sorted.2 hv)
  have hcomp : Instr.rename τ ∘ Instr.rename σ = Instr.rename fun v => τ (σ v) :=
    funext (Instr.rename_rename σ τ)
  rw [rename, rename, List.map_map, hcomp, hself]

/-- A renaming that keeps the variables of a program apart can be undone. -/
theorem exists_inverse (hinj : Set.InjOn σ {v | v ∈ p.vars}) :
    ∃ τ, Set.InjOn τ {v | v ∈ (p.rename σ).vars} ∧ (p.rename σ).rename τ = p := by
  have : Nonempty Var := ⟨⟨""⟩⟩
  let τ : Var → Var := Function.invFunOn σ {v | v ∈ p.vars}
  have hback : ∀ v ∈ p.vars, τ (σ v) = v := fun v hv => hinj.leftInvOn_invFunOn hv
  refine ⟨τ, fun w hw w' hw' heq => ?_, rename_rename_of_inverse hback⟩
  obtain ⟨v, hv, rfl⟩ := mem_vars_rename.1 hw
  obtain ⟨v', hv', rfl⟩ := mem_vars_rename.1 hw'
  rw [hback v hv, hback v' hv'] at heq
  rw [heq]

end Program

/-! ### Counting reads under new names -/

theorem count_map_rename {scope reads : List Var} {v : Var} (hinj : Set.InjOn σ {v | v ∈ scope})
    (hreads : reads ⊆ scope) (hv : v ∈ scope) : (reads.map σ).count (σ v) = reads.count v := by
  rw [List.count, List.count, List.countP_map]
  refine List.countP_congr fun u hu => ?_
  simp only [Function.comp, beq_iff_eq]
  exact ⟨hinj (hreads hu) hv, congrArg σ⟩

namespace PendingReads

variable {p : Program} {v w : Var}

theorem reads_subset_vars (p : Program) : p.instrs.flatMap Instr.uses ⊆ p.vars := by
  intro v hv
  obtain ⟨i, hi, huse⟩ := List.mem_flatMap.1 hv
  exact Program.mem_vars.2 ⟨i, hi, List.mem_append_right _ huse⟩

theorem remaining?_ofProgram_rename (hinj : Set.InjOn σ {v | v ∈ p.vars}) (hv : v ∈ p.vars) :
    (ofProgram (p.rename σ)).remaining? (σ v) = (ofProgram p).remaining? v := by
  have hnew : σ v ∈ (p.rename σ).vars := Program.mem_vars_rename.2 ⟨v, hv, rfl⟩
  rw [tracks_ofProgram, tracks_ofProgram, if_pos hnew, if_pos hv, Program.rename,
    Program.flatMap_uses_rename, count_map_rename hinj (reads_subset_vars p) hv]

theorem mem_neverRead_ofProgram :
    v ∈ (ofProgram p).neverRead ↔ v ∈ p.vars ∧ v ∉ p.instrs.flatMap Instr.uses := by
  rw [mem_neverRead, tracks_ofProgram]
  by_cases hv : v ∈ p.vars
  · rw [if_pos hv, Option.some.injEq, List.count_eq_zero]
    exact (and_iff_right hv).symm
  · rw [if_neg hv]
    simp [hv]

theorem mem_neverRead_rename (hinj : Set.InjOn σ {v | v ∈ p.vars}) :
    w ∈ (ofProgram (p.rename σ)).neverRead ↔ ∃ v ∈ (ofProgram p).neverRead, σ v = w := by
  have hcount : ∀ v ∈ p.vars, v ∈ (ofProgram p).neverRead ↔
      σ v ∈ (ofProgram (p.rename σ)).neverRead := by
    intro v hv
    rw [mem_neverRead, mem_neverRead, remaining?_ofProgram_rename hinj hv]
  constructor
  · intro hw
    obtain ⟨v, hv, rfl⟩ := Program.mem_vars_rename.1 (mem_neverRead_ofProgram.1 hw).1
    exact ⟨v, (hcount v hv).2 hw, rfl⟩
  · intro ⟨v, hv, heq⟩
    rw [← heq]
    exact (hcount v (mem_neverRead_ofProgram.1 hv).1).1 hv

end PendingReads

end StraightLine
