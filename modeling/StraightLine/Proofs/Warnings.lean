import StraightLine.Proofs.FreshNames

/-!
# What warnings say

The warnings of a compilation are taken from its normal form, and yet they speak of the program as
it was given. Normal form reads and assigns the same variables of the program as the instructions up
to the return, since a word is folded, moved across a sum or moved to a temporary without touching a
variable; and what it adds are temporaries, which are read. So the variables that are never read are
those of the program that it assigns in vain.
-/

namespace StraightLine

namespace NormalForm

variable {s : TempSupply} {is js : List Instr} {v : Var}

theorem Unfolds.mem_uses_iff (h : Unfolds s is js) (hv : v ∈ s.taken) :
    v ∈ js.flatMap Instr.uses ↔ v ∈ is.flatMap Instr.uses := by
  induction h with
  | nil => exact Iff.rfl
  | one _ huses _ ih =>
      rw [List.flatMap_cons, List.flatMap_cons, List.mem_append, List.mem_append, huses, ih hv]
  | @two s i a op dst lhs rhs is js _ huses _ ih =>
      have hne : v ≠ s.fresh.1 := fun heq => s.fresh_not_mem (heq ▸ hv)
      have hread : v ∈ (Instr.binary op dst lhs rhs).uses ↔ v ∈ i.uses := by
        rw [huses.mem_iff, List.mem_cons, or_iff_right hne]
      have hmove : (Instr.mov s.fresh.1 (.imm a)).uses = [] := rfl
      rw [List.flatMap_cons, List.flatMap_cons, List.flatMap_cons, hmove, List.nil_append,
        List.mem_append, List.mem_append, hread, ih hv]

theorem mem_assigned_cons {i : Instr} :
    v ∈ (i :: is).filterMap Instr.dst? ↔ i.dst? = some v ∨ v ∈ is.filterMap Instr.dst? := by
  simp only [List.mem_filterMap, List.mem_cons, exists_eq_or_imp]

theorem Unfolds.mem_assigned_iff (h : Unfolds s is js) (hv : v ∈ s.taken) :
    v ∈ js.filterMap Instr.dst? ↔ v ∈ is.filterMap Instr.dst? := by
  induction h with
  | nil => exact Iff.rfl
  | one hdst _ _ ih => rw [mem_assigned_cons, mem_assigned_cons, hdst, ih hv]
  | @two s i a op dst lhs rhs is js hdst _ _ ih =>
      have hne : (Instr.mov s.fresh.1 (.imm a)).dst? ≠ some v := by
        intro heq
        cases heq
        exact s.fresh_not_mem hv
      have hsame : (Instr.binary op dst lhs rhs).dst? = i.dst? := hdst.symm
      rw [mem_assigned_cons, mem_assigned_cons, mem_assigned_cons, or_iff_right hne, hsame, ih hv]

end NormalForm

namespace Program

variable {p : Program} {legalize : Bool} {v : Var}

theorem mem_uses_normalForm_iff (hv : v ∈ p.vars) :
    v ∈ (p.normalForm legalize).instrs.flatMap Instr.uses ↔ v ∈ p.reachable.flatMap Instr.uses :=
  (NormalForm.unfolds_ofInstrs legalize p.reachable (.avoiding p.vars)).mem_uses_iff hv

theorem mem_assigned_normalForm_iff (hv : v ∈ p.vars) :
    v ∈ (p.normalForm legalize).instrs.filterMap Instr.dst? ↔
      v ∈ p.reachable.filterMap Instr.dst? :=
  (NormalForm.unfolds_ofInstrs legalize p.reachable (.avoiding p.vars)).mem_assigned_iff hv

theorem mem_occurrences_iff {is : List Instr} :
    v ∈ is.flatMap Instr.occurrences ↔ v ∈ is.filterMap Instr.dst? ∨ v ∈ is.flatMap Instr.uses := by
  simp only [List.mem_flatMap, List.mem_filterMap, Instr.occurrences, List.mem_append,
    Option.mem_toList, and_or_left, exists_or]

/-- The variables that normal form never reads are those that the program assigns up to its return
and does not read there. -/
theorem mem_neverRead_normalForm_iff :
    v ∈ (PendingReads.ofProgram (p.normalForm legalize)).neverRead ↔
    v ∈ p.reachable.filterMap Instr.dst? ∧ v ∉ p.reachable.flatMap Instr.uses := by
  rw [PendingReads.mem_neverRead_ofProgram]
  constructor
  · rintro ⟨hmem, hunread⟩
    -- A temporary would be read, so the variable is one of the program.
    obtain hreached | ⟨_, hread⟩ := mem_vars_normalForm hmem
    · have hv := occurrences_reachable_subset p hreached
      rw [mem_uses_normalForm_iff hv] at hunread
      exact ⟨(mem_occurrences_iff.1 hreached).resolve_right hunread, hunread⟩
    · exact absurd hread hunread
  · rintro ⟨hassigned, hunread⟩
    have hv := occurrences_reachable_subset p (mem_occurrences_iff.2 (Or.inl hassigned))
    refine ⟨?_, (mem_uses_normalForm_iff hv).not.2 hunread⟩
    rw [vars, Var.mem_sorted]
    exact mem_occurrences_iff.2 (Or.inl ((mem_assigned_normalForm_iff hv).2 hassigned))

theorem temporary_not_mem_reachable (hv : v ∈ p.reachable.flatMap Instr.occurrences) :
    v ∉ p.temporaries legalize := by
  intro htemp
  have hnew := (List.mem_filter.1 htemp).2
  simp [occurrences_reachable_subset p hv] at hnew

theorem exists_eq_reachable_append (p : Program) :
    ∃ tail, p.instrs = p.reachable ++ tail ∧ p.unreachable = tail.length := by
  obtain ⟨tail, htail⟩ := exists_eq_throughReturn_append p.instrs
  refine ⟨tail, htail, ?_⟩
  have hlength := congrArg List.length htail
  rw [List.length_append] at hlength
  rw [unreachable, size, hlength, reachable, Nat.add_sub_cancel_left]

end Program

namespace Options

/-- **Warnings describe the program.** Instructions behind the return are warned about first, by
their number; then every variable that is assigned up to the return and not read there, in ascending
order, and the texts say so. No temporary is named, and no variable that stands only behind the
return. -/
theorem warnings_describe_program {o : Options} {p : Program} {c : Compilation}
    (h : (o.compile p).outcome = .ok c) :
    ∃ (tail : List Instr) (vs : List Var), p.instrs = p.reachable ++ tail ∧
      c.warnings = (if tail = [] then [] else [.unreachable tail.length]) ++ vs.map .neverRead ∧
      c.warnings.map Warning.message =
        (if tail = [] then []
          else [Text.natural tail.length ++ " unreachable instruction(s) after RET discarded"]) ++
        vs.map (fun v => "value of " ++ v.name ++ " is never read") ∧
      vs.Pairwise (· < ·) ∧
      (∀ v, v ∈ vs ↔ v ∈ p.reachable.filterMap Instr.dst? ∧ v ∉ p.reachable.flatMap Instr.uses) ∧
      ∀ v, .neverRead v ∈ c.warnings → v ∈ p.reachable.flatMap Instr.occurrences ∧
          v ∉ p.temporaries o.legalize := by
  obtain ⟨_, l, _, rfl⟩ := compile_eq_ok_iff.1 h
  obtain ⟨tail, hsplit, hcount⟩ := p.exists_eq_reachable_append
  let vs := (PendingReads.ofProgram (p.normalForm o.legalize)).neverRead
  have hwarnings : Compilation.warningsOf p.unreachable vs =
      (if tail = [] then [] else [.unreachable tail.length]) ++ vs.map .neverRead := by
    rw [Compilation.warningsOf, hcount]
    simp only [List.length_eq_zero_iff]
  refine ⟨tail, vs, hsplit, hwarnings, ?_, Var.pairwise_sorted _,
    fun v => Program.mem_neverRead_normalForm_iff, fun v hv => ?_⟩
  · show (Compilation.warningsOf p.unreachable vs).map Warning.message = _
    rw [hwarnings, List.map_append, List.map_map]
    split <;> rfl
  · have hmem : v ∈ vs := by
      change Warning.neverRead v ∈ Compilation.warningsOf p.unreachable vs at hv
      rw [hwarnings] at hv
      by_cases htail : tail = [] <;> simpa [htail] using hv
    have hreached : v ∈ p.reachable.flatMap Instr.occurrences :=
      Program.mem_occurrences_iff.2 (Or.inl (Program.mem_neverRead_normalForm_iff.1 hmem).1)
    exact ⟨hreached, Program.temporary_not_mem_reachable hreached⟩

/-- The program uses the name of a temporary for a variable that it does not read, reads another
only behind its return, and moves two factors to temporaries. -/
theorem warnings_describe_program_discarding :
    let p : Program := ⟨[.mov ⟨"b"⟩ (.imm 1), .binary .mul ⟨"$0"⟩ (.var ⟨"x"⟩) (.imm 3),
      .binary .sub ⟨"a"⟩ (.imm 4) (.var ⟨"x"⟩), .mov ⟨"b"⟩ (.imm 2), .ret (.var ⟨"x"⟩),
      .mov ⟨"z"⟩ (.var ⟨"a"⟩), .ret (.imm 0)]⟩
    ∃ c, (Options.compile {} p).outcome = .ok c ∧ p.temporaries true = [⟨"$1"⟩, ⟨"$2"⟩] ∧
      ∃ vs : List Var, c.warnings = .unreachable 2 :: vs.map .neverRead ∧
        c.warnings.map Warning.message = "2 unreachable instruction(s) after RET discarded" ::
          vs.map (fun v => "value of " ++ v.name ++ " is never read") ∧ vs.Pairwise (· < ·) ∧
        ⟨"$0"⟩ ∈ vs ∧ ⟨"a"⟩ ∈ vs ∧ ⟨"b"⟩ ∈ vs ∧ ⟨"x"⟩ ∉ vs ∧ ⟨"z"⟩ ∉ vs ∧ ⟨"$1"⟩ ∉ vs := by
  intro p
  have hsize : (Options.compile {} p).outcome.toOption.map (fun c => c.stats.frameSize) =
      some 0 := by decide
  obtain ⟨c, hcompile, _⟩ := exists_compiled hsize
  obtain ⟨tail, vs, hsplit, hwarnings, htexts, hsorted, hmem, _⟩ :=
    warnings_describe_program hcompile
  have hbehind : p.instrs = p.reachable ++ [.mov ⟨"z"⟩ (.var ⟨"a"⟩), .ret (.imm 0)] := rfl
  obtain rfl := List.append_cancel_left (hsplit.symm.trans hbehind)
  refine ⟨c, hcompile, by decide, vs, hwarnings, htexts, hsorted, ?_⟩
  simp only [hmem]
  decide

end Options

end StraightLine
