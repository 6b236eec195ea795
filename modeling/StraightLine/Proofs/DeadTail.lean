import StraightLine.Proofs.Naming

/-!
# Instructions behind the first return

What follows the first return is dropped, but its names are not: temporaries avoid every variable of
the whole program. A tail can therefore change the names of the temporaries, and it can change
nothing else. It succeeds or fails with the program in front of it, and a listing with it differs
from one without it only where a comment or a spilled variable names a temporary. If the tail does
not mention a temporary of the normal form, nothing changes at all.
-/

namespace StraightLine

namespace Program

variable {p : Program} {tail : List Instr} {legalize : Bool} {v : Var}

def followedBy (p : Program) (tail : List Instr) : Program := ⟨p.instrs ++ tail⟩

theorem throughReturn_followed {is : List Instr} (h : is.any Instr.isReturn = true)
    (tail : List Instr) : throughReturn (is ++ tail) = throughReturn is := by
  induction is with
  | nil => cases h
  | cons i rest ih =>
      rw [List.cons_append, throughReturn, throughReturn]
      cases hret : i.isReturn with
      | true => rw [if_pos rfl, if_pos rfl]
      | false =>
          rw [List.any_cons, hret, Bool.false_or] at h
          rw [ih h]

theorem mem_vars_followedBy :
    v ∈ (p.followedBy tail).vars ↔ v ∈ p.vars ∨ v ∈ tail.flatMap Instr.occurrences := by
  rw [vars, vars, Var.mem_sorted, Var.mem_sorted, followedBy, List.flatMap_append, List.mem_append]

theorem reachable_followedBy (hret : p.instrs.any Instr.isReturn = true) (tail : List Instr) :
    (p.followedBy tail).reachable = p.reachable := throughReturn_followed hret tail

theorem unreachable_followedBy (hret : p.instrs.any Instr.isReturn = true) (tail : List Instr) :
    (p.followedBy tail).unreachable = p.unreachable + tail.length := by
  obtain ⟨rest, hrest⟩ := exists_eq_throughReturn_append p.instrs
  have hsize : p.size = p.reachable.length + rest.length := by
    rw [size, reachable, ← List.length_append, ← hrest]
  have hfollowed : (p.followedBy tail).size = p.size + tail.length := List.length_append
  rw [unreachable, unreachable, reachable_followedBy hret, hfollowed]
  omega

theorem exists_normalForm_followedBy (hret : p.instrs.any Instr.isReturn = true) (tail : List Instr)
    (legalize : Bool) :
    ∃ σ : Var → Var, Set.InjOn σ {v | v ∈ (p.normalForm legalize).vars} ∧ (∀ v ∈ p.vars, σ v = v) ∧
      (p.followedBy tail).normalForm legalize = (p.normalForm legalize).rename σ := by
  have hsub : ∀ v ∈ p.vars, v ∈ (p.followedBy tail).vars :=
    fun v hv => mem_vars_followedBy.2 (Or.inl hv)
  have hreach : (p.followedBy tail).reachable = p.reachable.map (Instr.rename fun v => v) := by
    rw [reachable_followedBy hret, map_rename_eq_self fun _ _ => rfl]
  obtain ⟨σ, hfix, hinj, hrename⟩ :=
    exists_normalForm_rename (fun _ _ _ _ heq => heq) p.occurrences_reachable_subset
    (List.Subset.refl p.vars) hsub hreach legalize
  exact ⟨σ, hinj.mono fun v => Or.inr, hfix, hrename⟩

/-- A tail leaves the normal form alone exactly when it mentions none of its temporaries. -/
theorem normalForm_followedBy_eq_iff (hret : p.instrs.any Instr.isReturn = true) :
    (p.followedBy tail).normalForm legalize = p.normalForm legalize ↔
      ∀ v ∈ tail.flatMap Instr.occurrences, v ∈ (p.normalForm legalize).vars → v ∈ p.vars := by
  constructor
  · intro heq v hv hnormal
    have htaken : v ∈ (p.followedBy tail).vars := mem_vars_followedBy.2 (Or.inr hv)
    rw [← heq] at hnormal
    obtain hmem | ⟨⟨k, rfl⟩, _⟩ := mem_vars_normalForm hnormal
    · rw [reachable_followedBy hret] at hmem
      exact occurrences_reachable_subset p hmem
    · exact absurd htaken (TempSupply.nth_not_mem _ k)
  · intro hfree
    have hinstrs : ((p.followedBy tail).normalForm legalize).instrs =
        (p.normalForm legalize).instrs := by
      rw [instrs_normalForm, instrs_normalForm, reachable_followedBy hret]
      refine NormalForm.ofInstrs_eq rfl (fun v hv => mem_vars_followedBy.2 (Or.inl hv))
        fun v hv htaken => ?_
      exact (mem_vars_followedBy.1 htaken).elim id fun htail => hfree v htail (Var.mem_sorted.2 hv)
    exact congrArg Program.mk hinstrs

/-- Temporaries are read, so renaming them leaves the variables that are never read. -/
theorem neverRead_rename {σ : Var → Var} (hinj : Set.InjOn σ {v | v ∈ (p.normalForm legalize).vars})
    (hfix : ∀ v ∈ p.vars, σ v = v) :
      (PendingReads.ofProgram ((p.normalForm legalize).rename σ)).neverRead =
      (PendingReads.ofProgram (p.normalForm legalize)).neverRead := by
  refine Var.eq_of_pairwise_lt (Var.pairwise_sorted _) (Var.pairwise_sorted _) fun w => ?_
  have hsame : ∀ v ∈ (PendingReads.ofProgram (p.normalForm legalize)).neverRead, σ v = v := by
    intro v hv
    obtain ⟨hmem, hread⟩ := PendingReads.mem_neverRead_ofProgram.1 hv
    obtain hreach | ⟨_, huse⟩ := mem_vars_normalForm hmem
    · exact hfix v (occurrences_reachable_subset p hreach)
    · exact absurd huse hread
  rw [PendingReads.mem_neverRead_rename hinj]
  constructor
  · rintro ⟨v, hv, rfl⟩
    rwa [hsame v hv]
  · intro hw
    exact ⟨w, hw, hsame w hw⟩

end Program

/-! ### Compilations -/

namespace Options

variable {σ : Var → Var} {o : Options} {p p' : Program} {c d : Compilation}

theorem listing_eq_of_normalForm_eq (hsame : p'.normalForm o.legalize = p.normalForm o.legalize)
    (hc : (o.compile p).outcome = .ok c) (hd : (o.compile p').outcome = .ok d) :
    d.listing = c.listing ∧ d.stats = c.stats := by
  obtain ⟨_, l, hl, rfl⟩ := compile_eq_ok_iff.1 hc
  obtain ⟨_, l', hl', rfl⟩ := compile_eq_ok_iff.1 hd
  rw [hsame, hl] at hl'
  cases hl'
  exact ⟨rfl, rfl⟩

/-- **A tail only renames temporaries.** Behind a return, instructions do not change whether and how
a program fails. In a compilation they change the number of instructions, the warning about
unreachable ones, and the names of temporaries; and the latter only if they mention a temporary of
the normal form. -/
theorem tail_renames_temporaries (hvalid : o.validate = .ok ())
    (hret : p.instrs.any Instr.isReturn = true) (tail : List Instr) :
    (∀ f, (o.compile (p.followedBy tail)).outcome = .error f ↔ (o.compile p).outcome = .error f) ∧
    ∀ c d, (o.compile p).outcome = .ok c → (o.compile (p.followedBy tail)).outcome = .ok d →
      (∃ σ : Var → Var, Set.InjOn σ {v | v ∈ c.normalized.vars} ∧ (∀ v ∈ p.vars, σ v = v) ∧
        c.Renamed σ d) ∧
      (∃ neverRead, c.warnings = Compilation.warningsOf p.unreachable neverRead ∧
        d.warnings = Compilation.warningsOf (p.unreachable + tail.length) neverRead) ∧
      ((d.normalized = c.normalized ∧ d.listing = c.listing ∧ d.stats = c.stats) ↔
        ∀ v ∈ tail.flatMap Instr.occurrences, v ∈ c.normalized.vars → v ∈ p.vars) := by
  obtain ⟨σ, hinj, hfix, hrename⟩ := Program.exists_normalForm_followedBy hret tail o.legalize
  refine ⟨compile_eq_error_iff_of_rename hvalid hinj hrename,
    fun c d hc hd => ⟨⟨σ, ?_, hfix, ?_⟩, ?_, ?_⟩⟩
  · rwa [Compilation.normalized_eq hc]
  · exact renamed_of_rename hinj hrename hc hd
  · obtain ⟨_, l, _, rfl⟩ := compile_eq_ok_iff.1 hc
    obtain ⟨_, l', _, rfl⟩ := compile_eq_ok_iff.1 hd
    refine ⟨_, rfl, ?_⟩
    show Compilation.warningsOf (p.followedBy tail).unreachable _ = _
    rw [Program.unreachable_followedBy hret, hrename, Program.neverRead_rename hinj hfix]
  · rw [Compilation.normalized_eq hc, Compilation.normalized_eq hd,
      ← Program.normalForm_followedBy_eq_iff hret]
    exact ⟨And.left, fun hsame => ⟨hsame, listing_eq_of_normalForm_eq hsame hc hd⟩⟩

/-- A tail that assigns a factor and returns again leaves a product with a temporary as it is. -/
theorem tail_renames_temporaries_harmless :
    let o : Options := { poolSize := 3 }
    let p : Program := ⟨[.binary .mul ⟨"y"⟩ (.var ⟨"x"⟩) (.imm 3), .ret (.var ⟨"y"⟩),
      .mov ⟨"z"⟩ (.imm 1)]⟩
    let tail : List Instr := [.mov ⟨"x"⟩ (.imm 5), .binary .mul ⟨"$1"⟩ (.var ⟨"x"⟩) (.imm 7),
      .ret (.var ⟨"$1"⟩)]
    o.validate = .ok () ∧ p.instrs.any Instr.isReturn = true ∧
      ∃ c d, (o.compile p).outcome = .ok c ∧
      (o.compile (p.followedBy tail)).outcome = .ok d ∧
      d.normalized = c.normalized ∧ d.listing = c.listing ∧ d.stats = c.stats := by
  intro o p tail
  have hvalid : o.validate = .ok () := by decide
  have hret : p.instrs.any Instr.isReturn = true := rfl
  have hfree : ∀ v ∈ tail.flatMap Instr.occurrences, v ∈ (p.normalForm o.legalize).vars →
      v ∈ p.vars := by decide
  have hsize : (o.compile p).outcome.toOption.map (fun c => c.stats.frameSize) = some 0 := by decide
  obtain ⟨c, hc, _⟩ := exists_compiled hsize
  obtain ⟨hfails, hsame⟩ := tail_renames_temporaries hvalid hret tail
  cases hd : (o.compile (p.followedBy tail)).outcome with
  | error f =>
      rw [hfails, hc] at hd
      cases hd
  | ok d =>
      obtain ⟨_, _, hiff⟩ := hsame c d hc hd
      rw [← Compilation.normalized_eq hc] at hfree
      exact ⟨hvalid, hret, c, d, hc, rfl, hiff.2 hfree⟩

/-- A tail that assigns the first temporary makes the program in front of it use the second. -/
theorem exists_tail_changing_listing :
    let o : Options := {}
    let p : Program := ⟨[.binary .mul ⟨"y"⟩ (.var ⟨"x"⟩) (.imm 3), .ret (.var ⟨"y"⟩)]⟩
    let tail : List Instr := [.mov ⟨"$0"⟩ (.imm 1)]
    o.validate = .ok () ∧ p.instrs.any Instr.isReturn = true ∧
      ∃ c d, (o.compile p).outcome = .ok c ∧
      (o.compile (p.followedBy tail)).outcome = .ok d ∧ d.normalized ≠ c.normalized ∧
      d.listing.text ≠ c.listing.text := by
  intro o p tail
  have htext : (o.compile p).outcome.toOption.map
      (fun c => (c.normalized.instrs.head?, c.listing.text)) =
      some (some (.mov ⟨"$0"⟩ (.imm 3)),
      ".text\n    li t0, 3        #  (MOV, $0, 3)\n    mul t2, t1, t0        #  (MUL, y, x, $0)\n    mv a0, t2        #  (RET, y)") := by
    decide +kernel
  have htext' : (o.compile (p.followedBy tail)).outcome.toOption.map
      (fun c => (c.normalized.instrs.head?, c.listing.text)) =
      some (some (.mov ⟨"$1"⟩ (.imm 3)),
      ".text\n    li t0, 3        #  (MOV, $1, 3)\n    mul t2, t1, t0        #  (MUL, y, x, $1)\n    mv a0, t2        #  (RET, y)") := by
    decide +kernel
  obtain ⟨c, hc, hfacts⟩ := exists_compiled htext
  obtain ⟨d, hd, hfacts'⟩ := exists_compiled htext'
  obtain ⟨hfirst, hlisting⟩ := Prod.mk.inj hfacts
  obtain ⟨hfirst', hlisting'⟩ := Prod.mk.inj hfacts'
  refine ⟨by decide, rfl, c, d, hc, hd, fun heq => ?_, ?_⟩
  · rw [heq, hfirst] at hfirst'
    exact absurd hfirst' (by decide)
  · rw [hlisting, hlisting']
    decide

end Options

end StraightLine
