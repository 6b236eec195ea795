import StraightLine.Proofs.Emission.Lockstep
import StraightLine.Proofs.Temporaries

/-!
# The names of a program

What is emitted does not depend on how variables are called. Two programs that differ, up to their
first return, only by a renaming that keeps variables apart have normal forms that differ by a
renaming of variables and temporaries. The temporaries may get other numbers in the second program,
because it takes other names or because other names stand behind its return; the renaming extends to
them and still keeps everything apart. From there emission goes in lockstep: both fail alike, or the
listings differ only in their comments and the costs only in the names of the spilled variables.
-/

namespace StraightLine

/-! ### Normal forms -/

namespace Program

variable {p q : Program} {legalize : Bool} {v : Var} {σ : Var → Var} {scope : List Var}

theorem occurrences_reachable_subset (p : Program) :
    p.reachable.flatMap Instr.occurrences ⊆ p.vars := by
  intro v hv
  obtain ⟨i, hi, hmem⟩ := List.mem_flatMap.1 hv
  exact reachable_within i hi v hmem

/-- A variable of a normal form is reached in the program, or it is a temporary that is read. -/
theorem mem_vars_normalForm (h : v ∈ (p.normalForm legalize).vars) :
    v ∈ p.reachable.flatMap Instr.occurrences ∨
    (∃ k, v = (TempSupply.avoiding p.vars).nth k) ∧
    v ∈ (p.normalForm legalize).instrs.flatMap Instr.uses := by
  rw [vars, Var.mem_sorted] at h
  exact NormalForm.mem_occurrences_ofInstrs h

theorem mem_occurrences_map_rename {is : List Instr} (hv : v ∈ is.flatMap Instr.occurrences) :
    σ v ∈ (is.map (Instr.rename σ)).flatMap Instr.occurrences := by
  obtain ⟨i, hi, hmem⟩ := List.mem_flatMap.1 hv
  refine List.mem_flatMap.2 ⟨i.rename σ, List.mem_map_of_mem hi, ?_⟩
  rw [Instr.occurrences_rename]
  exact List.mem_map_of_mem hmem

/-- A renaming of what is reached extends to the temporaries. -/
theorem exists_normalForm_rename (hinj : Set.InjOn σ {v | v ∈ scope})
    (hreach : p.reachable.flatMap Instr.occurrences ⊆ scope) (hscope : scope ⊆ p.vars)
    (htaken : ∀ v ∈ scope, σ v ∈ q.vars) (hrename : q.reachable = p.reachable.map (Instr.rename σ))
    (legalize : Bool) :
    ∃ τ : Var → Var, (∀ v ∈ scope, τ v = σ v) ∧
      Set.InjOn τ {v | v ∈ scope ∨ v ∈ (p.normalForm legalize).vars} ∧
      q.normalForm legalize = (p.normalForm legalize).rename τ := by
  obtain ⟨τ, htemp, hsame, hinj'⟩ := TempSupply.exists_renaming (.avoiding p.vars)
    (.avoiding q.vars) hinj hscope htaken
  have hmap : p.reachable.map (Instr.rename σ) = p.reachable.map (Instr.rename τ) := by
    refine List.map_congr_left fun i hi => Instr.rename_congr fun v hv => ?_
    exact (hsame v (hreach (List.mem_flatMap.2 ⟨i, hi, hv⟩))).symm
  refine ⟨τ, hsame, hinj'.mono ?_, ?_⟩
  · rintro v (hv | hv)
    · exact Or.inl hv
    · exact (mem_vars_normalForm hv).imp (fun hmem => hreach hmem) And.left
  · have hinstrs : (q.normalForm legalize).instrs = ((p.normalForm legalize).rename τ).instrs := by
      rw [instrs_normalForm, hrename, hmap, NormalForm.ofInstrs_rename _ htemp]
      rfl
    exact congrArg Program.mk hinstrs

end Program

/-! ### Spilled variables -/

namespace Allocator

variable {a b : Allocator} {v w : Var} {r : PoolReg} {excluded : List PoolReg}
  {scope reads : List Var}

theorem mem_spilled_acquire (h : a.acquire v excluded = (.ok r, b)) (hw : w ∈ b.spilled) :
    w ∈ a.spilled ∨ ∃ s, a.register? w = some s := by
  obtain ⟨grant, hgrants, _, rfl⟩ := acquire_eq_ok_iff.1 h
  cases grant with
  | found how r =>
      rw [spilled_settle_found] at hw
      exact Or.inl hw
  | evict r u placement =>
      rw [spilled_settle_evict, Var.mem_insertSorted] at hw
      obtain rfl | hw := hw
      · exact Or.inr ⟨r, Bijection.image?_eq_some_iff.2 hgrants.occupant?_of_evict⟩
      · exact Or.inl hw

theorem spilled_consume (h : a.consume v = (.ok (), b)) : b.spilled = a.spilled := by
  obtain ⟨pending, _, rfl⟩ := consume_eq_ok_iff.1 h
  rfl

end Allocator

theorem Body.Emitted.spilled_subset {ret : Reg} {is : List Instr} {a b : Allocator}
    {lines : List Line} {scope : List Var} (h : Emitted ret is a lines b)
    (ha : a.Ready scope (is.flatMap Instr.uses)) (hin : ∀ i ∈ is, i.Within scope)
    (hspilled : a.spilled ⊆ scope) : b.spilled ⊆ scope := by
  induction h with
  | nil => exact hspilled
  | @cons i rest a b c asm lines hsel hrest ih =>
      have hi := hin i List.mem_cons_self
      rw [List.flatMap_cons] at ha
      have hb : b.spilled ⊆ scope := by
        refine hsel.preserves_of_asks (P := fun b => b.spilled ⊆ scope)
          (fun hasks hc hacq w hw => ?_) (fun hc hcon => ?_)
          hspilled
        · obtain hw | ⟨s, hs⟩ := Allocator.mem_spilled_acquire hacq hw
          · exact hc hw
          · exact (hasks.ready ha hi).mem_scope hs
        · rwa [Allocator.spilled_consume hcon]
      exact ih (hsel.ready ha hi).drain (fun j hj => hin j (List.mem_cons_of_mem i hj)) hb

/-! ### Compilations -/

/-- The second compilation is the first with its variables renamed: nothing but comments and the
names of spilled variables can tell them apart. -/
structure Compilation.Renamed (σ : Var → Var) (c d : Compilation) : Prop where
  normalized_eq : d.normalized = c.normalized.rename σ
  muted_eq : d.listing.muted = c.listing.muted
  comments_eq : d.listing.comments = d.normalized.instrs.map Instr.text
  stats_eq : d.stats = c.stats.rename σ
  normalizedCount_eq : d.normalizedCount = c.normalizedCount
  asmCount_eq : d.asmCount = c.asmCount

theorem Compilation.Renamed.instrs_eq {σ : Var → Var} {c d : Compilation} (h : c.Renamed σ d) :
    d.listing.instrs = c.listing.instrs := by
  rw [← d.listing.instrs_muted, h.muted_eq, c.listing.instrs_muted]

theorem Compilation.Renamed.mem_spilled_iff {σ : Var → Var} {c d : Compilation}
    (h : c.Renamed σ d) (w : Var) : w ∈ d.stats.spilled ↔ ∃ v ∈ c.stats.spilled, σ v = w := by
  rw [h.stats_eq, Stats.rename, Var.mem_sorted, List.mem_map]

theorem Compilation.spilled_subset {o : Options} {p : Program} {c : Compilation}
    (h : (o.compile p).outcome = .ok c) : c.stats.spilled ⊆ c.normalized.vars := by
  obtain ⟨hvalid, l, hlower, rfl⟩ := Options.compile_eq_ok_iff.1 h
  have hstats := Emitter.stats_lower (e := { options := o }) hvalid hlower
  obtain ⟨hbody, _⟩ := (Emitter.lower_eq_ok_iff (e := { options := o }) hvalid).1 hlower
  have hsub := (Emitter.emitted_body hbody).spilled_subset (Options.ready_allocator hvalid _)
    Program.within_vars
    (List.nil_subset _)
  show l.stats.spilled ⊆ (p.normalForm o.legalize).vars
  rwa [hstats]

namespace Options

variable {σ : Var → Var} {o : Options} {p p' : Program} {c d : Compilation}

/-- With valid options a compilation fails only by outgrowing words. -/
theorem exists_trapped (hvalid : o.validate = .ok ()) {f : Failure}
    (h : (o.compile p).outcome = .error f) : ∃ trap, f = .trapped trap := by
  rw [compile_eq_error_iff hvalid] at h
  cases hbody : (Emitter.body { options := o } (p.normalForm o.legalize)).outcome with
  | error f' =>
      rw [Emitter.outcome_lower hvalid, hbody] at h
      cases h
      exact ⟨_, Emitter.body_eq_overflow (e := { options := o }) hvalid
        Program.normalForm_not_misplaced hbody⟩
  | ok =>
      rw [Emitter.lower_eq_error_iff hvalid hbody] at h
      obtain ⟨trap, _, rfl⟩ := Option.map_eq_some_iff.1 h
      exact ⟨trap, rfl⟩

theorem compile_eq_error_iff_of_rename (hvalid : o.validate = .ok ())
    (hinj : Set.InjOn σ {v | v ∈ (p.normalForm o.legalize).vars})
    (hrename : p'.normalForm o.legalize = (p.normalForm o.legalize).rename σ) (f : Failure) :
    (o.compile p').outcome = .error f ↔ (o.compile p).outcome = .error f := by
  have hlower := Emitter.lower_rename (e := { options := o }) hvalid hinj
    Program.normalForm_not_misplaced
  rw [compile_eq_error_iff hvalid, compile_eq_error_iff hvalid, hrename]
  cases hl : (Emitter.lower { options := o } (p.normalForm o.legalize)).1.outcome <;>
    cases hl' : (Emitter.lower { options := o } ((p.normalForm o.legalize).rename σ)).1.outcome <;>
    rw [hl, hl'] at hlower
  · rw [Except.error.inj hlower]
  · cases hlower
  · cases hlower
  · exact ⟨nofun, nofun⟩

theorem renamed_of_rename (hinj : Set.InjOn σ {v | v ∈ (p.normalForm o.legalize).vars})
    (hrename : p'.normalForm o.legalize = (p.normalForm o.legalize).rename σ)
    (hc : (o.compile p).outcome = .ok c) (hd : (o.compile p').outcome = .ok d) : c.Renamed σ d := by
  have hcomments := Compilation.comments_listing hd
  obtain ⟨hvalid, l, hl, rfl⟩ := compile_eq_ok_iff.1 hc
  obtain ⟨_, l', hl', rfl⟩ := compile_eq_ok_iff.1 hd
  have hlower := Emitter.lower_rename (e := { options := o }) hvalid hinj
    Program.normalForm_not_misplaced
  rw [← hrename, hl, hl'] at hlower
  have hmuted : l'.muted = Lowered.muted { l with stats := l.stats.rename σ } :=
    Except.ok.inj hlower
  have hlisting : l'.listing.muted = l.listing.muted := congrArg Lowered.listing hmuted
  refine ⟨hrename, hlisting, hcomments, congrArg Lowered.stats hmuted, ?_, ?_⟩
  · show (p'.normalForm o.legalize).size = (p.normalForm o.legalize).size
    rw [hrename]
    exact List.length_map _
  · show l'.listing.instrs.length = l.listing.instrs.length
    rw [← l'.listing.instrs_muted, hlisting, l.listing.instrs_muted]

/-- **What is emitted does not depend on names.** -/
theorem names_do_not_matter {q : Program} (hvalid : o.validate = .ok ())
    (hinj : Set.InjOn σ {v | v ∈ p.reachable.flatMap Instr.occurrences})
    (hrename : q.reachable = p.reachable.map (Instr.rename σ)) :
    (∀ f, (o.compile q).outcome = .error f ↔ (o.compile p).outcome = .error f) ∧
    (∀ f, (o.compile p).outcome = .error f → ∃ trap, f = .trapped trap) ∧
    ∀ c, (o.compile p).outcome = .ok c → ∃ d, (o.compile q).outcome = .ok d ∧
      d.listing.instrs = c.listing.instrs ∧ d.stats.stores = c.stats.stores ∧
      d.stats.reloads = c.stats.reloads ∧
      d.stats.frameSize = c.stats.frameSize ∧
      ∃ τ : Var → Var, (∀ v ∈ p.reachable.flatMap Instr.occurrences, τ v = σ v) ∧
        Set.InjOn τ {v | v ∈ p.reachable.flatMap Instr.occurrences ∨ v ∈ c.normalized.vars} ∧
        d.normalized = c.normalized.rename τ ∧ c.stats.spilled ⊆ c.normalized.vars ∧
        ∀ w, w ∈ d.stats.spilled ↔ ∃ v ∈ c.stats.spilled, τ v = w := by
  have htaken : ∀ v ∈ p.reachable.flatMap Instr.occurrences, σ v ∈ q.vars := fun v hv =>
    q.occurrences_reachable_subset (hrename ▸ Program.mem_occurrences_map_rename hv)
  obtain ⟨τ, hsame, hinj', hnormal⟩ := Program.exists_normalForm_rename hinj (List.Subset.refl _)
    p.occurrences_reachable_subset htaken hrename o.legalize
  have hinjVars : Set.InjOn τ {v | v ∈ (p.normalForm o.legalize).vars} := hinj'.mono fun v => Or.inr
  have hfails := compile_eq_error_iff_of_rename hvalid hinjVars hnormal
  refine ⟨hfails, fun f => exists_trapped hvalid, fun c hc => ?_⟩
  cases hd : (o.compile q).outcome with
  | error f =>
      rw [hfails, hc] at hd
      cases hd
  | ok d =>
      have hrenamed := renamed_of_rename hinjVars hnormal hc hd
      have hstats := hrenamed.stats_eq
      refine ⟨d, rfl, hrenamed.instrs_eq, by rw [hstats, Stats.rename],
        by rw [hstats, Stats.rename], by rw [hstats, Stats.rename], τ, hsame, ?_,
        hrenamed.normalized_eq, Compilation.spilled_subset hc, hrenamed.mem_spilled_iff⟩
      rwa [Compilation.normalized_eq hc]

/-- The second program calls its variables like temporaries and mentions another one behind its
return, so the temporaries `$0` and `$1` of the first become `$1` and `$4`. Two variables are
spilled in both. -/
theorem names_do_not_matter_shifted :
    let o : Options := { poolSize := 3 }
    let p : Program := ⟨[.mov ⟨"a"⟩ (.imm 1), .mov ⟨"b"⟩ (.imm 2), .mov ⟨"c"⟩ (.imm 3),
      .binary .mul ⟨"a"⟩ (.var ⟨"a"⟩) (.imm 5), .binary .add ⟨"b"⟩ (.var ⟨"b"⟩) (.var ⟨"c"⟩),
      .binary .sub ⟨"a"⟩ (.imm 7) (.var ⟨"a"⟩), .binary .mul ⟨"a"⟩ (.var ⟨"a"⟩) (.var ⟨"b"⟩),
        .ret (.var ⟨"a"⟩)]⟩
    let q : Program := ⟨[.mov ⟨"$0"⟩ (.imm 1), .mov ⟨"a"⟩ (.imm 2), .mov ⟨"$2"⟩ (.imm 3),
      .binary .mul ⟨"$0"⟩ (.var ⟨"$0"⟩) (.imm 5), .binary .add ⟨"a"⟩ (.var ⟨"a"⟩) (.var ⟨"$2"⟩),
      .binary .sub ⟨"$0"⟩ (.imm 7) (.var ⟨"$0"⟩), .binary .mul ⟨"$0"⟩ (.var ⟨"$0"⟩) (.var ⟨"a"⟩),
        .ret (.var ⟨"$0"⟩),
      .mov ⟨"$3"⟩ (.imm 0)]⟩
    let σ : Var → Var := fun v => if v = ⟨"a"⟩ then ⟨"$0"⟩ else if v = ⟨"b"⟩ then ⟨"a"⟩ else ⟨"$2"⟩
    o.validate = .ok () ∧ Set.InjOn σ {v | v ∈ p.reachable.flatMap Instr.occurrences} ∧
      q.reachable = p.reachable.map (Instr.rename σ) ∧ ∃ c d, (o.compile p).outcome = .ok c ∧
        (o.compile q).outcome = .ok d ∧
        d.listing.instrs = c.listing.instrs ∧ c.stats.spilled = [⟨"a"⟩, ⟨"b"⟩] ∧
        (∀ w, w ∈ d.stats.spilled ↔ w = ⟨"$0"⟩ ∨ w = ⟨"a"⟩) ∧
        ∃ τ : Var → Var, τ ⟨"a"⟩ = ⟨"$0"⟩ ∧ d.normalized = c.normalized.rename τ ∧
          c.normalized.instrs[3]? =
          some (.mov ⟨"$0"⟩ (.imm 5)) ∧ d.normalized.instrs[3]? = some (.mov ⟨"$1"⟩ (.imm 5)) := by
  intro o p q σ
  have hvalid : o.validate = .ok () := by decide
  have happart : ∀ v ∈ p.reachable.flatMap Instr.occurrences,
      ∀ w ∈ p.reachable.flatMap Instr.occurrences, σ v = σ w → v = w := by decide
  have hinj : Set.InjOn σ {v | v ∈ p.reachable.flatMap Instr.occurrences} :=
    fun v hv w hw => happart v hv w hw
  have hrename : q.reachable = p.reachable.map (Instr.rename σ) := by decide
  have hfacts : (o.compile p).outcome.toOption.map
      (fun c => (c.stats.spilled, c.normalized.instrs[3]?)) =
      some ([⟨"a"⟩, ⟨"b"⟩], some (.mov ⟨"$0"⟩ (.imm 5))) := by decide
  have htemp : (q.normalForm o.legalize).instrs[3]? = some (.mov ⟨"$1"⟩ (.imm 5)) := by decide
  obtain ⟨c, hc, hvalues⟩ := exists_compiled hfacts
  obtain ⟨hspilled, hfirst⟩ := Prod.mk.inj hvalues
  obtain ⟨_, _, hcompiles⟩ := names_do_not_matter hvalid hinj hrename
  obtain ⟨d, hd, hinstrs, _, _, _, τ, hsame, _, hnormalized, _, hspilled'⟩ := hcompiles c hc
  have ha : τ ⟨"a"⟩ = ⟨"$0"⟩ := hsame _ (by decide)
  have hb : τ ⟨"b"⟩ = ⟨"a"⟩ := hsame _ (by decide)
  refine ⟨hvalid, hinj, hrename, c, d, hc, hd, hinstrs, hspilled, fun w => ?_, τ, ha,
    hnormalized, hfirst, ?_⟩
  · simp [hspilled', hspilled, ha, hb, eq_comm]
  · rw [Compilation.normalized_eq hd, htemp]

end Options

end StraightLine
