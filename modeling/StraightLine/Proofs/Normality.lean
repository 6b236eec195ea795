import StraightLine.Proofs.DeadTail

/-!
# Programs in normal form

Normal form has a description of its own, which does not mention how it is reached. `Instr.Normal`
lists the instructions that have an emitted form, and a program is normal if all its instructions
are and nothing follows a return. Every run of a normalizer ends in a normal program, and a normal
program is left as it is: none of its instructions needs a rewriting, so no temporary is made and
nothing is dropped. A second run therefore changes nothing, and it does not matter to a compilation
whether it is given a program or its normal form.
-/

namespace StraightLine

/-- The instructions with an emitted form: an operator reads a variable on its left, a product reads
two, and a word on the right of a sum or of a difference is one that an addition can hold, if wide
words are moved away. -/
inductive Instr.Normal (legalize : Bool) : Instr → Prop
  | mov {dst : Var} {src : Operand} : Normal legalize (.mov dst src)
  | ret {value : Operand} : Normal legalize (.ret value)
  | vars {op : Operator} {dst v w : Var} : Normal legalize (.binary op dst (.var v) (.var w))
  | sum {dst v : Var} {k : Int32} (hfits : legalize = true → -2048 ≤ k.toInt ∧ k.toInt ≤ 2047) :
      Normal legalize (.binary .add dst (.var v) (.imm k))
  | difference {dst v : Var} {k : Int32}
      (hfits : legalize = true → -2048 ≤ -k.toInt ∧ -k.toInt ≤ 2047) :
      Normal legalize (.binary .sub dst (.var v) (.imm k))

/-- Every instruction is normal, and nothing follows a return. -/
structure Program.Normal (legalize : Bool) (p : Program) : Prop where
  instrs : ∀ i ∈ p.instrs, i.Normal legalize
  returns_last : ∀ front i back, p.instrs = front ++ i :: back → i.isReturn = true → back = []

/-! ### Instructions -/

namespace NormalForm

variable {legalize : Bool} {t : Var} {i j : Instr} {is js : List Instr}

theorem holds_add_iff {k : Int32} :
    (Operator.add.holds k || !legalize) = true ↔
      (legalize = true → -2048 ≤ k.toInt ∧ k.toInt ≤ 2047) := by
  cases legalize <;> simp [Operator.holds, isShort]

theorem holds_sub_iff {k : Int32} :
    (Operator.sub.holds k || !legalize) = true ↔
      (legalize = true → -2048 ≤ -k.toInt ∧ -k.toInt ≤ 2047) := by
  cases legalize <;> simp [Operator.holds, isShort]

theorem normal_word {op : Operator} {dst v : Var} {k : Int32} (hop : op ≠ .mul)
    (hfits : (op.holds k || !legalize) = true) :
    Instr.Normal legalize (.binary op dst (.var v) (.imm k)) := by
  cases op with
  | add => exact .sum (holds_add_iff.1 hfits)
  | sub => exact .difference (holds_sub_iff.1 hfits)
  | mul => exact absurd rfl hop

theorem Rewrites.normal (h : Rewrites legalize t i js) (hj : j ∈ js) : j.Normal legalize := by
  cases h with
  | mov | folded => cases List.mem_singleton.1 hj; exact .mov
  | ret => cases List.mem_singleton.1 hj; exact .ret
  | vars => cases List.mem_singleton.1 hj; exact .vars
  | swapped hfits => cases List.mem_singleton.1 hj; exact normal_word nofun hfits
  | word hop hfits => cases List.mem_singleton.1 hj; exact normal_word hop hfits
  | swappedTemp | leftTemp | rightTemp =>
      obtain rfl | rfl := List.mem_pair.1 hj
      · exact .mov
      · exact .vars

theorem rewrites_of_normal (h : i.Normal legalize) (t : Var) : Rewrites legalize t i [i] := by
  cases h with
  | mov => exact .mov
  | ret => exact .ret
  | vars => exact .vars
  | sum hfits => exact .word nofun (holds_add_iff.2 hfits)
  | difference hfits => exact .word nofun (holds_sub_iff.2 hfits)

theorem ofInstr_of_normal (h : i.Normal legalize) (s : TempSupply) :
    ofInstr legalize i s = ([i], s) := by
  have hsame : (ofInstr legalize i s).1 = [i] :=
    (rewrites_ofInstr legalize i s).unique (rewrites_of_normal h _)
  have hsupply := supply_ofInstr legalize i s
  rw [hsame, List.length_singleton, if_pos rfl] at hsupply
  exact Prod.ext hsame hsupply

theorem ofInstrs_of_normal (h : ∀ i ∈ is, i.Normal legalize) (s : TempSupply) :
    ofInstrs legalize is s = (is, s) := by
  induction is with
  | nil => rfl
  | cons i rest ih =>
      obtain ⟨hi, hrest⟩ := List.forall_mem_cons.1 h
      simp only [ofInstrs, ofInstr_of_normal hi, ih hrest]
      rfl

end NormalForm

/-! ### Programs -/

namespace Program

variable {legalize : Bool} {p q : Program} {is : List Instr}

theorem throughReturn_eq_self_iff :
    throughReturn is = is ↔ ∀ front i back, is = front ++ i :: back → i.isReturn = true →
      back = [] := by
  constructor
  · rintro h front i back rfl hi
    have hany : (front ++ [i]).any Instr.isReturn = true := by simp [hi]
    rw [← List.singleton_append, ← List.append_assoc, throughReturn_followed hany] at h
    obtain ⟨tail, htail⟩ := exists_eq_throughReturn_append (front ++ [i])
    rw [h] at htail
    have hlength := congrArg List.length htail
    simp only [List.length_append] at hlength
    exact List.eq_nil_of_length_eq_zero (by omega)
  · intro h
    induction is with
    | nil => rfl
    | cons i rest ih =>
        rw [throughReturn]
        split
        · next hret => rw [h [] i rest rfl hret]
        · rw [ih fun front j back heq => h (i :: front) j back (congrArg (i :: ·) heq)]

theorem unreachable_eq_length (p : Program) :
    p.unreachable = ((p.instrs.dropWhile fun i => !i.isReturn).drop 1).length := by
  have hcount : ∀ is : List Instr,
      is.length = (throughReturn is).length +
      ((is.dropWhile fun i => !i.isReturn).drop 1).length := by
    intro is
    induction is with
    | nil => rfl
    | cons i rest ih =>
        rw [throughReturn, List.dropWhile_cons]
        cases i.isReturn with
        | true => simp [Nat.add_comm]
        | false =>
            simp only [Bool.not_false, if_true, Bool.false_eq_true, if_false, List.length_cons]
            omega
  have hsize := hcount p.instrs
  rw [unreachable, size, reachable]
  omega

theorem normal_normalForm (p : Program) (legalize : Bool) :
    (p.normalForm legalize).Normal legalize where
  instrs := by
    intro j hj
    obtain ⟨_, _, _, _, _, hrewrites, hmem⟩ := NormalForm.mem_ofInstrs hj
    exact hrewrites.normal hmem
  returns_last := throughReturn_eq_self_iff.1
    (NormalForm.throughReturn_ofInstrs legalize p.instrs _)

theorem Normal.reachable_eq (h : p.Normal legalize) : p.reachable = p.instrs :=
  throughReturn_eq_self_iff.2 h.returns_last

theorem Normal.unreachable_eq_zero (h : p.Normal legalize) : p.unreachable = 0 := by
  rw [unreachable, h.reachable_eq, size, Nat.sub_self]

theorem Normal.normalForm_eq (h : p.Normal legalize) : p.normalForm legalize = p := by
  have hinstrs : (p.normalForm legalize).instrs = p.instrs := by
    rw [instrs_normalForm, h.reachable_eq, NormalForm.ofInstrs_of_normal h.instrs]
  exact congrArg Program.mk hinstrs

theorem exists_isReturn_normalForm_iff (p : Program) (legalize : Bool) :
    (∃ i ∈ (p.normalForm legalize).instrs, i.isReturn = true) ↔
      ∃ i ∈ p.instrs, i.isReturn = true := by
  rw [← List.any_eq_true, ← List.any_eq_true, instrs_normalForm, reachable,
    NormalForm.any_isReturn_ofInstrs]

end Program

/-! ### Runs -/

def Compilation.product (c : Compilation) : Program × Listing × Stats :=
  (c.normalized, c.listing, c.stats)

/-- A compilation makes the same of programs that have the same normal form, or fails alike. -/
theorem Options.product_compile_congr {o : Options} {p q : Program}
    (h : q.normalForm o.legalize = p.normalForm o.legalize) :
    (o.compile q).outcome.map Compilation.product =
        (o.compile p).outcome.map Compilation.product := by
  cases hvalid : o.validate with
  | error fault => simp only [compile, hvalid]
  | ok =>
      rw [outcome_compile hvalid, outcome_compile hvalid, h]
      cases (Emitter.lower { options := o } (p.normalForm o.legalize)).1.outcome <;> rfl

namespace Normalizer

theorem program_run (n : Normalizer) (p : Program) : (n.run p).1 = p.normalForm n.legalize := rfl

theorem discarded_run (n : Normalizer) (p : Program) : (n.run p).2.discarded = p.unreachable := rfl

/-- **One run reaches normal form, and another changes nothing.** A normalizer makes a normal
program, which returns if and only if the given one does, and counts the instructions behind the
first return. Run again on what it has made, it makes the same program and drops nothing; and under
options that treat wide words alike, the program and what was made of it are compiled to the same
normal form and listing at the same costs, or fail alike. -/
theorem run_reaches_normal_form (n : Normalizer) (p : Program) :
    (n.run p).1.Normal n.legalize ∧
    ((∃ i ∈ (n.run p).1.instrs, i.isReturn = true) ↔ ∃ i ∈ p.instrs, i.isReturn = true) ∧
    (n.run p).2.discarded = ((p.instrs.dropWhile fun i => !i.isReturn).drop 1).length ∧
    (∀ m : Normalizer, m.legalize = n.legalize →
      (m.run (n.run p).1).1 = (n.run p).1 ∧ (m.run (n.run p).1).2.discarded = 0) ∧
    ∀ o : Options, o.legalize = n.legalize →
      (o.compile (n.run p).1).outcome.map Compilation.product =
      (o.compile p).outcome.map Compilation.product := by
  have hnormal := p.normal_normalForm n.legalize
  refine ⟨hnormal, p.exists_isReturn_normalForm_iff n.legalize, p.unreachable_eq_length, ?_, ?_⟩
  · intro m hm
    rw [program_run m, hm, program_run n, discarded_run]
    exact ⟨hnormal.normalForm_eq, hnormal.unreachable_eq_zero⟩
  · intro o ho
    refine Options.product_compile_congr ?_
    rw [ho, program_run]
    exact hnormal.normalForm_eq

/-- A program with a wide sum, a word that has no opposite, a product of a word and two returns is
rewritten once. -/
theorem run_reaches_normal_form_wide :
    let x : Var := ⟨"x"⟩
    let p : Program := ⟨[.binary .add x (.imm 2048) (.var x),
      .binary .sub x (.var x) (.imm Int32.minValue), .binary .mul x (.imm 3) (.imm 7),
      .binary .sub x (.var x) (.imm 2048), .ret (.var x), .mov x (.imm 0), .ret (.var x)]⟩
    let q : Program := ⟨[.mov ⟨"$0"⟩ (.imm 2048), .binary .add x (.var x) (.var ⟨"$0"⟩),
      .mov ⟨"$1"⟩ (.imm Int32.minValue), .binary .sub x (.var x) (.var ⟨"$1"⟩), .mov x (.imm 21),
      .binary .sub x (.var x) (.imm 2048), .ret (.var x)]⟩
    let n : Normalizer := {}
    let o : Options := {}
    (n.run p).1 = q ∧ (n.run p).2.discarded = 2 ∧ (n.run q).1 = q ∧ (n.run q).2.discarded = 0 ∧
      o.validate = .ok () ∧
      ∃ c, (o.compile p).outcome.map Compilation.product = .ok c ∧
      (o.compile q).outcome.map Compilation.product = .ok c := by
  intro x p q n o
  have hrun : (n.run p).1 = q := by decide
  obtain ⟨_, _, hdiscarded, hagain, hcompile⟩ := run_reaches_normal_form n p
  obtain ⟨hsame, hzero⟩ := hagain n rfl
  have hproduct := hcompile o rfl
  rw [hrun] at hsame hzero hproduct
  have hsize : (o.compile p).outcome.toOption.map (fun c => c.stats.frameSize) = some 0 := by decide
  obtain ⟨c, hc, _⟩ := Options.exists_compiled hsize
  rw [hc] at hproduct
  exact ⟨hrun, hdiscarded, hsame, hzero, by decide, c.product, by rw [hc]; rfl, hproduct⟩

end Normalizer

end StraightLine
