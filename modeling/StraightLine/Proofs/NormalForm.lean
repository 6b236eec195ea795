import StraightLine.NormalForm.Basic
import StraightLine.Proofs.Emission.Select
import StraightLine.Proofs.Semantics.Evaluator

/-!
# What normal form keeps and establishes

`Rewrites` lists what can stand for one instruction in normal form, with the temporary that it may
need and the condition under which each choice is made. Everything else is read off this list: no
instruction in normal form is misplaced, a word that stays on the right of an operator fits when
wide words are moved away, returns stay where they were, and each rewriting computes what the
instruction computes. The temporary is not a variable of the program, so the words that the program
sees are never touched.
-/

namespace StraightLine

namespace Program

theorem throughReturn_append {front : List Instr} (h : ∀ i ∈ front, i.isReturn = false)
    (back : List Instr) : throughReturn (front ++ back) = front ++ throughReturn back := by
  induction front with
  | nil => rfl
  | cons i front ih =>
      rw [List.cons_append, throughReturn, h i List.mem_cons_self, if_neg (by simp)]
      rw [ih fun j hj => h j (List.mem_cons_of_mem i hj), List.cons_append]

theorem of_throughReturn_eq {is : List Instr} (h : throughReturn is = is) :
    (∀ i ∈ is, i.isReturn = false) ∨
      ∃ front last, is = front ++ [last] ∧ last.isReturn = true ∧
      ∀ i ∈ front, i.isReturn = false := by
  induction is with
  | nil => exact Or.inl fun i hi => by cases hi
  | cons i rest ih =>
      rw [throughReturn] at h
      cases hi : i.isReturn with
      | true =>
          rw [hi, if_pos rfl] at h
          exact Or.inr ⟨[], i, h.symm, hi, fun j hj => by cases hj⟩
      | false =>
          rw [hi, if_neg (by simp), List.cons.injEq] at h
          obtain hrest | ⟨front, last, rfl, hlast, hfront⟩ := ih h.2
          · exact Or.inl fun j hj => (List.mem_cons.1 hj).elim (fun heq => heq ▸ hi) (hrest j)
          · refine Or.inr ⟨i :: front, last, rfl, hlast, fun j hj => ?_⟩
            exact (List.mem_cons.1 hj).elim (fun heq => heq ▸ hi) (hfront j)

end Program

namespace NormalForm

/-- The instructions that stand for one instruction, of which `t` is the temporary. -/
inductive Rewrites (legalize : Bool) (t : Var) : Instr → List Instr → Prop
  | mov {dst : Var} {src : Operand} : Rewrites legalize t (.mov dst src) [.mov dst src]
  | ret {value : Operand} : Rewrites legalize t (.ret value) [.ret value]
  | folded {op : Operator} {dst : Var} {a b : Int32} :
      Rewrites legalize t (.binary op dst (.imm a) (.imm b)) [.mov dst (.imm (op.apply a b))]
  | vars {op : Operator} {dst v w : Var} :
      Rewrites legalize t (.binary op dst (.var v) (.var w)) [.binary op dst (.var v) (.var w)]
  | swapped {dst w : Var} {a : Int32} (hfits : (Operator.add.holds a || !legalize) = true) :
      Rewrites legalize t (.binary .add dst (.imm a) (.var w)) [.binary .add dst (.var w) (.imm a)]
  | swappedTemp {dst w : Var} {a : Int32} (hwide : (Operator.add.holds a || !legalize) = false) :
      Rewrites legalize t (.binary .add dst (.imm a) (.var w))
        [.mov t (.imm a), .binary .add dst (.var w) (.var t)]
  | leftTemp {op : Operator} {dst w : Var} {a : Int32} (hop : op ≠ .add) :
      Rewrites legalize t (.binary op dst (.imm a) (.var w))
        [.mov t (.imm a), .binary op dst (.var t) (.var w)]
  | word {op : Operator} {dst v : Var} {b : Int32} (hop : op ≠ .mul)
      (hfits : (op.holds b || !legalize) = true) :
      Rewrites legalize t (.binary op dst (.var v) (.imm b)) [.binary op dst (.var v) (.imm b)]
  | rightTemp {op : Operator} {dst v : Var} {b : Int32}
      (hwide : op = .mul ∨ (op.holds b || !legalize) = false) :
      Rewrites legalize t (.binary op dst (.var v) (.imm b))
        [.mov t (.imm b), .binary op dst (.var v) (.var t)]

variable {legalize : Bool} {t : Var} {i j : Instr} {is js : List Instr} {s : TempSupply}
  {scope : List Var} {e f : Env}

theorem rewrites_ofInstr (legalize : Bool) (i : Instr) (s : TempSupply) :
    Rewrites legalize s.fresh.1 i (ofInstr legalize i s).1 := by
  obtain ⟨dst, src⟩ | ⟨op, dst, v | a, w | b⟩ | ⟨value⟩ := i
  · exact .mov
  · exact .vars
  · rw [ofInstr, ofBinary]
    split
    · next hmul => exact .rightTemp (Or.inl hmul)
    · next hmul =>
        rw [withWord]
        split
        · next hfits => exact .word hmul hfits
        · next hwide => exact .rightTemp (Or.inr (by simpa using hwide))
  · rw [ofInstr, ofBinary]
    split
    · next hadd =>
        subst hadd
        rw [withWord]
        split
        · next hfits => exact .swapped hfits
        · next hwide => exact .swappedTemp (by simpa using hwide)
    · next hadd => exact .leftTemp hadd
  · exact .folded
  · exact .ret

/-- A temporary is handed out exactly when a second instruction is needed. -/
theorem supply_ofInstr (legalize : Bool) (i : Instr) (s : TempSupply) :
    (ofInstr legalize i s).2 = if (ofInstr legalize i s).1.length = 1 then s else s.fresh.2 := by
  obtain ⟨dst, src⟩ | ⟨op, dst, v | a, w | b⟩ | ⟨value⟩ := i
  · rfl
  · rfl
  · rw [ofInstr, ofBinary, withWord]
    split
    · rfl
    · split <;> rfl
  · rw [ofInstr, ofBinary, withWord]
    split
    · split <;> rfl
    · rfl
  · rfl
  · rfl

theorem taken_ofInstr (legalize : Bool) (i : Instr) (s : TempSupply) :
    (ofInstr legalize i s).2.taken = s.taken := by
  rw [supply_ofInstr]
  split <;> rfl

/-- What holds of every rewriting by a temporary that is not taken holds of a whole list, piece by
piece. -/
theorem mem_ofInstrs (h : j ∈ (ofInstrs legalize is s).1) :
    ∃ i ∈ is, ∃ t js, t ∉ s.taken ∧ Rewrites legalize t i js ∧ j ∈ js := by
  induction is generalizing s with
  | nil => cases h
  | cons i rest ih =>
      have hhead := rewrites_ofInstr legalize i s
      have htaken := taken_ofInstr legalize i s
      rw [ofInstrs] at h
      obtain h | h := List.mem_append.1 h
      · exact ⟨i, List.mem_cons_self, _, _, s.fresh_not_mem, hhead, h⟩
      · obtain ⟨k, hk, t, js, ht, hrewrites, hj⟩ := ih h
        rw [htaken] at ht
        exact ⟨k, List.mem_cons_of_mem i hk, t, js, ht, hrewrites, hj⟩

/-! ### The shape of what stands for an instruction -/

theorem Rewrites.not_misplaced (h : Rewrites legalize t i js) (hj : j ∈ js) :
    j.isMisplaced = false := by
  cases h with
  | word hop => cases List.mem_singleton.1 hj; simp [Instr.isMisplaced, Operand.imm?, hop]
  | mov | ret | folded | vars | swapped =>
      cases List.mem_singleton.1 hj; simp [Instr.isMisplaced, Operand.imm?]
  | swappedTemp | leftTemp | rightTemp =>
      rcases List.mem_pair.1 hj with rfl | rfl <;> simp [Instr.isMisplaced, Operand.imm?]

/-- A word on the right of an operator fits if wide words are moved away. -/
theorem Rewrites.holds {op : Operator} {dst : Var} {lhs : Operand} {value : Int32}
    (h : Rewrites true t i js) (hj : .binary op dst lhs (.imm value) ∈ js) :
    op.holds value = true := by
  cases h with
  | mov | ret | folded | vars => cases List.mem_singleton.1 hj
  | swapped hfits | word _ hfits => cases List.mem_singleton.1 hj; simpa using hfits
  | swappedTemp | leftTemp | rightTemp => simp at hj

theorem Rewrites.of_isReturn (h : Rewrites legalize t i js) (hret : i.isReturn = true) :
    js = [i] := by
  cases h with
  | ret => rfl
  | _ => cases hret

theorem Rewrites.isReturn_eq_false (h : Rewrites legalize t i js) (hret : i.isReturn = false)
    (hj : j ∈ js) : j.isReturn = false := by
  cases h with
  | ret => cases hret
  | mov | folded | vars | swapped | word => cases List.mem_singleton.1 hj; rfl
  | swappedTemp | leftTemp | rightTemp => rcases List.mem_pair.1 hj with rfl | rfl <;> rfl

/-! ### Rewriting keeps meaning -/

/-- Single instructions of the same effect end alike. -/
theorem agree_of_effect_eq (h : e.Agree scope f) (heffect : j.effect e = i.effect f) :
    (Program.evalInstrs [j] e).Agree scope (Program.evalInstrs [i] f) := by
  simp only [Program.evalInstrs, heffect]
  cases i.effect f with
  | assign dst value => exact .finished (h.set dst value)
  | result value => exact .returned h
  | stuck v => exact .stuck

/-- A word may be moved to a temporary first. -/
theorem agree_of_temp (h : e.Agree scope f) (ht : t ∉ scope) {a : Int32}
    (heffect : j.effect (e.set t a) = i.effect f) :
    (Program.evalInstrs [.mov t (.imm a), j] e).Agree scope (Program.evalInstrs [i] f) :=
  agree_of_effect_eq (h.set_of_not_mem ht a) heffect

theorem Rewrites.agree (hrewrites : Rewrites legalize t i js) (ht : t ∉ scope)
    (hin : i.Within scope) (h : e.Agree scope f) :
    (Program.evalInstrs js e).Agree scope (Program.evalInstrs [i] f) := by
  have hsame : ∀ v ∈ i.uses, e v = f v := fun v hv => h v (hin.use hv)
  have hbehind : ∀ (v : Var) (x : Int32), v ∈ i.uses → e.set t x v = f v := by
    intro v x hv
    have hvt : v ≠ t := fun heq => ht (heq ▸ hin.use hv)
    rw [Env.set_of_ne hvt, hsame v hv]
  cases hrewrites with
  | mov | ret | vars | word => exact agree_of_effect_eq h (Instr.effect_congr hsame)
  | folded => exact agree_of_effect_eq h rfl
  | @swapped dst w a =>
      refine agree_of_effect_eq h ?_
      have hw : e w = f w := hsame w (by simp [Instr.uses, Instr.operands, Operand.var?])
      simp only [Instr.effect, Operand.eval, hw]
      cases f w with
      | none => rfl
      | some x => simp only [Operator.apply, Int32.add_comm]
  | @swappedTemp dst w a =>
      refine agree_of_temp h ht ?_
      have hw : e.set t a w = f w :=
        hbehind w a (by simp [Instr.uses, Instr.operands, Operand.var?])
      simp only [Instr.effect, Operand.eval, hw, Env.set_self]
      cases f w with
      | none => rfl
      | some x => simp only [Operator.apply, Int32.add_comm]
  | @leftTemp op dst w a =>
      refine agree_of_temp h ht ?_
      have hw : e.set t a w = f w :=
        hbehind w a (by simp [Instr.uses, Instr.operands, Operand.var?])
      simp only [Instr.effect, Operand.eval, hw, Env.set_self]
  | @rightTemp op dst v b =>
      refine agree_of_temp h ht ?_
      have hv : e.set t b v = f v :=
        hbehind v b (by simp [Instr.uses, Instr.operands, Operand.var?])
      simp only [Instr.effect, Operand.eval, hv, Env.set_self]

theorem agree_ofInstrs (hin : ∀ i ∈ is, i.Within scope) (hscope : scope ⊆ s.taken)
    (h : e.Agree scope f) :
    (Program.evalInstrs (ofInstrs legalize is s).1 e).Agree scope (Program.evalInstrs is f) := by
  induction is generalizing s e f with
  | nil => exact .finished h
  | cons i rest ih =>
      have hfresh : s.fresh.1 ∉ scope := fun hmem => s.fresh_not_mem (hscope hmem)
      have hhead := (rewrites_ofInstr legalize i s).agree hfresh (hin i List.mem_cons_self) h
      have htaken : scope ⊆ (ofInstr legalize i s).2.taken := by
        rw [taken_ofInstr]
        exact hscope
      rw [ofInstrs, Program.evalInstrs_append, ← List.singleton_append, Program.evalInstrs_append]
      exact hhead.andThen fun e f hef => ih
        (fun j hj => hin j (List.mem_cons_of_mem i hj)) htaken hef

/-! ### Returns -/

theorem throughReturn_ofInstrs (legalize : Bool) (is : List Instr) (s : TempSupply) :
    Program.throughReturn (ofInstrs legalize (Program.throughReturn is) s).1 =
      (ofInstrs legalize (Program.throughReturn is) s).1 := by
  induction is generalizing s with
  | nil => rfl
  | cons i rest ih =>
      have hhead := rewrites_ofInstr legalize i s
      rw [Program.throughReturn]
      cases hret : i.isReturn with
      | true =>
          have hsingle := hhead.of_isReturn hret
          rw [if_pos rfl, ofInstrs]
          simp only [hsingle, ofInstrs, List.append_nil, Program.throughReturn, hret, if_true]
      | false =>
          rw [if_neg (by simp), ofInstrs]
          simp only [Program.throughReturn_append fun j hj => hhead.isReturn_eq_false hret hj, ih]

theorem any_isReturn_ofInstrs (legalize : Bool) (is : List Instr) (s : TempSupply) :
    (ofInstrs legalize (Program.throughReturn is) s).1.any Instr.isReturn =
      is.any Instr.isReturn := by
  induction is generalizing s with
  | nil => rfl
  | cons i rest ih =>
      have hhead := rewrites_ofInstr legalize i s
      rw [Program.throughReturn, List.any_cons]
      cases hret : i.isReturn with
      | true =>
          have hsingle := hhead.of_isReturn hret
          rw [if_pos rfl, ofInstrs]
          simp [hsingle, hret]
      | false =>
          have hnone : (ofInstr legalize i s).1.any Instr.isReturn = false :=
            List.any_eq_false.2 fun j hj => by simp [hhead.isReturn_eq_false hret hj]
          rw [if_neg (by simp), ofInstrs]
          simp only [List.any_append, hnone, ih, Bool.false_or]

end NormalForm

namespace Program

variable {p : Program} {legalize : Bool}

theorem instrs_normalForm (p : Program) (legalize : Bool) :
    (p.normalForm legalize).instrs =
      (NormalForm.ofInstrs legalize p.reachable (.avoiding p.vars)).1 := rfl

theorem normalForm_not_misplaced : ∀ i ∈ (p.normalForm legalize).instrs, i.isMisplaced = false := by
  intro j hj
  obtain ⟨_, _, _, _, _, hrewrites, hmem⟩ := NormalForm.mem_ofInstrs hj
  exact hrewrites.not_misplaced hmem

theorem normalForm_holds {op : Operator} {dst : Var} {lhs : Operand} {value : Int32}
    (h : .binary op dst lhs (.imm value) ∈ (p.normalForm true).instrs) : op.holds value = true := by
  obtain ⟨_, _, _, _, _, hrewrites, hmem⟩ := NormalForm.mem_ofInstrs h
  exact hrewrites.holds hmem

theorem reachable_within : ∀ i ∈ p.reachable, i.Within p.vars := by
  intro i hi v hv
  obtain ⟨tail, htail⟩ := exists_eq_throughReturn_append p.instrs
  refine mem_vars.2 ⟨i, ?_, hv⟩
  rw [htail]
  exact List.mem_append_left tail hi

theorem agree_eval_normalForm {e f : Env} (h : e.Agree p.vars f) :
    ((p.normalForm legalize).eval e).Agree p.vars (p.eval f) := by
  rw [eval, eval, instrs_normalForm, ← evalInstrs_throughReturn p.instrs]
  exact NormalForm.agree_ofInstrs reachable_within (List.Subset.refl _) h

/-- **Normal form keeps meaning.** Run from the same words, a program up to its first return and its
normal form return the same word, or both finish, or both get stuck at the same variable, and they
leave the same words to the variables of the program. Where every variable has a word, neither gets
stuck. -/
theorem normalForm_keeps_meaning (p : Program) (legalize : Bool) (env : Env) :
    ((p.normalForm legalize).eval env).Agree p.vars (evalInstrs p.reachable env) ∧
      ((∀ v, env v ≠ none) → ∀ v, (p.normalForm legalize).eval env ≠ .stuck v ∧
        evalInstrs p.reachable env ≠ .stuck v) := by
  refine ⟨?_, fun htotal v => ⟨evalInstrs_ne_stuck htotal v, evalInstrs_ne_stuck htotal v⟩⟩
  rw [reachable, evalInstrs_throughReturn]
  exact agree_eval_normalForm fun _ _ => rfl

/-- Factors and a subtrahend that need temporaries, in a program that uses the name of the first
temporary itself, assigns what it reads, and goes on behind its return. -/
theorem normalForm_keeps_meaning_named_temp :
    let x : Var := ⟨"$0"⟩
    let p : Program := ⟨[.mov x (.imm 7), .binary .mul x (.imm 5) (.var x),
      .binary .sub x (.imm 100000) (.var x), .binary .add x (.imm 5000) (.var x), .ret (.var x),
      .mov x (.imm 0)]⟩
    (p.normalForm true).instrs.length = 8 ∧ ∃ e f, (p.normalForm true).eval (fun _ => some 1) =
      .returned 104965 e ∧
      evalInstrs p.reachable (fun _ => some 1) = .returned 104965 f ∧ e x = f x := by
  intro x p
  obtain ⟨hagree, _⟩ := normalForm_keeps_meaning p true fun _ => some 1
  have hvalue : evalInstrs p.reachable (fun _ => some 1) = .returned 104965 _ := rfl
  rw [hvalue] at hagree
  cases hnormal : (p.normalForm true).eval fun _ => some 1 with
  | returned y e =>
      rw [hnormal] at hagree
      cases hagree with
      | returned h => exact ⟨by decide, e, _, rfl, hvalue, h x (by decide)⟩
  | finished e =>
      rw [hnormal] at hagree
      cases hagree
  | stuck v =>
      rw [hnormal] at hagree
      cases hagree

end Program

end StraightLine
