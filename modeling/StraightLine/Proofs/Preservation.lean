import StraightLine.Proofs.Emission.Frame
import StraightLine.Proofs.Emission.Simulation
import StraightLine.Proofs.NormalForm

/-!
# Compilation keeps meaning

A listing that a compilation returns gives the stack pointer back, and its return register ends with
the word that the program returns. The machine may start in any state. A program that reads
variables before it assigns them finds whatever the machine holds, so the listing returns the word
of the program for some words of these variables; a program without such reads has one word, and the
listing returns it.

The proof goes along the parts of a compilation: the frame moves the stack pointer down and up
around a body that never moves it, the body computes what the normal form computes, and the normal
form computes what the program computes.
-/

namespace StraightLine

/-! ### The frame -/

namespace Framed

open Allocation

variable {size : Nat} {returns : Bool} {lines framed : List Line} {ret : Reg} {m : Machine}

theorem sp_run (h : Framed size returns lines framed)
    (hsp : ∀ j ∈ lines.filterMap Line.instr?, j.dest? ≠ some .sp) (m : Machine) :
    (m.run (framed.filterMap Line.instr?)).reg .sp = m.reg .sp := by
  have hback : m.reg .sp + -Int32.ofNat size + Int32.ofNat size = m.reg .sp := by
    rw [Int32.add_assoc, Int32.add_left_neg, Int32.add_zero]
  cases h with
  | bare => exact Machine.reg_run_of_ne hsp
  | behind =>
      rw [Line.instrs_plain_cons, List.filterMap_append, Machine.run_cons, Machine.run_append]
      show (Machine.run _ _).reg .sp + Int32.ofNat size = m.reg .sp
      rw [Machine.reg_run_of_ne hsp]
      exact hback
  | @before front last =>
      rw [List.filterMap_append] at hsp
      have hfront : ∀ j ∈ front.filterMap Line.instr?, j.dest? ≠ some .sp := fun j hj =>
        hsp j (List.mem_append_left _ hj)
      have hlast : ∀ j ∈ [last].filterMap Line.instr?, j.dest? ≠ some .sp := fun j hj =>
        hsp j (List.mem_append_right _ hj)
      rw [Line.instrs_plain_cons, List.filterMap_append, Machine.run_cons, Machine.run_append,
        Line.instrs_plain_cons, Machine.run_cons, Machine.reg_run_of_ne hlast]
      show (Machine.run _ _).reg .sp + Int32.ofNat size = m.reg .sp
      rw [Machine.reg_run_of_ne hfront]
      exact hback

theorem exists_reg_ret {is : List Instr} {a b : Allocator} {i : Instr}
    (h : Framed size true lines framed) (hbody : Body.Emitted ret is a lines b)
    (hlast : is.getLast? = some i) (hi : i.isReturn = true) (m : Machine) :
    ∃ m' : Machine, (m.run (framed.filterMap Line.instr?)).reg ret =
      (m'.run (lines.filterMap Line.instr?)).reg ret := by
  cases h with
  | bare => exact ⟨m, rfl⟩
  | @before front last =>
      obtain ⟨front', asm, c, d, hlines, hsel⟩ := hbody.last hlast
      obtain ⟨rfl, rfl⟩ : front = front' ∧ last = Line.commented asm i.text := by
        simpa using List.append_inj' hlines rfl
      refine ⟨m.step (.adjustSp (-Int32.ofNat size)), ?_⟩
      rw [Line.instrs_plain_cons, List.filterMap_append, List.filterMap_append, Machine.run_cons,
        Machine.run_append, Machine.run_append]
      exact hsel.reg_ret_step hi fun r => rfl

end Framed

/-! ### From the program to its listing -/

theorem Program.exists_getLast?_isReturn {is : List Instr} (hthrough : throughReturn is = is)
    (hret : is.any Instr.isReturn = true) : ∃ i, is.getLast? = some i ∧ i.isReturn = true := by
  obtain hnone | ⟨front, last, rfl, hlast, _⟩ := of_throughReturn_eq hthrough
  · obtain ⟨i, hi, hreturn⟩ := List.any_eq_true.1 hret
    rw [hnone i hi] at hreturn
    cases hreturn
  · exact ⟨last, List.getLast?_concat, hlast⟩

namespace Assembled

variable {o : Options} {q : Program} {l : Lowered} {lines framed : List Line} {b : Allocator}

theorem sp_run (h : Assembled o q l lines framed b) (hvalid : o.validate = .ok ()) (m : Machine) :
    (l.listing.run m).reg .sp = m.reg .sp := by
  rw [Listing.run, h.instrs_listing]
  exact h.frame.sp_run (h.body.dest?_ne_sp (Options.queued_allocator hvalid q) (by simp)) m

/-- The word that a lowered program returns is explained by some environment. -/
theorem exists_env (h : Assembled o q l lines framed b) (hvalid : o.validate = .ok ())
    (hthrough : Program.throughReturn q.instrs = q.instrs)
    (hret : q.instrs.any Instr.isReturn = true) (m : Machine) :
    ∃ env : Env, (∀ v, env v ≠ none) ∧
      (q.eval env).value? = some ((l.listing.run m).reg (.ret o.returnRegister)) := by
  obtain ⟨i, hlast, hi⟩ := Program.exists_getLast?_isReturn hthrough hret
  have hends : q.endsInReturn = true := by simp [Program.endsInReturn, hlast, hi]
  have hframed : Framed l.stats.frameSize true lines framed := hends ▸ h.frame
  obtain ⟨m', hm'⟩ := hframed.exists_reg_ret h.body hlast hi m
  have hstart : (o.allocator q).Faithful m' fun _ => none := fun v x hx => by cases hx
  obtain ⟨env, _, htotal, hvalue⟩ :=
    h.body.exists_env rfl (Options.ready_allocator hvalid q) Program.within_vars
    hstart hthrough hret
  refine ⟨env, htotal, ?_⟩
  rw [Listing.run, h.instrs_listing, hm']
  exact hvalue

end Assembled

namespace Program

variable {p : Program}

theorem value?_eval_normalForm (p : Program) (legalize : Bool) (env : Env) :
    ((p.normalForm legalize).eval env).value? = (p.eval env).value? :=
  (agree_eval_normalForm fun _ _ => rfl).value?_eq

theorem value?_eval_congr {e f : Env} (h : ∀ v, Exposed p.reachable v → e v = f v) :
    (p.eval e).value? = (p.eval f).value? := by
  rw [eval, eval, ← evalInstrs_throughReturn, ← evalInstrs_throughReturn p.instrs f]
  exact value?_evalInstrs_congr h

end Program

namespace Options

/-- **A listing computes what its program computes.** -/
theorem listing_keeps_meaning {o : Options} {p : Program} {c : Compilation}
    (h : (o.compile p).outcome = .ok c) (m : Machine) :
    (c.listing.run m).reg .sp = m.reg .sp ∧
    (p.instrs.any Instr.isReturn = true →
      (∃ env : Env, (∀ v, env v ≠ none ↔ Exposed p.reachable v) ∧
        (p.eval env).value? = some ((c.listing.run m).reg (.ret o.returnRegister))) ∧
      ((∀ v, ¬ Exposed p.reachable v) →
        ∀ env, (p.eval env).value? = some ((c.listing.run m).reg (.ret o.returnRegister)))) := by
  obtain ⟨hvalid, lines, framed, b, hassembled⟩ := Compilation.exists_assembled h
  refine ⟨hassembled.sp_run hvalid m, fun hret => ?_⟩
  have hthrough := NormalForm.throughReturn_ofInstrs o.legalize p.instrs (.avoiding p.vars)
  have hreturns := (NormalForm.any_isReturn_ofInstrs o.legalize p.instrs (.avoiding p.vars)).trans
    hret
  obtain ⟨env, htotal, hvalue⟩ := hassembled.exists_env hvalid hthrough hreturns m
  rw [Program.value?_eval_normalForm] at hvalue
  constructor
  · -- Only the words of the exposed variables matter.
    refine ⟨fun v => if Exposed p.reachable v then env v else none, fun v => ?_, ?_⟩
    · by_cases hv : Exposed p.reachable v
      · simp [hv, htotal v]
      · simp [hv]
    · rw [← hvalue]
      exact Program.value?_eval_congr fun v hv => if_pos hv
  · intro hnone env'
    rw [← hvalue]
    exact Program.value?_eval_congr fun v hv => absurd hv (hnone v)

/-- Three registers for four variables: `a` is stored, reloaded and assigned before the result
depends on it. -/
theorem listing_keeps_meaning_spilled :
    let o : Options := { poolSize := 3 }
    let p : Program := ⟨[.mov ⟨"a"⟩ (.imm 1), .mov ⟨"b"⟩ (.imm 2),
      .binary .sub ⟨"c"⟩ (.imm 9) (.var ⟨"b"⟩), .binary .mul ⟨"d"⟩ (.var ⟨"c"⟩) (.var ⟨"b"⟩),
      .binary .add ⟨"a"⟩ (.var ⟨"a"⟩) (.var ⟨"d"⟩), .binary .sub ⟨"c"⟩ (.var ⟨"c"⟩) (.var ⟨"a"⟩),
      .ret (.var ⟨"c"⟩)]⟩
    ∃ c, (o.compile p).outcome = .ok c ∧ ∀ m : Machine,
      (c.listing.run m).reg .sp = m.reg .sp ∧ (c.listing.run m).reg (.ret "a0") = -8 := by
  intro o p
  have hok : (o.compile p).outcome.isOk = true := by decide
  cases hcompile : (o.compile p).outcome with
  | error f =>
      rw [hcompile] at hok
      cases hok
  | ok c =>
      refine ⟨c, rfl, fun m => ?_⟩
      obtain ⟨hsp, hvalue⟩ := listing_keeps_meaning hcompile m
      have hreads : ∀ v ∈ p.reachable.flatMap Instr.uses, ¬ Exposed p.reachable v := by decide
      have hclosed : ∀ v, ¬ Exposed p.reachable v := fun v hv => hreads v hv.mem_reads hv
      have hword : (p.eval fun _ => none).value? = some (-8) := rfl
      rw [(hvalue rfl).2 hclosed] at hword
      exact ⟨hsp, Option.some.inj hword⟩

end Options

end StraightLine
