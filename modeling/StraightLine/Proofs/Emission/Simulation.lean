import StraightLine.Proofs.Allocator.Values
import StraightLine.Proofs.Emission.Body
import StraightLine.Proofs.Semantics.Evaluator

/-!
# Bodies compute what their instructions compute

A machine runs an emitted body while the instructions are evaluated. The two are related by the
words that the variables stand for. A variable that is read before it was assigned stands for
whatever its register holds at that moment, so the words grow along the run, and the environment
that explains the run is known only at its end. The induction therefore goes backwards: from an
environment that explains the rest of a body, an environment for the whole body is made by undoing
the first assignment.
-/

namespace StraightLine

namespace Env

variable {env words words' : Env} {v : Var} {x : Int32}

def Extends (env words : Env) : Prop := ∀ v x, words v = some x → env v = some x

theorem Extends.refl (env : Env) : env.Extends env := fun _ _ h => h

theorem Extends.trans (h : env.Extends words') (h' : words'.Extends words) : env.Extends words :=
  fun v x hx => h v x (h' v x hx)

theorem extends_note (words : Env) (v : Var) (x : Int32) : (words.note v x).Extends words :=
  fun _ _ h => note_eq_of_some h

theorem set_set (env : Env) (v : Var) (x y : Int32) : (env.set v x).set v y = env.set v y := by
  funext w
  by_cases hw : w = v
  · rw [hw, set_self, set_self]
  · rw [set_of_ne hw, set_of_ne hw, set_of_ne hw]

theorem set_eq_self (h : env v = some x) : env.set v x = env := by
  funext w
  by_cases hw : w = v
  · rw [hw, set_self, h]
  · rw [set_of_ne hw]

/-- Undo an assignment: the variable gets back its word from before, if it stood for one. -/
theorem extends_undo (h : env.Extends (words.set v x)) :
    (env.set v ((words v).getD 0)).Extends words := by
  intro w y hw
  by_cases hwv : w = v
  · rw [hwv] at hw ⊢
    rw [set_self, hw, Option.getD_some]
  · rw [set_of_ne hwv]
    exact h w y (by rw [set_of_ne hwv, hw])

end Env

/-! ### Operands in registers -/

namespace Allocator

variable {a b : Allocator} {u v : Var} {r s : PoolReg} {excluded : List PoolReg}
  {m : Machine} {words : Env}

/-- The tables are in order, and behind the waiting code the machine holds every live word. -/
def InStep (a : Allocator) (m : Machine) (words : Env) : Prop :=
  a.Stacked ∧ a.Faithful (m.run a.queue) words

/-- A live variable is in a register and stands for the word there. -/
structure Carries (a : Allocator) (m : Machine) (words : Env) (v : Var) (r : PoolReg) : Prop where
  live : a.pending.Live v
  held : a.register? v = some r
  word : words v = some ((m.run a.queue).reg (.pool r))

theorem InStep.carries (h : a.InStep m words) {x : Int32} (hlive : a.pending.Live v)
    (hheld : a.register? v = some r) (hx : words v = some x) : a.Carries m words v r := by
  refine ⟨hlive, hheld, ?_⟩
  rw [h.2.reg_eq hheld hlive hx, hx]

theorem InStep.acquire (h : a.InStep m words) (hacq : a.acquire v excluded = (.ok r, b)) :
    ∃ words', words'.Extends words ∧ b.InStep m words' ∧
      (a.pending.Live v → b.Carries m words' v r) ∧
      ∀ u s, a.Carries m words u s → s ∈ excluded → b.Carries m words' u s := by
  have hb : b.InStep m (words.note v ((m.run b.queue).reg (.pool r))) :=
    ⟨h.1.acquire hacq, h.2.acquire h.1 hacq⟩
  have hpending := pending_acquire hacq
  refine ⟨_, Env.extends_note words v _, hb, fun hlive => ?_, fun u s hu hs => ?_⟩
  · exact hb.carries (hpending ▸ hlive) (register?_acquire_self hacq) (Env.note_self ..)
  · exact hb.carries (hpending ▸ hu.live) (register?_acquire_of_mem hacq hu.held hs)
      (Env.note_eq_of_some hu.word)

theorem Faithful.of_consume (h : a.Faithful m words) (hrel : a.consume v = (.ok (), b)) :
    b.Faithful m words := by
  have hb := h.consume v
  rw [hrel] at hb
  exact hb

end Allocator

/-! ### One instruction -/

namespace Allocation

open Allocator

variable {ret : Reg} {i : Instr} {a b : Allocator} {asm : Asm} {m : Machine} {words : Env}

theorem Selected.dest?_ne_sp (hsel : Selected ret i a asm b) (hret : ret ≠ .sp) :
    asm.dest? ≠ some .sp := by
  cases hsel with
  | retWord | retVar => exact fun heq => hret (Option.some.inj heq)
  | movWord | movVar | withWord | withVar => simp [Asm.dest?]

/-- The returned word comes from a register of the pool or from nowhere. -/
theorem Selected.reg_ret_step (hsel : Selected ret i a asm b) (hi : i.isReturn = true)
    {m m' : Machine} (hpool : ∀ r, m.reg (.pool r) = m'.reg (.pool r)) :
    (m.step asm).reg ret = (m'.step asm).reg ret := by
  cases hsel with
  | movWord | movVar | withWord | withVar => cases hi
  | retWord => simp [Machine.step]
  | @retVar _ _ _ v rs => simp [Machine.step, hpool rs]

/-- A selected instruction that assigns leaves the machine in step with the assignment. -/
theorem Selected.assigns (hsel : Selected ret i a asm b) (h : a.InStep m words)
    (hlive : ∀ v ∈ i.uses, a.pending.Live v) (hret : i.isReturn = false) :
    ∃ words' d y, words'.Extends words ∧ (∀ env, env.Extends words' → i.effect env = .assign d y) ∧
      b.Faithful ((m.run b.queue).step asm) (words'.set d y) := by
  cases hsel with
  | retWord | retVar => cases hret
  | @movWord _ _ dst value rd hdst =>
      obtain ⟨words₁, hext₁, h₁, _, _⟩ := h.acquire hdst
      exact ⟨words₁, dst, value, hext₁, fun _ _ => rfl,
        h₁.2.write (register?_acquire_self hdst) value⟩
  | @movVar _ _ c _ dst src rd rs hsrc hdst hrel =>
      have hliveSrc : a.pending.Live src := hlive src List.mem_cons_self
      obtain ⟨words₁, hext₁, h₁, hcarry, _⟩ := h.acquire hsrc
      obtain ⟨words₂, hext₂, h₂, _, hkeep⟩ := h₁.acquire hdst
      have hword := (hkeep src rs (hcarry hliveSrc) List.mem_cons_self).word
      refine ⟨words₂, dst, (m.run c.queue).reg (.pool rs), hext₂.trans hext₁,
        fun env henv => ?_, ?_⟩
      · simp only [Instr.effect, Operand.eval, henv src _ hword]
      · rw [queue_consume hrel]
        exact (h₂.2.write (register?_acquire_self hdst) _).of_consume hrel
  | @withWord _ _ c _ op dst lhs value rd rl hop hlhs hdst hrel =>
      have hliveLhs : a.pending.Live lhs := hlive lhs List.mem_cons_self
      obtain ⟨words₁, hext₁, h₁, hcarry, _⟩ := h.acquire hlhs
      obtain ⟨words₂, hext₂, h₂, _, hkeep⟩ := h₁.acquire hdst
      have hword := (hkeep lhs rl (hcarry hliveLhs) List.mem_cons_self).word
      have hsum : ∀ x : Int32, op.apply x value = x + (if op = .sub then -value else value) := by
        intro x
        cases op with
        | add => rfl
        | sub => exact Int32.sub_eq_add_neg x value
        | mul => exact absurd rfl hop
      refine ⟨words₂, dst, op.apply ((m.run c.queue).reg (.pool rl)) value, hext₂.trans hext₁,
        fun env henv => ?_, ?_⟩
      · simp only [Instr.effect, Operand.eval, henv lhs _ hword]
      · rw [queue_consume hrel, hsum]
        exact (h₂.2.write (register?_acquire_self hdst) _).of_consume hrel
  | @withVar _ _ _ d _ _ op dst lhs rhs rd rl rr hlhs hrhs hdst hrelL hrelR =>
      have hliveLhs : a.pending.Live lhs := hlive lhs List.mem_cons_self
      have hliveRhs : a.pending.Live rhs := hlive rhs (List.mem_cons_of_mem lhs List.mem_cons_self)
      obtain ⟨words₁, hext₁, h₁, hcarryL, _⟩ := h.acquire hlhs
      obtain ⟨words₂, hext₂, h₂, hcarryR, hkeep₂⟩ := h₁.acquire hrhs
      obtain ⟨words₃, hext₃, h₃, _, hkeep₃⟩ := h₂.acquire hdst
      have hleft := hkeep₂ lhs rl (hcarryL hliveLhs) List.mem_cons_self
      have hright := hcarryR ((pending_acquire hlhs).symm ▸ hliveRhs)
      have hwordL := (hkeep₃ lhs rl hleft List.mem_cons_self).word
      have hwordR := (hkeep₃ rhs rr hright (List.mem_cons_of_mem rl List.mem_cons_self)).word
      refine ⟨words₃, dst, op.apply ((m.run d.queue).reg (.pool rl))
        ((m.run d.queue).reg (.pool rr)), hext₃.trans (hext₂.trans hext₁), fun env henv => ?_, ?_⟩
      · simp only [Instr.effect, Operand.eval, henv lhs _ hwordL, henv rhs _ hwordR]
      · rw [queue_consume hrelR, queue_consume hrelL]
        exact ((h₃.2.write (register?_acquire_self hdst) _).of_consume hrelL).of_consume hrelR

theorem Selected.results (hsel : Selected ret i a asm b) (h : a.InStep m words)
    (hlive : ∀ v ∈ i.uses, a.pending.Live v) (hret : i.isReturn = true) :
    ∃ words', words'.Extends words ∧
      ∀ env, env.Extends words' → i.effect env = .result (((m.run b.queue).step asm).reg ret) := by
  cases hsel with
  | movWord | movVar | withWord | withVar => cases hret
  | retWord =>
      refine ⟨words, .refl words, fun env _ => ?_⟩
      simp [Instr.effect, Operand.eval, Machine.step]
  | @retVar _ _ _ v rs hv hrel =>
      have hliveV : a.pending.Live v := hlive v List.mem_cons_self
      obtain ⟨words₁, hext₁, _, hcarry, _⟩ := h.acquire hv
      refine ⟨words₁, hext₁, fun env henv => ?_⟩
      rw [queue_consume hrel]
      simp [Instr.effect, Operand.eval, henv v _ (hcarry hliveV).word, Machine.step]

end Allocation

/-! ### Whole bodies -/

namespace Body

open Allocation Allocator

variable {ret : Reg} {is : List Instr} {a b : Allocator} {lines : List Line}
  {m : Machine} {words : Env} {scope : List Var}

/-- The word that a body returns is explained by an environment that extends the words known at its
start. -/
theorem Emitted.exists_env (h : Emitted ret is a lines b) (hqueue : a.queue = [])
    (ha : a.Ready scope (is.flatMap Instr.uses)) (hin : ∀ i ∈ is, i.Within scope)
    (hfaithful : a.Faithful m words) (hthrough : Program.throughReturn is = is)
    (hret : is.any Instr.isReturn = true) :
    ∃ env : Env, env.Extends words ∧ (∀ v, env v ≠ none) ∧
      (Program.evalInstrs is env).value? =
      some ((m.run (lines.filterMap Line.instr?)).reg ret) := by
  induction h generalizing m words with
  | nil => cases hret
  | @cons i rest a b c asm lines hsel hrest ih =>
      rw [List.flatMap_cons] at ha
      have hiIn := hin i List.mem_cons_self
      have hlive : ∀ v ∈ i.uses, a.pending.Live v := fun v hv =>
        ha.tracks.live (hiIn.use hv) (List.mem_append_left _ hv)
      have hstep : a.InStep m words := ⟨ha.stacked, by rw [hqueue]; exact hfaithful⟩
      have hrun : m.run ((chunk b.queue asm i ++ lines).filterMap Line.instr?) =
          ((m.run b.queue).step asm).run (lines.filterMap Line.instr?) := by
        rw [List.filterMap_append, instrs_chunk, Machine.run_append, Machine.run_append]
        rfl
      rw [Program.throughReturn] at hthrough
      rw [hrun]
      cases hi : i.isReturn with
      | true =>
          -- Nothing stands behind a return, so any words for the other variables will do.
          rw [hi, if_pos rfl] at hthrough
          cases hthrough
          cases hrest
          obtain ⟨words', hext, heffect⟩ := hsel.results hstep hlive hi
          let env : Env := fun v => some ((words' v).getD 0)
          have henv : env.Extends words' := fun v x hx => by simp only [env, hx, Option.getD_some]
          refine ⟨env, henv.trans hext, fun v => Option.some_ne_none _, ?_⟩
          simp only [Program.evalInstrs, heffect env henv]
          rfl
      | false =>
          rw [hi, if_neg (by simp), List.cons.injEq] at hthrough
          rw [List.any_cons, hi, Bool.false_or] at hret
          obtain ⟨words', d, y, hext, heffect, hb⟩ := hsel.assigns hstep hlive hi
          have hready := (hsel.ready ha hiIn).drain
          obtain ⟨env, henv, htotal, hvalue⟩ :=
            ih rfl hready (fun j hj => hin j (List.mem_cons_of_mem i hj)) hb
            hthrough.2 hret
          have hundo := Env.extends_undo henv
          refine ⟨env.set d ((words' d).getD 0), hundo.trans hext, fun v => ?_, ?_⟩
          · by_cases hv : v = d
            · rw [hv, Env.set_self]
              exact Option.some_ne_none _
            · rw [Env.set_of_ne hv]
              exact htotal v
          · have hd : env d = some y := henv d y (Env.set_self ..)
            simp only [Program.evalInstrs, heffect _ hundo, Env.set_set, Env.set_eq_self hd]
            exact hvalue

theorem Emitted.dest?_ne_sp (h : Emitted ret is a lines b) (ha : a.Queued) (hret : ret ≠ .sp) :
    ∀ j ∈ lines.filterMap Line.instr?, j.dest? ≠ some .sp := by
  intro j hj
  obtain ⟨i, _, c, d, hsel⟩ | ⟨s, o, rfl | rfl, _⟩ := h.mem_instrs ha hj
  · exact hsel.dest?_ne_sp hret
  · simp [Asm.spill, Asm.dest?]
  · simp [Asm.reload, Asm.dest?]

end Body

end StraightLine
