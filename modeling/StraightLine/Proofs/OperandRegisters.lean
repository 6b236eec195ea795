import StraightLine.Proofs.Accounting

/-!
# The registers of one instruction

Inside one instruction registers stand for variables: two places show the same register exactly when
they hold the same variable. The requests of a selection come one after the other, and each can
evict, retire or reload; but each stays away from the registers of the ones before it, so that at
the end every variable of the instruction sits where it was put, and the table of registers is a
bijection. For the same reason the code that the requests queue writes no register twice: a variable
that is loaded goes to a register that none of the requests before it was given, so what one of them
loaded is still there when the instruction reads it.
-/

namespace StraightLine

/-! ### What an acquisition tells -/

namespace Allocator

variable {a b : Allocator} {v w : Var} {r s : PoolReg} {excluded : List PoolReg} {grant : Grant}
  {offset : Nat}

theorem eq_of_reload_mem_told (h : .reload w s offset ∈ a.told v grant) :
    w = v ∧ s = grant.register := by
  cases grant with
  | found how r =>
      cases how with
      | resident => simp [told] at h
      | free | retired =>
          obtain ⟨_, _, rfl, rfl, _⟩ : ∃ o ∈ a.slot? v, v = w ∧ r = s ∧ o = offset := by
            simpa [told] using h
          exact ⟨rfl, rfl⟩
  | evict r u placement =>
      obtain ⟨_, _, rfl, rfl, _⟩ : ∃ o ∈ (a.store r u placement).slot? v, v = w ∧ r = s ∧
          o = offset := by
        simpa [told] using h
      exact ⟨rfl, rfl⟩

theorem dests_reloadCode (a : Allocator) (v : Var) (r : PoolReg) :
    (a.reloadCode v r).filterMap Asm.dest? = [] ∨ (a.reloadCode v r).filterMap Asm.dest? =
      [.pool r] := by
  rw [reloadCode]
  cases a.slot? v with
  | none => exact Or.inl rfl
  | some offset => exact Or.inr rfl

/-- The code of an acquisition writes nothing, or it writes the register that is granted and that
was not excluded. -/
theorem Grants.dests_spillCode (h : Grants a v excluded grant) :
    (a.spillCode v grant).filterMap Asm.dest? = [] ∨
    (a.spillCode v grant).filterMap Asm.dest? = [.pool grant.register] ∧
    grant.register ∉ excluded := by
  cases hv : a.register? v with
  | some s =>
      cases h with
      | resident => exact Or.inl rfl
      | free hnew | retired hnew | evict hnew =>
          rw [hnew] at hv
          cases hv
  | none =>
      have hgranted := (Allocator.mem_candidates.1 (h.mem_candidates hv)).2
      cases grant with
      | found how r =>
          cases how with
          | resident => exact Or.inl rfl
          | free | retired =>
              exact (a.dests_reloadCode v r).imp_right fun hload => ⟨hload, hgranted⟩
      | evict r u placement =>
          have hstore : (Asm.spill r placement.offset).dest? = none := rfl
          rw [spillCode, List.filterMap_cons_none hstore]
          exact ((a.store r u placement).dests_reloadCode v r).imp_right
            fun hload => ⟨hload, hgranted⟩

end Allocator

/-! ### The requests of a selection -/

namespace Allocation

open Allocator

variable {ret : Reg} {i : Instr} {a b c : Allocator} {asm : Asm} {us : List Var}
  {held : List PoolReg}

theorem Seated.register?_of_mem_zip (h : Seated a us c held) :
    ∀ x ∈ us.zip held, c.register? x.1 = some x.2 := by
  induction h with
  | nil => exact nofun
  | @snoc us b c held v r hus hv ih =>
      intro x hx
      rw [List.zip_append hus.length_eq.symm] at hx
      obtain hx | hx := List.mem_append.1 hx
      · exact register?_acquire_of_mem hv (ih x hx) (List.of_mem_zip hx).2
      · rw [List.mem_singleton.1 hx]
        exact register?_acquire_self hv

/-- What some requests tell: the code that they queue writes registers that they were given, each
once, and a reload brings a variable to its own register. -/
structure Told (vs : List Var) (rs : List PoolReg) (told : List Event) : Prop where
  nodup : ((told.filterMap Event.move?).filterMap Asm.dest?).Nodup
  mem_held : ∀ d ∈ (told.filterMap Event.move?).filterMap Asm.dest?, ∃ s ∈ rs, d = .pool s
  reload : ∀ v s offset, .reload v s offset ∈ told → (v, s) ∈ vs.zip rs

theorem Seated.exists_told (h : Seated a us c held) : ∃ told, c.journal = a.journal ++ told ∧
    c.queue = a.queue ++ told.filterMap Event.move? ∧ Told us held told := by
  induction h with
  | nil =>
      exact ⟨[], (List.append_nil _).symm, (List.append_nil _).symm, List.nodup_nil, nofun, nofun⟩
  | @snoc us b c held v r hus hv ih =>
      obtain ⟨told, hjournal, hqueue, htold⟩ := ih
      obtain ⟨grant, hgrants, rfl, rfl⟩ := acquire_eq_ok_iff.1 hv
      have hzip : (us ++ [v]).zip (held ++ [grant.register]) =
          us.zip held ++ [(v, grant.register)] :=
        List.zip_append hus.length_eq.symm
      refine ⟨told ++ b.told v grant, ?_, ?_, ?_, ?_, ?_⟩
      · rw [journal_settle, hjournal, List.append_assoc]
      · rw [queue_settle, hqueue, List.filterMap_append, moves_told, List.append_assoc]
      · -- A register that is written now was not excluded, so it is none of those written before.
        rw [List.filterMap_append, List.filterMap_append, moves_told]
        obtain hnone | ⟨hload, hfree⟩ := hgrants.dests_spillCode
        · rw [hnone, List.append_nil]
          exact htold.nodup
        · rw [hload]
          refine htold.nodup.append (List.nodup_singleton _) fun d hd hnew => hfree ?_
          obtain ⟨s, hs, rfl⟩ := htold.mem_held d hd
          cases List.mem_singleton.1 hnew
          exact hs
      · intro d hd
        rw [List.filterMap_append, List.filterMap_append, moves_told, List.mem_append] at hd
        obtain hd | hd := hd
        · obtain ⟨s, hs, rfl⟩ := htold.mem_held d hd
          exact ⟨s, List.mem_append_left _ hs, rfl⟩
        · obtain hnone | ⟨hload, _⟩ := hgrants.dests_spillCode
          · rw [hnone] at hd
            cases hd
          · rw [hload] at hd
            exact ⟨_, List.mem_append_right _ (List.mem_singleton_self _), List.mem_singleton.1 hd⟩
      · intro w s offset hmem
        rw [hzip]
        obtain hmem | hmem := List.mem_append.1 hmem
        · exact List.mem_append_left _ (htold.reload w s offset hmem)
        · obtain ⟨rfl, rfl⟩ := eq_of_reload_mem_told hmem
          exact List.mem_append_right _ (List.mem_singleton_self _)

/-- An instruction that returns nothing seats its operands and then its destination, and it is
emitted with their registers. -/
theorem Selected.exists_seated (h : Selected ret i a asm b) (hi : i.isReturn = false) :
    ∃ v r held c, i.dst? = some v ∧ Seated a (i.uses ++ [v]) c (held ++ [r]) ∧
      held.length = i.uses.length ∧
      asm.registers = (r :: held).map .pool ∧ b.queue = c.queue ∧ b.journal = c.journal := by
  have hconsume : ∀ {c d : Allocator} {v : Var}, c.consume v = (.ok (), d) → d.queue = c.queue ∧
      d.journal = c.journal := by
    intro c d v hrel
    obtain ⟨pending, _, rfl⟩ := consume_eq_ok_iff.1 hrel
    exact ⟨rfl, rfl⟩
  cases h with
  | retWord | retVar => cases hi
  | movWord hdst => exact ⟨_, _, [], _, rfl, .snoc .nil hdst, rfl, rfl, rfl, rfl⟩
  | movVar hsrc hdst hrel =>
      obtain ⟨hqueue, hjournal⟩ := hconsume hrel
      exact ⟨_, _, [_], _, rfl, .snoc (.snoc .nil hsrc) hdst, rfl, rfl, hqueue, hjournal⟩
  | withWord _ hlhs hdst hrel =>
      obtain ⟨hqueue, hjournal⟩ := hconsume hrel
      exact ⟨_, _, [_], _, rfl, .snoc (.snoc .nil hlhs) hdst, rfl, rfl, hqueue, hjournal⟩
  | withVar hlhs hrhs hdst hrelL hrelR =>
      obtain ⟨hqueueL, hjournalL⟩ := hconsume hrelL
      obtain ⟨hqueueR, hjournalR⟩ := hconsume hrelR
      exact ⟨_, _, [_, _], _, rfl, .snoc (.snoc (.snoc .nil hlhs) hrhs) hdst, rfl, rfl,
        hqueueR.trans hqueueL, hjournalR.trans hjournalL⟩

end Allocation

/-- How an emitted instruction serves an instruction of a program, with the code in front of it and
the events that tell of that code. -/
structure Instr.ServedBy (i : Instr) (asm : Asm) (code : List Asm) (told : List Event) : Prop where
  /-- Every variable of the instruction has its place, the destination first. -/
  length_eq : asm.registers.length = i.occurrences.length
  pool : ∀ r ∈ asm.registers, ∃ s, r = .pool s
  /-- Two places show the same register exactly when they hold the same variable. -/
  same_iff : ∀ x ∈ i.occurrences.zip asm.registers, ∀ y ∈ i.occurrences.zip asm.registers, x.2 =
    y.2 ↔ x.1 = y.1
  code_eq : code = told.filterMap Event.move?
  /-- A variable is reloaded to the register that shows it. -/
  reload : ∀ v s offset, .reload v s offset ∈ told → (v, .pool s) ∈ i.occurrences.zip asm.registers
  /-- The code writes no register twice, so what it loads stays until the instruction reads it. -/
  nodup : (code.filterMap Asm.dest?).Nodup

namespace Allocation

open Allocator

variable {ret : Reg} {i : Instr} {a b c : Allocator} {asm : Asm}

theorem Selected.exists_servedBy (h : Selected ret i a asm b) (hi : i.isReturn = false)
    (hqueue : a.queue = []) :
    ∃ told, b.journal = a.journal ++ told ∧ i.ServedBy asm b.queue told := by
  obtain ⟨v, r, held, c, hdst, hseated, hlength, hregisters, hqueueEq, hjournalEq⟩ :=
    h.exists_seated hi
  obtain ⟨told, hjournal, hcode, htold⟩ := hseated.exists_told
  have hoccurrences : i.occurrences = v :: i.uses := by rw [Instr.occurrences, hdst]; rfl
  have hzip : i.occurrences.zip asm.registers =
      ((v, r) :: i.uses.zip held).map (Prod.map id Reg.pool) := by
    rw [hoccurrences, hregisters, List.zip_map_right]
    rfl
  have hseat : ∀ x, x ∈ (i.uses ++ [v]).zip (held ++ [r]) ↔ x ∈ (v, r) :: i.uses.zip held := by
    intro x
    rw [List.zip_append hlength.symm, List.mem_append, List.mem_cons, or_comm]
    exact or_congr_left List.mem_singleton
  refine ⟨told, hjournalEq.trans hjournal, ?_⟩
  constructor
  case length_eq => simp [hregisters, hoccurrences, hlength]
  case pool =>
    intro s hs
    rw [hregisters] at hs
    obtain ⟨s, _, rfl⟩ := List.mem_map.1 hs
    exact ⟨s, rfl⟩
  case same_iff =>
    intro x hx y hy
    rw [hzip] at hx hy
    obtain ⟨x, hxIn, rfl⟩ := List.mem_map.1 hx
    obtain ⟨y, hyIn, rfl⟩ := List.mem_map.1 hy
    have hxSeat := hseated.register?_of_mem_zip x ((hseat x).2 hxIn)
    have hySeat := hseated.register?_of_mem_zip y ((hseat y).2 hyIn)
    constructor
    · intro heq
      have hsame : x.2 = y.2 := Reg.pool.inj heq
      rw [hsame] at hxSeat
      exact Bijection.image?_injective hxSeat hySeat
    · intro heq
      have hsame : x.1 = y.1 := heq
      rw [hsame, hySeat] at hxSeat
      exact congrArg Reg.pool (Option.some.inj hxSeat).symm
  case code_eq => rw [hqueueEq, hcode, hqueue, List.nil_append]
  case reload =>
    intro w s offset hmem
    rw [hzip]
    exact List.mem_map.2 ⟨(w, s), (hseat _).1 (htold.reload w s offset hmem), rfl⟩
  case nodup =>
    rw [hqueueEq, hcode, hqueue, List.nil_append]
    exact htold.nodup

end Allocation

/-! ### The lines of an instruction -/

namespace Body

open Allocation Allocator

variable {ret : Reg} {is : List Instr} {a b : Allocator} {lines : List Line}

theorem Emitted.queue_eq_nil (h : Emitted ret is a lines b) (ha : a.queue = []) : b.queue = [] := by
  induction h with
  | nil => exact ha
  | cons _ _ ih => exact ih rfl

theorem Emitted.journal_isPrefix (h : Emitted ret is a lines b) : a.journal <+: b.journal := by
  induction h with
  | nil => exact List.prefix_rfl
  | @cons _ _ a b _ _ _ hsel _ ih =>
      have hstep : a.journal <+: b.journal := by
        refine hsel.preserves (P := fun b => a.journal <+: b.journal) (fun ha hacq => ?_)
          (fun ha hrel => ?_) List.prefix_rfl
        · obtain ⟨grant, _, _, rfl⟩ := acquire_eq_ok_iff.1 hacq
          rw [journal_settle]
          exact ha.trans (List.prefix_append _ _)
        · obtain ⟨pending, _, rfl⟩ := consume_eq_ok_iff.1 hrel
          exact ha
      exact hstep.trans ih

theorem Emitted.access?_last (h : Emitted ret is a lines b) :
    ∀ line ∈ lines.getLast?, ∀ j ∈ line.instr?, j.access? = none := by
  intro line hline j hj
  cases hlast : is.getLast? with
  | none =>
      rw [List.getLast?_eq_none_iff] at hlast
      subst hlast
      cases h
      cases hline
  | some i =>
      obtain ⟨front, asm, _, _, rfl, hsel⟩ := h.last hlast
      rw [List.getLast?_concat] at hline
      cases hline
      cases hj
      exact hsel.access?_eq_none

end Body

/-- The first lines of a body stand together in its frame, up to the line that returns. -/
theorem Framed.exists_opening {size : Nat} {returns : Bool} {lines framed front back : List Line}
    (h : Framed size returns lines framed) (hlines : lines = front ++ back)
    (hback : returns = true → back ≠ []) :
    ∃ opening rest, framed = opening ++ (front ++ rest) ∧
      ∀ line ∈ opening, line.comment? = none ∧ ∀ j ∈ line.instr?, j.access? = none := by
  let opening := Line.plain (.adjustSp (-Int32.ofNat size))
  let closing := Line.plain (.adjustSp (Int32.ofNat size))
  have hopening : ∀ line ∈ [opening], line.comment? = none ∧
      ∀ j ∈ line.instr?, j.access? = none := by
    intro line hline
    cases List.mem_singleton.1 hline
    refine ⟨rfl, fun j hj => ?_⟩
    cases hj
    rfl
  cases h with
  | bare => exact ⟨[], back, hlines, fun _ hline => absurd hline List.not_mem_nil⟩
  | behind =>
      refine ⟨[opening], back ++ [closing], ?_, hopening⟩
      rw [hlines, List.append_assoc, List.singleton_append]
  | @before lines last =>
      obtain hnil | ⟨back', line, rfl⟩ := List.eq_nil_or_concat' back
      · exact absurd hnil (hback rfl)
      · rw [← List.append_assoc] at hlines
        obtain ⟨rfl, hlast⟩ := List.append_inj' hlines rfl
        refine ⟨[opening], back' ++ [closing, last], ?_, hopening⟩
        rw [List.append_assoc, List.singleton_append]

namespace Assembled

open Allocation

variable {o : Options} {q : Program} {l : Lowered} {lines framed : List Line} {b : Allocator}

/-- Where an instruction that returns nothing stands in a listing: in front of its line the code
that was queued for it, and in front of that code a line that does not access memory. -/
theorem exists_served (h : Assembled o q l lines framed b) {k : Nat} {i : Instr}
    (hi : q.instrs[k]? = some i) (hret : i.isReturn = false) : ∃ front code asm back told,
      l.listing.lines = front ++ (code.map Line.plain ++ .commented asm i.text :: back) ∧
      (front.filterMap Line.comment?).length = k ∧
        (∀ line ∈ front.getLast?, ∀ j ∈ line.instr?, j.access? = none) ∧
      told <:+: b.journal ∧ i.ServedBy asm code told := by
  obtain ⟨hk, rfl⟩ := List.getElem?_eq_some_iff.1 hi
  have hsplit : q.instrs = q.instrs.take k ++ q.instrs[k] :: q.instrs.drop (k + 1) := by
    rw [← List.drop_eq_getElem_cons hk, List.take_append_drop]
  have hbody := h.body
  rw [hsplit] at hbody
  obtain ⟨before, rest, c, hbefore, hrest, hlines⟩ := hbody.of_append
  cases hrest with
  | @cons _ _ _ d _ asm after hsel hafter =>
      obtain ⟨told, htold, hserved⟩ := hsel.exists_servedBy hret (hbefore.queue_eq_nil rfl)
      -- The line of an instruction that returns nothing is not the one that the frame is closed in
      -- front of.
      have hback : q.endsInReturn = true → after ≠ [] := by
        rintro hends rfl
        have hdrop : q.instrs.drop (k + 1) = [] := List.map_eq_nil_iff.1 hafter.comments.symm
        rw [hdrop] at hsplit
        have hlast : q.instrs.getLast? = some q.instrs[k] :=
          (congrArg List.getLast? hsplit).trans List.getLast?_concat
        rw [Program.endsInReturn, hlast, Option.any_some, hret] at hends
        cases hends
      rw [← List.append_assoc] at hlines
      obtain ⟨opening, back, hframed, hopening⟩ := h.frame.exists_opening hlines hback
      refine ⟨.directive o.sectionDirective :: (opening ++ before), d.queue, asm, back, told, ?_,
        ?_, ?_, ?_, hserved⟩
      · rw [h.listing_eq, hframed, Body.chunk]
        simp
      · have hnone : opening.filterMap Line.comment? = [] :=
          List.filterMap_eq_nil_iff.2 fun line hline => (hopening line hline).1
        rw [List.filterMap_cons_none rfl, List.filterMap_append, hnone, List.nil_append,
          hbefore.comments, List.length_map, List.length_take, Nat.min_eq_left (Nat.le_of_lt hk)]
      · intro line hline
        rw [← List.cons_append, List.getLast?_append] at hline
        cases hlast : before.getLast? with
        | some line' =>
            rw [hlast] at hline
            cases hline
            exact hbefore.access?_last line hlast
        | none =>
            rw [hlast] at hline
            obtain rfl | hmem := List.mem_cons.1 (List.mem_of_getLast? hline)
            · exact fun j hj => by cases hj
            · exact (hopening line hmem).2
      · have hsuffix : told <:+ d.journal := ⟨c.journal, htold.symm⟩
        exact hsuffix.isInfix.trans hafter.journal_isPrefix.isInfix

end Assembled

namespace Options

/-- **Registers follow variables.** In front of the line of an instruction that assigns stands the
code that was queued for it. Two places of the line show the same register exactly when they hold
the same variable; a variable is reloaded to the register that shows it, so the reload of a
destination leaves the registers of the other variables alone; and no register is written twice on
the way to the line. -/
theorem registers_follow_variables {o : Options} {p : Program} {c : Compilation}
    (h : (o.compile p).outcome = .ok c) {k : Nat} {i : Instr}
    (hi : c.normalized.instrs[k]? = some i) (hret : i.isReturn = false) :
    ∃ front code asm back told,
      c.listing.lines = front ++ (code.map Line.plain ++ .commented asm i.text :: back) ∧
      (front.filterMap Line.comment?).length = k ∧
        (∀ line ∈ front.getLast?, ∀ j ∈ line.instr?, j.access? = none) ∧
      told <:+: (o.compile p).events ∧ i.ServedBy asm code told := by
  have hevents := events_compile h
  obtain ⟨hvalid, l, hlower, rfl⟩ := compile_eq_ok_iff.1 h
  obtain ⟨lines, framed, b, hassembled⟩ :=
    Emitter.exists_assembled (e := { options := o }) hvalid hlower
  obtain ⟨front, code, asm, back, told, hlines, hcount, hlast, htold, hserved⟩ :=
    hassembled.exists_served hi hret
  have hjournal : b.journal <:+: (o.compile p).events := by
    have hlowered := Emitter.events_lower (e := { options := o }) hvalid hlower
    rw [hassembled.body_eq] at hlowered
    rw [hevents]
    refine List.IsInfix.trans ?_ (List.suffix_cons _ _).isInfix
    refine List.IsInfix.trans ?_ (List.prefix_append _ _).isInfix
    show _ <:+: (Emitter.lower { options := o } (p.normalForm o.legalize)).1.events
    rw [hlowered]
    exact List.IsInfix.trans (List.prefix_append _ _).isInfix (List.suffix_cons _ _).isInfix
  exact ⟨front, code, asm, back, told, hlines, hcount, hlast, htold.trans hjournal, hserved⟩

/-- The operands of a sum and its destination have all been spilled, and each takes the register of
another variable. -/
theorem registers_follow_variables_reloaded :
    let o : Options := { poolSize := 3 }
    let p : Program := ⟨[.mov ⟨"a"⟩ (.imm 1), .mov ⟨"b"⟩ (.imm 2), .mov ⟨"c"⟩ (.imm 3),
      .mov ⟨"d"⟩ (.imm 4), .mov ⟨"e"⟩ (.imm 5), .binary .add ⟨"a"⟩ (.var ⟨"b"⟩) (.var ⟨"c"⟩),
      .binary .add ⟨"a"⟩ (.var ⟨"a"⟩) (.var ⟨"d"⟩), .binary .mul ⟨"a"⟩ (.var ⟨"a"⟩) (.var ⟨"e"⟩),
      .ret (.var ⟨"a"⟩)]⟩
    let i : Instr := .binary .add ⟨"a"⟩ (.var ⟨"b"⟩) (.var ⟨"c"⟩)
    ∃ c, (o.compile p).outcome = .ok c ∧ c.normalized.instrs[5]? = some i ∧ i.isReturn = false ∧
      (c.listing.instrs.drop 8).take 7 = [.spill ⟨2⟩ 8, .reload ⟨2⟩ 4, .spill ⟨0⟩ 12, .reload ⟨0⟩ 8,
          .spill ⟨1⟩ 16, .reload ⟨1⟩ 0,
        .arith .add (.pool ⟨1⟩) (.pool ⟨2⟩) (.pool ⟨0⟩)] ∧
      ∃ front code asm back told, c.listing.lines =
        front ++ (code.map Line.plain ++ .commented asm i.text :: back) ∧
        (front.filterMap Line.comment?).length = 5 ∧ told <:+: (o.compile p).events ∧
        i.ServedBy asm code told := by
  intro o p i
  have hfacts : (o.compile p).outcome.toOption.map
      (fun c => (c.normalized.instrs[5]?, (c.listing.instrs.drop 8).take 7)) =
      some (some i, [.spill ⟨2⟩ 8, .reload ⟨2⟩ 4, .spill ⟨0⟩ 12, .reload ⟨0⟩ 8, .spill ⟨1⟩ 16,
        .reload ⟨1⟩ 0, .arith .add (.pool ⟨1⟩) (.pool ⟨2⟩) (.pool ⟨0⟩)]) := by decide
  obtain ⟨c, hcompile, hvalues⟩ := exists_compiled hfacts
  obtain ⟨hi, hcode⟩ := Prod.mk.inj hvalues
  obtain ⟨front, code, asm, back, told, hlines, hcount, _, htold, hserved⟩ :=
    registers_follow_variables hcompile hi rfl
  exact ⟨c, hcompile, hi, rfl, hcode, front, code, asm, back, told, hlines, hcount, htold, hserved⟩

end Options

end StraightLine
