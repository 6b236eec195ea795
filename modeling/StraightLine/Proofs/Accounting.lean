import StraightLine.Proofs.Allocator.Runs
import StraightLine.Proofs.NormalForm
import StraightLine.Proofs.StackDiscipline

/-!
# What stands in a listing

Every line of a listing is accounted for. Behind the directive a line with a comment carries out one
instruction of the normal form, and a line without one is a store, a load or a move of the stack
pointer.

The spill code of an acquisition waits in the queue of the allocator until an instruction takes it
along, while the counters and the journal are written at once. `Balanced` says that the three agree:
the journal tells of the code that was taken followed by the code that waits, and the counters count
it. One acquisition adds the same piece of code to all of them, and what an instruction takes from
the queue stands in front of it.
-/

namespace StraightLine

/-! ### Stores and loads -/

def Asm.isStore : Asm → Bool
  | .sw .. => true
  | _ => false

def Asm.isLoad : Asm → Bool
  | .lw .. => true
  | _ => false

theorem Asm.access?_of_isStore {i : Asm} (h : i.isStore = true) : i.access?.isSome = true := by
  cases i with
  | sw => rfl
  | _ => cases h

theorem Asm.access?_of_isLoad {i : Asm} (h : i.isLoad = true) : i.access?.isSome = true := by
  cases i with
  | lw => rfl
  | _ => cases h

theorem Asm.ret_not_mem_registers_of_move {i : Asm} {r : PoolReg} {offset : Nat}
    (h : i = .spill r offset ∨ i = .reload r offset) (name : String) : .ret name ∉ i.registers := by
  obtain rfl | rfl := h
  · simp [spill, registers]
  · simp [reload, registers]

/-- The instruction that an event tells of: the store of a spill, or the load of a reload. -/
def Event.move? : Event → Option Asm
  | .spill _ r offset => some (.spill r offset)
  | .reload _ r offset => some (.reload r offset)
  | _ => none

theorem Event.access?_moves (events : List Event) :
    ∀ i ∈ events.filterMap Event.move?, i.access?.isSome = true := by
  intro i hi
  obtain ⟨e, _, he⟩ := List.mem_filterMap.1 hi
  cases e with
  | spill | reload =>
      cases he
      rfl
  | _ => cases he

theorem Asm.length_eq_of_access {code : List Asm} (h : ∀ i ∈ code, i.access?.isSome = true) :
    code.length = code.countP Asm.isStore + code.countP Asm.isLoad := by
  induction code with
  | nil => rfl
  | cons i code ih =>
      have hcode := ih fun j hj => h j (List.mem_cons_of_mem i hj)
      have hi := h i List.mem_cons_self
      rw [List.length_cons, hcode, List.countP_cons, List.countP_cons]
      cases i with
      | lw => exact Nat.add_assoc ..
      | sw => exact Nat.add_right_comm ..
      | _ => cases hi

theorem PoolReg.name_mem_names {r : PoolReg} (h : r.index < count) : r.name ∈ names := by
  rw [name, List.getD_eq_getElem?_getD, List.getElem?_eq_getElem h, Option.getD_some]
  exact List.getElem_mem h

/-! ### The books of the allocator -/

namespace Allocator

variable {a b : Allocator} {v : Var} {r s : PoolReg} {excluded : List PoolReg} {grant : Grant}
  {taken : List Asm}

theorem moves_reload (a : Allocator) (v : Var) (r : PoolReg) :
    ((a.slot? v).toList.map (Event.reload v r)).filterMap Event.move? = a.reloadCode v r := by
  have hmove : Event.move? ∘ Event.reload v r = some ∘ Asm.reload r := rfl
  rw [List.filterMap_map, hmove, List.filterMap_eq_map, reloadCode]

theorem countP_isStore_reloadCode (a : Allocator) (v : Var) (r : PoolReg) :
    (a.reloadCode v r).countP Asm.isStore = 0 := by
  refine List.countP_eq_zero.2 fun i hi => ?_
  obtain ⟨o, rfl, _⟩ := mem_reloadCode hi
  simp [Asm.reload, Asm.isStore]

theorem countP_isLoad_reloadCode (a : Allocator) (v : Var) (r : PoolReg) :
    (a.reloadCode v r).countP Asm.isLoad = (a.reloadCode v r).length := by
  refine List.countP_eq_length.2 fun i hi => ?_
  obtain ⟨o, rfl, _⟩ := mem_reloadCode hi
  rfl

/-- The events of an acquisition: how the register was found or whom it was taken from, and the
reload of the variable if it has a slot. -/
def told (a : Allocator) (v : Var) : Grant → List Event
  | .found .resident r => [.found .resident v r]
  | .found how r => .found how v r :: (a.slot? v).toList.map (Event.reload v r)
  | .evict r u placement =>
      .spill u r placement.offset :: ((a.store r u placement).slot? v).toList.map (Event.reload v r)

theorem journal_bind (a : Allocator) (v : Var) (r : PoolReg) :
    (a.bind v r).journal = a.journal ++ (a.slot? v).toList.map (Event.reload v r) := by
  rw [bind_eq]

theorem journal_store (a : Allocator) (r : PoolReg) (u : Var) (placement : Placement) :
    (a.store r u placement).journal = a.journal ++ [.spill u r placement.offset] := by
  rw [store_eq]

theorem journal_settle (a : Allocator) (v : Var) (grant : Grant) :
    (a.settle v grant).journal = a.journal ++ a.told v grant := by
  cases grant with
  | found how r =>
      cases how with
      | resident => rfl
      | free | retired =>
          show ((a.log _).bind v r).journal = _
          rw [journal_bind, log, List.append_assoc]
          rfl
  | evict r u placement =>
      rw [settle, journal_bind, journal_store, List.append_assoc]
      rfl

theorem moves_told (a : Allocator) (v : Var) (grant : Grant) :
    (a.told v grant).filterMap Event.move? = a.spillCode v grant := by
  cases grant with
  | found how r =>
      cases how with
      | resident => rfl
      | free | retired =>
          exact moves_reload a v r
  | evict r u placement => exact congrArg (Asm.spill r placement.offset :: ·) (moves_reload ..)

theorem moves_settle (a : Allocator) (v : Var) (grant : Grant) :
    (a.settle v grant).journal.filterMap Event.move? =
    a.journal.filterMap Event.move? ++ a.spillCode v grant := by
  rw [journal_settle, List.filterMap_append, moves_told]

theorem stores_settle (a : Allocator) (v : Var) (grant : Grant) :
    (a.settle v grant).stores = a.stores + (a.spillCode v grant).countP Asm.isStore := by
  cases grant with
  | found how r =>
      cases how with
      | resident => rfl
      | free | retired =>
          show ((a.log _).bind v r).stores = a.stores + (a.reloadCode v r).countP Asm.isStore
          rw [bind_eq, countP_isStore_reloadCode]
          rfl
  | evict r u placement =>
      rw [settle, bind_eq, spillCode, List.countP_cons_of_pos rfl,
        countP_isStore_reloadCode, store_eq]

theorem reloads_settle (a : Allocator) (v : Var) (grant : Grant) :
    (a.settle v grant).reloads = a.reloads + (a.spillCode v grant).countP Asm.isLoad := by
  cases grant with
  | found how r =>
      cases how with
      | resident => rfl
      | free | retired =>
          show ((a.log _).bind v r).reloads = a.reloads + (a.reloadCode v r).countP Asm.isLoad
          rw [bind_eq, countP_isLoad_reloadCode]
          rfl
  | evict r u placement =>
      rw [settle, bind_eq, spillCode, List.countP_cons_of_neg (by simp [Asm.spill, Asm.isLoad]),
        countP_isLoad_reloadCode, store_eq]

/-- The journal tells of the code that was taken and of the code that waits, and the counters count
what it tells of. -/
structure Balanced (taken : List Asm) (a : Allocator) : Prop where
  moves_eq : a.journal.filterMap Event.move? = taken ++ a.queue
  stores_eq : a.stores = (a.journal.filterMap Event.move?).countP Asm.isStore
  reloads_eq : a.reloads = (a.journal.filterMap Event.move?).countP Asm.isLoad

theorem Balanced.acquire (ha : a.Balanced taken) (h : a.acquire v excluded = (.ok r, b)) :
    b.Balanced taken := by
  obtain ⟨grant, _, _, rfl⟩ := acquire_eq_ok_iff.1 h
  refine ⟨?_, ?_, ?_⟩
  · rw [moves_settle, queue_settle, ha.moves_eq, List.append_assoc]
  · rw [moves_settle, List.countP_append, ← ha.stores_eq, stores_settle]
  · rw [moves_settle, List.countP_append, ← ha.reloads_eq, reloads_settle]

theorem Balanced.consume (ha : a.Balanced taken) (h : a.consume v = (.ok (), b)) :
    b.Balanced taken := by
  obtain ⟨pending, _, rfl⟩ := consume_eq_ok_iff.1 h
  exact ⟨ha.moves_eq, ha.stores_eq, ha.reloads_eq⟩

theorem Balanced.drain (ha : a.Balanced taken) : a.drain.2.Balanced (taken ++ a.queue) :=
  ⟨ha.moves_eq.trans (List.append_nil _).symm, ha.stores_eq, ha.reloads_eq⟩

/-! ### Registers of the pool -/

theorem Pooled.index_lt_of_acquire (hpool : a.Pooled) (h : a.acquire v excluded = (.ok r, b)) :
    r.index < a.poolSize := by
  rw [← (sameLayout_acquire h).1]
  exact (hpool.acquire h).index_lt (register?_acquire_self h)

theorem eq_register_of_mem_spillCode {i : Asm} (hi : i ∈ a.spillCode v grant)
    (hs : .pool s ∈ i.registers) : s = grant.register := by
  have hreload : ∀ {c : Allocator} {r}, i ∈ c.reloadCode v r → s = r := by
    intro c r hi
    obtain ⟨o, rfl, _⟩ := mem_reloadCode hi
    simpa [Asm.reload, Asm.registers] using hs
  cases grant with
  | found how r =>
      cases how with
      | resident => cases hi
      | free | retired => exact hreload hi
  | evict r u placement =>
      obtain rfl | hi := List.mem_cons.1 hi
      · simpa [Asm.spill, Asm.registers, Grant.register] using hs
      · exact hreload hi

def QueuedInPool (a : Allocator) : Prop :=
  a.Pooled ∧ ∀ i ∈ a.queue, ∀ r, .pool r ∈ i.registers → r.index < a.poolSize

theorem QueuedInPool.acquire (ha : a.QueuedInPool) (h : a.acquire v excluded = (.ok r, b)) :
    b.QueuedInPool := by
  refine ⟨ha.1.acquire h, fun i hi s hs => ?_⟩
  have hlt := ha.1.index_lt_of_acquire h
  rw [(sameLayout_acquire h).1]
  obtain ⟨grant, _, rfl, rfl⟩ := acquire_eq_ok_iff.1 h
  rw [queue_settle, List.mem_append] at hi
  obtain hi | hi := hi
  · exact ha.2 i hi s hs
  · rw [eq_register_of_mem_spillCode hi hs]
    exact hlt

theorem QueuedInPool.consume (ha : a.QueuedInPool) (h : a.consume v = (.ok (), b)) :
    b.QueuedInPool := by
  obtain ⟨pending, _, rfl⟩ := consume_eq_ok_iff.1 h
  exact ⟨⟨ha.1.recency_perm, ha.1.mem_recency⟩, ha.2⟩

theorem QueuedInPool.drain (ha : a.QueuedInPool) : a.drain.2.QueuedInPool :=
  ⟨ha.1.drain, fun i hi => by cases hi⟩

end Allocator

/-! ### Lines of a body -/

namespace Allocation

open Allocator

variable {ret : Reg} {i : Instr} {a b : Allocator} {asm : Asm} {r : PoolReg}

theorem Selected.index_lt (hsel : Selected ret i a asm b) (hpool : a.Pooled) (hret : ret ≠ .pool r)
    (hr : .pool r ∈ asm.registers) : r.index < a.poolSize := by
  cases hsel with
  | retWord => simp [Asm.registers, hret.symm] at hr
  | retVar hv =>
      obtain rfl : r = _ := by simpa [Asm.registers, hret.symm] using hr
      exact hpool.index_lt_of_acquire hv
  | movWord hdst =>
      obtain rfl : r = _ := by simpa [Asm.registers] using hr
      exact hpool.index_lt_of_acquire hdst
  | movVar hsrc hdst =>
      have hlt := (hpool.acquire hsrc).index_lt_of_acquire hdst
      rw [(sameLayout_acquire hsrc).1] at hlt
      obtain rfl | rfl : r = _ ∨ r = _ := by simpa [Asm.registers] using hr
      · exact hlt
      · exact hpool.index_lt_of_acquire hsrc
  | withWord _ hlhs hdst =>
      have hlt := (hpool.acquire hlhs).index_lt_of_acquire hdst
      rw [(sameLayout_acquire hlhs).1] at hlt
      obtain rfl | rfl : r = _ ∨ r = _ := by simpa [Asm.registers] using hr
      · exact hlt
      · exact hpool.index_lt_of_acquire hlhs
  | withVar hlhs hrhs hdst =>
      have hltR := (hpool.acquire hlhs).index_lt_of_acquire hrhs
      have hltD := ((hpool.acquire hlhs).acquire hrhs).index_lt_of_acquire hdst
      rw [(sameLayout_acquire hrhs).1, (sameLayout_acquire hlhs).1] at hltD
      rw [(sameLayout_acquire hlhs).1] at hltR
      obtain rfl | rfl | rfl : r = _ ∨ r = _ ∨ r = _ := by simpa [Asm.registers] using hr
      · exact hltD
      · exact hpool.index_lt_of_acquire hlhs
      · exact hltR

theorem Selected.ret_not_mem_registers (hsel : Selected ret i a asm b) (hi : i.isReturn = false)
    (name : String) : .ret name ∉ asm.registers := by
  cases hsel with
  | retWord | retVar => cases hi
  | _ => simp [Asm.registers]

theorem Selected.registers_of_isReturn (hsel : Selected ret i a asm b) (hi : i.isReturn = true) :
    asm.dest? = some ret ∧ ∃ sources, asm.registers = ret :: sources ∧
      ∀ name, .ret name ∉ sources := by
  cases hsel with
  | retWord => exact ⟨rfl, [], rfl, fun _ => List.not_mem_nil⟩
  | @retVar _ _ _ _ rs => exact ⟨rfl, [.pool rs], rfl, fun _ => by simp⟩
  | _ => cases hi

end Allocation

namespace Body

open Allocation Allocator

variable {ret : Reg} {i : Instr} {is : List Instr} {a b c : Allocator} {lines : List Line}
  {taken : List Asm}

/-- A body moves the waiting code to its lines, and nothing waits behind it. -/
theorem Emitted.balanced (h : Emitted ret is a lines b) (ha : a.Balanced taken)
    (hqueue : a.queue = []) : b.Balanced (taken ++ lines.filterMap Line.plain?) ∧ b.queue = [] := by
  induction h generalizing taken with
  | nil => exact ⟨by rwa [List.filterMap_nil, List.append_nil], hqueue⟩
  | @cons i rest a b c asm lines hsel hrest ih =>
      have hb : b.Balanced taken := hsel.preserves Balanced.acquire Balanced.consume ha
      rw [List.filterMap_append, plainInstrs_chunk, ← List.append_assoc]
      exact ih hb.drain rfl

theorem Emitted.selected_of_commented (h : Emitted ret is a lines b) {asm : Asm} {text : String}
    (hmem : .code asm (some text) ∈ lines) : ∃ i ∈ is, ∃ c d, Selected ret i c asm d := by
  induction h with
  | nil => cases hmem
  | @cons i rest a b c asm' lines hsel hrest ih =>
      obtain ⟨_, _, heq⟩ | heq | hmem := mem_chunk_append.1 hmem
      · cases heq
      · cases heq
        exact ⟨i, List.mem_cons_self, a, b, hsel⟩
      · obtain ⟨k, hk, hsel'⟩ := ih hmem
        exact ⟨k, List.mem_cons_of_mem i hk, hsel'⟩

theorem Emitted.not_directive (h : Emitted ret is a lines b) :
    ∀ line ∈ lines, line.instr?.isSome = true := by
  induction h with
  | nil => exact fun _ hline => by cases hline
  | cons hsel _ ih =>
      intro line hline
      obtain ⟨_, _, rfl⟩ | rfl | hline := mem_chunk_append.1 hline
      · rfl
      · rfl
      · exact ih line hline

theorem Emitted.index_lt (h : Emitted ret is a lines b) (ha : a.QueuedInPool) {r : PoolReg}
    (hret : ret ≠ .pool r) {j : Asm} (hj : j ∈ lines.filterMap Line.instr?)
    (hr : .pool r ∈ j.registers) : r.index < a.poolSize := by
  induction h with
  | nil => cases hj
  | @cons i rest a b c asm lines hsel hrest ih =>
      have hb : b.QueuedInPool := hsel.preserves QueuedInPool.acquire QueuedInPool.consume ha
      obtain hj | rfl | hj := mem_instrs_chunk_append.1 hj
      · rw [← hsel.sameLayout.1]
        exact hb.2 j hj r hr
      · exact hsel.index_lt ha.1 hret hr
      · rw [← hsel.sameLayout.1]
        exact ih hb.drain hj

theorem Emitted.of_concat (h : Emitted ret (is ++ [i]) a lines c) :
    ∃ front asm b d, Emitted ret is a front b ∧ Selected ret i b asm d ∧
      lines = front ++ chunk d.queue asm i := by
  obtain ⟨front, back, b, hfront, hback, rfl⟩ := h.of_append
  cases hback with
  | cons hsel hrest =>
      cases hrest
      exact ⟨front, _, b, _, hfront, hsel, by rw [List.append_nil]⟩

theorem Emitted.queued (h : Emitted ret is a lines b) (ha : a.Queued) : b.Queued := by
  induction h with
  | nil => exact ha
  | cons hsel _ ih =>
      have hb := hsel.preserves Queued.acquire Queued.consume ha
      exact ih ⟨hb.1.drain, fun j hj => by cases hj⟩

theorem Emitted.ret_not_mem_registers (h : Emitted ret is a lines b) (ha : a.Queued)
    (his : ∀ i ∈ is, i.isReturn = false) {j : Asm} (hj : j ∈ lines.filterMap Line.instr?)
    (name : String) : .ret name ∉ j.registers := by
  obtain ⟨i, hi, _, _, hsel⟩ | ⟨s, o, hmove, _⟩ := h.mem_instrs ha hj
  · exact hsel.ret_not_mem_registers (his i hi) name
  · exact Asm.ret_not_mem_registers_of_move hmove name

end Body

/-! ### Lines of a listing -/

/-- Every instruction of a listing stands on a line with a comment or on a line without one. -/
theorem Listing.length_instrs (l : Listing) :
    l.instrs.length = l.comments.length + l.plainInstrs.length := by
  obtain ⟨lines⟩ := l
  rw [instrs, comments, plainInstrs]
  induction lines with
  | nil => rfl
  | cons line lines ih =>
      obtain text | ⟨instr, _ | comment⟩ := line
      · exact ih
      · exact congrArg (· + 1) ih
      · exact (congrArg (· + 1) ih).trans (Nat.add_right_comm ..)

theorem Listing.filter_access {l : Listing}
    (h : ∀ i text, .code i (some text) ∈ l.lines → i.access? = none) :
    l.instrs.filter (fun i => i.access?.isSome) = l.plainInstrs.filter
      fun i => i.access?.isSome := by
  obtain ⟨lines⟩ := l
  rw [instrs, plainInstrs]
  induction lines with
  | nil => rfl
  | cons line lines ih =>
      have htail := ih fun i text hmem => h i text (List.mem_cons_of_mem line hmem)
      obtain text | ⟨instr, _ | comment⟩ := line
      · exact htail
      · show (instr :: _).filter _ = (instr :: _).filter _
        rw [List.filter_cons, List.filter_cons, htail]
      · have hnone := h instr comment List.mem_cons_self
        show (instr :: _).filter _ = _
        rw [List.filter_cons_of_neg (by simp [hnone]), htail]
        rfl

theorem Asm.countP_filter_access {test : Asm → Bool}
    (h : ∀ {i}, test i = true → i.access?.isSome = true) (code : List Asm) :
    (code.filter fun i => i.access?.isSome).countP test = code.countP test := by
  rw [List.countP_filter]
  refine List.countP_congr fun i _ => ?_
  rw [Bool.and_eq_true]
  exact ⟨And.left, fun hi => ⟨hi, h hi⟩⟩

/-- Of some lines only the last names a register for the returned word, and only if they return: it
writes the register and does not read it. -/
def ReturnsLast (name : String) (returns : Bool) (lines : List Line) : Prop :=
  ∃ front last, lines = front ++ last ∧
    (∀ i ∈ front.filterMap Line.instr?, ∀ other, .ret other ∉ i.registers) ∧
    if returns then ∃ i text sources, last = [.commented i text] ∧ i.dest? = some (.ret name) ∧
      i.registers = .ret name :: sources ∧ ∀ other, .ret other ∉ sources
    else last = []

theorem Body.Emitted.returnsLast {name : String} {q : Program} {a b : Allocator} {lines : List Line}
    (h : Emitted (.ret name) q.instrs a lines b) (ha : a.Queued)
    (hthrough : Program.throughReturn q.instrs = q.instrs) :
    ReturnsLast name q.endsInReturn lines := by
  obtain hnone | ⟨front, last, hsplit, hlast, hfront⟩ := Program.of_throughReturn_eq hthrough
  · have hends : q.endsInReturn = false := by
      rw [Program.endsInReturn, Option.any_eq_false]
      intro i hi
      simp [hnone i (List.mem_of_getLast? hi)]
    rw [hends]
    exact ⟨lines, [], (List.append_nil lines).symm, fun i hi => h.ret_not_mem_registers ha hnone hi,
      rfl⟩
  · have hends : q.endsInReturn = true := by
      rw [Program.endsInReturn, hsplit, List.getLast?_concat, Option.any_some, hlast]
    rw [hsplit] at h
    obtain ⟨lines', asm, c, d, hemitted, hsel, rfl⟩ := h.of_concat
    have hd : d.Queued := hsel.preserves Allocator.Queued.acquire Allocator.Queued.consume
      (hemitted.queued ha)
    obtain ⟨hdest, sources, hregisters, hsources⟩ := hsel.registers_of_isReturn hlast
    rw [hends]
    refine ⟨lines' ++ d.queue.map Line.plain, _, (List.append_assoc ..).symm, fun i hi => ?_,
      asm, last.text, sources, rfl, hdest, hregisters, hsources⟩
    -- In front of the line that returns stand the lines of the other instructions and the code that
    -- waits for it.
    have hplain : Line.instr? ∘ Line.plain = some := rfl
    rw [List.filterMap_append, List.filterMap_map, hplain, List.filterMap_some,
      List.mem_append] at hi
    obtain hi | hi := hi
    · exact hemitted.ret_not_mem_registers ha hfront hi
    · obtain ⟨s, o, hmove, _⟩ := hd.2 i hi
      exact Asm.ret_not_mem_registers_of_move hmove

theorem Line.plainInstrs_plain_cons (asm : Asm) (lines : List Line) :
    (Line.plain asm :: lines).filterMap Line.plain? = asm :: lines.filterMap Line.plain? := rfl

namespace Framed

variable {size : Nat} {returns : Bool} {lines framed : List Line}

theorem not_directive (h : Framed size returns lines framed)
    (hlines : ∀ line ∈ lines, line.instr?.isSome = true) :
    ∀ line ∈ framed, line.instr?.isSome = true := by
  cases h with
  | bare => exact hlines
  | behind => simpa [Line.plain, Line.instr?, or_imp, forall_and] using hlines
  | before => simpa [Line.plain, Line.instr?, or_imp, forall_and] using hlines

theorem plainInstrs (h : Framed size returns lines framed)
    (hlast : ∀ front line, returns = true → lines = front ++ [line] → line.plain? = none) :
    framed.filterMap Line.plain? = if size = 0 then lines.filterMap Line.plain?
      else .adjustSp (-Int32.ofNat size) ::
        (lines.filterMap Line.plain? ++ [.adjustSp (Int32.ofNat size)]) := by
  cases h with
  | bare hsize => rw [if_pos hsize]
  | behind hsize =>
      rw [if_neg hsize, Line.plainInstrs_plain_cons, List.filterMap_append]
      rfl
  | @before front last hsize =>
      have hnone := hlast front last rfl rfl
      rw [if_neg hsize, Line.plainInstrs_plain_cons, List.filterMap_append, List.filterMap_append,
        Line.plainInstrs_plain_cons, List.filterMap_cons_none hnone, List.filterMap_nil,
        List.append_nil]

theorem mem_commented (h : Framed size returns lines framed) {i : Asm} {text : String}
    (hmem : .code i (some text) ∈ framed) : .code i (some text) ∈ lines := by
  cases h with
  | bare => exact hmem
  | behind => simpa [Line.plain] using hmem
  | before => simpa [Line.plain] using hmem

theorem returnsLast (h : Framed size returns lines framed) {name : String}
    (hlines : ReturnsLast name returns lines) : ReturnsLast name returns framed := by
  obtain ⟨front, last, hsplit, hfront, hlast⟩ := hlines
  let opening := Line.plain (.adjustSp (-Int32.ofNat size))
  let closing := Line.plain (.adjustSp (Int32.ofNat size))
  have henclosed : ∀ i ∈ (opening :: (front ++ [closing])).filterMap Line.instr?,
      ∀ name, .ret name ∉ i.registers := by
    have hsp : ∀ delta name, Reg.ret name ∉ (Asm.adjustSp delta).registers := by
      simp [Asm.adjustSp, Asm.registers]
    intro i hi
    rw [Line.instrs_plain_cons, List.filterMap_append, List.mem_cons, List.mem_append] at hi
    obtain rfl | hi | hi := hi
    · exact hsp _
    · exact hfront i hi
    · cases List.mem_singleton.1 hi
      exact hsp _
  cases h with
  | bare => exact ⟨front, last, hsplit, hfront, hlast⟩
  | behind =>
      obtain rfl : last = [] := hlast
      rw [List.append_nil] at hsplit
      subst hsplit
      exact ⟨_, [], (List.append_nil _).symm, henclosed, rfl⟩
  | @before front' last' =>
      obtain ⟨i, text, sources, rfl, hreturn⟩ := hlast
      obtain ⟨rfl, hline⟩ := List.append_inj' hsplit rfl
      obtain rfl : last' = .commented i text := List.singleton_inj.1 hline
      refine ⟨opening :: (front' ++ [closing]), [.commented i text], ?_, henclosed, i, text,
        sources, rfl, hreturn⟩
      rw [List.cons_append, List.append_assoc, List.singleton_append]

end Framed

/-! ### The account of a compilation -/

theorem Options.balanced_allocator (o : Options) (q : Program) : (o.allocator q).Balanced [] :=
  ⟨rfl, rfl, rfl⟩

theorem Options.queuedInPool_allocator {o : Options} (hvalid : o.validate = .ok ()) (q : Program) :
    (o.allocator q).QueuedInPool := ⟨(ready_allocator hvalid q).pooled, fun i hi => by cases hi⟩

namespace Assembled

variable {o : Options} {q : Program} {l : Lowered} {lines framed : List Line} {b : Allocator}

theorem body_eq (h : Assembled o q l lines framed b) :
    Emitter.body { options := o } q = ⟨lines, b, .ok ()⟩ :=
  Body.emit_of_emitted h.body 0

theorem plain?_last (h : Assembled o q l lines framed b) {front : List Line} {line : Line}
    (hends : q.endsInReturn = true) (hsplit : lines = front ++ [line]) : line.plain? = none := by
  obtain ⟨i, hi, -⟩ := (Option.any_eq_true _ _).1 hends
  obtain ⟨front', asm, _, _, hlines, _⟩ := h.body.last hi
  obtain rfl : line = .commented asm i.text := by
    rw [hlines] at hsplit
    exact (List.singleton_inj.1 (List.append_inj' hsplit rfl).2).symm
  rfl

theorem balanced (h : Assembled o q l lines framed b) :
    b.Balanced (lines.filterMap Line.plain?) ∧ b.queue = [] :=
  h.body.balanced (Options.balanced_allocator o q) rfl

theorem plainInstrs_listing (h : Assembled o q l lines framed b) : l.listing.plainInstrs =
    if l.stats.frameSize = 0 then b.journal.filterMap Event.move?
    else .adjustSp (-Int32.ofNat l.stats.frameSize) ::
      (b.journal.filterMap Event.move? ++ [.adjustSp (Int32.ofNat l.stats.frameSize)]) := by
  obtain ⟨hbalanced, hqueue⟩ := h.balanced
  have hmoves := hbalanced.moves_eq
  rw [hqueue, List.append_nil] at hmoves
  rw [h.listing_eq, Listing.plainInstrs, List.filterMap_cons_none rfl,
    h.frame.plainInstrs fun _ _ => h.plain?_last, hmoves]

theorem length_plainInstrs (h : Assembled o q l lines framed b) :
    l.listing.plainInstrs.length =
      b.stores + b.reloads + (if 0 < l.stats.frameSize then 2 else 0) := by
  have hlength := Asm.length_eq_of_access (Event.access?_moves b.journal)
  rw [← h.balanced.1.stores_eq, ← h.balanced.1.reloads_eq] at hlength
  rw [h.plainInstrs_listing]
  split
  · next hzero => rw [hzero, hlength, if_neg (Nat.lt_irrefl 0), Nat.add_zero]
  · next hsize =>
      rw [if_pos (Nat.pos_of_ne_zero hsize), List.length_cons, List.length_append,
        List.length_singleton, hlength]

theorem computes (h : Assembled o q l lines framed b) :
    ∀ i text, .code i (some text) ∈ l.listing.lines → i.access? = none ∧ .sp ∉ i.registers := by
  intro i text hmem
  rw [h.listing_eq] at hmem
  have hframed : .code i (some text) ∈ framed := by simpa using hmem
  obtain ⟨_, _, _, _, hsel⟩ := h.body.selected_of_commented (h.frame.mem_commented hframed)
  exact ⟨hsel.access?_eq_none, hsel.sp_not_mem_registers (by simp)⟩

theorem filter_access_listing (h : Assembled o q l lines framed b) :
    l.listing.instrs.filter (fun i => i.access?.isSome) = b.journal.filterMap Event.move? := by
  have hmoves := List.filter_eq_self.2 (Event.access?_moves b.journal)
  rw [Listing.filter_access fun i text hmem => (h.computes i text hmem).1, h.plainInstrs_listing]
  split
  · exact hmoves
  · rw [List.filter_cons_of_neg (by simp [Asm.adjustSp, Asm.access?]), List.filter_append, hmoves]
    exact List.append_nil _

theorem returnsLast_listing (h : Assembled o q l lines framed b) (hvalid : o.validate = .ok ())
    (hthrough : Program.throughReturn q.instrs = q.instrs) :
    ReturnsLast o.returnRegister q.endsInReturn l.listing.lines := by
  obtain ⟨front, last, hsplit, hfront, hlast⟩ :=
    h.frame.returnsLast (h.body.returnsLast (Options.queued_allocator hvalid q) hthrough)
  refine ⟨.directive o.sectionDirective :: front, last, ?_, hfront, hlast⟩
  rw [h.listing_eq, hsplit, List.cons_append]

theorem index_lt (h : Assembled o q l lines framed b) (hvalid : o.validate = .ok ()) {i : Asm}
    (hi : i ∈ l.listing.instrs) {r : PoolReg} (hr : .pool r ∈ i.registers) :
    r.index < o.poolSize.toNat := by
  rw [h.instrs_listing, h.frame.mem_instrs_iff] at hi
  obtain hi | ⟨_, rfl | rfl⟩ := hi
  · exact h.body.index_lt (Options.queuedInPool_allocator hvalid q) (by simp) hi hr
  · simp [Asm.adjustSp, Asm.registers] at hr
  · simp [Asm.adjustSp, Asm.registers] at hr

end Assembled

namespace Compilation

variable {o : Options} {p : Program} {c : Compilation}

/-- The parts of a compilation, with the allocator whose journal it tells and whose counters it
reports. -/
theorem exists_assembled_events (h : (o.compile p).outcome = .ok c) : ∃ lines framed b,
    Assembled o c.normalized ⟨c.listing, c.stats⟩ lines framed b ∧
      (o.compile p).events.filterMap Event.move? = b.journal.filterMap Event.move? ∧
      c.stats.stores = b.stores ∧ c.stats.reloads = b.reloads := by
  have hevents := Options.events_compile h
  obtain ⟨hvalid, l, hlower, rfl⟩ := Options.compile_eq_ok_iff.1 h
  obtain ⟨lines, framed, b, hassembled⟩ :=
    Emitter.exists_assembled (e := { options := o }) hvalid hlower
  have hstats := Emitter.stats_lower (e := { options := o }) hvalid hlower
  have hwarned : ∀ warnings : List Warning,
      (warnings.map Event.warned).filterMap Event.move? = [] := by
    intro warnings
    rw [List.filterMap_map, List.filterMap_eq_nil_iff]
    exact fun _ _ => rfl
  rw [hassembled.body_eq] at hstats
  refine ⟨lines, framed, b, hassembled, ?_, congrArg Stats.stores hstats,
    congrArg Stats.reloads hstats⟩
  rw [hevents, List.filterMap_cons_none rfl, List.filterMap_append, hwarned, List.append_nil]
  show (Emitter.lower { options := o } (p.normalForm o.legalize)).1.events.filterMap Event.move? = _
  rw [Emitter.events_lower (e := { options := o }) hvalid hlower, List.filterMap_cons_none rfl,
    List.filterMap_append, hassembled.body_eq]
  exact List.append_nil _

theorem counts_eq (h : (o.compile p).outcome = .ok c) :
    c.asmCount = c.listing.instrs.length ∧ c.normalizedCount = c.normalized.instrs.length := by
  obtain ⟨_, l, _, rfl⟩ := Options.compile_eq_ok_iff.1 h
  exact ⟨rfl, rfl⟩

theorem throughReturn_normalized (h : (o.compile p).outcome = .ok c) :
    Program.throughReturn c.normalized.instrs = c.normalized.instrs := by
  rw [normalized_eq h]
  exact NormalForm.throughReturn_ofInstrs ..

/-- What a compilation and its events say about the lines of the listing. -/
structure Accounted (o : Options) (events : List Event) (c : Compilation) : Prop where
  /-- The directive comes first, and every other line holds an instruction. -/
  directive : ∃ rest, c.listing.lines = .directive o.sectionDirective :: rest ∧
    ∀ line ∈ rest, line.instr?.isSome = true
  comments : c.listing.comments = c.normalized.instrs.map Instr.text
  /-- What a comment stands behind computes among registers and leaves the stack alone. -/
  computes : ∀ i text, .code i (some text) ∈ c.listing.lines → i.access? = none ∧ .sp ∉ i.registers
  /-- The lines without a comment are the stores and loads that the events tell of, inside the two
  moves of the stack pointer if there is a frame. -/
  plain : c.listing.plainInstrs =
    if c.stats.frameSize = 0 then events.filterMap Event.move?
    else .adjustSp (-Int32.ofNat c.stats.frameSize) ::
      (events.filterMap Event.move? ++ [.adjustSp (Int32.ofNat c.stats.frameSize)])
  moves : c.listing.instrs.filter (fun i => i.access?.isSome) = events.filterMap Event.move?
  stores : c.stats.stores = c.listing.instrs.countP Asm.isStore
  reloads : c.stats.reloads = c.listing.instrs.countP Asm.isLoad
  size : c.asmCount = c.normalizedCount + c.stats.stores + c.stats.reloads +
    (if 0 < c.stats.frameSize then 2 else 0)
  /-- The registers of the pool are those that the options allow, and none goes by the name of the
  one for the returned word. -/
  pool : ∀ i ∈ c.listing.instrs, ∀ r, .pool r ∈ i.registers → r.index < o.poolSize.toNat ∧
    r.name ≠ o.returnRegister
  returns : ReturnsLast o.returnRegister c.normalized.endsInReturn c.listing.lines

end Compilation

namespace Options

/-- **Every line of a listing is accounted for.** -/
theorem lines_accounted {o : Options} {p : Program} {c : Compilation}
    (h : (o.compile p).outcome = .ok c) : c.Accounted o (o.compile p).events := by
  obtain ⟨hvalid, -⟩ := compile_eq_ok_iff.1 h
  obtain ⟨lines, framed, b, hassembled, hevents, hstores, hreloads⟩ :=
    Compilation.exists_assembled_events h
  obtain ⟨hasm, hnormalized⟩ := Compilation.counts_eq h
  have hcomments := Compilation.comments_listing h
  have hmoves := hassembled.filter_access_listing
  constructor
  case directive =>
    exact ⟨framed, congrArg Listing.lines hassembled.listing_eq,
      hassembled.frame.not_directive hassembled.body.not_directive⟩
  case comments => exact hcomments
  case computes => exact hassembled.computes
  case plain =>
    rw [hevents]
    exact hassembled.plainInstrs_listing
  case moves => rw [hevents, hmoves]
  case stores =>
    rw [hstores, hassembled.balanced.1.stores_eq, ← hmoves,
      Asm.countP_filter_access Asm.access?_of_isStore]
  case reloads =>
    rw [hreloads, hassembled.balanced.1.reloads_eq, ← hmoves,
      Asm.countP_filter_access Asm.access?_of_isLoad]
  case size =>
    rw [hasm, Listing.length_instrs, hcomments, List.length_map, ← hnormalized,
      hassembled.length_plainInstrs, hstores, hreloads, Nat.add_assoc, Nat.add_assoc, Nat.add_assoc]
  case pool =>
    obtain ⟨⟨_, hmax⟩, _, _, hname⟩ := validate_eq_ok_iff.1 hvalid
    intro i hi r hr
    have hlt := hassembled.index_lt hvalid hi hr
    exact ⟨hlt, fun heq => hname (heq ▸ PoolReg.name_mem_names (Nat.lt_of_lt_of_le hlt hmax))⟩
  case returns =>
    exact hassembled.returnsLast_listing hvalid (Compilation.throughReturn_normalized h)

/-- One variable is stored and reloaded right in front of the return, so the frame is closed between
its reload and the line that returns it. A temporary and a discarded instruction leave no other
trace. -/
theorem lines_accounted_reloaded :
    let o : Options := { poolSize := 3, alignment := 16 }
    let p : Program := ⟨[.mov ⟨"a"⟩ (.imm 1), .mov ⟨"b"⟩ (.imm 2), .mov ⟨"c"⟩ (.imm 3),
      .mov ⟨"d"⟩ (.imm 4), .binary .add ⟨"b"⟩ (.var ⟨"b"⟩) (.var ⟨"c"⟩),
      .binary .mul ⟨"b"⟩ (.var ⟨"b"⟩) (.imm 5), .ret (.var ⟨"a"⟩), .mov ⟨"z"⟩ (.imm 4)]⟩
    ∃ c, (o.compile p).outcome = .ok c ∧ c.listing.instrs.countP Asm.isStore = 1 ∧
      c.listing.instrs.countP Asm.isLoad = 1 ∧
      c.asmCount = 8 + 1 + 1 + 2 ∧
      c.listing.plainInstrs = [.adjustSp (-16), .spill ⟨0⟩ 0, .reload ⟨2⟩ 0, .adjustSp 16] ∧
      ReturnsLast "a0" true c.listing.lines := by
  intro o p
  have hfacts : (o.compile p).outcome.toOption.map
      (fun c => (c.stats.stores, c.stats.reloads, c.stats.frameSize, c.normalizedCount,
        c.normalized.endsInReturn)) = some (1, 1, 16, 8, true) := by decide
  have hmoves : (o.compile p).events.filterMap Event.move? = [.spill ⟨0⟩ 0, .reload ⟨2⟩ 0] := by
    decide
  obtain ⟨c, hcompile, hvalues⟩ := exists_compiled hfacts
  obtain ⟨hstores, hreloads, hframe, hnormalized, hends⟩ : c.stats.stores = 1 ∧
      c.stats.reloads = 1 ∧
      c.stats.frameSize = 16 ∧ c.normalizedCount = 8 ∧ c.normalized.endsInReturn = true := by
    simpa using hvalues
  have haccounted := lines_accounted hcompile
  have hplain := haccounted.plain
  have hsize := haccounted.size
  have hreturns := haccounted.returns
  rw [hmoves, hframe] at hplain
  rw [hnormalized, hstores, hreloads, hframe] at hsize
  rw [hends] at hreturns
  exact ⟨c, hcompile, haccounted.stores.symm.trans hstores, haccounted.reloads.symm.trans hreloads,
    hsize, hplain, hreturns⟩

end Options

end StraightLine
