import StraightLine.Proofs.AsmText
import StraightLine.Proofs.ListingText

/-!
# Names of registers

In print a register is its name. Registers of the pool have names of their own, none of which is
`sp`, and validation keeps the register for the returned word from going by one of them. It does not
keep it from going by `sp`, and this is the only way in which two registers of a listing can share a
name: the program returns, and there is a frame. Where names are not shared, running a listing by
names is running it, because an injective renaming of registers carries every step along; and the
lines that read as writing `sp` are the two moves of the frame, unless the returned word itself goes
there.
-/

namespace StraightLine

open Text

/-! ### Runs under other names -/

namespace Machine

variable {f : Reg → Reg} {rs : List Reg} {m n : Machine} {i : Asm} {code : List Asm}

/-- The second machine has the memory of the first and, under other names, its words in some
registers. -/
def AgreeUnder (f : Reg → Reg) (rs : List Reg) (m n : Machine) : Prop :=
  n.mem = m.mem ∧ ∀ r ∈ rs, n.reg (f r) = m.reg r

theorem AgreeUnder.setReg (h : AgreeUnder f rs m n) (hf : ∀ r ∈ rs, ∀ s ∈ rs, f r = f s → r = s)
    {rd : Reg} (hrd : rd ∈ rs) (value : Int32) :
    AgreeUnder f rs (m.setReg rd value) (n.setReg (f rd) value) := by
  refine ⟨h.1, fun r hr => ?_⟩
  rw [reg_setReg, reg_setReg]
  by_cases heq : r = rd
  · rw [if_pos heq, if_pos (congrArg f heq)]
  · rw [if_neg heq, if_neg fun hnames => heq (hf r hr rd hrd hnames), h.2 r hr]

theorem AgreeUnder.address (h : AgreeUnder f rs m n) {base : Reg} (hbase : base ∈ rs)
    (offset : Nat) : n.address (f base) offset = m.address base offset := by
  rw [Machine.address, Machine.address, h.2 base hbase]

/-- An instruction does under other names what it does, if it keeps to registers that have different
names. -/
theorem AgreeUnder.step (h : AgreeUnder f rs m n) (hf : ∀ r ∈ rs, ∀ s ∈ rs, f r = f s → r = s)
    (hi : ∀ r ∈ i.registers, r ∈ rs) : AgreeUnder f rs (m.step i) (n.step (i.rename f)) := by
  cases i with
  | li rd value =>
      simp only [Asm.registers, List.forall_mem_cons] at hi
      exact h.setReg hf hi.1 value
  | mv rd source =>
      simp only [Asm.registers, List.forall_mem_cons] at hi
      rw [Asm.rename, Machine.step, Machine.step, h.2 source hi.2.1]
      exact h.setReg hf hi.1 _
  | addi rd source value =>
      simp only [Asm.registers, List.forall_mem_cons] at hi
      rw [Asm.rename, Machine.step, Machine.step, h.2 source hi.2.1]
      exact h.setReg hf hi.1 _
  | arith op rd left right =>
      simp only [Asm.registers, List.forall_mem_cons] at hi
      rw [Asm.rename, Machine.step, Machine.step, h.2 left hi.2.1, h.2 right hi.2.2.1]
      exact h.setReg hf hi.1 _
  | lw rd offset base =>
      simp only [Asm.registers, List.forall_mem_cons] at hi
      rw [Asm.rename, Machine.step, Machine.step, h.address hi.2.1, h.1]
      exact h.setReg hf hi.1 _
  | sw source offset base =>
      simp only [Asm.registers, List.forall_mem_cons] at hi
      rw [Asm.rename, Machine.step, Machine.step, h.address hi.2.1, h.2 source hi.1]
      refine ⟨?_, h.2⟩
      rw [Machine.setMem, Machine.setMem, h.1]

theorem AgreeUnder.run (h : AgreeUnder f rs m n) (hf : ∀ r ∈ rs, ∀ s ∈ rs, f r = f s → r = s)
    (hcode : ∀ i ∈ code, ∀ r ∈ i.registers, r ∈ rs) :
    AgreeUnder f rs (m.run code) (n.run (code.map (Asm.rename f))) := by
  induction code generalizing m n with
  | nil => exact h
  | cons i code ih =>
      exact ih (h.step hf (hcode i List.mem_cons_self))
        fun j hj => hcode j (List.mem_cons_of_mem i hj)

end Machine

/-! ### Listings in print -/

namespace Listing

def registers (l : Listing) : List Reg := l.instrs.flatMap Asm.registers

def Unambiguous (l : Listing) : Prop :=
  ∀ r ∈ l.registers, ∀ s ∈ l.registers, r.name = s.name → r = s

def runByName (l : Listing) (m : Machine) : Machine := m.run (l.instrs.map (Asm.rename Reg.named))

/-- The run of what is printed: the lines behind the directive are read and run. -/
def runText? (l : Listing) (m : Machine) : Option Machine :=
  ((l.lines.drop 1).mapM fun line => Asm.read? line.text.toList).map m.run

theorem Unambiguous.agreeUnder_run {l : Listing} (h : l.Unambiguous) {m n : Machine}
    (hagree : m.AgreeUnder Reg.named l.registers n) :
    (l.run m).AgreeUnder Reg.named l.registers (l.runByName n) :=
  hagree.run (fun r hr s hs hnamed => h r hr s hs (Reg.ret.inj hnamed))
    fun i hi _ hr => List.mem_flatMap.2 ⟨i, hi, hr⟩

end Listing

def Line.destName? (line : Line) : Option String := (line.instr?.bind Asm.dest?).map Reg.name

def frameLines (size : Nat) : List Line :=
  if size = 0 then [] else [.plain (.adjustSp (-Int32.ofNat size)),
    .plain (.adjustSp (Int32.ofNat size))]

theorem Asm.mem_registers_of_dest? {i : Asm} {r : Reg} (h : i.dest? = some r) :
    r ∈ i.registers := by
  cases i with
  | sw => cases h
  | _ =>
      cases h
      exact List.mem_cons_self

theorem mapM_read?_text {lines : List Line} (hcode : ∀ line ∈ lines, line.instr?.isSome = true)
    (hsolid : ∀ i ∈ lines.filterMap Line.instr?, ∀ r ∈ i.registers, Solid r.name.toList) :
    lines.mapM (fun line => Asm.read? line.text.toList) =
        some ((lines.filterMap Line.instr?).map (Asm.rename Reg.named)) := by
  induction lines with
  | nil => rfl
  | cons line lines ih =>
      rw [List.forall_mem_cons] at hcode
      cases line with
      | directive => cases hcode.1
      | code i comment =>
          have hinstrs : (Line.code i comment :: lines).filterMap Line.instr? =
              i :: lines.filterMap Line.instr? := rfl
          rw [hinstrs, List.forall_mem_cons] at hsolid
          rw [List.mapM_cons, Asm.read?_text hsolid.1, ih hcode.2 hsolid.2, hinstrs]
          rfl

theorem PoolReg.name_ne_sp {r : PoolReg} (h : r.index < count) : r.name ≠ "sp" := by
  intro heq
  have hmem := name_mem_names h
  rw [heq] at hmem
  revert hmem
  decide

/-- Of framed lines, those that write what is named `sp` are the frame, if the lines between do
not. -/
theorem Framed.filter_destName? {size : Nat} {returns : Bool} {lines framed : List Line}
    (h : Framed size returns lines framed) (hlines : ∀ line ∈ lines, line.destName? ≠ some "sp") :
    framed.filter (fun line => line.destName? = some "sp") = frameLines size := by
  have hnone : lines.filter (fun line => line.destName? = some "sp") = [] := by simpa using hlines
  have hframe : ∀ delta, (Line.plain (.adjustSp delta)).destName? = some "sp" := fun _ => rfl
  rw [frameLines]
  cases h with
  | bare hsize => rw [if_pos hsize, hnone]
  | behind hsize => simp [hsize, hframe, hnone]
  | before hsize =>
      rw [List.filter_append, List.append_eq_nil_iff] at hnone
      simp [hsize, hframe, hnone]

namespace Assembled

variable {o : Options} {q : Program} {l : Lowered} {lines framed : List Line}
  {b : Allocator} {r s : Reg}

theorem exists_return (h : Assembled o q l lines framed b) (hvalid : o.validate = .ok ())
    (hthrough : Program.throughReturn q.instrs = q.instrs) (hends : q.endsInReturn = true) :
    ∃ i text, .commented i text ∈ l.listing.lines ∧ i.dest? = some (.ret o.returnRegister) := by
  obtain ⟨front, last, hsplit, _, hlast⟩ := h.returnsLast_listing hvalid hthrough
  rw [hends] at hlast
  obtain ⟨i, text, _, rfl, hdest, _⟩ := hlast
  exact ⟨i, text, by rw [hsplit]; simp, hdest⟩

theorem endsInReturn_of_mem (h : Assembled o q l lines framed b) (hvalid : o.validate = .ok ())
    (hthrough : Program.throughReturn q.instrs = q.instrs) {name : String}
    (hr : .ret name ∈ l.listing.registers) : q.endsInReturn = true := by
  obtain ⟨front, last, hsplit, hfront, hlast⟩ := h.returnsLast_listing hvalid hthrough
  cases hends : q.endsInReturn with
  | true => rfl
  | false =>
      rw [hends] at hlast
      obtain rfl : last = [] := hlast
      obtain ⟨i, hi, hr⟩ := List.mem_flatMap.1 hr
      rw [Listing.instrs, hsplit, List.append_nil] at hi
      exact absurd hr (hfront i hi name)

theorem mem_registers_cases (h : Assembled o q l lines framed b) (hvalid : o.validate = .ok ())
    (hr : r ∈ l.listing.registers) :
    r = .sp ∨ r = .ret o.returnRegister ∨ ∃ s : PoolReg, r = .pool s ∧ s.index < PoolReg.count := by
  obtain ⟨i, hi, hr⟩ := List.mem_flatMap.1 hr
  exact h.register_cases hvalid hi hr

theorem sp_mem_registers_iff (h : Assembled o q l lines framed b) (hvalid : o.validate = .ok ()) :
    .sp ∈ l.listing.registers ↔ 0 < l.stats.frameSize := by
  constructor
  · intro hmem
    obtain ⟨i, hi, hsp⟩ := List.mem_flatMap.1 hmem
    exact Nat.pos_of_ne_zero fun hzero => h.sp_not_mem_registers hvalid hzero hi hsp
  · intro hpos
    have hopening : .adjustSp (-Int32.ofNat l.stats.frameSize) ∈ l.listing.instrs := by
      rw [h.instrs_listing, h.frame.mem_instrs_iff]
      exact Or.inr ⟨Nat.ne_of_gt hpos, Or.inl rfl⟩
    exact List.mem_flatMap.2 ⟨_, hopening, List.mem_cons_self⟩

theorem ret_mem_registers (h : Assembled o q l lines framed b) (hvalid : o.validate = .ok ())
    (hthrough : Program.throughReturn q.instrs = q.instrs) (hends : q.endsInReturn = true) :
    .ret o.returnRegister ∈ l.listing.registers := by
  obtain ⟨i, text, hmem, hdest⟩ := h.exists_return hvalid hthrough hends
  exact List.mem_flatMap.2 ⟨i, List.mem_filterMap.2 ⟨_, hmem, rfl⟩,
    Asm.mem_registers_of_dest? hdest⟩

/-- Two registers share a name only if one is the stack pointer and the returned word goes to the
other under its name. -/
theorem unambiguous_iff (h : Assembled o q l lines framed b) (hvalid : o.validate = .ok ())
    (hthrough : Program.throughReturn q.instrs = q.instrs) : l.listing.Unambiguous ↔
      ¬ (o.returnRegister = "sp" ∧ q.endsInReturn = true ∧ 0 < l.stats.frameSize) := by
  constructor
  · rintro hnames ⟨hsp, hends, hpos⟩
    have hret := h.ret_mem_registers hvalid hthrough hends
    cases hnames _ hret .sp ((h.sp_mem_registers_iff hvalid).2 hpos) hsp
  · intro hclash r hr s hs heq
    have hpool : ∀ t : PoolReg, t.index < PoolReg.count → t.name ≠ o.returnRegister :=
      fun t hlt heq =>
        (Options.validate_eq_ok_iff.1 hvalid).2.2.2 (heq ▸ PoolReg.name_mem_names hlt)
    have hsp : .sp ∈ l.listing.registers → .ret o.returnRegister ∈ l.listing.registers →
        o.returnRegister ≠ "sp" :=
      fun hsp hret heq => hclash ⟨heq, h.endsInReturn_of_mem hvalid hthrough hret,
        (h.sp_mem_registers_iff hvalid).1 hsp⟩
    -- Of the pairs of kinds, only the stack pointer and the returned word are kept apart by the
    -- condition.
    obtain rfl | rfl | ⟨r, rfl, hlt⟩ := h.mem_registers_cases hvalid hr <;>
      obtain rfl | rfl | ⟨s, rfl, hlt'⟩ := h.mem_registers_cases hvalid hs
    · rfl
    · exact absurd heq.symm (hsp hr hs)
    · exact absurd heq.symm (PoolReg.name_ne_sp hlt')
    · exact absurd heq (hsp hs hr)
    · rfl
    · exact absurd heq.symm (hpool s hlt')
    · exact absurd heq (PoolReg.name_ne_sp hlt)
    · exact absurd heq (hpool r hlt)
    · rw [PoolReg.name_injective (decide_eq_true hlt) (decide_eq_true hlt') heq]

theorem runText?_eq (h : Assembled o q l lines framed b) (hvalid : o.validate = .ok ())
    (hthrough : Program.throughReturn q.instrs = q.instrs)
    (hsolid : q.endsInReturn = true → Solid o.returnRegister.toList) (m : Machine) :
    l.listing.runText? m = some (l.listing.runByName m) := by
  have hpool : ∀ name ∈ PoolReg.names, Solid name.toList := by decide
  have hlines : l.listing.lines.drop 1 = framed := by rw [h.listing_eq]; rfl
  have hnames : ∀ i ∈ framed.filterMap Line.instr?, ∀ r ∈ i.registers, Solid r.name.toList := by
    intro i hi r hr
    rw [← h.instrs_listing] at hi
    have hmem : r ∈ l.listing.registers := List.mem_flatMap.2 ⟨i, hi, hr⟩
    obtain rfl | rfl | ⟨s, rfl, hlt⟩ := h.mem_registers_cases hvalid hmem
    · decide
    · exact hsolid (h.endsInReturn_of_mem hvalid hthrough hmem)
    · exact hpool _ (PoolReg.name_mem_names hlt)
  rw [Listing.runText?, hlines, mapM_read?_text (h.frame.not_directive h.body.not_directive) hnames,
    Listing.runByName, h.instrs_listing]
  rfl

theorem filter_destName?_iff (h : Assembled o q l lines framed b) (hvalid : o.validate = .ok ())
    (hthrough : Program.throughReturn q.instrs = q.instrs) :
    l.listing.lines.filter (fun line => line.destName? = some "sp") = frameLines l.stats.frameSize ↔
      ¬ (o.returnRegister = "sp" ∧ q.endsInReturn = true) := by
  constructor
  · rintro hfilter ⟨hsp, hends⟩
    obtain ⟨i, text, hmem, hdest⟩ := h.exists_return hvalid hthrough hends
    have hframe : .commented i text ∈ frameLines l.stats.frameSize := by
      rw [← hfilter, List.mem_filter]
      refine ⟨hmem, ?_⟩
      simp [Line.destName?, Line.commented, Line.instr?, hdest, Reg.name, hsp]
    rw [frameLines] at hframe
    split at hframe
    · cases hframe
    · simp [Line.commented, Line.plain] at hframe
  · intro hclash
    have hbody : ∀ line ∈ lines, line.destName? ≠ some "sp" := by
      intro line hline hname
      obtain ⟨r, hdest, hname⟩ := Option.map_eq_some_iff.1 hname
      obtain ⟨i, hi, hdest⟩ := Option.bind_eq_some_iff.1 hdest
      have hmem : i ∈ lines.filterMap Line.instr? := List.mem_filterMap.2 ⟨line, hline, hi⟩
      have hr : r ∈ l.listing.registers := by
        refine List.mem_flatMap.2 ⟨i, ?_, Asm.mem_registers_of_dest? hdest⟩
        rw [h.instrs_listing, h.frame.mem_instrs_iff]
        exact Or.inl hmem
      obtain rfl | rfl | ⟨s, rfl, hlt⟩ := h.mem_registers_cases hvalid hr
      · exact h.body.dest?_ne_sp (Options.queued_allocator hvalid q) (by simp) i hmem hdest
      · exact hclash ⟨hname, h.endsInReturn_of_mem hvalid hthrough hr⟩
      · exact PoolReg.name_ne_sp hlt hname
    rw [h.listing_eq, List.filter_cons_of_neg (by simp [Line.destName?, Line.instr?]),
      h.frame.filter_destName? hbody]

end Assembled

namespace Options

/-- **In print, registers are told apart by their names, unless the returned word goes to `sp`.**
Two registers of a listing share a name exactly if the returned word goes to `sp`, the program
returns and there is a frame. If they do not, running by names gives what running gives. If the name
for the returned word holds no blank, comma or `#`, the printed lines are read as the instructions
by names. And the lines that are read as writing `sp` are those that open and close the frame
exactly if no word is returned to `sp`. -/
theorem names_tell_registers {o : Options} {p : Program} {c : Compilation}
    (h : (o.compile p).outcome = .ok c) :
    (c.listing.Unambiguous ↔ ¬ (o.returnRegister = "sp" ∧ c.normalized.endsInReturn = true ∧
        0 < c.stats.frameSize)) ∧
    (c.listing.Unambiguous → ∀ m n : Machine, m.AgreeUnder Reg.named c.listing.registers n →
      (c.listing.run m).AgreeUnder Reg.named c.listing.registers (c.listing.runByName n)) ∧
    ((c.normalized.endsInReturn = true → Solid o.returnRegister.toList) → ∀ m,
      c.listing.runText? m = some (c.listing.runByName m)) ∧
    (c.listing.lines.filter (fun line => line.destName? = some "sp") =
        frameLines c.stats.frameSize ↔
      ¬ (o.returnRegister = "sp" ∧ c.normalized.endsInReturn = true)) := by
  have hthrough := Compilation.throughReturn_normalized h
  obtain ⟨hvalid, -⟩ := compile_eq_ok_iff.1 h
  obtain ⟨lines, framed, b, hassembled, -⟩ := Compilation.exists_assembled_events h
  refine ⟨hassembled.unambiguous_iff hvalid hthrough, fun hnames m n => hnames.agreeUnder_run,
    fun hsolid => ?_, ?_⟩
  · exact hassembled.runText?_eq hvalid hthrough hsolid
  · exact hassembled.filter_destName?_iff hvalid hthrough

/-- With three registers, four variables and a frame, the printed lines leave the sum in the
register that was asked for and the stack pointer where it was. -/
theorem names_tell_registers_framed :
    let o : Options := { poolSize := 3, returnRegister := "fp" }
    let p : Program := ⟨[.mov ⟨"a"⟩ (.imm 1), .mov ⟨"b"⟩ (.imm 2), .mov ⟨"c"⟩ (.imm 3),
      .mov ⟨"d"⟩ (.imm 4), .binary .add ⟨"a"⟩ (.var ⟨"a"⟩) (.var ⟨"b"⟩),
      .binary .add ⟨"c"⟩ (.var ⟨"c"⟩) (.var ⟨"d"⟩), .binary .add ⟨"a"⟩ (.var ⟨"a"⟩) (.var ⟨"c"⟩),
      .ret (.var ⟨"a"⟩)]⟩
    ∃ c n, (o.compile p).outcome = .ok c ∧ c.listing.runText? ⟨fun _ => 0, fun _ => 0⟩ = some n ∧
      n.reg (.ret "fp") = 10 ∧ n.reg (.ret "sp") = 0 ∧
      c.listing.lines.filter (fun line => line.destName? = some "sp") = [.plain (.adjustSp (-12)),
          .plain (.adjustSp 12)] := by
  intro o p
  let m : Machine := ⟨fun _ => 0, fun _ => 0⟩
  have hfacts : (o.compile p).outcome.toOption.map
      (fun c => (c.stats.frameSize, decide (.sp ∈ c.listing.registers),
        decide (.ret "fp" ∈ c.listing.registers), (c.listing.run m).reg (.ret "fp"),
      (c.listing.run m).reg .sp)) =
      some (12, true, true, 10, 0) := by decide
  obtain ⟨c, hcompile, hvalues⟩ := exists_compiled hfacts
  obtain ⟨hframe, hsp, hret, hsum, hstack⟩ : c.stats.frameSize = 12 ∧ .sp ∈ c.listing.registers ∧
      .ret "fp" ∈ c.listing.registers ∧ (c.listing.run m).reg (.ret "fp") = 10 ∧
      (c.listing.run m).reg .sp = 0 := by
    simpa using hvalues
  obtain ⟨hunambiguous, hruns, htext, hlines⟩ := names_tell_registers hcompile
  obtain ⟨_, hagree⟩ := hruns (hunambiguous.2 fun hclash => absurd hclash.1 (by decide)) m m ⟨rfl,
    fun _ _ => rfl⟩
  refine ⟨c, _, hcompile, htext (fun _ => by decide) m, ?_, ?_, ?_⟩
  · exact (hagree _ hret).trans hsum
  · exact (hagree _ hsp).trans hstack
  · rw [hlines.2 fun hclash => absurd hclash.1 (by decide), hframe]
    rfl

/-- The same program with its sum returned to `sp`: the options are valid, but the stack pointer
shares its name, and in print the returned word takes its place. -/
theorem exists_listing_sharing_sp :
    ∃ (o : Options) (p : Program) (c : Compilation), o.validate = .ok () ∧
      (o.compile p).outcome = .ok c ∧
      ¬ c.listing.Unambiguous ∧
      (∃ m n : Machine, m.AgreeUnder Reg.named c.listing.registers n ∧
        ¬ (c.listing.run m).AgreeUnder Reg.named c.listing.registers (c.listing.runByName n)) ∧
      c.listing.lines.filter (fun line => line.destName? = some "sp") ≠
          frameLines c.stats.frameSize := by
  let o : Options := { poolSize := 3, returnRegister := "sp" }
  let p : Program := ⟨[.mov ⟨"a"⟩ (.imm 1), .mov ⟨"b"⟩ (.imm 2), .mov ⟨"c"⟩ (.imm 3),
    .mov ⟨"d"⟩ (.imm 4), .binary .add ⟨"a"⟩ (.var ⟨"a"⟩) (.var ⟨"b"⟩),
    .binary .add ⟨"c"⟩ (.var ⟨"c"⟩) (.var ⟨"d"⟩), .binary .add ⟨"a"⟩ (.var ⟨"a"⟩) (.var ⟨"c"⟩),
    .ret (.var ⟨"a"⟩)]⟩
  let m : Machine := ⟨fun _ => 0, fun _ => 0⟩
  have hfacts : (o.compile p).outcome.toOption.map (fun c => (decide (.sp ∈ c.listing.registers),
      decide (.ret "sp" ∈ c.listing.registers), (c.listing.run m).reg .sp,
      (c.listing.runByName m).reg (.ret "sp"),
      decide (c.listing.lines.filter (fun line => line.destName? = some "sp") =
      frameLines c.stats.frameSize))) =
      some (true, true, 0, 10, false) := by decide
  obtain ⟨c, hcompile, hvalues⟩ := exists_compiled hfacts
  obtain ⟨hsp, hret, hstack, hsum, hlines⟩ : .sp ∈ c.listing.registers ∧
      .ret "sp" ∈ c.listing.registers ∧
      (c.listing.run m).reg .sp = 0 ∧ (c.listing.runByName m).reg (.ret "sp") = 10 ∧
      c.listing.lines.filter (fun line => line.destName? = some "sp") ≠
          frameLines c.stats.frameSize := by
    simpa using hvalues
  refine ⟨o, p, c, by decide, hcompile, fun hnames => ?_,
    ⟨m, m, ⟨rfl, fun _ _ => rfl⟩, fun hagree => ?_⟩, hlines⟩
  · cases hnames _ hsp _ hret rfl
  · have hword := hagree.2 .sp hsp
    rw [Reg.named, Reg.name, hsum, hstack] at hword
    revert hword
    decide

end Options

end StraightLine
