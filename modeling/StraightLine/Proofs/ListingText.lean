import StraightLine.Proofs.Accounting
import StraightLine.Proofs.Naming
import StraightLine.Proofs.Program.Printing

/-!
# What the text of a listing tells

The text of a listing alone gives back the program that was lowered. Its lines are found again at
the line feeds, because nothing that is written on a line holds one, and a comment is found behind
its mark, because nothing in front of it holds a `#`. Both hold of the texts that are fixed, of
registers of the pool, of numerals, and of instructions over identifiers; they have to be asked of
the two texts that the options choose, the directive and the register for the returned word. The
comments are the instructions of the normal form, one a line, so reading them gives the normal form.
-/

namespace StraightLine

/-! ### Remarks in a text -/

namespace Text

variable {front rest : List Char}

/-- What stands behind the first mark `#  ` of a line. -/
def afterMark : List Char → List Char
  | [] => []
  | c :: rest => if ['#', ' ', ' '].isPrefixOf (c :: rest) then rest.drop 2 else afterMark rest

def remark? (line : List Char) : Option (List Char) :=
  if '#' ∈ line then some (afterMark line) else none

/-- The remarks on the lines of a text but the first, a line each. -/
def remarks (text : String) : String :=
  String.ofList (['\n'].intercalate (((text.toList.splitOn '\n').drop 1).filterMap remark?))

theorem afterMark_append (h : '#' ∉ front) (rest : List Char) :
    afterMark (front ++ '#' :: ' ' :: ' ' :: rest) = rest := by
  induction front with
  | nil => simp [afterMark]
  | cons c front ih =>
      rw [List.mem_cons, not_or] at h
      rw [List.cons_append, afterMark, if_neg, ih h.2]
      simp [h.1]

theorem remark?_append (h : '#' ∉ front) (rest : List Char) :
    remark? (front ++ '#' :: ' ' :: ' ' :: rest) = some rest := by
  rw [remark?, if_pos (by simp), afterMark_append h]

/-- The text holds neither a line feed nor a `#`. -/
def Plain (text : String) : Prop := ∀ c ∈ text.toList, c ≠ '\n' ∧ c ≠ '#'

instance (text : String) : Decidable (Plain text) := List.decidableBAll _ text.toList

theorem Plain.append {s t : String} (hs : Plain s) (ht : Plain t) : Plain (s ++ t) := by
  intro c hc
  rw [String.toList_append, List.mem_append] at hc
  exact hc.elim (hs c) (ht c)

theorem Plain.not_feed_mem {s : String} (h : Plain s) : '\n' ∉ s.toList :=
  fun hmem => (h _ hmem).1 rfl

theorem Plain.not_mark_mem {s : String} (h : Plain s) : '#' ∉ s.toList :=
  fun hmem => (h _ hmem).2 rfl

theorem plain_of_toNat {s : String} (h : ∀ c ∈ s.toList, 36 ≤ c.toNat ∨ c.toNat = 32) :
    Plain s := by
  intro c hc
  constructor
  · rintro rfl
    exact absurd (h _ hc) (by decide)
  · rintro rfl
    exact absurd (h _ hc) (by decide)

theorem plain_natural (n : Nat) : Plain (natural n) := by
  refine plain_of_toNat fun c hc => Or.inl ?_
  have hdigit : 48 ≤ c.toNat ∧ c.toNat ≤ 57 :=
    Char.isDigit_iff_toNat.1 ((decimal_natural n).1.isDigit c hc)
  omega

theorem plain_word (w : Int32) : Plain (word w) := by
  rw [word]
  cases w.toInt with
  | ofNat n => exact plain_natural n
  | negSucc n => exact Plain.append (by decide) (plain_natural (n + 1))

end Text

open Text

/-! ### Lines -/

theorem PoolReg.plain_name {r : PoolReg} (h : r.index < count) : Plain r.name := by
  have hall : ∀ name ∈ names, Plain name := by decide
  exact hall r.name (name_mem_names h)

theorem Asm.plain_text {i : Asm} (h : ∀ r ∈ i.registers, Plain r.name) : Plain i.text := by
  have hcomma : Plain ", " := by decide
  have hopen : Plain "(" := by decide
  have hclose : Plain ")" := by decide
  cases i with
  | li rd value =>
      have hrd := h rd (by simp [registers])
      exact (((by decide : Plain "li ").append hrd).append hcomma).append (plain_word value)
  | mv rd rs =>
      have hrd := h rd (by simp [registers])
      have hrs := h rs (by simp [registers])
      exact (((by decide : Plain "mv ").append hrd).append hcomma).append hrs
  | addi rd rs value =>
      have hrd := h rd (by simp [registers])
      have hrs := h rs (by simp [registers])
      exact (((((by decide : Plain "addi ").append hrd).append hcomma).append hrs).append
        hcomma).append (plain_word value)
  | arith op rd rs₁ rs₂ =>
      have hrd := h rd (by simp [registers])
      have hrs₁ := h rs₁ (by simp [registers])
      have hrs₂ := h rs₂ (by simp [registers])
      have hop : Plain op.mnemonic := by cases op <;> decide
      exact (((((hop.append (by decide)).append hrd).append hcomma).append hrs₁).append
        hcomma).append hrs₂
  | lw rd offset base =>
      have hrd := h rd (by simp [registers])
      have hbase := h base (by simp [registers])
      exact ((((((by decide : Plain "lw ").append hrd).append hcomma).append
        (plain_natural offset)).append hopen).append
        hbase).append hclose
  | sw rs offset base =>
      have hrs := h rs (by simp [registers])
      have hbase := h base (by simp [registers])
      exact ((((((by decide : Plain "sw ").append hrs).append hcomma).append
        (plain_natural offset)).append hopen).append
        hbase).append hclose

theorem Instr.plain_text {i : Instr} (h : ∀ v ∈ i.occurrences, Identifier v.name.toList) :
    Plain i.text := by
  refine plain_of_toNat fun c hc => ?_
  obtain htoken | hother := Instr.mem_text h hc
  · exact Or.inl htoken.toNat_range.1
  · simp only [List.mem_cons, List.not_mem_nil, or_false] at hother
    rcases hother with rfl | rfl | rfl | rfl <;> decide

namespace Line

variable {i : Asm} {comment : Option String}

theorem not_feed_mem_code (hi : Plain i.text) (hcomment : ∀ text ∈ comment, '\n' ∉ text.toList) :
    '\n' ∉ (Line.code i comment).text.toList := by
  have hcode : Plain ("    " ++ i.text) := Plain.append (by decide) hi
  cases comment with
  | none => exact hcode.not_feed_mem
  | some text =>
      rw [Line.text, String.toList_append, String.toList_append, List.mem_append, List.mem_append]
      rintro ((hmem | hmem) | hmem)
      · exact hcode.not_feed_mem hmem
      · exact absurd hmem (by decide)
      · exact hcomment text rfl hmem

theorem remark?_code (hi : Plain i.text) :
    remark? (Line.code i comment).text.toList = comment.map String.toList := by
  have hcode : Plain ("    " ++ i.text) := Plain.append (by decide) hi
  cases comment with
  | none => exact if_neg hcode.not_mark_mem
  | some text =>
      have hfront : Plain ("    " ++ i.text ++ "        ") := hcode.append (by decide)
      have hsplit : (Line.code i (some text)).text.toList =
          ("    " ++ i.text ++ "        ").toList ++ '#' :: ' ' :: ' ' :: text.toList := by
        simp [Line.text]
      rw [hsplit, remark?_append hfront.not_mark_mem]
      rfl

end Line

/-! ### Registers of a listing -/

theorem Allocation.Selected.ret_eq_of_mem {ret : Reg} {i : Instr} {a b : Allocator} {asm : Asm}
    {name : String} (hsel : Selected ret i a asm b) (h : .ret name ∈ asm.registers) :
    ret = .ret name := by
  cases hsel with
  | retWord | retVar => simpa [Asm.registers, eq_comm] using h
  | _ => simp [Asm.registers] at h

namespace Assembled

variable {o : Options} {q : Program} {l : Lowered} {lines framed : List Line}
  {b : Allocator} {i : Asm}

/-- Every register of a listing is the stack pointer, the one for the returned word, or one of the
pool. -/
theorem register_cases (h : Assembled o q l lines framed b) (hvalid : o.validate = .ok ())
    (hi : i ∈ l.listing.instrs) {r : Reg} (hr : r ∈ i.registers) :
    r = .sp ∨ r = .ret o.returnRegister ∨ ∃ s : PoolReg, r = .pool s ∧ s.index < PoolReg.count := by
  cases r with
  | sp => exact Or.inl rfl
  | pool s =>
      refine Or.inr (Or.inr ⟨s, rfl, ?_⟩)
      exact Nat.lt_of_lt_of_le (h.index_lt hvalid hi hr) (Options.validate_eq_ok_iff.1 hvalid).1.2
  | ret name =>
      refine Or.inr (Or.inl ?_)
      rw [h.instrs_listing, h.frame.mem_instrs_iff] at hi
      obtain hi | ⟨_, rfl | rfl⟩ := hi
      · obtain ⟨_, _, _, _, hsel⟩ | ⟨_, _, hmove, _⟩ :=
          h.body.mem_instrs (Options.queued_allocator hvalid q) hi
        · exact (hsel.ret_eq_of_mem hr).symm
        · exact absurd hr (Asm.ret_not_mem_registers_of_move hmove name)
      · simp [Asm.adjustSp, Asm.registers] at hr
      · simp [Asm.adjustSp, Asm.registers] at hr

theorem write_listing (h : Assembled o q l lines framed b) (hvalid : o.validate = .ok ()) :
    l.listing.write = .ok l.listing.text := by
  refine if_pos (List.all_eq_true.2 fun line hline => ?_)
  cases hinstr : line.instr? with
  | none => simp [Line.isNamed, hinstr]
  | some i =>
      have hi : i ∈ l.listing.instrs := List.mem_filterMap.2 ⟨line, hline, hinstr⟩
      rw [Line.isNamed, hinstr, Option.all_some]
      refine List.all_eq_true.2 fun r hr => ?_
      obtain rfl | rfl | ⟨s, rfl, hs⟩ := h.register_cases hvalid hi hr
      · rfl
      · rfl
      · exact decide_eq_true hs

theorem plain_text (h : Assembled o q l lines framed b) (hvalid : o.validate = .ok ())
    (hret : Plain o.returnRegister) (hi : i ∈ l.listing.instrs) : Plain i.text := by
  refine Asm.plain_text fun r hr => ?_
  obtain rfl | rfl | ⟨s, rfl, hs⟩ := h.register_cases hvalid hi hr
  · decide
  · exact hret
  · exact PoolReg.plain_name hs

/-- Behind the directive, the remarks on the lines are the instructions of the program. -/
theorem remarks_framed (h : Assembled o q l lines framed b) (hvalid : o.validate = .ok ())
    (hret : Plain o.returnRegister) :
    (framed.map fun line => line.text.toList).filterMap remark? =
      q.instrs.map fun i => i.text.toList := by
  have hremark : ∀ line ∈ framed, remark? line.text.toList = line.comment?.map String.toList := by
    intro line hline
    have hsome := h.frame.not_directive h.body.not_directive line hline
    cases line with
    | directive => cases hsome
    | code i comment =>
        refine Line.remark?_code (h.plain_text hvalid hret ?_)
        rw [h.instrs_listing]
        exact List.mem_filterMap.2 ⟨_, hline, rfl⟩
  have hcomments : framed.filterMap Line.comment? = q.instrs.map Instr.text := by
    rw [h.frame.comments, h.body.comments]
  calc
    (framed.map fun line => line.text.toList).filterMap remark? = framed.filterMap
        fun line => remark? line.text.toList :=
      List.filterMap_map
    _ = framed.filterMap fun line => line.comment?.map String.toList := List.filterMap_congr hremark
    _ = (framed.filterMap Line.comment?).map String.toList := List.map_filterMap.symm
    _ = q.instrs.map fun i => i.text.toList := by
      rw [hcomments, List.map_map]
      rfl

theorem not_feed_mem (h : Assembled o q l lines framed b) (hvalid : o.validate = .ok ())
    (hret : Plain o.returnRegister) (hdirective : '\n' ∉ o.sectionDirective.toList)
    (hnames : ∀ i ∈ q.instrs, ∀ v ∈ i.occurrences, Identifier v.name.toList) :
    ∀ line ∈ l.listing.lines, '\n' ∉ line.text.toList := by
  intro line hline
  have hlines : l.listing.lines = .directive o.sectionDirective :: framed :=
    congrArg Listing.lines h.listing_eq
  have hmem := hline
  rw [hlines] at hmem
  obtain rfl | hmem := List.mem_cons.1 hmem
  · exact hdirective
  · have hsome := h.frame.not_directive h.body.not_directive line hmem
    cases line with
    | directive => cases hsome
    | code i comment =>
        refine Line.not_feed_mem_code
          (h.plain_text hvalid hret (List.mem_filterMap.2 ⟨_, hline, rfl⟩)) fun text htext => ?_
        have hcomment : text ∈ q.instrs.map Instr.text := by
          rw [← h.body.comments, ← h.frame.comments]
          exact List.mem_filterMap.2 ⟨_, hmem, htext⟩
        obtain ⟨k, hk, rfl⟩ := List.mem_map.1 hcomment
        exact (Instr.plain_text (hnames k hk)).not_feed_mem

end Assembled

/-! ### Reading remarks -/

theorem Var.identifier_temp (n : Nat) : Identifier (Var.temp n).name.toList := by
  rw [Var.temp, String.toList_append]
  refine .mk (Or.inr (Or.inr rfl)) fun c hc => Or.inr (Or.inl ?_)
  exact isDigit_iff.1 ((decimal_natural n).1.isDigit c hc)

namespace Program

theorem identifier_normalForm {p : Program} {legalize : Bool}
    (h : ∀ i ∈ p.instrs, ∀ v ∈ i.occurrences, Identifier v.name.toList) :
    ∀ i ∈ (p.normalForm legalize).instrs, ∀ v ∈ i.occurrences, Identifier v.name.toList := by
  intro i hi v hv
  obtain hreached | ⟨⟨k, rfl⟩, _⟩ := mem_vars_normalForm (mem_vars.2 ⟨i, hi, hv⟩)
  · obtain ⟨j, hj, hvj⟩ := mem_vars.1 (occurrences_reachable_subset p hreached)
    exact h j hj v hvj
  · obtain ⟨n, _, hn⟩ := (TempSupply.avoiding p.vars).exists_nth_eq_temp k
    rw [hn]
    exact Var.identifier_temp n

theorem read_joined_text {q : Program}
    (h : ∀ i ∈ q.instrs, ∀ v ∈ i.occurrences, Identifier v.name.toList) :
    Program.read (String.ofList (['\n'].intercalate (q.instrs.map fun i => i.text.toList))) =
      .ok q := by
  rw [Program.read_eq_ok_iff, String.toList_ofList]
  obtain ⟨is⟩ := q
  cases is with
  | nil => exact .blank nofun .nil
  | cons i is =>
      have hprinted : ∀ line ∈ (i :: is).map (fun i => i.text.toList),
          ∀ c ∈ line, 32 ≤ c.toNat := by
        intro line hline c hc
        obtain ⟨k, hk, rfl⟩ := List.mem_map.1 hline
        exact Instr.le_toNat_of_mem_text (h k hk) hc
      rw [Text.lines_intercalate (by simp)
        (fun line hline hfeed => absurd (hprinted line hline '\n' hfeed) (by decide))
        fun line hline hreturn => absurd (hprinted line hline '\r' hreturn) (by decide)]
      rw [← List.append_nil (List.map _ _)]
      exact spellsLines_text_append h .nil

end Program

theorem Listing.toList_text (l : Listing) :
    l.text.toList = ['\n'].intercalate (l.lines.map fun line => line.text.toList) := by
  rw [Listing.text, String.toList_intercalate, List.map_map]
  rfl

namespace Options

/-- A text is compiled by reading it and compiling what it spells, so its names are identifiers. -/
theorem exists_read_of_compileText {o : Options} {source : String} {c : Compilation}
    (h : (o.compileText source).outcome = .ok c) : ∃ p, (o.compile p).outcome = .ok c ∧
      ∀ i ∈ p.instrs, ∀ v ∈ i.occurrences, Identifier v.name.toList := by
  rw [compileText] at h
  cases hread : Program.read source with
  | error e =>
      rw [hread] at h
      cases h
  | ok p =>
      rw [hread] at h
      exact ⟨p, h, fun i hi v hv => (Program.read_eq_ok_iff.1 hread).identifier hi hv⟩

/-- **The text of a listing tells the program.** If the directive holds no line feed and the
register for the returned word neither a line feed nor a `#`, a listing that was compiled from text
can be written, its lines are found in the written text between the line feeds, and what stands in
that text behind the marks, but for the first line, is read as the program in normal form. -/
theorem listing_text_tells_program {o : Options} {source : String} {c : Compilation}
    (h : (o.compileText source).outcome = .ok c) (hdirective : '\n' ∉ o.sectionDirective.toList)
    (hfeed : '\n' ∉ o.returnRegister.toList) (hmark : '#' ∉ o.returnRegister.toList) :
    ∃ text, c.listing.write = .ok text ∧
      text.toList.splitOn '\n' = c.listing.lines.map (fun line => line.text.toList) ∧
      Program.read (Text.remarks text) = .ok c.normalized := by
  obtain ⟨p, hcompile, hsource⟩ := exists_read_of_compileText h
  obtain ⟨hvalid, lines, framed, b, hassembled⟩ := Compilation.exists_assembled hcompile
  have hnames : ∀ i ∈ (p.normalForm o.legalize).instrs,
      ∀ v ∈ i.occurrences, Identifier v.name.toList :=
    Program.identifier_normalForm hsource
  have hret : Plain o.returnRegister :=
    fun ch hch => ⟨fun heq => hfeed (heq ▸ hch), fun heq => hmark (heq ▸ hch)⟩
  have hlines : c.listing.lines = .directive o.sectionDirective :: framed :=
    congrArg Listing.lines hassembled.listing_eq
  have hsplit : c.listing.text.toList.splitOn '\n' = c.listing.lines.map
      fun line => line.text.toList := by
    rw [Listing.toList_text]
    refine List.splitOn_intercalate '\n' (fun text htext => ?_) (by simp [hlines])
    obtain ⟨line, hline, rfl⟩ := List.mem_map.1 htext
    exact hassembled.not_feed_mem hvalid hret hdirective hnames line hline
  refine ⟨c.listing.text, hassembled.write_listing hvalid, hsplit, ?_⟩
  rw [Text.remarks, hsplit, hlines, List.map_cons, List.drop_succ_cons, List.drop_zero,
    hassembled.remarks_framed hvalid hret, Compilation.normalized_eq hcompile]
  exact Program.read_joined_text hnames

/-- A directive may hold a `#`, and lines of the frame and of spilled variables carry no remark. -/
theorem listing_text_tells_program_spilled :
    let o : Options := { poolSize := 3, sectionDirective := ".text # a0" }
    let source := "(mov, a, +1)\n\n(MUL, d, x, 4)\n(ADD, d, d, a)\n(RET, d)\n(RET, a)"
    let text := "\n".intercalate [".text # a0", "    addi sp, sp, -4",
      "    li t0, 1        #  (MOV, a, 1)", "    li t1, 4        #  (MOV, $0, 4)",
      "    sw t0, 0(sp)", "    mul t0, t2, t1        #  (MUL, d, x, $0)", "    lw t2, 0(sp)",
      "    add t0, t0, t2        #  (ADD, d, d, a)", "    addi sp, sp, 4",
      "    mv a0, t0        #  (RET, d)"]
    ∃ c, (o.compileText source).outcome = .ok c ∧ c.listing.write = .ok text ∧
      Program.read (Text.remarks text) = .ok c.normalized := by
  intro o source text
  have htext : (o.compileText source).outcome.toOption.map (fun c => c.listing.text) =
      some text := by decide +kernel
  cases hcompile : (o.compileText source).outcome with
  | error f =>
      rw [hcompile] at htext
      cases htext
  | ok c =>
      rw [hcompile] at htext
      have hlisting : c.listing.text = text := Option.some.inj htext
      obtain ⟨written, hwrite, _, hread⟩ := listing_text_tells_program hcompile (by decide)
        (by decide) (by decide)
      rw [Listing.write] at hwrite
      split at hwrite
      · next hnamed =>
          cases hwrite
          rw [hlisting] at hread
          exact ⟨c, rfl, by rw [Listing.write, if_pos hnamed, hlisting], hread⟩
      · cases hwrite

end Options

end StraightLine
