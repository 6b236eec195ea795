import StraightLine.Proofs.Program.Grammar

/-!
# Printing programs

An instruction is printed as its tokens in parentheses, with a comma and a space between them, and a
program as its instructions, each ended by a line feed. When the names of a program are identifiers,
its tokens are tokens of the grammar, so the printed text spells the program and the reader gives it
back. No other program comes back: whatever the reader returns has identifiers for names.
-/

namespace StraightLine

variable {token : List Char} {c : Char} {x : Operand} {i : Instr} {is : List Instr}

/-! ### Tokens of an instruction -/

def Instr.tokens : Instr → List (List Char)
  | .mov dst src => ["MOV".toList, dst.name.toList, src.text.toList]
  | .binary op dst lhs rhs => [op.opcode.toList, dst.name.toList, lhs.text.toList, rhs.text.toList]
  | .ret value => ["RET".toList, value.text.toList]

theorem spells_toList (word : String) : Spells word.toList word :=
  List.forall₂_same.2 fun _ _ => Or.inl rfl

theorem Operand.spellsOperand_text (h : ∀ v, x = .var v → Identifier v.name.toList) :
    SpellsOperand x.text.toList x := by
  cases x with
  | var v => exact spellsOperand_var_iff.2 ⟨h v rfl, by rw [Operand.text, String.ofList_toList]⟩
  | imm value => exact spellsOperand_imm_iff.2 (Text.word?_word value)

theorem Instr.spellsInstr_tokens (h : ∀ v ∈ i.occurrences, Identifier v.name.toList) :
    SpellsInstr i.tokens i := by
  have hoperand : ∀ x ∈ i.operands, SpellsOperand x.text.toList x := by
    intro x hx
    refine Operand.spellsOperand_text
      fun v hv => h v (List.mem_append_right _ (Instr.mem_uses.2 (hv ▸ hx)))
  have hdst : ∀ v ∈ i.dst?, Identifier v.name.toList := fun v hv =>
    h v (List.mem_append_left _ (Option.mem_toList.2 hv))
  cases i with
  | mov dst src =>
      have hspells := SpellsInstr.mov (spells_toList "MOV") (hdst dst rfl)
        (hoperand src (by simp [Instr.operands]))
      rwa [String.ofList_toList] at hspells
  | binary op dst lhs rhs =>
      have hspells := SpellsInstr.binary (spells_toList op.opcode) (hdst dst rfl)
        (hoperand lhs (by simp [Instr.operands]))
        (hoperand rhs (by simp [Instr.operands]))
      rwa [String.ofList_toList] at hspells
  | ret value => exact .ret (spells_toList "RET") (hoperand value (by simp [Instr.operands]))

theorem SpellsOperand.identifier {v : Var} (h : SpellsOperand token (.var v)) :
    Identifier v.name.toList := by
  obtain ⟨hname, rfl⟩ := spellsOperand_var_iff.1 h
  rwa [String.toList_ofList]

theorem SpellsInstr.exists_operand {tokens : List (List Char)} (h : SpellsInstr tokens i)
    (hx : x ∈ i.operands) : ∃ token, SpellsOperand token x := by
  cases h with
  | mov _ _ hsrc =>
      obtain rfl := List.mem_singleton.1 hx
      exact ⟨_, hsrc⟩
  | binary _ _ hlhs hrhs =>
      obtain rfl | hx := List.mem_cons.1 hx
      · exact ⟨_, hlhs⟩
      · obtain rfl := List.mem_singleton.1 hx
        exact ⟨_, hrhs⟩
  | ret _ hvalue =>
      obtain rfl := List.mem_singleton.1 hx
      exact ⟨_, hvalue⟩

theorem SpellsInstr.identifier {tokens : List (List Char)} (h : SpellsInstr tokens i) {v : Var}
    (hv : v ∈ i.occurrences) : Identifier v.name.toList := by
  obtain hdst | huse := List.mem_append.1 hv
  · rw [Option.mem_toList] at hdst
    cases h with
    | mov _ hname | binary _ hname =>
        cases hdst
        rwa [String.toList_ofList]
    | ret => cases hdst
  · obtain ⟨_, htoken⟩ := h.exists_operand (Instr.mem_uses.1 huse)
    exact htoken.identifier

theorem SpellsLines.identifier {lines : List (List Char)} (h : SpellsLines lines is)
    {v : Var} (hi : i ∈ is) (hv : v ∈ i.occurrences) : Identifier v.name.toList := by
  induction h with
  | nil => cases hi
  | blank _ _ ih => exact ih hi
  | instr hline _ ih =>
      obtain rfl | hi := List.mem_cons.1 hi
      · obtain ⟨_, _, _, hspells⟩ := hline
        exact hspells.identifier hv
      · exact ih hi

/-! ### Lines of a program -/

/-- The tokens with a space in front of all but the first. -/
def spaced : List (List Char) → List (List Char)
  | [] => []
  | token :: rest => token :: rest.map (' ' :: ·)

theorem padded_spaced (tokens : List (List Char)) :
    List.Forall₂ Text.Padded tokens (spaced tokens) := by
  have hblank : Text.AllBlank [' '] := List.forall_mem_singleton.2 (by decide)
  have hspace : ∀ token : List Char, Text.Padded token (' ' :: token) := fun token =>
    ⟨[' '], [], hblank, nofun, (List.append_nil _).symm⟩
  cases tokens with
  | nil => exact .nil
  | cons token rest =>
      refine .cons ⟨[], [], nofun, nofun, (List.append_nil _).symm⟩ ?_
      exact List.forall₂_map_right_iff.2 (List.forall₂_same.2 fun token _ => hspace token)

theorem Instr.toList_text (i : Instr) :
    i.text.toList = '(' :: [','].intercalate (spaced i.tokens) ++ [')'] := by
  cases i <;> simp [Instr.text, Instr.tokens, spaced, List.intercalate]

theorem Instr.spellsLine_text (h : ∀ v ∈ i.occurrences, Identifier v.name.toList) :
    SpellsLine i.text.toList i := by
  have hline := @SpellsLine.mk [] [] _ _ _ nofun nofun (padded_spaced i.tokens)
    (Instr.spellsInstr_tokens h)
  rwa [List.nil_append, List.append_nil, ← Instr.toList_text] at hline

theorem mem_of_mem_spaced {tokens : List (List Char)} {field : List Char}
    (h : field ∈ spaced tokens) (hc : c ∈ field) : c = ' ' ∨ ∃ token ∈ tokens, c ∈ token := by
  cases tokens with
  | nil => cases h
  | cons first rest =>
      obtain rfl | h := List.mem_cons.1 h
      · exact Or.inr ⟨field, List.mem_cons_self, hc⟩
      · obtain ⟨token, htoken, rfl⟩ := List.mem_map.1 h
        exact (List.mem_cons.1 hc).imp_right fun hc => ⟨token,
          List.mem_cons_of_mem first htoken, hc⟩

theorem Instr.mem_text (h : ∀ v ∈ i.occurrences, Identifier v.name.toList)
    (hc : c ∈ i.text.toList) : IsTokenChar c ∨ c ∈ ['(', ')', ',', ' '] := by
  rw [Instr.toList_text, List.mem_append, List.mem_cons, List.mem_singleton] at hc
  obtain (rfl | hc) | rfl := hc
  · exact Or.inr (by decide)
  · obtain rfl | ⟨field, hfield, hc⟩ := Text.mem_intercalate hc
    · exact Or.inr (by decide)
    · obtain rfl | ⟨token, htoken, hc⟩ := mem_of_mem_spaced hfield hc
      · exact Or.inr (by decide)
      · exact Or.inl ((Instr.spellsInstr_tokens h).isTokenChar token htoken c hc)
  · exact Or.inr (by decide)

theorem Instr.le_toNat_of_mem_text (h : ∀ v ∈ i.occurrences, Identifier v.name.toList)
    (hc : c ∈ i.text.toList) : 32 ≤ c.toNat := by
  obtain htoken | hother := Instr.mem_text h hc
  · have hrange := htoken.toNat_range
    omega
  · simp only [List.mem_cons, List.not_mem_nil, or_false] at hother
    rcases hother with rfl | rfl | rfl | rfl <;> decide

theorem Program.toList_text (p : Program) :
    p.text.toList = ['\n'].intercalate (p.instrs.map (fun i => i.text.toList) ++ [[]]) := by
  obtain ⟨is⟩ := p
  rw [Program.text, String.toList_join]
  induction is with
  | nil => rfl
  | cons i is ih =>
      rw [List.map_cons, List.flatMap_cons, ih, List.map_cons, List.cons_append,
        List.intercalate_cons_of_ne_nil
        (List.append_ne_nil_of_right_ne_nil _ (List.cons_ne_nil _ _)), String.toList_append]
      rfl

theorem Program.lines_text {p : Program}
    (h : ∀ i ∈ p.instrs, ∀ v ∈ i.occurrences, Identifier v.name.toList) :
    Text.lines p.text.toList = p.instrs.map (fun i => i.text.toList) ++ [[]] := by
  have hprinted : ∀ line ∈ p.instrs.map (fun i => i.text.toList) ++ [[]],
      ∀ c ∈ line, 32 ≤ c.toNat := by
    intro line hline c hc
    obtain hline | hline := List.mem_append.1 hline
    · obtain ⟨i, hi, rfl⟩ := List.mem_map.1 hline
      exact Instr.le_toNat_of_mem_text (h i hi) hc
    · rw [List.mem_singleton.1 hline] at hc
      cases hc
  rw [Program.toList_text]
  refine Text.lines_intercalate (by simp) (fun line hline hfeed => ?_) fun line hline hreturn => ?_
  · exact absurd (hprinted line hline '\n' hfeed) (by decide)
  · exact absurd (hprinted line hline '\r' hreturn) (by decide)

theorem spellsLines_text_append {tail : List (List Char)}
    (h : ∀ i ∈ is, ∀ v ∈ i.occurrences, Identifier v.name.toList) (htail : SpellsLines tail []) :
    SpellsLines (is.map (fun i => i.text.toList) ++ tail) is := by
  induction is with
  | nil => exact htail
  | cons i is ih =>
      obtain ⟨hi, his⟩ := List.forall_mem_cons.1 h
      exact .instr (Instr.spellsLine_text hi) (ih his)

theorem spellsLines_text (h : ∀ i ∈ is, ∀ v ∈ i.occurrences, Identifier v.name.toList) :
    SpellsLines (is.map (fun i => i.text.toList) ++ [[]]) is :=
  spellsLines_text_append h (.blank nofun .nil)

/-- **Printing and reading are inverse exactly on identifiers.** -/
theorem Program.read_text_iff (p : Program) :
    Program.read p.text = .ok p ↔ ∀ v ∈ p.vars, Identifier v.name.toList := by
  rw [Program.read_eq_ok_iff]
  constructor
  · intro h v hv
    obtain ⟨i, hi, hoccurs⟩ := Program.mem_vars.1 hv
    exact h.identifier hi hoccurs
  · intro h
    have hnames : ∀ i ∈ p.instrs, ∀ v ∈ i.occurrences, Identifier v.name.toList := fun i hi v hv =>
      h v (Program.mem_vars.2 ⟨i, hi, hv⟩)
    rw [Program.lines_text hnames]
    exact spellsLines_text hnames

end StraightLine
