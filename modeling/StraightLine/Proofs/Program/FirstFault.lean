import StraightLine.Proofs.Program.Grammar

/-!
# The first bad line

A text that cannot be read has a first line that is neither blank nor an instruction of the grammar,
and this line alone decides the error. Two counters run along the lines: one of all lines, one of
the lines that hold an instruction. A line with everything in its place but a word for its
destination is reported by the second, and every other bad line by the first.

`AssignsWord` says from the tokens up which lines are of the first kind; as in the grammar, the
tokens do not say how the reader finds them. What follows the bad line has no part in the error.
-/

namespace StraightLine

variable {token cs line : List Char} {tokens lines : List (List Char)} {value : Int32} {e : Error}
  {refusal : Refusal} {n index : Nat}

/-! ### Words as destinations -/

/-- The tokens of an instruction that assigns, but with the numeral of a word for its destination.
The operands may be anything. -/
inductive SpellsWordDestination : List (List Char) → Int32 → Prop
  | mov {opcode dst src : List Char} {value : Int32} (hopcode : Spells opcode "MOV")
      (hdst : SpellsOperand dst (.imm value)) : SpellsWordDestination [opcode, dst, src] value
  | binary {op : Operator} {opcode dst lhs rhs : List Char} {value : Int32}
      (hopcode : Spells opcode op.opcode)
      (hdst : SpellsOperand dst (.imm value)) : SpellsWordDestination [opcode, dst, lhs, rhs] value

/-- A line in parentheses with commas between its fields, whose tokens have a word for their
destination. -/
inductive AssignsWord : List Char → Int32 → Prop
  | mk {front back : List Char} {fields tokens : List (List Char)} {value : Int32}
      (hfront : Text.AllBlank front)
      (hback : Text.AllBlank back) (hcommas : ∀ field ∈ fields, ',' ∉ field)
      (hfields : List.Forall₂ Text.Padded tokens fields)
      (hspells : SpellsWordDestination tokens value) :
      AssignsWord (front ++ ('(' :: [','].intercalate fields ++ [')']) ++ back) value

theorem bind_eq_error_iff {ε α β : Type} {m : Except ε α} {f : α → Except ε β} {x : ε} :
    m >>= f = .error x ↔ m = .error x ∨ ∃ a, m = .ok a ∧ f a = .error x := by
  cases m with
  | error y => simp [bind, Except.bind]
  | ok a => simp [bind, Except.bind]

theorem map_eq_error_iff {ε α β : Type} {m : Except ε α} {f : α → β} {x : ε} :
    m.map f = .error x ↔ m = .error x := by
  cases m <;> simp [Except.map]

theorem Operand.read_ne_immediateDestination :
    Operand.read token ≠ .error (.immediateDestination value) := by
  rw [Operand.read]
  split <;> simp

theorem Var.read_eq_immediateDestination_iff :
    Var.read token = .error (.immediateDestination value) ↔ SpellsOperand token (.imm value) := by
  rw [← Operand.read_eq_ok_iff, Var.read]
  split
  · next v hv => simp [hv]
  · next w hw => simp [hw]
  · next refusal hrefusal =>
      have hne : refusal ≠ .immediateDestination value := by
        rintro rfl
        exact Operand.read_ne_immediateDestination hrefusal
      simp [hrefusal, hne]

/-- The destination is the only field that is refused as a word. -/
theorem Instr.ofFields_eq_immediateDestination_iff {opcode : List Char}
    {operands : List (List Char)} :
    Instr.ofFields opcode operands = .error (.immediateDestination value) ↔
      SpellsWordDestination (opcode :: operands) value := by
  constructor
  · intro h
    rw [Instr.ofFields] at h
    split at h
    · cases h
    · next code hcode =>
        have hspells := ofName?_upperCase_eq_some_iff.1 hcode
        split at h
        · simp only [bind_eq_error_iff, Var.read_eq_immediateDestination_iff,
            Operand.read_ne_immediateDestination, false_or] at h
          obtain hdst | ⟨_, _, _, _, hpure⟩ := h
          · exact .mov hspells hdst
          · cases hpure
        · simp only [bind_eq_error_iff, Var.read_eq_immediateDestination_iff,
            Operand.read_ne_immediateDestination, false_or] at h
          obtain hdst | ⟨_, _, _, _, _, _, hpure⟩ := h
          · exact .binary hspells hdst
          · cases hpure
        · simp only [bind_eq_error_iff, Operand.read_ne_immediateDestination, false_or] at h
          obtain ⟨_, _, hpure⟩ := h
          cases hpure
        · cases h
  · intro h
    cases h with
    | mov hopcode hdst =>
        have hcode : Opcode.ofName? (upperCase opcode) = some .mov :=
          ofName?_upperCase_eq_some_iff.2 hopcode
        simp only [Instr.ofFields, hcode, bind_eq_error_iff]
        exact Or.inl (Var.read_eq_immediateDestination_iff.2 hdst)
    | @binary op _ _ _ _ _ hopcode hdst =>
        have hcode : Opcode.ofName? (upperCase opcode) = some (.binary op) :=
          ofName?_upperCase_eq_some_iff.2 hopcode
        simp only [Instr.ofFields, hcode, bind_eq_error_iff]
        exact Or.inl (Var.read_eq_immediateDestination_iff.2 hdst)

/-! ### Bad lines -/

/-- The tokens that decide are made of characters of tokens, so trimming finds them. -/
theorem SpellsWordDestination.trim {fields : List (List Char)}
    (h : SpellsWordDestination tokens value) (hfields : List.Forall₂ Text.Padded tokens fields) :
    SpellsWordDestination (fields.map Text.trim) value := by
  have htrim : ∀ {token field : List Char}, Text.Padded token field → (∀ c ∈ token, IsTokenChar c) →
      Text.trim field = token :=
    fun hpadded hchars => hpadded.trim_eq_of_not_blank fun c hc => (hchars c hc).not_blank
  cases h with
  | mov hopcode hdst =>
      obtain _ | ⟨hfirst, _ | ⟨hsecond, _ | ⟨_, _ | _⟩⟩⟩ := hfields
      simp only [List.map_cons, List.map_nil, htrim hfirst (hopcode.isTokenChar .mov),
        htrim hsecond hdst.isTokenChar]
      exact .mov hopcode hdst
  | @binary op _ _ _ _ _ hopcode hdst =>
      obtain _ | ⟨hfirst, _ | ⟨hsecond, _ | ⟨_, _ | ⟨_, _ | _⟩⟩⟩⟩ := hfields
      simp only [List.map_cons, List.map_nil, htrim hfirst (hopcode.isTokenChar (.binary op)),
        htrim hsecond hdst.isTokenChar]
      exact .binary hopcode hdst

theorem assignsWord_iff :
    AssignsWord line value ↔ Instr.read (Text.trim line) =
    .error (.immediateDestination value) := by
  constructor
  · intro h
    cases h with
    | @mk front back fields tokens _ hfront hback hcommas hfields hspells =>
        have hne : fields ≠ [] := by
          rintro rfl
          cases hfields
          cases hspells
        have hcut : Text.fields ([','].intercalate fields) = fields :=
          List.splitOn_intercalate ',' hcommas hne
        have htrim := hspells.trim hfields
        rw [trim_parenthesized hfront hback]
        simp only [Instr.read, Instr.inner?_eq_some_iff.2 rfl, hcut]
        cases hmap : fields.map Text.trim with
        | nil => exact absurd (List.map_eq_nil_iff.1 hmap) hne
        | cons opcode operands =>
            rw [hmap] at htrim
            exact Instr.ofFields_eq_immediateDestination_iff.2 htrim
  · intro h
    obtain ⟨front, back, hfront, hback, hline⟩ := Text.padded_trim line
    rw [Instr.read] at h
    split at h
    · cases h
    · next inner hinner =>
        have hspells : SpellsWordDestination ((Text.fields inner).map Text.trim) value := by
          split at h
          · next hnil => exact absurd (List.map_eq_nil_iff.1 hnil) (Text.fields_ne_nil inner)
          · next opcode operands htokens =>
              rw [htokens]
              exact Instr.ofFields_eq_immediateDestination_iff.1 h
        have hjoin : [','].intercalate (Text.fields inner) = inner := List.intercalate_splitOn ','
        rw [hline, Instr.inner?_eq_some_iff.1 hinner, ← hjoin]
        exact .mk hfront hback (fun field => Text.not_mem_of_mem_splitOn)
          (Text.padded_map_trim _) hspells

/-- A refused line is reported by its instruction if it assigns a word, and by its line
otherwise. -/
theorem locate_of_read (h : Instr.read (Text.trim line) = .error refusal) (n index : Nat) :
    (∃ value, AssignsWord line value ∧
        refusal.locate n index = .malformed index (.destination value)) ∨
      (∀ value, ¬ AssignsWord line value) ∧ ∃ cause, refusal.locate n index =
          .unreadable n cause := by
  cases refusal with
  | fault cause =>
      refine Or.inr ⟨fun value hassigns => ?_, cause, rfl⟩
      rw [assignsWord_iff.1 hassigns] at h
      cases h
  | immediateDestination value => exact Or.inl ⟨value, assignsWord_iff.2 h, rfl⟩

/-! ### Lines in order -/

def filledCount (lines : List (List Char)) : Nat := lines.countP fun line => !line.all Text.isBlank

theorem filledCount_blank (h : Text.AllBlank line) (lines : List (List Char)) :
    filledCount (line :: lines) = filledCount lines := by
  have hall : line.all Text.isBlank = true := List.all_eq_true.2 h
  simp [filledCount, hall]

theorem filledCount_not_blank (h : ¬ Text.AllBlank line) (lines : List (List Char)) :
    filledCount (line :: lines) = filledCount lines + 1 := by
  have hall : line.all Text.isBlank = false := Bool.eq_false_iff.2 (mt List.all_eq_true.1 h)
  simp [filledCount, hall]

namespace Program

/-- A list of lines fails at its first bad line, by the lines and by the instructions in front of
it. -/
theorem readLines_eq_error {front back : List (List Char)}
    (hfront : ∀ l ∈ front, Text.AllBlank l ∨ ∃ i, SpellsLine l i) (hblank : ¬ Text.AllBlank line)
    (hread : Instr.read (Text.trim line) = .error refusal) (n index : Nat) :
    readLines n index (front ++ line :: back) =
      .error (refusal.locate (n + front.length) (index + filledCount front)) := by
  induction front generalizing n index with
  | nil => exact readLines_refused hblank hread
  | cons l front ih =>
      obtain ⟨hl, hrest⟩ := List.forall_mem_cons.1 hfront
      rw [List.cons_append, List.length_cons, Nat.add_comm front.length, ← Nat.add_assoc]
      obtain hl | ⟨i, hi⟩ := hl
      · rw [readLines_blank hl, ih hrest, filledCount_blank hl]
      · rw [readLines_spelled hi, ih hrest, filledCount_not_blank hi.not_allBlank]
        simp only [Except.map]
        rw [Nat.add_right_comm index, ← Nat.add_assoc index]

theorem exists_of_readLines_eq_error (h : readLines n index lines = .error e) :
    ∃ front line back refusal, lines = front ++ line :: back ∧
      (∀ l ∈ front, Text.AllBlank l ∨ ∃ i, SpellsLine l i) ∧ ¬ Text.AllBlank line ∧
      Instr.read (Text.trim line) = .error refusal := by
  induction lines generalizing n index with
  | nil => cases h
  | cons l rest ih =>
      by_cases hblank : Text.AllBlank l
      · rw [readLines_blank hblank] at h
        obtain ⟨front, line, back, refusal, rfl, hfront, hbad⟩ := ih h
        exact ⟨l :: front, line, back, refusal, rfl, List.forall_mem_cons.2 ⟨Or.inl hblank, hfront⟩,
          hbad⟩
      · cases hread : Instr.read (Text.trim l) with
        | error refusal => exact ⟨[], l, rest, refusal, rfl, nofun, hblank, hread⟩
        | ok i =>
            have hl := spellsLine_iff.2 hread
            rw [readLines_spelled hl, map_eq_error_iff] at h
            obtain ⟨front, line, back, refusal, rfl, hfront, hbad⟩ := ih h
            exact ⟨l :: front, line, back, refusal, rfl,
              List.forall_mem_cons.2 ⟨Or.inr ⟨i, hl⟩, hfront⟩, hbad⟩

theorem read_eq_error_of_cutInto {source : String} {front back : List (List Char)}
    (hcut : Text.CutInto source.toList (front ++ line :: back))
    (hfront : ∀ l ∈ front, Text.AllBlank l ∨ ∃ i, SpellsLine l i) (hblank : ¬ Text.AllBlank line)
    (hread : Instr.read (Text.trim line) = .error refusal) :
    Program.read source = .error (refusal.locate (front.length + 1) (filledCount front)) := by
  rw [Program.read, map_eq_error_iff, Text.cutInto_iff.1 hcut,
    readLines_eq_error hfront hblank hread, Nat.add_comm 1, Nat.zero_add]

/-- **An error points at the first bad line.** A text that is refused has a first line that is
neither blank nor an instruction. If this line has its parentheses, an opcode that assigns, as many
fields as it takes and a word for its destination, the error is a malformed instruction, numbered by
the lines in front that are not blank; otherwise it is an unreadable line, numbered by all lines
from one on. Whatever follows the line, the error is the same. -/
theorem error_at_first_bad_line {source : String} (h : Program.read source = .error e) :
    ∃ front line back, Text.CutInto source.toList (front ++ line :: back) ∧
    (∀ l ∈ front, Text.AllBlank l ∨ ∃ i, SpellsLine l i) ∧ ¬ Text.AllBlank line ∧
      (∀ i, ¬ SpellsLine line i) ∧
    ((∃ value, AssignsWord line value ∧ e = .malformed (filledCount front) (.destination value)) ∨
      (∀ value, ¬ AssignsWord line value) ∧ ∃ cause, e = .unreadable (front.length + 1) cause) ∧
    ∀ (other : String) (lines : List (List Char)), Text.CutInto other.toList lines →
      lines.take (front.length + 1) = front ++ [line] → Program.read other = .error e := by
  obtain ⟨front, line, back, refusal, hlines, hfront, hblank, hread⟩ :=
    exists_of_readLines_eq_error (map_eq_error_iff.1 h)
  have hcut : Text.CutInto source.toList (front ++ line :: back) := Text.cutInto_iff.2 hlines
  obtain rfl : e = _ := Except.error.inj
    (h.symm.trans (read_eq_error_of_cutInto hcut hfront hblank hread))
  refine ⟨front, line, back, hcut, hfront, hblank, fun i hi => ?_, locate_of_read hread _ _,
    fun other lines hother htake => ?_⟩
  · rw [spellsLine_iff.1 hi] at hread
    cases hread
  · have hsplit : lines = front ++ line :: lines.drop (front.length + 1) := by
      rw [List.append_cons, ← htake, List.take_append_drop]
    rw [hsplit] at hother
    exact read_eq_error_of_cutInto hother hfront hblank hread

/-- A sum with a word for its destination behind a move and a blank line is the second instruction,
whatever its operands are, and a line that follows has no part in it. -/
theorem error_at_first_bad_line_sum :
    let source := "(MOV, x, 1)\n\u3000\n  (add, +03, x, !)\n(DIV)"
    let e : Error := .malformed 1 (.destination 3)
    Program.read source = .error e ∧
      e.message = "Malformed instruction #1: destination `3` is an immediate" ∧
      ∃ front line back, Text.CutInto source.toList (front ++ line :: back) ∧ AssignsWord line 3 ∧
        filledCount front = 1 := by
  intro source e
  have hread : Program.read source = .error e := by decide
  obtain ⟨front, line, back, hcut, _, _, _, hkind, _⟩ := error_at_first_bad_line hread
  refine ⟨hread, by decide, front, line, back, hcut, ?_⟩
  obtain ⟨value, hassigns, heq⟩ | ⟨_, cause, heq⟩ := hkind
  · obtain ⟨hcount, hvalue⟩ := Error.malformed.inj heq
    obtain rfl := Misplacement.destination.inj hvalue
    exact ⟨hassigns, hcount.symm⟩
  · exact absurd heq nofun

end Program

end StraightLine
