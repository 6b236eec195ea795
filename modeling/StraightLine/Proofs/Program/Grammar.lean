import Mathlib.Algebra.Group.Int.Defs
import StraightLine.Program.Reader
import StraightLine.Proofs.Text.Tokens

/-!
# The grammar of program text

Program text is described here from the tokens up, by relations that say how an instruction can be
spelled and not how it is found. A line is blank, or it holds a parenthesized list of fields with
commas between them, where a field is a token with blanks around it. The tokens are an opcode in
letters of either case, then a destination that is an identifier, then operands that are identifiers
or numerals in the range of a word.

The reader works the other way, by trimming, cutting at commas and trying. Main statement: it
accepts exactly the texts of the grammar, and what it returns is what the text spells.
-/

namespace StraightLine

/-! ### The grammar -/

def IsLetter (c : Char) : Prop := ('a' ≤ c ∧ c ≤ 'z') ∨ ('A' ≤ c ∧ c ≤ 'Z')

inductive Identifier : List Char → Prop
  | mk {c : Char} {rest : List Char} (hfirst : IsLetter c ∨ c = '_' ∨ c = '$')
      (hrest : ∀ d ∈ rest, IsLetter d ∨ ('0' ≤ d ∧ d ≤ '9') ∨ d = '_' ∨ d = '$') :
      Identifier (c :: rest)

/-- The token is a word of capital letters, with each letter in either case. -/
def Spells (token : List Char) (word : String) : Prop :=
  List.Forall₂ (fun c letter => c = letter ∨ c = letter.toLower) token word.toList

inductive SpellsOperand : List Char → Operand → Prop
  | name {token : List Char} (h : Identifier token) :
      SpellsOperand token (.var ⟨String.ofList token⟩)
  | numeral {token : List Char} {value : Int} (h : Text.Numeral token value)
      (hmin : -2 ^ 31 ≤ value)
      (hmax : value < 2 ^ 31) : SpellsOperand token (.imm (Int32.ofInt value))

inductive SpellsInstr : List (List Char) → Instr → Prop
  | mov {opcode dst src : List Char} {x : Operand} (hopcode : Spells opcode "MOV")
      (hdst : Identifier dst)
      (hsrc : SpellsOperand src x) : SpellsInstr [opcode, dst, src] (.mov ⟨String.ofList dst⟩ x)
  | binary {op : Operator} {opcode dst lhs rhs : List Char} {x y : Operand}
      (hopcode : Spells opcode op.opcode)
      (hdst : Identifier dst) (hlhs : SpellsOperand lhs x) (hrhs : SpellsOperand rhs y) :
      SpellsInstr [opcode, dst, lhs, rhs] (.binary op ⟨String.ofList dst⟩ x y)
  | ret {opcode value : List Char} {x : Operand} (hopcode : Spells opcode "RET")
      (hvalue : SpellsOperand value x) :
      SpellsInstr [opcode, value] (.ret x)

/-- A line that holds an instruction: its tokens in parentheses, with commas between them and blanks
around them. -/
inductive SpellsLine : List Char → Instr → Prop
  | mk {front back : List Char} {fields tokens : List (List Char)} {i : Instr}
      (hfront : Text.AllBlank front)
      (hback : Text.AllBlank back) (hfields : List.Forall₂ Text.Padded tokens fields)
      (hspells : SpellsInstr tokens i) :
      SpellsLine (front ++ ('(' :: [','].intercalate fields ++ [')']) ++ back) i

/-- Lines that are blank or hold an instruction each, and the instructions in the order of the
lines. -/
inductive SpellsLines : List (List Char) → List Instr → Prop
  | nil : SpellsLines [] []
  | blank {line : List Char} {lines : List (List Char)} {is : List Instr}
      (hline : Text.AllBlank line)
      (hlines : SpellsLines lines is) : SpellsLines (line :: lines) is
  | instr {line : List Char} {lines : List (List Char)} {i : Instr} {is : List Instr}
      (hline : SpellsLine line i)
      (hlines : SpellsLines lines is) : SpellsLines (line :: lines) (i :: is)

variable {token cs : List Char} {c letter : Char} {x : Operand} {v : Var} {i : Instr}
  {is : List Instr}

/-! ### Characters of tokens -/

theorem isAlpha_iff : c.isAlpha = true ↔ IsLetter c := by
  unfold Char.isAlpha Char.isLower Char.isUpper
  rw [Bool.or_eq_true, or_comm, Bool.and_eq_true]
  simp only [decide_eq_true_eq]
  exact Iff.rfl

theorem isDigit_iff : c.isDigit = true ↔ '0' ≤ c ∧ c ≤ '9' := by
  rw [Char.isDigit, Bool.and_eq_true]
  simp only [decide_eq_true_eq]
  exact Iff.rfl

theorem isIdentifierStart_iff : isIdentifierStart c = true ↔ IsLetter c ∨ c = '_' ∨ c = '$' := by
  simp only [isIdentifierStart, Bool.or_eq_true, decide_eq_true_eq, isAlpha_iff, or_assoc]

theorem isIdentifierPart_iff :
    isIdentifierPart c = true ↔ IsLetter c ∨ ('0' ≤ c ∧ c ≤ '9') ∨ c = '_' ∨ c = '$' := by
  simp only [isIdentifierPart, Char.isAlphanum, Bool.or_eq_true, decide_eq_true_eq, isAlpha_iff,
    isDigit_iff, or_assoc]

theorem isIdentifier_iff : isIdentifier cs = true ↔ Identifier cs := by
  cases cs with
  | nil => exact ⟨nofun, nofun⟩
  | cons c rest =>
      rw [isIdentifier, Bool.and_eq_true, List.all_eq_true, isIdentifierStart_iff]
      simp only [isIdentifierPart_iff]
      exact ⟨fun h => .mk h.1 h.2, fun | .mk hfirst hrest => ⟨hfirst, hrest⟩⟩

/-- The characters that occur in tokens: those of identifiers, and signs. -/
def IsTokenChar (c : Char) : Prop := isIdentifierPart c = true ∨ c = '+' ∨ c = '-'

theorem IsLetter.isTokenChar (h : IsLetter c) : IsTokenChar c :=
  Or.inl (isIdentifierPart_iff.2 (Or.inl h))

theorem Identifier.isTokenChar (h : Identifier token) : ∀ c ∈ token, IsTokenChar c := by
  cases h with
  | mk hfirst hrest =>
      intro c hc
      refine Or.inl (isIdentifierPart_iff.2 ?_)
      obtain rfl | hc := List.mem_cons.1 hc
      · exact hfirst.imp_right Or.inr
      · exact hrest c hc

theorem Text.Numeral.isTokenChar {value : Int} (h : Text.Numeral token value) :
    ∀ c ∈ token, IsTokenChar c := by
  intro c hc
  obtain hdigit | hsign := h.mem hc
  · exact Or.inl (isIdentifierPart_iff.2 (Or.inr (Or.inl (isDigit_iff.1 hdigit))))
  · exact Or.inr hsign

theorem isLetter_iff_toNat :
    IsLetter c ↔ (97 ≤ c.toNat ∧ c.toNat ≤ 122) ∨ (65 ≤ c.toNat ∧ c.toNat ≤ 90) := Iff.rfl

theorem IsTokenChar.toNat_range (h : IsTokenChar c) :
    36 ≤ c.toNat ∧ c.toNat ≤ 122 ∧ c.toNat ≠ 44 := by
  obtain h | rfl | rfl := h
  · obtain hletter | hdigit | rfl | rfl := isIdentifierPart_iff.1 h
    · have hrange := isLetter_iff_toNat.1 hletter
      omega
    · have hrange : 48 ≤ c.toNat ∧ c.toNat ≤ 57 := hdigit
      omega
    · decide
    · decide
  · decide
  · decide

theorem IsTokenChar.not_blank (h : IsTokenChar c) : Text.isBlank c = false := by
  have hrange := h.toNat_range
  simp only [Text.isBlank, Text.blankRanges, List.any_cons, List.any_nil, Bool.or_eq_false_iff,
    Bool.and_eq_false_iff, decide_eq_false_iff_not, and_true]
  omega

theorem IsTokenChar.ne_comma (h : IsTokenChar c) : c ≠ ',' := by
  rintro rfl
  exact h.toNat_range.2.2 rfl

/-! ### Opcodes -/

def IsCapital (c : Char) : Prop := 65 ≤ c.toNat ∧ c.toNat ≤ 90

theorem toNat_toUpper (c : Char) :
    c.toUpper.toNat = if 97 ≤ c.toNat ∧ c.toNat ≤ 122 then c.toNat - 32 else c.toNat := by
  have hlower : ('a'.val ≤ c.val ∧ c.val ≤ 'z'.val) ↔ 97 ≤ c.toNat ∧ c.toNat ≤ 122 := Iff.rfl
  unfold Char.toUpper
  split
  · next h =>
      have hrange := hlower.1 h
      have hshift : ('A'.val - 'a'.val).toNat = 2 ^ 32 - 32 := rfl
      rw [if_pos hrange, Char.toNat_mk, UInt32.toNat_add, Char.toNat_val, hshift]
      omega
  · next h => rw [if_neg fun hrange => h (hlower.2 hrange)]

theorem IsCapital.toNat_toLower (h : IsCapital c) : c.toLower.toNat = c.toNat + 32 := by
  have hupper : c.val ≥ 'A'.val ∧ c.val ≤ 'Z'.val := h
  have hshift : ('a'.val - 'A'.val).toNat = 32 := rfl
  unfold Char.toLower
  rw [dif_pos hupper, Char.toNat_mk, UInt32.toNat_add, Char.toNat_val, hshift]
  have hle := h.2
  omega

/-- Raising to upper case forgets the case of a letter and nothing else. -/
theorem toUpper_eq_iff (h : IsCapital letter) :
    c.toUpper = letter ↔ c = letter ∨ c = letter.toLower := by
  have hrange : 65 ≤ letter.toNat ∧ letter.toNat ≤ 90 := h
  rw [← Char.toNat_inj, ← Char.toNat_inj, ← Char.toNat_inj, toNat_toUpper, h.toNat_toLower]
  split <;> omega

theorem map_toUpper_eq_iff {letters : List Char} (h : ∀ letter ∈ letters, IsCapital letter) :
    cs.map Char.toUpper = letters ↔
      List.Forall₂ (fun c letter => c = letter ∨ c = letter.toLower) cs letters := by
  induction letters generalizing cs with
  | nil => rw [List.map_eq_nil_iff, List.forall₂_nil_right_iff]
  | cons letter letters ih =>
      cases cs with
      | nil => exact ⟨nofun, nofun⟩
      | cons c cs =>
          rw [List.map_cons, List.cons.injEq, List.forall₂_cons,
            toUpper_eq_iff (h letter List.mem_cons_self),
            ih fun other hother => h other (List.mem_cons_of_mem letter hother)]

def Opcode.spelling : Opcode → String
  | .mov => "MOV"
  | .binary op => op.opcode
  | .ret => "RET"

theorem Opcode.isCapital_spelling (code : Opcode) :
    ∀ letter ∈ code.spelling.toList, IsCapital letter := by
  have hall : code.spelling.toList.all (fun letter => 65 ≤ letter.toNat ∧ letter.toNat ≤ 90) =
      true := by
    rcases code with _ | ⟨_ | _ | _⟩ | _ <;> rfl
  intro letter hletter
  have hletter := List.all_eq_true.1 hall letter hletter
  rwa [decide_eq_true_iff] at hletter

theorem Opcode.ofName?_eq_some_iff {name : String} {code : Opcode} :
    Opcode.ofName? name = some code ↔ name = code.spelling := by
  constructor
  · intro h
    rw [Opcode.ofName?] at h
    split_ifs at h with hmov hadd hsub hmul hret <;> cases h <;> assumption
  · rintro rfl
    rcases code with _ | ⟨_ | _ | _⟩ | _ <;> rfl

theorem ofName?_upperCase_eq_some_iff {code : Opcode} :
    Opcode.ofName? (upperCase cs) = some code ↔ Spells cs code.spelling := by
  rw [Opcode.ofName?_eq_some_iff, Spells, ← map_toUpper_eq_iff code.isCapital_spelling, upperCase,
    ← String.toList_inj, String.toList_ofList]

/-! ### Operands -/

/-- A numeral starts with a digit or a sign, and an identifier with neither. -/
theorem Identifier.word?_eq_none (h : Identifier token) : Text.word? token = none := by
  rw [Option.eq_none_iff_forall_ne_some]
  intro w hw
  cases h with
  | @mk c rest hfirst =>
      have hname : IsLetter c ∨ c.toNat = 95 ∨ c.toNat = 36 :=
        hfirst.imp_right (Or.imp (congrArg Char.toNat) (congrArg Char.toNat))
      have hnumeral : (48 ≤ c.toNat ∧ c.toNat ≤ 57) ∨ c.toNat = 43 ∨ c.toNat = 45 :=
        ((Text.word?_eq_some_iff.1 hw).mem List.mem_cons_self).imp Char.isDigit_iff_toNat.1
          (Or.imp (congrArg Char.toNat) (congrArg Char.toNat))
      rw [isLetter_iff_toNat] at hname
      omega

theorem spellsOperand_imm_iff {w : Int32} :
    SpellsOperand token (.imm w) ↔ Text.word? token = some w := by
  rw [Text.word?_eq_some_iff]
  constructor
  · intro h
    cases h with
    | numeral h hmin hmax =>
        rw [Int32.toInt_ofInt_of_le hmin hmax]
        exact h
  · intro h
    have hspelled : SpellsOperand token (.imm (Int32.ofInt w.toInt)) :=
      .numeral h w.le_toInt w.toInt_lt
    rwa [Int32.ofInt_toInt] at hspelled

theorem spellsOperand_var_iff :
    SpellsOperand token (.var v) ↔ Identifier token ∧ v = ⟨String.ofList token⟩ := by
  constructor
  · rintro ⟨h⟩
    exact ⟨h, rfl⟩
  · rintro ⟨h, rfl⟩
    exact .name h

theorem Operand.read?_eq_some_iff : Operand.read? token = some x ↔ SpellsOperand token x := by
  cases x with
  | imm w =>
      rw [spellsOperand_imm_iff, Operand.read?]
      split
      · next value hvalue => simp [hvalue]
      · next hnone => simp [hnone]
  | var v =>
      rw [spellsOperand_var_iff, ← isIdentifier_iff, Operand.read?]
      split
      · next value hvalue =>
          have hnot : isIdentifier token ≠ true := fun h => by
            rw [(isIdentifier_iff.1 h).word?_eq_none] at hvalue
            cases hvalue
          simp [hnot]
      · next hnone =>
          simp only [Option.ite_none_right_eq_some, Option.some.injEq, Operand.var.injEq]
          exact and_congr_right fun _ => eq_comm

theorem Operand.read_eq_ok_iff : Operand.read token = .ok x ↔ SpellsOperand token x := by
  rw [← Operand.read?_eq_some_iff, Operand.read]
  split
  · next y hy => simp [hy]
  · next hnone => simp [hnone]

theorem Var.read_eq_ok_iff :
    Var.read token = .ok v ↔ Identifier token ∧ v = ⟨String.ofList token⟩ := by
  rw [← spellsOperand_var_iff, ← Operand.read_eq_ok_iff, Var.read]
  split
  · next w hw => simp [hw]
  · next value hvalue => simp [hvalue]
  · next refusal hrefusal => simp [hrefusal]

theorem SpellsOperand.isTokenChar (h : SpellsOperand token x) : ∀ c ∈ token, IsTokenChar c := by
  cases h with
  | name h => exact h.isTokenChar
  | numeral h => exact h.isTokenChar

/-! ### Instructions -/

theorem Spells.isTokenChar (code : Opcode) (h : Spells token code.spelling) :
    ∀ c ∈ token, IsTokenChar c := by
  intro c hc
  have hupper : token.map Char.toUpper = code.spelling.toList :=
    (map_toUpper_eq_iff code.isCapital_spelling).2 h
  have hcapital : IsCapital c.toUpper := code.isCapital_spelling _ (hupper ▸ List.mem_map_of_mem hc)
  rw [IsCapital, toNat_toUpper] at hcapital
  refine IsLetter.isTokenChar (isLetter_iff_toNat.2 ?_)
  split at hcapital <;> omega

theorem SpellsInstr.isTokenChar {tokens : List (List Char)} (h : SpellsInstr tokens i) :
    ∀ token ∈ tokens, ∀ c ∈ token, IsTokenChar c := by
  cases h with
  | mov hopcode hdst hsrc =>
      simp only [List.forall_mem_cons]
      exact ⟨hopcode.isTokenChar .mov, hdst.isTokenChar, hsrc.isTokenChar, nofun⟩
  | @binary op _ _ _ _ _ _ hopcode hdst hlhs hrhs =>
      simp only [List.forall_mem_cons]
      exact ⟨hopcode.isTokenChar (.binary op), hdst.isTokenChar, hlhs.isTokenChar,
        hrhs.isTokenChar, nofun⟩
  | ret hopcode hvalue =>
      simp only [List.forall_mem_cons]
      exact ⟨hopcode.isTokenChar .ret, hvalue.isTokenChar, nofun⟩

theorem bind_eq_ok_iff {ε α β : Type} {m : Except ε α} {f : α → Except ε β} {y : β} :
    m >>= f = .ok y ↔ ∃ a, m = .ok a ∧ f a = .ok y := by
  cases m with
  | error e => exact ⟨nofun, nofun⟩
  | ok a => exact ⟨fun h => ⟨a, rfl, h⟩, fun ⟨_, heq, h⟩ => Except.ok.inj heq ▸ h⟩

theorem map_eq_ok_iff {ε α β : Type} {m : Except ε α} {f : α → β} {y : β} :
    m.map f = .ok y ↔ ∃ a, m = .ok a ∧ f a = y := by
  cases m with
  | error e => exact ⟨nofun, nofun⟩
  | ok a => simp [Except.map]

theorem Instr.ofFields_eq_ok_iff {opcode : List Char} {operands : List (List Char)} :
    Instr.ofFields opcode operands = .ok i ↔ SpellsInstr (opcode :: operands) i := by
  constructor
  · intro h
    rw [Instr.ofFields] at h
    split at h
    · cases h
    · next code hcode =>
        have hspells := ofName?_upperCase_eq_some_iff.1 hcode
        split at h
        · simp only [bind_eq_ok_iff, Var.read_eq_ok_iff, Operand.read_eq_ok_iff] at h
          obtain ⟨_, ⟨hdst, rfl⟩, x, hsrc, hi⟩ := h
          cases hi
          exact .mov hspells hdst hsrc
        · simp only [bind_eq_ok_iff, Var.read_eq_ok_iff, Operand.read_eq_ok_iff] at h
          obtain ⟨_, ⟨hdst, rfl⟩, x, hlhs, y, hrhs, hi⟩ := h
          cases hi
          exact .binary hspells hdst hlhs hrhs
        · simp only [bind_eq_ok_iff, Operand.read_eq_ok_iff] at h
          obtain ⟨x, hvalue, hi⟩ := h
          cases hi
          exact .ret hspells hvalue
        · cases h
  · intro h
    cases h with
    | mov hopcode hdst hsrc =>
        have hcode : Opcode.ofName? (upperCase opcode) = some .mov :=
          ofName?_upperCase_eq_some_iff.2 hopcode
        simp only [Instr.ofFields, hcode, bind_eq_ok_iff, Var.read_eq_ok_iff,
          Operand.read_eq_ok_iff]
        exact ⟨_, ⟨hdst, rfl⟩, _, hsrc, rfl⟩
    | @binary op _ _ _ _ _ _ hopcode hdst hlhs hrhs =>
        have hcode : Opcode.ofName? (upperCase opcode) = some (.binary op) :=
          ofName?_upperCase_eq_some_iff.2 hopcode
        simp only [Instr.ofFields, hcode, bind_eq_ok_iff, Var.read_eq_ok_iff,
          Operand.read_eq_ok_iff]
        exact ⟨_, ⟨hdst, rfl⟩, _, hlhs, _, hrhs, rfl⟩
    | ret hopcode hvalue =>
        have hcode : Opcode.ofName? (upperCase opcode) = some .ret :=
          ofName?_upperCase_eq_some_iff.2 hopcode
        simp only [Instr.ofFields, hcode, bind_eq_ok_iff, Operand.read_eq_ok_iff]
        exact ⟨_, hvalue, rfl⟩

/-! ### Lines -/

theorem Instr.inner?_eq_some_iff {inner : List Char} :
    Instr.inner? cs = some inner ↔ cs = '(' :: inner ++ [')'] := by
  constructor
  · intro h
    unfold Instr.inner? at h
    split at h
    · next rest =>
        split at h
        · next hlast =>
            obtain ⟨front, rfl⟩ := List.getLast?_eq_some_iff.1 hlast
            rw [List.dropLast_concat, Option.some.injEq] at h
            rw [h, List.cons_append]
        · cases h
    · cases h
  · rintro rfl
    simp [Instr.inner?]

theorem not_comma_mem_of_allBlank (h : Text.AllBlank cs) : ',' ∉ cs := fun hmem => by
  have hblank := h ',' hmem
  revert hblank
  decide

theorem not_comma_mem_of_padded (h : Text.Padded token cs) (hchars : ∀ c ∈ token, IsTokenChar c) :
    ',' ∉ cs := by
  obtain ⟨front, back, hfront, hback, rfl⟩ := h
  simp only [List.mem_append, not_or]
  exact ⟨⟨not_comma_mem_of_allBlank hfront, fun hmem => (hchars ',' hmem).ne_comma rfl⟩,
    not_comma_mem_of_allBlank hback⟩

/-- Fields around tokens hold no comma, and trimming gives the tokens back. -/
theorem fields_of_padded {tokens fields : List (List Char)}
    (h : List.Forall₂ Text.Padded tokens fields)
    (hchars : ∀ token ∈ tokens, ∀ c ∈ token, IsTokenChar c) :
    (∀ field ∈ fields, ',' ∉ field) ∧ fields.map Text.trim = tokens := by
  induction h with
  | nil => exact ⟨nofun, rfl⟩
  | @cons token field tokens fields hpadded _ ih =>
      obtain ⟨htoken, htokens⟩ := List.forall_mem_cons.1 hchars
      obtain ⟨hcommas, htrim⟩ := ih htokens
      refine ⟨List.forall_mem_cons.2 ⟨not_comma_mem_of_padded hpadded htoken, hcommas⟩, ?_⟩
      rw [List.map_cons, htrim, hpadded.trim_eq_of_not_blank fun c hc => (htoken c hc).not_blank]

theorem Instr.read_eq_ok_iff :
    Instr.read cs = .ok i ↔ ∃ fields tokens, List.Forall₂ Text.Padded tokens fields ∧
    SpellsInstr tokens i ∧ cs = '(' :: [','].intercalate fields ++ [')'] := by
  constructor
  · intro h
    rw [Instr.read] at h
    split at h
    · cases h
    · next inner hinner =>
        refine ⟨Text.fields inner, (Text.fields inner).map Text.trim, ?_, ?_, ?_⟩
        · exact Text.padded_map_trim (Text.fields inner)
        · split at h
          · next hnil => exact absurd (List.map_eq_nil_iff.1 hnil) (Text.fields_ne_nil inner)
          · next opcode operands htokens =>
              rw [htokens]
              exact Instr.ofFields_eq_ok_iff.1 h
        · rw [Text.fields, List.intercalate_splitOn]
          exact Instr.inner?_eq_some_iff.1 hinner
  · rintro ⟨fields, tokens, hpadded, hspells, rfl⟩
    obtain ⟨hcommas, htrim⟩ := fields_of_padded hpadded hspells.isTokenChar
    have hne : fields ≠ [] := by
      rintro rfl
      cases hpadded
      cases hspells
    have hfields : Text.fields ([','].intercalate fields) = fields :=
      List.splitOn_intercalate ',' hcommas hne
    simp only [Instr.read, Instr.inner?_eq_some_iff.2 rfl, hfields, htrim]
    cases tokens with
    | nil => cases hspells
    | cons opcode operands => exact Instr.ofFields_eq_ok_iff.2 hspells

theorem trim_parenthesized {front inner back : List Char} (hfront : Text.AllBlank front)
    (hback : Text.AllBlank back) :
    Text.trim (front ++ ('(' :: inner ++ [')']) ++ back) = '(' :: inner ++ [')'] := by
  refine Text.Padded.trim_eq ⟨front, back, hfront, hback, rfl⟩ ?_ ?_
  · rw [List.cons_append, List.head?_cons]
    rintro c ⟨⟩
    decide
  · rw [List.getLast?_concat]
    rintro c ⟨⟩
    decide

/-- A line holds an instruction exactly when its trimmed text reads as that instruction. -/
theorem spellsLine_iff {line : List Char} :
    SpellsLine line i ↔ Instr.read (Text.trim line) = .ok i := by
  rw [Instr.read_eq_ok_iff]
  constructor
  · rintro ⟨hfront, hback, hfields, hspells⟩
    exact ⟨_, _, hfields, hspells, trim_parenthesized hfront hback⟩
  · rintro ⟨fields, tokens, hfields, hspells, hbody⟩
    obtain ⟨front, back, hfront, hback, hline⟩ := Text.padded_trim line
    rw [hline, hbody]
    exact .mk hfront hback hfields hspells

theorem SpellsLine.not_allBlank {line : List Char} (h : SpellsLine line i) :
    ¬ Text.AllBlank line := by
  intro hblank
  have hread := spellsLine_iff.1 h
  rw [Text.trim_eq_nil_iff.2 hblank] at hread
  cases hread

/-! ### Programs -/

theorem isEmpty_trim_iff : (Text.trim cs).isEmpty = true ↔ Text.AllBlank cs := by
  rw [List.isEmpty_iff, Text.trim_eq_nil_iff, Text.AllBlank]

namespace Program

variable {line : List Char} {lines : List (List Char)} {n index : Nat}

theorem readLines_blank (h : Text.AllBlank line) :
    readLines n index (line :: lines) = readLines (n + 1) index lines := by
  rw [readLines, if_pos (isEmpty_trim_iff.2 h)]

theorem readLines_refused {refusal : Refusal} (h : ¬ Text.AllBlank line)
    (hread : Instr.read (Text.trim line) = .error refusal) :
    readLines n index (line :: lines) = .error (refusal.locate n index) := by
  simp only [readLines, if_neg (mt isEmpty_trim_iff.1 h), hread]

theorem readLines_spelled (h : SpellsLine line i) :
    readLines n index (line :: lines) = (readLines (n + 1) (index + 1) lines).map (i :: ·) := by
  simp only [readLines, if_neg (mt isEmpty_trim_iff.1 h.not_allBlank), spellsLine_iff.1 h]

theorem readLines_eq_ok_iff : readLines n index lines = .ok is ↔ SpellsLines lines is := by
  induction lines generalizing n index is with
  | nil =>
      rw [readLines, Except.ok.injEq]
      exact ⟨fun h => h ▸ .nil, fun | .nil => rfl⟩
  | cons line rest ih =>
      constructor
      · intro h
        by_cases hblank : Text.AllBlank line
        · rw [readLines_blank hblank] at h
          exact .blank hblank (ih.1 h)
        · cases hread : Instr.read (Text.trim line) with
          | error refusal =>
              rw [readLines_refused hblank hread] at h
              cases h
          | ok i =>
              have hline := spellsLine_iff.2 hread
              rw [readLines_spelled hline] at h
              obtain ⟨js, hjs, rfl⟩ := map_eq_ok_iff.1 h
              exact .instr hline (ih.1 hjs)
      · intro h
        cases h with
        | blank hline hlines => rw [readLines_blank hline, ih.2 hlines]
        | instr hline hlines =>
            rw [readLines_spelled hline, ih.2 hlines]
            rfl

end Program

theorem Program.read_eq_ok_iff {source : String} {p : Program} :
    Program.read source = .ok p ↔ SpellsLines (Text.lines source.toList) p.instrs := by
  rw [Program.read, map_eq_ok_iff]
  simp only [Program.readLines_eq_ok_iff]
  constructor
  · rintro ⟨is, his, rfl⟩
    exact his
  · exact fun h => ⟨p.instrs, h, rfl⟩

/-- **The reader accepts exactly its grammar.** -/
theorem Program.read_ok_iff_spelled (source : String) (p : Program) :
    Program.read source = .ok p ↔ ∃ lines, Text.CutInto source.toList lines ∧
      SpellsLines lines p.instrs := by
  rw [Program.read_eq_ok_iff]
  simp only [Text.cutInto_iff]
  constructor
  · exact fun h => ⟨_, rfl, h⟩
  · rintro ⟨lines, rfl, h⟩
    exact h

/-- Blanks of any kind, letters of either case, a signed numeral with leading zeros and a blank line
are all read over. -/
example : Program.read "\u00a0( mov ,\tx, +007 )\r\n \r\n(Ret,x)" =
    .ok ⟨[.mov ⟨"x"⟩ (.imm 7), .ret (.var ⟨"x"⟩)]⟩ := rfl

end StraightLine
