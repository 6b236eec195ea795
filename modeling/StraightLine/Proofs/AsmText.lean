import StraightLine.Proofs.Program.Printing
import StraightLine.Target.Listing

/-!
# Instructions read from their lines

A line of a listing is read the way an assembler reads it: what stands behind a `#` is passed over,
the first word is the mnemonic, and the operands behind it are cut at commas. The reader knows a
register by its name and nothing else, so it cannot tell a register of the pool from the one for the
returned word; `Reg.named` is what is left of a register in print. If no name of an instruction is
cut by a blank, a comma or a `#`, its line is read as the instruction with its registers known by
their names.
-/

namespace StraightLine

def Reg.named (r : Reg) : Reg := .ret r.name

def Asm.rename (f : Reg → Reg) : Asm → Asm
  | .li rd value => .li (f rd) value
  | .mv rd rs => .mv (f rd) (f rs)
  | .addi rd rs value => .addi (f rd) (f rs) value
  | .arith op rd rs₁ rs₂ => .arith op (f rd) (f rs₁) (f rs₂)
  | .lw rd offset base => .lw (f rd) offset (f base)
  | .sw rs offset base => .sw (f rs) offset (f base)

/-! ### The reader -/

namespace Text

/-- The text is one piece: neither blanks nor commas cut it, and no remark starts in it. -/
def Solid (cs : List Char) : Prop := ∀ c ∈ cs, isBlank c = false ∧ c ≠ ',' ∧ c ≠ '#'

instance (cs : List Char) : Decidable (Solid cs) := List.decidableBAll _ cs

def cutLine (line : List Char) : List Char × List (List Char) :=
  let code := trimStart (line.takeWhile (· ≠ '#'))
  (code.takeWhile (!isBlank ·), (fields (code.dropWhile (!isBlank ·))).map trim)

/-- The offset and the base of an operand `offset(base)`. -/
def place? (operand : List Char) : Option (Nat × List Char) :=
  match operand.dropWhile (· ≠ '(') with
  | '(' :: rest =>
      if rest.getLast? = some ')' then (natural? (operand.takeWhile (· ≠ '('))).map (·,
        rest.dropLast) else none
  | _ => none

end Text

def Reg.ofName (name : List Char) : Reg := .ret (String.ofList name)

theorem Reg.ofName_name (r : Reg) : Reg.ofName r.name.toList = r.named :=
  congrArg Reg.ret (String.ofList_toList)

def Asm.ofParts? : List Char → List (List Char) → Option Asm
  | ['l', 'i'], [rd, value] => (Text.word? value).map (.li (.ofName rd))
  | ['m', 'v'], [rd, rs] => some (.mv (.ofName rd) (.ofName rs))
  | ['a', 'd', 'd', 'i'], [rd, rs, value] =>
      (Text.word? value).map (.addi (.ofName rd) (.ofName rs))
  | ['a', 'd', 'd'], [rd, rs₁, rs₂] => some (.arith .add (.ofName rd) (.ofName rs₁) (.ofName rs₂))
  | ['s', 'u', 'b'], [rd, rs₁, rs₂] => some (.arith .sub (.ofName rd) (.ofName rs₁) (.ofName rs₂))
  | ['m', 'u', 'l'], [rd, rs₁, rs₂] => some (.arith .mul (.ofName rd) (.ofName rs₁) (.ofName rs₂))
  | ['l', 'w'], [rd, place] => (Text.place? place).map fun p => .lw (.ofName rd) p.1 (.ofName p.2)
  | ['s', 'w'], [rs, place] => (Text.place? place).map fun p => .sw (.ofName rs) p.1 (.ofName p.2)
  | _, _ => none

def Asm.read? (line : List Char) : Option Asm :=
  ofParts? (Text.cutLine line).1 (Text.cutLine line).2

/-! ### Cutting a line -/

namespace Text

variable {c : Char} {cs mnemonic tail : List Char} {tokens : List (List Char)}

theorem solid_of_isTokenChar (h : ∀ c ∈ cs, IsTokenChar c) : Solid cs := by
  intro c hc
  refine ⟨(h c hc).not_blank, (h c hc).ne_comma, ?_⟩
  rintro rfl
  exact absurd (h _ hc).toNat_range.1 (by decide)

theorem solid_word (w : Int32) : Solid (word w).toList :=
  solid_of_isTokenChar (word?_eq_some_iff.1 (word?_word w)).isTokenChar

theorem solid_natural (n : Nat) : Solid (natural n).toList :=
  solid_of_isTokenChar (Numeral.plain (decimal_natural n).1).isTokenChar

theorem Solid.append {ds : List Char} (hcs : Solid cs) (hds : Solid ds) : Solid (cs ++ ds) :=
  fun c hc => (List.mem_append.1 hc).elim (hcs c) (hds c)

/-- The operands as they stand on a line: each behind a space, and the last one in front of a
tail. -/
def spacedTo (tail : List Char) : List (List Char) → List (List Char)
  | [] => []
  | [token] => [' ' :: (token ++ tail)]
  | token :: next :: rest => (' ' :: token) :: spacedTo tail (next :: rest)

theorem mem_spacedTo {piece : List Char} (h : piece ∈ spacedTo tail tokens) (hc : c ∈ piece) :
    c = ' ' ∨ c ∈ tail ∨ ∃ token ∈ tokens, c ∈ token := by
  induction tokens using spacedTo.induct with
  | case1 => cases h
  | case2 token =>
      cases List.mem_singleton.1 h
      obtain rfl | hc := List.mem_cons.1 hc
      · exact Or.inl rfl
      · exact Or.inr ((List.mem_append.1 hc).symm.imp_right fun hc => ⟨token,
          List.mem_cons_self, hc⟩)
  | case3 token next rest ih =>
      obtain rfl | h := List.mem_cons.1 h
      · exact (List.mem_cons.1 hc).imp_right fun hc => Or.inr ⟨token, List.mem_cons_self, hc⟩
      · obtain hspace | htail | ⟨t, ht, hct⟩ := ih h
        · exact Or.inl hspace
        · exact Or.inr (Or.inl htail)
        · exact Or.inr (Or.inr ⟨t, List.mem_cons_of_mem token ht, hct⟩)

theorem not_mem_spacedTo (htail : AllBlank tail) (htokens : ∀ token ∈ tokens, c ∉ token)
    (hblank : isBlank c = false) : ∀ piece ∈ spacedTo tail tokens, c ∉ piece := by
  intro piece hpiece hc
  obtain rfl | hc | ⟨token, htoken, hc⟩ := mem_spacedTo hpiece hc
  · cases hblank
  · rw [htail c hc] at hblank
    cases hblank
  · exact htokens token htoken hc

theorem map_trim_spacedTo (htail : AllBlank tail) (h : ∀ token ∈ tokens, Solid token) :
    (spacedTo tail tokens).map trim = tokens := by
  have hspace : AllBlank [' '] := List.forall_mem_singleton.2 (by decide)
  induction tokens using spacedTo.induct with
  | case1 => rfl
  | case2 token =>
      have hpadded : Padded token (' ' :: (token ++ tail)) := ⟨[' '], tail, hspace, htail, rfl⟩
      rw [spacedTo, List.map_singleton,
        hpadded.trim_eq_of_not_blank fun c hc => (h token List.mem_cons_self c hc).1]
  | case3 token next rest ih =>
      have hpadded : Padded token (' ' :: token) :=
        ⟨[' '], [], hspace, nofun, (List.append_nil _).symm⟩
      rw [spacedTo, List.map_cons,
        hpadded.trim_eq_of_not_blank fun c hc => (h token List.mem_cons_self c hc).1,
        ih fun t ht => h t (List.mem_cons_of_mem token ht)]

theorem map_trim_fields_spacedTo (htail : AllBlank tail) (h : ∀ token ∈ tokens, Solid token)
    (hne : tokens ≠ []) :
    (fields ([','].intercalate (spacedTo tail tokens))).map trim = tokens := by
  have hcomma : ∀ piece ∈ spacedTo tail tokens, ',' ∉ piece :=
    not_mem_spacedTo htail (fun token htoken hc => (h token htoken _ hc).2.1 rfl) (by decide)
  have hpieces : spacedTo tail tokens ≠ [] := by
    intro heq
    have hmap := map_trim_spacedTo htail h
    rw [heq] at hmap
    exact hne hmap.symm
  rw [fields, List.splitOn_intercalate ',' hcomma hpieces, map_trim_spacedTo htail h]

theorem mark_not_mem_spacedTo (htail : AllBlank tail) (h : ∀ token ∈ tokens, Solid token) :
    '#' ∉ [','].intercalate (spacedTo tail tokens) := by
  intro hmem
  obtain heq | ⟨piece, hpiece, hc⟩ := mem_intercalate hmem
  · cases heq
  · exact not_mem_spacedTo htail (fun token htoken hc => (h token htoken _ hc).2.2 rfl)
      (by decide) piece hpiece hc

/-- The first word of a line is its mnemonic, and a remark is passed over. -/
theorem cutLine_append {front operands remark : List Char} (hfront : AllBlank front)
    (hmnemonic : Solid mnemonic) (hne : mnemonic ≠ []) (hspace : ∃ rest, operands = ' ' :: rest)
    (hmark : '#' ∉ operands) (hremark : ∀ c ∈ remark.head?, c = '#') :
    cutLine (front ++ (mnemonic ++ operands) ++ remark) =
        (mnemonic, (fields operands).map trim) := by
  have hcode : (front ++ (mnemonic ++ operands) ++ remark).takeWhile (· ≠ '#') =
      front ++ (mnemonic ++ operands) := by
    have hnil : remark.takeWhile (· ≠ '#') = [] := by
      cases remark with
      | nil => rfl
      | cons c remark => simp [hremark c rfl]
    rw [List.takeWhile_append_of_pos, hnil, List.append_nil]
    intro c hc
    rw [decide_eq_true_eq]
    rintro rfl
    rw [List.mem_append, List.mem_append] at hc
    obtain hc | hc | hc := hc
    · exact absurd (hfront _ hc) (by decide)
    · exact (hmnemonic _ hc).2.2 rfl
    · exact hmark hc
  have htrim : trimStart (mnemonic ++ operands) = mnemonic ++ operands := by
    refine trimStart_of_head fun c hc => ?_
    rw [List.head?_append_of_ne_nil _ hne] at hc
    exact (hmnemonic c (List.mem_of_mem_head? hc)).1
  have hword : ∀ c ∈ mnemonic, (!isBlank c) = true := fun c hc => by simp [(hmnemonic c hc).1]
  obtain ⟨rest, rfl⟩ := hspace
  have hstop : (' ' :: rest).takeWhile (!isBlank ·) = [] ∧ (' ' :: rest).dropWhile (!isBlank ·) =
      ' ' :: rest := ⟨rfl, rfl⟩
  rw [cutLine, hcode, trimStart_append hfront, htrim]
  simp only [List.takeWhile_append_of_pos hword, List.dropWhile_append_of_pos hword, hstop,
    List.append_nil]

theorem place?_eq (offset : Nat) (base : List Char) :
    place? ((natural offset).toList ++ '(' :: (base ++ [')'])) = some (offset, base) := by
  have hdigits : ∀ c ∈ (natural offset).toList, decide (c ≠ '(') = true := by
    intro c hc
    rw [decide_eq_true_eq]
    rintro rfl
    exact absurd ((decimal_natural offset).1.isDigit _ hc) (by decide)
  rw [place?, List.takeWhile_append_of_pos hdigits, List.dropWhile_append_of_pos hdigits]
  simp [(decimal_natural offset).1.natural?_eq]

end Text

/-! ### Lines of a listing -/

namespace Asm

open Text

variable {i : Asm}

def mnemonic : Asm → List Char
  | .li _ _ => "li".toList
  | .mv _ _ => "mv".toList
  | .addi _ _ _ => "addi".toList
  | .arith op _ _ _ => op.mnemonic.toList
  | .lw _ _ _ => "lw".toList
  | .sw _ _ _ => "sw".toList

def operands : Asm → List (List Char)
  | .li rd value => [rd.name.toList, (word value).toList]
  | .mv rd rs => [rd.name.toList, rs.name.toList]
  | .addi rd rs value => [rd.name.toList, rs.name.toList, (word value).toList]
  | .arith _ rd rs₁ rs₂ => [rd.name.toList, rs₁.name.toList, rs₂.name.toList]
  | .lw r offset base | .sw r offset base =>
      [r.name.toList, (natural offset).toList ++ '(' :: (base.name.toList ++ [')'])]

theorem solid_mnemonic (i : Asm) : Solid i.mnemonic ∧ i.mnemonic ≠ [] := by
  have hall : ∀ word ∈ ["li", "mv", "addi", "add", "sub", "mul", "lw", "sw"], Solid word.toList ∧
      word.toList ≠ [] := by
    decide
  cases i with
  | arith op => cases op <;> exact hall _ (by decide)
  | _ => exact hall _ (by decide)

theorem solid_operands (h : ∀ r ∈ i.registers, Solid r.name.toList) :
    ∀ operand ∈ i.operands, Solid operand := by
  have hplace : ∀ (offset : Nat) (base : Reg), Solid base.name.toList →
      Solid ((natural offset).toList ++ '(' :: (base.name.toList ++ [')'])) := by
    intro offset base hbase
    have hopen : Solid ['('] := by decide
    have hclose : Solid [')'] := by decide
    exact (solid_natural offset).append (hopen.append (hbase.append hclose))
  cases i with
  | li | mv | addi | arith => simpa [operands, registers, solid_word] using h
  | lw r offset base | sw r offset base =>
      obtain ⟨hr, hbase⟩ : Solid r.name.toList ∧ Solid base.name.toList := by
        simpa [registers] using h
      simpa [operands, hr] using hplace offset base hbase

theorem toList_text_append (i : Asm) (tail : List Char) :
    i.text.toList ++ tail = i.mnemonic ++ [','].intercalate (spacedTo tail i.operands) := by
  cases i <;> simp [text, mnemonic, operands, spacedTo, List.intercalate]

/-- A line is cut into the mnemonic and the operands that it was printed with. -/
theorem cutLine_text (h : ∀ r ∈ i.registers, Solid r.name.toList) (comment : Option String) :
    cutLine (Line.code i comment).text.toList = (i.mnemonic, i.operands) := by
  have hblank : ∀ n, AllBlank (List.replicate n ' ') := by
    intro n c hc
    rw [List.eq_of_mem_replicate hc]
    decide
  have hsolid := solid_operands h
  have hne : i.operands ≠ [] := by cases i <;> simp [operands]
  -- The blanks between the code and its remark go with the last operand and are trimmed there.
  have hcut : ∀ n remark, (∀ c ∈ remark.head?, c = '#') →
      cutLine (List.replicate 4 ' ' ++ (i.text.toList ++ List.replicate n ' ') ++ remark) =
      (i.mnemonic, i.operands) := by
    intro n remark hremark
    have hspace : ∃ rest, [','].intercalate (spacedTo (List.replicate n ' ') i.operands) =
        ' ' :: rest := by
      cases i <;> exact ⟨_, rfl⟩
    rw [toList_text_append, cutLine_append (hblank 4) (solid_mnemonic i).1
      (solid_mnemonic i).2 hspace
      (mark_not_mem_spacedTo (hblank n) hsolid) hremark,
      map_trim_fields_spacedTo (hblank n) hsolid hne]
  cases comment with
  | none => simpa [Line.text] using hcut 0 [] (by simp)
  | some text => simpa [Line.text] using hcut 8 ('#' :: ' ' :: ' ' :: text.toList) (by simp)

theorem ofParts?_eq (i : Asm) : ofParts? i.mnemonic i.operands = some (i.rename Reg.named) := by
  cases i with
  | li rd value =>
      show (word? (word value).toList).map (Asm.li (.ofName rd.name.toList)) = _
      rw [word?_word, Reg.ofName_name]
      rfl
  | mv rd rs =>
      show some (Asm.mv (.ofName rd.name.toList) (.ofName rs.name.toList)) = _
      rw [Reg.ofName_name, Reg.ofName_name]
      rfl
  | addi rd rs value =>
      show (word? (word value).toList).map
        (Asm.addi (.ofName rd.name.toList) (.ofName rs.name.toList)) = _
      rw [word?_word, Reg.ofName_name, Reg.ofName_name]
      rfl
  | arith op rd rs₁ rs₂ =>
      have hparts : ofParts? op.mnemonic.toList [rd.name.toList, rs₁.name.toList, rs₂.name.toList] =
          some (.arith op (.ofName rd.name.toList) (.ofName rs₁.name.toList)
          (.ofName rs₂.name.toList)) := by
        cases op <;> rfl
      rw [Reg.ofName_name, Reg.ofName_name, Reg.ofName_name] at hparts
      exact hparts
  | lw rd offset base =>
      show (place? ((natural offset).toList ++ '(' :: (base.name.toList ++ [')']))).map
        (fun p => Asm.lw (.ofName rd.name.toList) p.1 (.ofName p.2)) = _
      rw [place?_eq, Option.map_some, Reg.ofName_name, Reg.ofName_name]
      rfl
  | sw rs offset base =>
      show (place? ((natural offset).toList ++ '(' :: (base.name.toList ++ [')']))).map
        (fun p => Asm.sw (.ofName rs.name.toList) p.1 (.ofName p.2)) = _
      rw [place?_eq, Option.map_some, Reg.ofName_name, Reg.ofName_name]
      rfl

/-- **A line is read as its instruction by the names of its registers**, if nothing cuts these
names. -/
theorem read?_text (h : ∀ r ∈ i.registers, Solid r.name.toList) (comment : Option String) :
    read? (Line.code i comment).text.toList = some (i.rename Reg.named) := by
  rw [read?, cutLine_text h]
  exact ofParts?_eq i

-- A name that holds a comma and a `#` is not read as it was printed.
example :
    read? (Line.code (.mv (.ret "x, sp #") (.pool ⟨0⟩)) none).text.toList =
    some (.mv (.ret "x") (.ret "sp")) := by decide

end Asm

end StraightLine
