import Mathlib.Data.List.Forall2
import Mathlib.Data.List.Induction
import Mathlib.Data.List.TakeWhile
import StraightLine.Text.Blank
import StraightLine.Text.Decimal
import StraightLine.Text.Lines

/-!
# What trimming, cutting and reading of numerals mean

Trimming, cutting at a character and reading a numeral are functions on texts. Here each of them
gets a description that does not mention how it works: a text is a token with blanks around it, a
text is its pieces joined by the character that none of them holds, a numeral is written digit by
digit with a sign in front or none. The functions are shown to compute exactly what these
descriptions say.
-/

namespace StraightLine.Text

variable {cs token : List Char} {x c : Char} {n : Nat} {i : Int} {w : Int32}

/-! ### Blanks -/

def AllBlank (cs : List Char) : Prop := ∀ c ∈ cs, isBlank c = true

def Padded (token cs : List Char) : Prop :=
  ∃ front back, AllBlank front ∧ AllBlank back ∧ cs = front ++ token ++ back

theorem exists_eq_append_trimStart (cs : List Char) :
    ∃ front, AllBlank front ∧ cs = front ++ trimStart cs := by
  refine ⟨cs.takeWhile isBlank, fun c hc => List.mem_takeWhile_imp hc, ?_⟩
  rw [trimStart, List.takeWhile_append_dropWhile]

theorem exists_eq_trimEnd_append (cs : List Char) :
    ∃ back, AllBlank back ∧ cs = trimEnd cs ++ back := by
  obtain ⟨front, hfront, heq⟩ := exists_eq_append_trimStart cs.reverse
  refine ⟨front.reverse, fun c hc => hfront c (List.mem_reverse.1 hc), ?_⟩
  rw [trimEnd, ← List.reverse_append, ← heq, List.reverse_reverse]

theorem padded_trim (cs : List Char) : Padded (trim cs) cs := by
  obtain ⟨front, hfront, hstart⟩ := exists_eq_append_trimStart cs
  obtain ⟨back, hback, hend⟩ := exists_eq_trimEnd_append (trimStart cs)
  refine ⟨front, back, hfront, hback, ?_⟩
  rw [trim, List.append_assoc, ← hend, ← hstart]

theorem padded_map_trim (fields : List (List Char)) :
    List.Forall₂ Padded (fields.map trim) fields :=
  List.forall₂_map_left_iff.2 (List.forall₂_same.2 fun field _ => padded_trim field)

theorem trimStart_of_head (h : ∀ c ∈ cs.head?, isBlank c = false) : trimStart cs = cs := by
  cases cs with
  | nil => rfl
  | cons c cs => rw [trimStart, List.dropWhile_cons_of_neg (by simp [h c rfl])]

theorem trimEnd_of_getLast (h : ∀ c ∈ cs.getLast?, isBlank c = false) : trimEnd cs = cs := by
  rw [trimEnd, trimStart_of_head, List.reverse_reverse]
  rwa [List.head?_reverse]

theorem Padded.trim_eq (h : Padded token cs) (hhead : ∀ c ∈ token.head?, isBlank c = false)
    (hlast : ∀ c ∈ token.getLast?, isBlank c = false) : trim cs = token := by
  obtain ⟨front, back, hfront, hback, rfl⟩ := h
  rw [trim, List.append_assoc, trimStart_append hfront]
  cases token with
  | nil =>
      have hnil : trimStart ([] ++ back) = [] := trimStart_eq_nil_iff.2 hback
      rw [hnil]
      rfl
  | cons c token =>
      have hstart : trimStart (c :: token ++ back) = c :: token ++ back :=
        trimStart_of_head fun d hd => hhead d hd
      rw [hstart, trimEnd_append hback, trimEnd_of_getLast hlast]

theorem Padded.trim_eq_of_not_blank (h : Padded token cs) (hnot : ∀ c ∈ token, isBlank c = false) :
    trim cs = token :=
  h.trim_eq (fun c hc => hnot c (List.mem_of_mem_head? hc))
    fun c hc => hnot c (List.mem_of_getLast? hc)

/-! ### Pieces between a character -/

theorem not_mem_of_mem_splitOn {piece : List Char} (h : piece ∈ cs.splitOn x) : x ∉ piece := by
  induction cs generalizing piece with
  | nil =>
      rw [List.splitOn_nil, List.mem_singleton] at h
      simp [h]
  | cons c cs ih =>
      rw [List.splitOn_cons_eq_if_modifyHead] at h
      split at h
      · obtain rfl | h := List.mem_cons.1 h
        · exact List.not_mem_nil
        · exact ih h
      · next hc =>
          cases hsplit : cs.splitOn x with
          | nil => exact absurd hsplit (List.splitOn_ne_nil x cs)
          | cons first rest =>
              rw [hsplit, List.modifyHead_cons] at h
              obtain rfl | h := List.mem_cons.1 h
              · rw [List.mem_cons, not_or]
                refine ⟨fun heq => hc (by simp [heq]), ih ?_⟩
                rw [hsplit]
                exact List.mem_cons_self
              · refine ih ?_
                rw [hsplit]
                exact List.mem_cons_of_mem first h

/-- The pieces of a text are the only ones that hold no separator and join to the text. -/
theorem splitOn_eq_iff {pieces : List (List Char)} : cs.splitOn x = pieces ↔
    pieces ≠ [] ∧ (∀ piece ∈ pieces, x ∉ piece) ∧ cs = [x].intercalate pieces := by
  constructor
  · rintro rfl
    exact ⟨List.splitOn_ne_nil x cs, fun piece => not_mem_of_mem_splitOn,
      (List.intercalate_splitOn x).symm⟩
  · rintro ⟨hne, hnot, rfl⟩
    exact List.splitOn_intercalate x hnot hne

theorem mem_intercalate {pieces : List (List Char)} (h : c ∈ [x].intercalate pieces) :
    c = x ∨ ∃ piece ∈ pieces, c ∈ piece := by
  induction pieces with
  | nil => cases h
  | cons piece rest ih =>
      cases rest with
      | nil =>
          rw [List.intercalate_singleton] at h
          exact Or.inr ⟨piece, List.mem_cons_self, h⟩
      | cons next rest =>
          rw [List.intercalate_cons_cons, List.mem_append, List.mem_append, List.mem_singleton] at h
          obtain (h | h) | h := h
          · exact Or.inr ⟨piece, List.mem_cons_self, h⟩
          · exact Or.inl h
          · exact (ih h).imp_right fun ⟨other, hother, hc⟩ => ⟨other,
              List.mem_cons_of_mem piece hother, hc⟩

/-- A line as it stands before a line feed, and the line without the carriage return that may end
it. -/
inductive EndsLine : List Char → List Char → Prop
  | returned (line : List Char) : EndsLine (line ++ ['\r']) line
  | bare {line : List Char} (h : line.getLast? ≠ some '\r') : EndsLine line line

/-- The lines of a text: it is cut at every line feed, and each line loses one carriage return at
its end. -/
def CutInto (cs : List Char) (ls : List (List Char)) : Prop :=
  ∃ pieces, pieces ≠ [] ∧ (∀ piece ∈ pieces, '\n' ∉ piece) ∧ cs = ['\n'].intercalate pieces ∧
    List.Forall₂ EndsLine pieces ls

theorem endsLine_iff {piece line : List Char} : EndsLine piece line ↔ dropReturn piece = line := by
  constructor
  · intro h
    cases h with
    | returned => simp [dropReturn]
    | bare h => rw [dropReturn, if_neg h]
  · rintro rfl
    rw [dropReturn]
    split
    · next h =>
        obtain ⟨line, rfl⟩ := List.getLast?_eq_some_iff.1 h
        rw [List.dropLast_concat]
        exact .returned line
    · next h => exact .bare h

theorem cutInto_iff {ls : List (List Char)} : CutInto cs ls ↔ lines cs = ls := by
  have hends : ∀ pieces, List.Forall₂ EndsLine pieces ls ↔ pieces.map dropReturn = ls := by
    intro pieces
    rw [← List.forall₂_eq_eq_eq, List.forall₂_map_left_iff]
    exact ⟨List.Forall₂.imp fun _ _ => endsLine_iff.1, List.Forall₂.imp fun _ _ => endsLine_iff.2⟩
  constructor
  · rintro ⟨pieces, hne, hnot, hjoin, hpieces⟩
    rw [lines, splitOn_eq_iff.2 ⟨hne, hnot, hjoin⟩, (hends pieces).1 hpieces]
  · intro h
    obtain ⟨hne, hnot, hjoin⟩ := splitOn_eq_iff.1 (Eq.refl (cs.splitOn '\n'))
    exact ⟨cs.splitOn '\n', hne, hnot, hjoin, (hends _).2 h⟩

/-! ### Numerals -/

inductive Digits : List Char → Nat → Prop
  | one {d : Nat} (hd : d < 10) : Digits [d.digitChar] d
  | snoc {ds : List Char} {n d : Nat} (h : Digits ds n) (hd : d < 10) :
      Digits (ds ++ [d.digitChar]) (10 * n + d)

/-- A run of digits with a sign in front or none, and its value. -/
inductive Numeral : List Char → Int → Prop
  | plain {ds : List Char} {n : Nat} (h : Digits ds n) : Numeral ds n
  | plus {ds : List Char} {n : Nat} (h : Digits ds n) : Numeral ('+' :: ds) n
  | minus {ds : List Char} {n : Nat} (h : Digits ds n) : Numeral ('-' :: ds) (-n)

theorem exists_eq_digitChar (h : c.isDigit = true) : ∃ d < 10, c = d.digitChar := by
  have hspell : ∀ d < 10, Char.ofNat (d + 48) = d.digitChar := by decide
  have hrange : 48 ≤ c.toNat ∧ c.toNat ≤ 57 := Char.isDigit_iff_toNat.1 h
  refine ⟨c.toNat - 48, by omega, ?_⟩
  rw [← hspell _ (by omega), Nat.sub_add_cancel hrange.1, Char.ofNat_toNat]

theorem natural?_eq_some_iff : natural? cs = some n ↔
    cs ≠ [] ∧ (∀ c ∈ cs, c.isDigit = true) ∧ Nat.ofDigitChars 10 cs 0 = n := by
  rw [natural?]
  split
  · next h =>
      rw [Bool.and_eq_true, Bool.not_eq_true', List.isEmpty_eq_false_iff, List.all_eq_true] at h
      rw [Option.some.injEq]
      exact ⟨fun heq => ⟨h.1, h.2, heq⟩, fun h' => h'.2.2⟩
  · next h =>
      rw [Bool.and_eq_true, Bool.not_eq_true', List.isEmpty_eq_false_iff, List.all_eq_true] at h
      simp only [reduceCtorEq, false_iff]
      exact fun h' => h ⟨h'.1, h'.2.1⟩

theorem ofDigitChars_concat {d : Nat} (hd : d < 10) (cs : List Char) :
    Nat.ofDigitChars 10 (cs ++ [d.digitChar]) 0 = 10 * Nat.ofDigitChars 10 cs 0 + d := by
  rw [Nat.ofDigitChars_append, Nat.ofDigitChars_cons_digitChar_of_lt_ten hd, Nat.ofDigitChars_nil]

theorem Digits.isDigit (h : Digits cs n) : ∀ c ∈ cs, c.isDigit = true := by
  intro c hc
  induction h with
  | one hd => rw [List.mem_singleton.1 hc, Nat.isDigit_digitChar, decide_eq_true hd]
  | snoc h hd ih =>
      obtain hc | hc := List.mem_append.1 hc
      · exact ih hc
      · rw [List.mem_singleton.1 hc, Nat.isDigit_digitChar, decide_eq_true hd]

theorem Digits.natural?_eq (h : Digits cs n) : natural? cs = some n := by
  refine natural?_eq_some_iff.2 ⟨?_, h.isDigit, ?_⟩
  · cases h <;> simp
  · induction h with
    | one hd => simpa using ofDigitChars_concat hd []
    | snoc h hd ih => rw [ofDigitChars_concat hd, ih]

theorem digits_of_natural? (h : natural? cs = some n) : Digits cs n := by
  obtain ⟨hne, hdigit, rfl⟩ := natural?_eq_some_iff.1 h
  clear h
  -- the value grows at the end of the run, so the induction peels the last digit
  induction cs using List.reverseRecOn with
  | nil => exact absurd rfl hne
  | append_singleton ds c ih =>
      obtain ⟨d, hd, rfl⟩ := exists_eq_digitChar (hdigit c (by simp))
      rw [ofDigitChars_concat hd]
      cases ds with
      | nil => simpa using Digits.one hd
      | cons e ds =>
          have hds := ih (List.cons_ne_nil e ds) fun c hc => hdigit c (List.mem_append_left _ hc)
          exact .snoc hds hd

/-- A number in decimal without leading zeros: only zero itself starts with one. -/
def Decimal (cs : List Char) (n : Nat) : Prop := Digits cs n ∧ (cs.head? = some '0' → cs = ['0'])

theorem eq_zero_of_head_toDigits (n : Nat) (h : (Nat.toDigits 10 n).head? = some '0') : n = 0 := by
  induction n using Nat.strongRecOn with
  | ind n ih =>
      rw [Nat.toDigits_eq_if (by decide)] at h
      split at h
      · simpa using h
      · next hlt =>
          have hne : Nat.toDigits 10 (n / 10) ≠ [] := Nat.toDigits_ne_nil
          rw [List.head?_append_of_ne_nil _ hne] at h
          have hquot : n / 10 = 0 := ih (n / 10) (by omega) h
          omega

theorem decimal_natural (n : Nat) : Decimal (natural n).toList n := by
  rw [natural, String.toList_ofList]
  refine ⟨digits_of_natural? (natural?_toDigits n), fun hzero => ?_⟩
  rw [eq_zero_of_head_toDigits n hzero, Nat.toDigits_zero]

theorem integer?_of_not_sign (hminus : ∀ ds, cs ≠ '-' :: ds) (hplus : ∀ ds, cs ≠ '+' :: ds) :
    integer? cs = (natural? cs).map Int.ofNat := by
  rw [integer?]
  · exact hminus
  · exact hplus

theorem Digits.not_sign (h : Digits cs n) {sign : Char} (hsign : sign.isDigit = false)
    (ds : List Char) : cs ≠ sign :: ds := by
  rintro rfl
  have hdigit := h.isDigit sign List.mem_cons_self
  rw [hsign] at hdigit
  cases hdigit

theorem integer?_eq_some_iff : integer? cs = some i ↔ Numeral cs i := by
  constructor
  · intro h
    by_cases hminus : ∃ ds, cs = '-' :: ds
    · obtain ⟨ds, rfl⟩ := hminus
      obtain ⟨n, hn, rfl⟩ := Option.map_eq_some_iff.1 h
      exact .minus (digits_of_natural? hn)
    · by_cases hplus : ∃ ds, cs = '+' :: ds
      · obtain ⟨ds, rfl⟩ := hplus
        obtain ⟨n, hn, rfl⟩ := Option.map_eq_some_iff.1 h
        exact .plus (digits_of_natural? hn)
      · rw [integer?_of_not_sign (not_exists.1 hminus) (not_exists.1 hplus)] at h
        obtain ⟨n, hn, rfl⟩ := Option.map_eq_some_iff.1 h
        exact .plain (digits_of_natural? hn)
  · intro h
    cases h with
    | plain h =>
        rw [integer?_of_not_sign (h.not_sign (by decide)) (h.not_sign (by decide)), h.natural?_eq]
        rfl
    | plus h => exact Option.map_eq_some_iff.2 ⟨_, h.natural?_eq, rfl⟩
    | minus h => exact Option.map_eq_some_iff.2 ⟨_, h.natural?_eq, rfl⟩

theorem word?_eq_some_iff : word? cs = some w ↔ Numeral cs w.toInt := by
  rw [word?, Option.bind_eq_some_iff, ← integer?_eq_some_iff]
  constructor
  · rintro ⟨i, hi, hw⟩
    rw [hi, wordOfInt?_eq_some_iff.1 hw]
  · exact fun h => ⟨w.toInt, h, wordOfInt?_eq_some_iff.2 rfl⟩

theorem Numeral.mem (h : Numeral cs i) (hc : c ∈ cs) : c.isDigit = true ∨ c = '+' ∨ c = '-' := by
  cases h with
  | plain h => exact Or.inl (h.isDigit c hc)
  | plus h =>
      obtain rfl | hc := List.mem_cons.1 hc
      · exact Or.inr (Or.inl rfl)
      · exact Or.inl (h.isDigit c hc)
  | minus h =>
      obtain rfl | hc := List.mem_cons.1 hc
      · exact Or.inr (Or.inr rfl)
      · exact Or.inl (h.isDigit c hc)

end StraightLine.Text
