import StraightLine.Json.Reader
import StraightLine.Json.Record
import StraightLine.Proofs.Text.Tokens

/-!
# Literals read back

Strings and integers, the parts of a written value that hold data. `EscapedAs` lists the ways in
which a character can stand inside a string literal, of which the writer uses three, and every fact
about whole literals follows from it character by character: the reader stops at the closing quote
and nowhere before, and what it took spells the text that was written. An integer is taken up to its
last digit if what follows cannot continue a number.
-/

namespace StraightLine.Json

/-! ### Strings -/

/-- The ways to write a character inside a string literal: a letter behind a backslash, the number
of its code unit or of its two halves, or the character itself. -/
inductive EscapedAs : Char → List Char → Prop
  | short {c letter : Char} (hletter : letter ≠ 'u') (hshort : shortEscape? letter = some c) :
      EscapedAs c ['\\', letter]
  | unit {a b c d : Char} {u : Nat} (hunit : unit? a b c d = some u)
      (hleading : isLeading u = false)
      (htrailing : isTrailing u = false) : EscapedAs (Char.ofNat u) ['\\', 'u', a, b, c, d]
  | pair {a b c d a' b' c' d' : Char} {u v : Nat} (hunit : unit? a b c d = some u)
      (hunit' : unit? a' b' c' d' = some v)
      (hleading : isLeading u = true) (htrailing : isTrailing v = true) :
      EscapedAs (Char.ofNat (0x10000 + (u - 0xD800) * 0x400 + (v - 0xDC00)))
        ['\\', 'u', a, b, c, d, '\\', 'u', a', b', c', d']
  | plain {c : Char} (hhigh : 0x20 ≤ c.toNat) (hquote : c ≠ '"') (hbackslash : c ≠ '\\') :
      EscapedAs c [c]

theorem hexValue?_digitChar : ∀ d < 16, hexValue? (Nat.digitChar d) = some d := by decide

theorem unit?_control {n : Nat} (hn : n < 0x20) :
    unit? '0' '0' (Nat.digitChar (n / 16)) (Nat.digitChar (n % 16)) = some n := by
  have hzero : hexValue? '0' = some 0 := rfl
  have hhigh := hexValue?_digitChar (n / 16) (by omega)
  have hlow := hexValue?_digitChar (n % 16) (by omega)
  have hvalue : n / 16 * 16 + n % 16 = n := by omega
  simp [unit?, hzero, hhigh, hlow, hvalue]

theorem escapedAs (c : Char) : EscapedAs c (escapeChar c) := by
  have hshort : ∀ entry ∈ shortEscapes, entry.1 ≠ 'u' ∧ shortEscape? entry.1 = some entry.2 := by
    decide
  rw [escapeChar]
  split
  · next letter d hfound =>
      obtain ⟨hletter, hmeans⟩ := hshort _ (List.mem_of_find?_eq_some hfound)
      have hd : d = c := by simpa using List.find?_some hfound
      exact .short hletter (hd ▸ hmeans)
  · next hnone =>
      have hother : ∀ entry ∈ shortEscapes, entry.2 ≠ c := by simpa using List.find?_eq_none.1 hnone
      split
      · next hlow =>
          have hunit := EscapedAs.unit (unit?_control hlow) (by simp [isLeading]; omega)
            (by simp [isTrailing]; omega)
          rwa [Char.ofNat_toNat] at hunit
      · next hhigh =>
          refine .plain (Nat.le_of_not_lt hhigh) ?_ ?_
          · exact (hother ('"', '"') (by decide)).symm
          · exact (hother ('\\', '\\') (by decide)).symm

theorem EscapedAs.takeBody? {c : Char} {written tail body rest : List Char}
    (h : EscapedAs c written) (htail : takeBody? tail = some (body, rest)) :
    takeBody? (written ++ tail) = some (written ++ body, rest) := by
  cases h with
  | short hletter hshort => simp [Json.takeBody?, hletter, hshort, htail]
  | unit hunit => simp [Json.takeBody?, hunit, htail]
  | pair hunit hunit' => simp [Json.takeBody?, hunit, hunit', htail]
  | plain hhigh hquote hbackslash => simp [Json.takeBody?, hbackslash, Nat.not_lt.2 hhigh, htail]

/-- A code unit that is no half of a pair stands for itself, whatever follows. -/
theorem join?_unit {u : Nat} (hleading : isLeading u = false) (htrailing : isTrailing u = false)
    (ps : List Piece) : join? (.unit u :: ps) = (join? ps).map (Char.ofNat u :: ·) := by
  obtain _ | ⟨c | v, ps⟩ := ps <;> simp [join?, hleading, htrailing]

theorem EscapedAs.exists_pieces {c : Char} {written tail : List Char} {ps : List Piece}
    (h : EscapedAs c written) (htail : pieces? tail = some ps) :
    ∃ front, pieces? (written ++ tail) = some (front ++ ps) ∧
        join? (front ++ ps) = (join? ps).map (c :: ·) := by
  cases h with
  | short hletter hshort => exact ⟨[.char c], by simp [pieces?, hletter, hshort, htail], rfl⟩
  | @unit _ _ _ _ u hunit hleading htrailing =>
      exact ⟨[.unit u], by simp [pieces?, hunit, htail], join?_unit hleading htrailing ps⟩
  | @pair _ _ _ _ _ _ _ _ u v hunit hunit' hleading htrailing =>
      exact ⟨[.unit u, .unit v], by simp [pieces?, hunit, hunit', htail],
        by simp [join?, hleading, htrailing]⟩
  | plain _ _ hbackslash => exact ⟨[.char c], by simp [pieces?, hbackslash, htail], rfl⟩

/-- The bodies of literals that spell a text. -/
inductive Literal : List Char → List Char → Prop
  | nil : Literal [] []
  | cons {c : Char} {written body cs : List Char} (hc : EscapedAs c written)
      (hrest : Literal body cs) :
      Literal (written ++ body) (c :: cs)

theorem literal_escape (cs : List Char) : Literal (escape cs) cs := by
  induction cs with
  | nil => exact .nil
  | cons c cs ih => exact .cons (escapedAs c) ih

/-- The reader takes a literal up to its closing quote. -/
theorem Literal.takeBody? {body cs : List Char} (h : Literal body cs) (rest : List Char) :
    takeBody? (body ++ '"' :: rest) = some (body, rest) := by
  induction h with
  | nil => rfl
  | cons hc _ ih =>
      rw [List.append_assoc]
      exact hc.takeBody? ih

theorem Literal.unescape? {body cs : List Char} (h : Literal body cs) :
    unescape? body = some cs := by
  have hpieces : ∃ ps, pieces? body = some ps ∧ join? ps = some cs := by
    induction h with
    | nil => exact ⟨[], rfl, rfl⟩
    | cons hc _ ih =>
        obtain ⟨ps, hps, hjoin⟩ := ih
        obtain ⟨front, hfront, hstep⟩ := hc.exists_pieces hps
        exact ⟨front ++ ps, hfront, by rw [hstep, hjoin]; rfl⟩
  obtain ⟨ps, hps, hjoin⟩ := hpieces
  rw [Json.unescape?, hps]
  exact hjoin

@[simp] theorem unescape?_escape (cs : List Char) : unescape? (escape cs) = some cs :=
  (literal_escape cs).unescape?

@[simp] theorem text?_ofText (text : String) : (ofText text).text? = some text := by
  simp [ofText, text?]

/-! ### Integers -/

/-- What follows a number must not continue it. -/
def EndsNumber (rest : List Char) : Prop :=
  ∀ c ∈ rest.head?, c.isDigit = false ∧ c ≠ '.' ∧ c ≠ 'e' ∧ c ≠ 'E'

theorem isDigit_of_mem_toDigits {n : Nat} : ∀ c ∈ Nat.toDigits 10 n, c.isDigit = true :=
  fun _ hc => Nat.isDigit_of_mem_toDigits (by decide) (by decide) hc

theorem exists_toDigits_eq_cons (n : Nat) :
    ∃ c cs, Nat.toDigits 10 n = c :: cs ∧ c.isDigit = true := by
  obtain ⟨c, cs, hcs⟩ := List.exists_cons_of_ne_nil (Nat.toDigits_ne_nil (b := 10) (n := n))
  exact ⟨c, cs, hcs, isDigit_of_mem_toDigits c (by rw [hcs]; exact List.mem_cons_self)⟩

theorem ne_of_isDigit {c d : Char} (hc : c.isDigit = true) (hd : d.isDigit = false) : c ≠ d := by
  rintro rfl
  rw [hc] at hd
  cases hd

theorem takeDigits?_append {digits rest : List Char} (hne : digits ≠ [])
    (hdigits : ∀ c ∈ digits, c.isDigit = true) (hrest : EndsNumber rest) :
    takeDigits? (digits ++ rest) = some (digits, rest) := by
  have hstop : rest.takeWhile Char.isDigit = [] ∧ rest.dropWhile Char.isDigit = rest := by
    cases rest with
    | nil => exact ⟨rfl, rfl⟩
    | cons c rest => simp [(hrest c rfl).1]
  rw [takeDigits?, List.takeWhile_append_of_pos hdigits, List.dropWhile_append_of_pos hdigits,
    hstop.1, hstop.2, List.append_nil]
  simp [hne]

theorem takeUnsigned?_toDigits (n : Nat) {rest : List Char} (hrest : EndsNumber rest) :
    takeUnsigned? (Nat.toDigits 10 n ++ rest) = some (Nat.toDigits 10 n, rest) := by
  have hwhole : takeWhole? (Nat.toDigits 10 n ++ rest) = some (Nat.toDigits 10 n, rest) := by
    rw [takeWhole?, takeDigits?_append Nat.toDigits_ne_nil isDigit_of_mem_toDigits hrest]
    have hzero : ¬ ((Nat.toDigits 10 n).head? = some '0' ∧ Nat.toDigits 10 n ≠ ['0']) := by
      rintro ⟨hhead, hne⟩
      rw [Text.eq_zero_of_head_toDigits n hhead] at hne
      exact hne (Nat.toDigits_zero 10)
    simp [hzero]
  have hfraction : takeFraction? rest = some ([], rest) := by
    cases rest with
    | nil => rfl
    | cons c rest => simp [takeFraction?, (hrest c rfl).2.1]
  have hexponent : takeExponent? rest = some ([], rest) := by
    cases rest with
    | nil => rfl
    | cons c rest => simp [takeExponent?, (hrest c rfl).2.2]
  simp [takeUnsigned?, hwhole, hfraction, hexponent]

theorem takeNumber?_integer (i : Int) {rest : List Char} (hrest : EndsNumber rest) :
    takeNumber? ((Text.integer i).toList ++ rest) = some ((Text.integer i).toList, rest) := by
  cases i with
  | ofNat n =>
      have hunsigned := takeUnsigned?_toDigits n hrest
      obtain ⟨c, cs, hcs, hc⟩ := exists_toDigits_eq_cons n
      have hminus : c ≠ '-' := ne_of_isDigit hc rfl
      simp only [Text.integer, Text.natural, String.toList_ofList]
      rw [hcs, List.cons_append] at hunsigned ⊢
      rw [takeNumber?, hunsigned]
      exact fun _ heq => hminus (List.cons.inj heq).1
  | negSucc n =>
      have hunsigned := takeUnsigned?_toDigits (n + 1) hrest
      simp [Text.integer, Text.natural, takeNumber?, hunsigned]

@[simp] theorem int?_ofInt (i : Int) : (ofInt i).int? = some i := by
  cases i with
  | ofNat n =>
      obtain ⟨c, cs, hcs, hc⟩ := exists_toDigits_eq_cons n
      have hminus : c ≠ '-' := ne_of_isDigit hc rfl
      have hvalue : Text.natural? (c :: cs) = some n := by rw [← hcs, Text.natural?_toDigits]
      simp only [ofInt, Text.integer, Text.natural, String.toList_ofList]
      rw [hcs, int?, hvalue]
      · rfl
      · exact fun _ heq => hminus (List.cons.inj heq).1
  | negSucc n =>
      have hpositive : Nat.toDigits 10 (n + 1) ≠ ['0'] := by
        intro heq
        have hzero := Text.eq_zero_of_head_toDigits (n + 1) (by rw [heq]; rfl)
        omega
      simp [ofInt, Text.integer, Text.natural, int?, hpositive, Int.negSucc_eq]

@[simp] theorem word?_ofInt (w : Int32) : (ofInt w.toInt).word? = some w := by
  rw [word?, int?_ofInt]
  exact Text.wordOfInt?_eq_some_iff.2 rfl

end StraightLine.Json
