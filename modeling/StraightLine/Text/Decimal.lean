/-!
# Decimal numerals

Numbers are written without leading zeros and with a minus sign when negative. A numeral is read more
liberally: one sign of either kind is allowed in front and zeros may lead. A machine word is read from
a numeral only when the value lies in the range of the word, so what is written for a word always reads
back, and no other value reads as that word.
-/

namespace StraightLine.Text

/-- A natural number in decimal, without leading zeros. -/
def natural (n : Nat) : String := String.ofList (Nat.toDigits 10 n)

/-- A natural number in decimal, filled with leading zeros up to a width. -/
def padded (width n : Nat) : String :=
  let digits := Nat.toDigits 10 n
  String.ofList (List.replicate (width - digits.length) '0' ++ digits)

/-- An integer in decimal, with a minus sign in front of a negative one. -/
def integer : Int → String
  | .ofNat n => natural n
  | .negSucc n => "-" ++ natural (n + 1)

/-- A word in decimal, as the signed number it stands for. -/
def word (w : Int32) : String := integer w.toInt

/-- The value of a nonempty run of decimal digits. -/
def natural? (cs : List Char) : Option Nat :=
  if !cs.isEmpty && cs.all Char.isDigit then some (Nat.ofDigitChars 10 cs 0) else none

/-- The value of a run of digits with at most one sign in front. -/
def integer? : List Char → Option Int
  | '-' :: digits => (natural? digits).map fun n => -Int.ofNat n
  | '+' :: digits => (natural? digits).map Int.ofNat
  | digits => (natural? digits).map Int.ofNat

/-- The word with a given signed value, if the value is in range. -/
def wordOfInt? (i : Int) : Option Int32 :=
  if Int32.minValue.toInt ≤ i ∧ i ≤ Int32.maxValue.toInt then some (Int32.ofInt i) else none

/-- The word spelled by a signed numeral in range. -/
def word? (cs : List Char) : Option Int32 := (integer? cs).bind wordOfInt?

theorem natural_injective {m n : Nat} (h : natural m = natural n) : m = n := by
  have hdigits : Nat.toDigits 10 m = Nat.toDigits 10 n := by
    simpa [natural] using congrArg String.toList h
  have hvalue := congrArg (fun digits => Nat.ofDigitChars 10 digits 0) hdigits
  simpa using hvalue

@[simp] theorem natural?_toDigits (n : Nat) : natural? (Nat.toDigits 10 n) = some n := by
  have hne : Nat.toDigits 10 n ≠ [] := List.length_pos_iff.1 Nat.length_toDigits_pos
  have hall : (Nat.toDigits 10 n).all Char.isDigit = true :=
    List.all_eq_true.2 fun c hc => Nat.isDigit_of_mem_toDigits (by decide) (by decide) hc
  simp [natural?, hne, hall]

/-- The digits of a number start with a digit, never with a sign. -/
theorem integer?_toDigits (n : Nat) : integer? (Nat.toDigits 10 n) = some (Int.ofNat n) := by
  cases hdigits : Nat.toDigits 10 n with
  | nil =>
      have := Nat.length_toDigits_pos (b := 10) (n := n)
      simp [hdigits] at this
  | cons c rest =>
      have hc : c.isDigit = true :=
        Nat.isDigit_of_mem_toDigits (b := 10) (n := n) (by decide) (by decide) (by simp [hdigits])
      have hminus : c ≠ '-' := by rintro rfl; exact absurd hc (by decide)
      have hplus : c ≠ '+' := by rintro rfl; exact absurd hc (by decide)
      have hread : natural? (c :: rest) = some n := by rw [← hdigits]; exact natural?_toDigits n
      rw [integer?]
      · simp [hread]
      · exact fun ds h => hminus (List.cons.inj h).1
      · exact fun ds h => hplus (List.cons.inj h).1

@[simp] theorem integer?_integer (i : Int) : integer? (integer i).toList = some i := by
  cases i with
  | ofNat n => simpa [integer, natural] using integer?_toDigits n
  | negSucc n => simp [integer, natural, integer?, Int.negSucc_eq]

theorem wordOfInt?_eq_some_iff {i : Int} {w : Int32} : wordOfInt? i = some w ↔ w.toInt = i := by
  have hmin : Int32.minValue.toInt = -2147483648 := rfl
  have hmax : Int32.maxValue.toInt = 2147483647 := rfl
  rw [wordOfInt?]
  constructor
  · intro h
    split at h
    · next hrange =>
        cases h
        rw [Int32.toInt_ofInt]
        exact Int.bmod_eq_of_le (by simp only [Int32.size]; omega) (by simp only [Int32.size]; omega)
    · cases h
  · rintro rfl
    rw [if_pos ⟨w.minValue_le_toInt, w.toInt_le⟩, Int32.ofInt_toInt]

/-- What is written for a word reads back as that word. -/
@[simp] theorem word?_word (w : Int32) : word? (word w).toList = some w := by
  simp [word?, word, wordOfInt?_eq_some_iff]

end StraightLine.Text
