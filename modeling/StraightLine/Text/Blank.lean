/-!
# Blank characters

A reader of program text skips the characters that carry the Unicode property White_Space. The
property is a short table of ranges, and trimming removes its members from both ends of a text.
The two statements that matter are that a trimmed text is empty exactly when the text is all blank,
and that trimming undoes padding.
-/

namespace StraightLine.Text

/-- The closed ranges of code points with the property White_Space, in ascending order. -/
def blankRanges : List (Nat × Nat) :=
  [(0x09, 0x0D), (0x20, 0x20), (0x85, 0x85), (0xA0, 0xA0), (0x1680, 0x1680), (0x2000, 0x200A),
    (0x2028, 0x2029), (0x202F, 0x202F), (0x205F, 0x205F), (0x3000, 0x3000)]

def isBlank (c : Char) : Bool :=
  blankRanges.any fun range => range.1 ≤ c.toNat && c.toNat ≤ range.2

def trimStart (cs : List Char) : List Char := cs.dropWhile isBlank

def trimEnd (cs : List Char) : List Char := (trimStart cs.reverse).reverse

def trim (cs : List Char) : List Char := trimEnd (trimStart cs)

theorem trimStart_eq_nil_iff {cs : List Char} : trimStart cs = [] ↔ ∀ c ∈ cs, isBlank c = true := by
  induction cs with
  | nil => simp [trimStart]
  | cons c cs ih =>
      rw [trimStart, List.dropWhile_cons]
      split
      · next h =>
          rw [← trimStart, ih]
          simp [h]
      · next h => simp [h]

/-- What is left after the leading blanks does not start with a blank. -/
theorem not_isBlank_of_trimStart_eq_cons {cs rest : List Char} {c : Char}
    (h : trimStart cs = c :: rest) : isBlank c = false := by
  induction cs with
  | nil => simp [trimStart] at h
  | cons d cs ih =>
      rw [trimStart, List.dropWhile_cons] at h
      split at h
      · exact ih h
      · next hd =>
          cases h
          simpa using hd

/-- Only a text of blanks trims to nothing. -/
theorem trim_eq_nil_iff {cs : List Char} : trim cs = [] ↔ ∀ c ∈ cs, isBlank c = true := by
  rw [← trimStart_eq_nil_iff, trim, trimEnd, List.reverse_eq_nil_iff, trimStart_eq_nil_iff]
  constructor
  · intro h
    cases hstart : trimStart cs with
    | nil => rfl
    | cons c rest =>
        have hc : isBlank c = true := h c (by simp [hstart])
        rw [not_isBlank_of_trimStart_eq_cons hstart] at hc
        exact absurd hc (by decide)
  · intro h c hc
    simp [h] at hc

theorem trimStart_append {pad cs : List Char} (h : ∀ c ∈ pad, isBlank c = true) :
    trimStart (pad ++ cs) = trimStart cs := by
  induction pad with
  | nil => rfl
  | cons c pad ih =>
      have hc : isBlank c = true := h c (by simp)
      have hrest : trimStart (pad ++ cs) = trimStart cs := ih fun d hd => h d (by simp [hd])
      rw [← hrest]
      simp [trimStart, hc]

theorem trimEnd_append {pad cs : List Char} (h : ∀ c ∈ pad, isBlank c = true) :
    trimEnd (cs ++ pad) = trimEnd cs := by
  rw [trimEnd, List.reverse_append, trimStart_append (by simpa using h), ← trimEnd]

end StraightLine.Text
