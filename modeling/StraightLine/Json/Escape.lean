/-!
# String literals

The body of a string literal spells a text. Quotes, backslashes and control characters are escaped when
a text is written; every other character stands for itself. A written body may also spell any character
by the four hexadecimal digits of a code unit, where a character above U+FFFF takes a pair of units, so
a body can be well formed and still spell no text, when half of such a pair stands alone.
-/

namespace StraightLine.Json

/-- The letter after the backslash of a short escape, and what it stands for. -/
def shortEscapes : List (Char × Char) :=
  [('"', '"'), ('\\', '\\'), ('b', '\x08'), ('f', '\x0c'), ('n', '\n'), ('r', '\r'), ('t', '\t')]

/-- How a character is written inside a string literal. -/
def escapeChar (c : Char) : List Char :=
  match shortEscapes.find? fun entry => entry.2 = c with
  | some (letter, _) => ['\\', letter]
  | none =>
      if c.toNat < 0x20 then
        ['\\', 'u', '0', '0', Nat.digitChar (c.toNat / 16), Nat.digitChar (c.toNat % 16)]
      else [c]

def escape (cs : List Char) : List Char := cs.flatMap escapeChar

def hexValue? (c : Char) : Option Nat :=
  if '0' ≤ c ∧ c ≤ '9' then some (c.toNat - '0'.toNat)
  else if 'a' ≤ c ∧ c ≤ 'f' then some (c.toNat - 'a'.toNat + 10)
  else if 'A' ≤ c ∧ c ≤ 'F' then some (c.toNat - 'A'.toNat + 10)
  else none

/-- The code unit spelled by four hexadecimal digits. -/
def unit? (a b c d : Char) : Option Nat := do
  let a ← hexValue? a
  let b ← hexValue? b
  let c ← hexValue? c
  let d ← hexValue? d
  return ((a * 16 + b) * 16 + c) * 16 + d

/-- The character a one-letter escape stands for; a slash may be escaped too. -/
def shortEscape? (letter : Char) : Option Char :=
  if letter = '/' then some '/' else (shortEscapes.find? fun entry => entry.1 = letter).map (·.2)

/-- A part of a literal: a character, or a code unit given by its number. -/
inductive Piece where
  | char (c : Char)
  | unit (value : Nat)

def pieces? : List Char → Option (List Piece)
  | [] => some []
  | '\\' :: 'u' :: a :: b :: c :: d :: rest => do
      let u ← unit? a b c d
      let tail ← pieces? rest
      return .unit u :: tail
  | '\\' :: letter :: rest => do
      let c ← shortEscape? letter
      let tail ← pieces? rest
      return .char c :: tail
  | ['\\'] => none
  | c :: rest => do
      let tail ← pieces? rest
      return .char c :: tail

/-- Whether a code unit is the first half of a pair. -/
def isLeading (u : Nat) : Bool := 0xD800 ≤ u && u < 0xDC00

/-- Whether a code unit is the second half of a pair. -/
def isTrailing (u : Nat) : Bool := 0xDC00 ≤ u && u < 0xE000

/-- The text spelled by parts: halves of a pair must stand next to each other. -/
def join? : List Piece → Option (List Char)
  | [] => some []
  | .char c :: rest => (join? rest).map (c :: ·)
  | .unit u :: .unit v :: rest =>
      if isLeading u then
        if isTrailing v then
          (join? rest).map (Char.ofNat (0x10000 + (u - 0xD800) * 0x400 + (v - 0xDC00)) :: ·)
        else none
      else if isTrailing u then none
      else (join? (.unit v :: rest)).map (Char.ofNat u :: ·)
  | .unit u :: rest =>
      if isLeading u || isTrailing u then none else (join? rest).map (Char.ofNat u :: ·)

/-- The text spelled by the body of a literal, if it spells one. -/
def unescape? (body : List Char) : Option (List Char) := (pieces? body).bind join?

end StraightLine.Json
