import StraightLine.Json.Basic

/-!
# Reading JSON

The reader is strict: only the blanks of the format, no leading zeros, no control characters inside a
string, only the escapes of the format, and nothing but blanks after the value. Each function takes what
it reads off the front of its input and returns the rest. Reading a value descends with a bound on the
depth and the number of items; the bound is twice the length of the input, which no value can exceed,
because every value and every bracket or comma takes a character.
-/

namespace StraightLine.Json

/-- The blanks that may stand between the parts of a value. -/
def isSpace (c : Char) : Bool := c = ' ' || c = '\n' || c = '\t' || c = '\r'

def skipSpace (cs : List Char) : List Char := cs.dropWhile isSpace

/-- The body of a string literal and the input after its closing quote. -/
def takeBody? : List Char → Option (List Char × List Char)
  | [] => none
  | '"' :: rest => some ([], rest)
  | '\\' :: 'u' :: a :: b :: c :: d :: rest => do
      let _ ← unit? a b c d
      let (body, rest) ← takeBody? rest
      return ('\\' :: 'u' :: a :: b :: c :: d :: body, rest)
  | '\\' :: letter :: rest => do
      let _ ← shortEscape? letter
      let (body, rest) ← takeBody? rest
      return ('\\' :: letter :: body, rest)
  | c :: rest => do
      if c.toNat < 0x20 ∨ c = '\\' then none
      else
        let (body, rest) ← takeBody? rest
        return (c :: body, rest)

/-- A nonempty run of digits and the input after it. -/
def takeDigits? (cs : List Char) : Option (List Char × List Char) :=
  let digits := cs.takeWhile Char.isDigit
  if digits.isEmpty then none else some (digits, cs.dropWhile Char.isDigit)

/-- The digits before the point: a single zero, or digits that do not start with one. -/
def takeWhole? (cs : List Char) : Option (List Char × List Char) := do
  let (digits, rest) ← takeDigits? cs
  if digits.head? = some '0' ∧ digits ≠ ['0'] then none else some (digits, rest)

/-- The fraction, if a point announces one. -/
def takeFraction? : List Char → Option (List Char × List Char)
  | '.' :: rest => do
      let (digits, rest) ← takeDigits? rest
      return ('.' :: digits, rest)
  | rest => some ([], rest)

/-- The sign that may stand in front of the digits of an exponent. -/
def takeSign : List Char → List Char × List Char
  | '+' :: rest => (['+'], rest)
  | '-' :: rest => (['-'], rest)
  | rest => ([], rest)

/-- The exponent, if a mark of either case announces one. -/
def takeExponent? : List Char → Option (List Char × List Char)
  | mark :: rest =>
      if mark = 'e' ∨ mark = 'E' then do
        let (sign, rest) := takeSign rest
        let (digits, rest) ← takeDigits? rest
        return (mark :: sign ++ digits, rest)
      else some ([], mark :: rest)
  | [] => some ([], [])

def takeUnsigned? (cs : List Char) : Option (List Char × List Char) := do
  let (whole, rest) ← takeWhole? cs
  let (fraction, rest) ← takeFraction? rest
  let (exponent, rest) ← takeExponent? rest
  return (whole ++ fraction ++ exponent, rest)

def takeNumber? : List Char → Option (List Char × List Char)
  | '-' :: rest => do
      let (literal, rest) ← takeUnsigned? rest
      return ('-' :: literal, rest)
  | cs => takeUnsigned? cs

mutual

def takeValue? : Nat → List Char → Option (Json × List Char)
  | 0, _ => none
  | bound + 1, cs =>
      match skipSpace cs with
      | 'n' :: 'u' :: 'l' :: 'l' :: rest => some (.null, rest)
      | 't' :: 'r' :: 'u' :: 'e' :: rest => some (.bool true, rest)
      | 'f' :: 'a' :: 'l' :: 's' :: 'e' :: rest => some (.bool false, rest)
      | '"' :: rest => (takeBody? rest).map fun (body, rest) => (.string body, rest)
      | '[' :: rest =>
          match skipSpace rest with
          | ']' :: rest => some (.array [], rest)
          | _ => (takeItems? bound rest).map fun (items, rest) => (.array items, rest)
      | '\x7b' :: rest =>
          match skipSpace rest with
          | '\x7d' :: rest => some (.object [], rest)
          | _ => (takeMembers? bound rest).map fun (members, rest) => (.object members, rest)
      | rest => (takeNumber? rest).map fun (literal, rest) => (.number literal, rest)

/-- The items of an array, at least one, and the input after the closing bracket. -/
def takeItems? : Nat → List Char → Option (List Json × List Char)
  | 0, _ => none
  | bound + 1, cs => do
      let (item, rest) ← takeValue? bound cs
      match skipSpace rest with
      | ',' :: rest =>
          let (items, rest) ← takeItems? bound rest
          return (item :: items, rest)
      | ']' :: rest => return ([item], rest)
      | _ => none

/-- The members of an object, at least one, and the input after the closing brace. -/
def takeMembers? : Nat → List Char → Option (List (List Char × Json) × List Char)
  | 0, _ => none
  | bound + 1, cs => do
      match skipSpace cs with
      | '"' :: rest =>
          let (name, rest) ← takeBody? rest
          match skipSpace rest with
          | ':' :: rest =>
              let (value, rest) ← takeValue? bound rest
              match skipSpace rest with
              | ',' :: rest =>
                  let (members, rest) ← takeMembers? bound rest
                  return ((name, value) :: members, rest)
              | '\x7d' :: rest => return ([(name, value)], rest)
              | _ => none
          | _ => none
      | _ => none

end

/-- The value that a text spells, with nothing but blanks around it. -/
def read? (cs : List Char) : Option Json := do
  let (value, rest) ← takeValue? (2 * cs.length + 2) cs
  if (skipSpace rest).isEmpty then some value else none

end StraightLine.Json
