import StraightLine.Json.Escape
import StraightLine.Text.Decimal

/-!
# JSON values

A value keeps its numbers and strings as they were written: a number literal may have a fraction or an
exponent that no reader of this library asks for, and the body of a string may spell no text. Whoever
needs the number or the text asks for it with `int?` or `text?`. Members of an object stay in their
written order, and a name may occur twice. Rendering is compact.
-/

namespace StraightLine

/-- A JSON value as written, blanks aside. -/
inductive Json where
  | null
  | bool (value : Bool)
  | number (literal : List Char)
  | string (body : List Char)
  | array (items : List Json)
  | object (members : List (List Char × Json))

namespace Json

/-- The string value that spells a text. -/
def ofText (text : String) : Json := .string (escape text.toList)

def ofInt (i : Int) : Json := .number (Text.integer i).toList

def ofNat (n : Nat) : Json := ofInt (Int.ofNat n)

/-- The object with the given members, in their order. -/
def record (members : List (String × Json)) : Json :=
  .object (members.map fun member => (escape member.1.toList, member.2))

def text? : Json → Option String
  | .string body => (unescape? body).map String.ofList
  | _ => none

/-- The value of an integer literal. A fraction or an exponent makes a number that is no integer, and so
does a negative zero. -/
def int? : Json → Option Int
  | .number ('-' :: digits) =>
      if digits = ['0'] then none else (Text.natural? digits).map fun n => -Int.ofNat n
  | .number digits => (Text.natural? digits).map Int.ofNat
  | _ => none

/-- The natural number of an integer literal below a limit. -/
def natBelow? (limit : Nat) (j : Json) : Option Nat := do
  let i ← j.int?
  if 0 ≤ i ∧ i < (limit : Int) then some i.toNat else none

/-- The word of an integer literal in range. -/
def word? (j : Json) : Option Int32 := j.int?.bind Text.wordOfInt?

/-- The truth value of a literal `true` or `false`. -/
def bool? : Json → Option Bool
  | .bool value => some value
  | _ => none

def items? : Json → Option (List Json)
  | .array items => some items
  | _ => none

mutual

def render : Json → List Char
  | .null => ['n', 'u', 'l', 'l']
  | .bool true => ['t', 'r', 'u', 'e']
  | .bool false => ['f', 'a', 'l', 's', 'e']
  | .number literal => literal
  | .string body => '"' :: body ++ ['"']
  | .array items => '[' :: renderItems items ++ [']']
  | .object members => '\x7b' :: renderMembers members ++ ['\x7d']

def renderItems : List Json → List Char
  | [] => []
  | [item] => render item
  | item :: rest => render item ++ ',' :: renderItems rest

def renderMembers : List (List Char × Json) → List Char
  | [] => []
  | [(name, value)] => '"' :: name ++ '"' :: ':' :: render value
  | (name, value) :: rest => '"' :: name ++ '"' :: ':' :: render value ++ ',' :: renderMembers rest

end

def text (j : Json) : String := String.ofList j.render

end Json

end StraightLine
