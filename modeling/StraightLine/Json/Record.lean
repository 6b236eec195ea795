import StraightLine.Json.Basic

/-!
# Records and tagged values

A record is written as an object, or as the array of its first fields in declared order. In an object
every name must spell a text; unknown names are passed over, whatever their values, and a known name
must not occur twice. A tagged value is an object with exactly one member, whose name is the tag.
-/

namespace StraightLine.Json

/-- The members of an object with their names spelled out. -/
def namedMembers? (members : List (List Char × Json)) : Option (List (String × Json)) :=
  members.mapM fun member => (unescape? member.1).map fun name => (String.ofList name, member.2)

/-- The known fields that a value gives, each at most once. -/
def record? (names : List String) : Json → Option (List (String × Json))
  | .object members => do
      let known := (← namedMembers? members).filter fun member => names.contains member.1
      if (known.map (·.1)).Nodup then some known else none
  | .array items => if items.length ≤ names.length then some (names.zip items) else none
  | _ => none

def tagged? : Json → Option (String × Json)
  | .object [(name, content)] => (unescape? name).map fun name => (String.ofList name, content)
  | _ => none

/-- The tag of a value without content: a string, or a tag whose content is null. -/
def tag? (j : Json) : Option String :=
  match j with
  | .string _ => j.text?
  | _ =>
      match j.tagged? with
      | some (name, .null) => some name
      | _ => none

end StraightLine.Json
