import StraightLine.Json.Reader
import StraightLine.Json.Record
import StraightLine.Options.Basic

/-!
# Options as JSON

Options are a record of six fields. Every field may be left out and then takes its default; what is read
is validated as a whole.
-/

namespace StraightLine.Options

def fieldNames : List String :=
  ["register_pool_size", "return_register", "spill_slot_size", "stack_alignment",
    "section_directive", "legalize_immediates"]

def toJson (o : Options) : Json :=
  .record
    [("register_pool_size", .ofNat o.poolSize.toNat), ("return_register", .ofText o.returnRegister),
      ("spill_slot_size", .ofNat o.slotSize.toNat), ("stack_alignment", .ofNat o.alignment.toNat),
      ("section_directive", .ofText o.sectionDirective), ("legalize_immediates", .bool o.legalize)]

/-- The value of a field, or its default if it is not given. -/
def fieldOr {α : Type} (given : List (String × Json)) (name : String) (decode : Json → Option α)
    (default : α) : Option α :=
  match given.lookup name with
  | none => some default
  | some j => decode j

def wide? (j : Json) : Option UInt64 := (j.natBelow? UInt64.size).map UInt64.ofNat

def narrow? (j : Json) : Option UInt32 := (j.natBelow? UInt32.size).map UInt32.ofNat

/-- The options of a JSON value, not validated. -/
def ofJson? (j : Json) : Option Options := do
  let given ← j.record? fieldNames
  let o : Options := {}
  let poolSize ← fieldOr given "register_pool_size" wide? o.poolSize
  let returnRegister ← fieldOr given "return_register" Json.text? o.returnRegister
  let slotSize ← fieldOr given "spill_slot_size" narrow? o.slotSize
  let alignment ← fieldOr given "stack_alignment" narrow? o.alignment
  let sectionDirective ← fieldOr given "section_directive" Json.text? o.sectionDirective
  let legalize ← fieldOr given "legalize_immediates" Json.bool? o.legalize
  return { poolSize, returnRegister, slotSize, alignment, sectionDirective, legalize }

/-- The valid options that a JSON text spells. -/
def readJson (source : String) : Except OptionsFault Options :=
  match (Json.read? source.toList).bind ofJson? with
  | none => .error .unreadable
  | some o => o.validate.map fun _ => o

end StraightLine.Options
