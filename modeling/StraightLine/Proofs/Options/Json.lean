import Mathlib.Data.List.Nodup
import StraightLine.Options.Json
import StraightLine.Proofs.Json.Spelling

/-!
# Options through JSON

Options that are read are the defaults, overridden by the fields that the text gives, and then
validated. The text may give any of the six fields, in any order and in any spelling, with fields of
other names among them; a field is looked up by its name, so only the list of given fields counts.
Validation sees the options that result, defaults included.
-/

namespace StraightLine.Options

inductive Field where
  | poolSize
  | returnRegister
  | slotSize
  | alignment
  | sectionDirective
  | legalize
deriving DecidableEq

namespace Field

def name : Field → String
  | .poolSize => "register_pool_size"
  | .returnRegister => "return_register"
  | .slotSize => "spill_slot_size"
  | .alignment => "stack_alignment"
  | .sectionDirective => "section_directive"
  | .legalize => "legalize_immediates"

def value (o : Options) : Field → Json.Scalar
  | .poolSize => .integer o.poolSize.toNat
  | .returnRegister => .text o.returnRegister
  | .slotSize => .integer o.slotSize.toNat
  | .alignment => .integer o.alignment.toNat
  | .sectionDirective => .text o.sectionDirective
  | .legalize => .bool o.legalize

def all : List Field :=
  [.poolSize, .returnRegister, .slotSize, .alignment, .sectionDirective, .legalize]

theorem mem_all (f : Field) : f ∈ all := by
  cases f <;> decide

theorem name_injective : Function.Injective name := by
  intro f g h
  cases f <;> cases g <;> first | rfl | exact absurd h (by decide)

end Field

/-- The default options with the given fields replaced. -/
def taking (o : Options) (given : List Field) : Options :=
  let d : Options := {}
  { poolSize := if .poolSize ∈ given then o.poolSize else d.poolSize
    returnRegister := if .returnRegister ∈ given then o.returnRegister else d.returnRegister
    slotSize := if .slotSize ∈ given then o.slotSize else d.slotSize
    alignment := if .alignment ∈ given then o.alignment else d.alignment
    sectionDirective := if .sectionDirective ∈ given then o.sectionDirective else d.sectionDirective
    legalize := if .legalize ∈ given then o.legalize else d.legalize }

theorem taking_all (o : Options) : o.taking Field.all = o := by
  simp [taking, Field.mem_all]

/-- The fields that are read where some fields of the options are given. -/
def Gives (o : Options) (given : List Field) (known : List (String × Json)) : Prop :=
  List.Forall₂ Json.GivesField (given.map fun f => (f.name, f.value o)) known

variable {o : Options} {given : List Field} {known : List (String × Json)}

theorem Gives.lookup_name (h : o.Gives given known) (f : Field) :
    f ∉ given ∧ known.lookup f.name = none ∨ f ∈ given ∧ ∃ j, known.lookup f.name = some j ∧
      j.Gives (f.value o) := by
  induction given generalizing known with
  | nil =>
      cases h
      exact .inl ⟨List.not_mem_nil, rfl⟩
  | cons g given ih =>
      obtain ⟨⟨name, j⟩, known, ⟨rfl, hj⟩, hknown, rfl⟩ := List.forall₂_cons_left_iff.1 h
      by_cases hg : f = g
      · subst hg
        exact .inr ⟨List.mem_cons_self, j, List.lookup_cons_self, hj⟩
      · have hname : (f.name == g.name) = false :=
          beq_false_of_ne fun hname => hg (Field.name_injective hname)
        simpa [List.lookup_cons, hname, hg] using ih hknown

theorem Gives.fieldOr_eq {α : Type} {x : α} {decode : Json → Option α}
    (h : o.Gives given known) (f : Field)
    (hdecode : ∀ j : Json, j.Gives (f.value o) → decode j = some x) (default : α) :
    fieldOr known f.name decode default = some (if f ∈ given then x else default) := by
  rw [fieldOr]
  obtain ⟨hf, hnone⟩ | ⟨hf, j, hsome, hj⟩ := h.lookup_name f
  · rw [hnone, if_neg hf]
  · rw [hsome, if_pos hf]
    exact hdecode j hj

theorem wide?_of_gives {x : UInt64} {j : Json} (h : j.Gives (.integer x.toNat)) :
    wide? j = some x := by
  simp [wide?, h.natBelow? x.toNat_lt_size]

theorem narrow?_of_gives {x : UInt32} {j : Json} (h : j.Gives (.integer x.toNat)) :
    narrow? j = some x := by
  simp [narrow?, h.natBelow? x.toNat_lt_size]

/-- Of a record, only the given fields are taken over the defaults. -/
theorem Gives.ofJson?_eq {j : Json} (h : o.Gives given known)
    (hrecord : j.record? fieldNames = some known) : ofJson? j = some (o.taking given) := by
  have hpool := h.fieldOr_eq .poolSize (fun _ => wide?_of_gives)
  have hreturn := h.fieldOr_eq .returnRegister (fun _ => Json.Gives.text?)
  have hslot := h.fieldOr_eq .slotSize (fun _ => narrow?_of_gives)
  have halignment := h.fieldOr_eq .alignment (fun _ => narrow?_of_gives)
  have hsection := h.fieldOr_eq .sectionDirective (fun _ => Json.Gives.text?)
  have hlegalize := h.fieldOr_eq .legalize (fun _ => Json.Gives.bool?)
  simp only [Field.name] at hpool hreturn hslot halignment hsection hlegalize
  simp [ofJson?, hrecord, hpool, hreturn, hslot, halignment, hsection, hlegalize, taking]

theorem Gives.readJson_eq {source : String} {j : Json} (h : o.Gives given known)
    (hread : Json.read? source.toList = some j) (hrecord : j.record? fieldNames = some known) :
    readJson source = (o.taking given).validate.map fun _ => o.taking given := by
  simp [readJson, hread, h.ofJson?_eq hrecord]

theorem written_toJson (o : Options) : Json.Written o.toJson := by
  refine .record ?_
  simp only [List.forall_mem_cons, List.not_mem_nil, false_implies, implies_true, and_true]
  exact ⟨.integer _, .text _, .integer _, .integer _, .text _, .bool _⟩

theorem gives_all_toJson (o : Options) :
    ∃ known, o.toJson.record? fieldNames = some known ∧ o.Gives Field.all known := by
  have hrecord : o.toJson.record? fieldNames = some _ := Json.record?_record (by simp [fieldNames])
  refine ⟨_, hrecord, ?_⟩
  exact .cons ⟨rfl, .integer⟩
    (.cons ⟨rfl, .text (Json.literal_escape _)⟩ (.cons ⟨rfl, .integer⟩ (.cons ⟨rfl, .integer⟩
    (.cons ⟨rfl, .text (Json.literal_escape _)⟩ (.cons ⟨rfl, .bool⟩ .nil)))))

theorem readJson_text_toJson (o : Options) :
    readJson o.toJson.text = o.validate.map fun _ => o := by
  obtain ⟨known, hrecord, hgives⟩ := gives_all_toJson o
  have hread : Json.read? o.toJson.text.toList = some o.toJson := by
    rw [Json.text, String.toList_ofList, Json.read?_render o.written_toJson]
  rw [hgives.readJson_eq hread hrecord, taking_all]

/-- **Options that are read are the defaults with the given fields replaced, and then validated.** A
text that gives some fields of `o`, each once, is read as these fields over the defaults if the
result is valid, and refused for what is wrong with the result if not. The text that is written for
`o` is read as `o` exactly when `o` is valid. -/
theorem readJson_overrides_defaults (o : Options) :
    (∀ given members source, given.Nodup →
      members.filter (fun member => fieldNames.contains member.1) =
      given.map (fun f => (f.name, f.value o)) →
      Json.SpellsObject members source.toList →
      readJson source = (o.taking given).validate.map fun _ => o.taking given) ∧
    (readJson o.toJson.text = .ok o ↔ o.validate = .ok ()) := by
  refine ⟨fun given members source hnodup hmembers hspells => ?_, ?_⟩
  · have hnames : ((members.filter fun member => fieldNames.contains member.1).map
        (·.1)).Nodup := by
      rw [hmembers, List.map_map]
      exact hnodup.map Field.name_injective
    obtain ⟨j, known, hread, hrecord, hgives⟩ := hspells.exists_record? hnames
    rw [hmembers] at hgives
    exact Gives.readJson_eq hgives hread hrecord
  · rw [readJson_text_toJson]
    cases o.validate <;> simp [Except.map]

/-- Two fields against their declared order, a field of another name between them, blanks around the
parts and an escape in a name. -/
theorem readJson_overrides_defaults_spelled :
    let source := "\x7b \"stack_alignment\":16,\t\"note\" : null , \"\\u0073pill_slot_size\":8\x7d\n"
    readJson source = .ok { slotSize := 8, alignment := 16 } := by
  intro source
  have hspace : Json.Blank [' '] := by decide
  have htab : Json.Blank ['\t'] := by decide
  have hescape : Json.EscapedAs 's' ['\\', 'u', '0', '0', '7', '3'] := .unit (u := 0x73) (by decide)
    (by decide) (by decide)
  have hslot : Json.Literal _ "spill_slot_size".toList :=
    .cons hescape (Json.literal_escape "pill_slot_size".toList)
  have hmembers := Json.SpellsMembers.next (Json.literal_escape "stack_alignment".toList)
    (Json.Gives.integer (i := 16)) hspace
    Json.blank_nil Json.blank_nil Json.blank_nil
      (.next (Json.literal_escape "note".toList) .null htab hspace hspace hspace
      (.last hslot (Json.Gives.integer (i := 8)) hspace Json.blank_nil Json.blank_nil
        Json.blank_nil))
  have hspells : Json.SpellsObject [("stack_alignment", .integer 16), ("note", .null),
      ("spill_slot_size", .integer 8)]
      source.toList := by
    convert Json.SpellsObject.members Json.blank_nil hmembers (by decide : Json.Blank ['\n'])
    decide +kernel
  exact (readJson_overrides_defaults { slotSize := 8, alignment := 16 }).1 [.alignment,
    .slotSize] _ source (by decide) rfl hspells

-- A given slot size can make the default alignment invalid.
example : readJson "\x7b\"spill_slot_size\":8\x7d" = .error (.alignment 8 4) := by decide +kernel

end StraightLine.Options
