import StraightLine.Program.Json
import StraightLine.Proofs.Json.Reading

/-!
# Programs through JSON

A program that is written as JSON is read back unchanged, whatever its variables are called and
whatever words it holds. Every part of a program (operator, variable, operand, instruction) is
written as a value that the reader takes back whole, and it is recovered from that value.
-/

namespace StraightLine

open Json

/-! ### Parts are recovered from their values -/

@[simp] theorem Operator.ofJson?_toJson (op : Operator) : Operator.ofJson? op.toJson = some op := by
  cases op <;> simp [Operator.ofJson?, Operator.toJson, Operator.tag, Operator.ofTag?]

@[simp] theorem Var.ofJson?_toJson (v : Var) : Var.ofJson? v.toJson = some v := by
  simp [Var.ofJson?, Var.toJson]

@[simp] theorem Operand.ofJson?_toJson (operand : Operand) :
    Operand.ofJson? operand.toJson = some operand := by
  cases operand <;> simp [Operand.ofJson?, Operand.toJson]

@[simp] theorem Instr.ofJson?_toJson (i : Instr) : Instr.ofJson? i.toJson = some i := by
  cases i with
  | mov dst src =>
      have hfields : (record [("dst", dst.toJson), ("src", src.toJson)]).record? ["dst", "src"] =
          some [("dst", dst.toJson), ("src", src.toJson)] := record?_record (by simp)
      simp [Instr.ofJson?, Instr.toJson, hfields, List.lookup_cons]
  | binary op dst lhs rhs =>
      have hfields : (record [("op", op.toJson), ("dst", dst.toJson), ("lhs", lhs.toJson),
          ("rhs", rhs.toJson)]).record?
          ["op", "dst", "lhs", "rhs"] =
          some [("op", op.toJson), ("dst", dst.toJson), ("lhs", lhs.toJson), ("rhs", rhs.toJson)] :=
        record?_record (by simp)
      simp [Instr.ofJson?, Instr.toJson, hfields, List.lookup_cons]
  | ret value => simp [Instr.ofJson?, Instr.toJson]

theorem Program.ofJson?_toJson (p : Program) : Program.ofJson? p.toJson = some p := by
  have hfields : p.toJson.record? ["instructions"] =
      some [("instructions", .array (p.instrs.map Instr.toJson))] :=
    record?_record (by simp)
  have hinstrs : (p.instrs.map Instr.toJson).mapM Instr.ofJson? = some p.instrs := by
    induction p.instrs with
    | nil => rfl
    | cons i is ih => simp [ih]
  simp [Program.ofJson?, hfields, Json.items?, hinstrs]

/-! ### The values are written ones -/

theorem Var.written_toJson (v : Var) : Written v.toJson := .text v.name

theorem Operand.written_toJson (operand : Operand) : Written operand.toJson := by
  cases operand with
  | var v => exact .record (by simpa using v.written_toJson)
  | imm value => exact .record (by simpa using .integer value.toInt)

theorem Instr.written_toJson (i : Instr) : Written i.toJson := by
  cases i with
  | mov dst src =>
      have hfields : Written (.record [("dst", dst.toJson), ("src", src.toJson)]) :=
        .record (by simpa using ⟨dst.written_toJson, src.written_toJson⟩)
      exact .record (by simpa using hfields)
  | binary op dst lhs rhs =>
      have hfields : Written (.record [("op", op.toJson), ("dst", dst.toJson), ("lhs", lhs.toJson),
          ("rhs", rhs.toJson)]) :=
        .record (by simpa using ⟨.text op.tag, dst.written_toJson, lhs.written_toJson,
          rhs.written_toJson⟩)
      exact .record (by simpa using hfields)
  | ret value => exact .record (by simpa using value.written_toJson)

theorem Program.written_toJson (p : Program) : Written p.toJson := by
  have hinstrs : Written (.array (p.instrs.map Instr.toJson)) := by
    refine .array fun j hj => ?_
    obtain ⟨i, _, rfl⟩ := List.mem_map.1 hj
    exact i.written_toJson
  exact .record (by simpa using hinstrs)

/-- **A program survives JSON.** -/
theorem Program.readJson?_text_toJson (p : Program) : Program.readJson? p.toJson.text = some p := by
  rw [Program.readJson?, Json.text, String.toList_ofList, read?_render p.written_toJson]
  exact p.ofJson?_toJson

-- A name may hold quotes, backslashes, control characters and characters above U+FFFF.
example : (Program.toJson ⟨[.mov ⟨"\"\\\n\x01😀"⟩ (.imm (-2147483648))]⟩).text =
    "\x7b\"instructions\":[\x7b\"Mov\":\x7b\"dst\":\"\\\"\\\\\\n\\u0001😀\",\"src\":\x7b\"Imm\":-2147483648\x7d\x7d\x7d]\x7d" := by
  decide +kernel

end StraightLine
