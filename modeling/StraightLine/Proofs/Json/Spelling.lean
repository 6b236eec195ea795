import StraightLine.Proofs.Json.Reading

/-!
# The texts of a flat object

An object whose members hold no further parts can be spelled in many ways: blanks may stand between
its parts, and a literal may escape characters that it need not escape. `SpellsObject` is the
grammar of all these texts, and the reader takes each of them: what it returns has the members in
their order, under literals that spell their names, with values that give what was meant. A record
is then read off by the names alone.
-/

namespace StraightLine.Json

inductive Scalar where
  | null
  | bool (value : Bool)
  | integer (i : Int)
  | text (text : String)

/-- The values that the reader can return for a scalar, as their literals are written. -/
inductive Gives : Json → Scalar → Prop
  | null : Gives .null .null
  | bool {value : Bool} : Gives (.bool value) (.bool value)
  | integer {i : Int} : Gives (.ofInt i) (.integer i)
  | text {body : List Char} {text : String} (hbody : Literal body text.toList) :
      Gives (.string body) (.text text)

inductive SpellsMembers : List (String × Scalar) → List Char → Prop
  | last {name : String} {value : Scalar} {j : Json} {body before after front behind : List Char}
      (hname : Literal body name.toList) (hvalue : Gives j value) (hbefore : Blank before)
      (hafter : Blank after) (hfront : Blank front) (hbehind : Blank behind) :
      SpellsMembers [(name, value)]
        (before ++ '"' :: (body ++ '"' :: (after ++ ':' :: (front ++ (j.render ++ behind)))))
  | next {name : String} {value : Scalar} {j : Json}
      {body before after front behind tail : List Char}
      {members : List (String × Scalar)} (hname : Literal body name.toList) (hvalue : Gives j value)
      (hbefore : Blank before) (hafter : Blank after) (hfront : Blank front)
        (hbehind : Blank behind)
      (htail : SpellsMembers members tail) :
      SpellsMembers ((name, value) :: members)
        (before ++ '"' :: (body ++ '"' ::
          (after ++ ':' :: (front ++ (j.render ++ (behind ++ ',' :: tail))))))

/-- The texts of an object with some members, with blanks around it. -/
inductive SpellsObject : List (String × Scalar) → List Char → Prop
  | empty {before inside behind : List Char} (hbefore : Blank before) (hinside : Blank inside)
      (hbehind : Blank behind) :
      SpellsObject [] (before ++ '\x7b' :: (inside ++ '\x7d' :: behind))
  | members {members : List (String × Scalar)} {before cs behind : List Char}
      (hbefore : Blank before)
      (hmembers : SpellsMembers members cs) (hbehind : Blank behind) :
      SpellsObject members (before ++ '\x7b' :: (cs ++ '\x7d' :: behind))

variable {j : Json} {value : Scalar} {cs rest : List Char} {bound : Nat}
  {members : List (String × Scalar)}

theorem takeValue?_append {gap : List Char} (hgap : Blank gap) (bound : Nat) (cs : List Char) :
    takeValue? bound (gap ++ cs) = takeValue? bound cs := by
  cases bound with
  | zero => rfl
  | succ bound => rw [takeValue?, takeValue?, skipSpace_append hgap]

theorem Gives.takeValue? (h : Gives j value) (hrest : EndsNumber rest) :
    takeValue? (bound + 1) (j.render ++ rest) = some (j, rest) := by
  cases h with
  | null =>
      rw [render]
      rfl
  | @bool value => cases value <;> rw [render] <;> rfl
  | integer =>
      rw [ofInt, render]
      exact takeValue?_integer _ hrest
  | text hbody =>
      rw [render]
      simpa using takeValue?_literal hbody

theorem endsNumber_blank_append {gap : List Char} (hgap : Blank gap) (hrest : EndsNumber rest) :
    EndsNumber (gap ++ rest) := by
  cases gap with
  | nil => exact hrest
  | cons c gap =>
      have hspace : ∀ c, isSpace c = true → c.isDigit = false ∧ c ≠ '.' ∧ c ≠ 'e' ∧ c ≠ 'E' := by
        intro c hc
        simp only [isSpace, Bool.or_eq_true, decide_eq_true_eq] at hc
        rcases hc with ((rfl | rfl) | rfl) | rfl <;> decide
      obtain ⟨hdigit, hpoint, hmark⟩ := hspace c (hgap c List.mem_cons_self)
      exact endsNumber_cons hdigit hpoint hmark _

def GivesMembers (members : List (String × Scalar)) (read : List (List Char × Json)) : Prop :=
  List.Forall₂ (fun member entry => Literal entry.1 member.1.toList ∧
    Gives entry.2 member.2) members read

theorem SpellsMembers.exists_takeMembers? (h : SpellsMembers members cs) (rest : List Char)
    (hbound : members.length < bound) :
    ∃ read, takeMembers? bound (cs ++ '\x7d' :: rest) = some (read, rest) ∧
      GivesMembers members read := by
  induction h generalizing bound with
  | @last name value j body before after front behind hname hvalue hbefore hafter hfront hbehind =>
      obtain ⟨bound, rfl⟩ : ∃ b, bound = b + 2 := ⟨bound - 2, by simp at hbound; omega⟩
      have hends : EndsNumber (behind ++ '\x7d' :: rest) :=
        endsNumber_blank_append hbehind (endsNumber_cons rfl (by decide) (by decide) rest)
      have hread : takeValue? (bound + 1) (front ++ (j.render ++ (behind ++ '\x7d' :: rest))) =
          some (j, behind ++ '\x7d' :: rest) := by
        rw [takeValue?_append hfront, hvalue.takeValue? hends]
      refine ⟨[(body, j)], ?_, .cons ⟨hname, hvalue⟩ .nil⟩
      simpa using takeMembers?_last hname hbefore hafter hbehind hread
  | @next name value j body before after front behind tail members hname hvalue hbefore hafter hfront hbehind htail ih =>
      obtain ⟨bound, rfl⟩ : ∃ b, bound = b + 2 := ⟨bound - 2, by simp at hbound; omega⟩
      obtain ⟨read, htaken, hgives⟩ := @ih (bound + 1) (by simpa using hbound)
      have hends : EndsNumber (behind ++ ',' :: (tail ++ '\x7d' :: rest)) :=
        endsNumber_blank_append hbehind (endsNumber_cons rfl (by decide) (by decide) _)
      have hread : takeValue? (bound + 1)
          (front ++ (j.render ++ (behind ++ ',' :: (tail ++ '\x7d' :: rest)))) =
          some (j, behind ++ ',' :: (tail ++ '\x7d' :: rest)) := by
        rw [takeValue?_append hfront, hvalue.takeValue? hends]
      refine ⟨(body, j) :: read, ?_, .cons ⟨hname, hvalue⟩ hgives⟩
      simpa using takeMembers?_next hname hbefore hafter hbehind hread htaken

theorem SpellsMembers.length_le (h : SpellsMembers members cs) : members.length ≤ cs.length := by
  induction h with
  | last =>
      simp only [List.length_append, List.length_cons, List.length_nil]
      omega
  | next _ _ _ _ _ _ _ ih =>
      simp only [List.length_append, List.length_cons]
      omega

theorem SpellsMembers.exists_quote (h : SpellsMembers members cs) (rest : List Char) :
    ∃ tail, skipSpace (cs ++ rest) = '"' :: tail := by
  cases h with
  | last _ _ hbefore | next _ _ hbefore =>
      rw [List.append_assoc, skipSpace_append hbefore]
      exact ⟨_, skipSpace_cons rfl _⟩

theorem skipSpace_eq_nil {gap : List Char} (hgap : Blank gap) : skipSpace gap = [] := by
  have hskip := skipSpace_append hgap []
  rwa [List.append_nil] at hskip

/-- **Every text of a flat object is read.** -/
theorem SpellsObject.exists_read? (h : SpellsObject members cs) :
    ∃ read, read? cs = some (.object read) ∧ GivesMembers members read := by
  cases h with
  | @empty before inside behind hbefore hinside hbehind =>
      refine ⟨[], ?_, .nil⟩
      have hvalue : ∀ bound, takeValue? (bound + 1) ('\x7b' :: (inside ++ '\x7d' :: behind)) =
          some (.object [], behind) := by
        intro bound
        rw [takeValue?, skipSpace_cons (c := '\x7b') rfl]
        simp only [skipSpace_append hinside, skipSpace_cons (c := '\x7d') rfl]
      rw [read?, takeValue?_append hbefore, hvalue]
      simp [skipSpace_eq_nil hbehind]
  | @members _ before cs behind hbefore hmembers hbehind =>
      have hlength := hmembers.length_le
      obtain ⟨tail, hquote⟩ := hmembers.exists_quote ('\x7d' :: behind)
      have hbound :
          members.length < 2 * (before ++ '\x7b' :: (cs ++ '\x7d' :: behind)).length + 1 := by
        simp only [List.length_append, List.length_cons]
        omega
      obtain ⟨read, htaken, hgives⟩ := hmembers.exists_takeMembers? behind hbound
      refine ⟨read, ?_, hgives⟩
      rw [read?, takeValue?_append hbefore, takeValue?_brace hquote, htaken]
      simp [skipSpace_eq_nil hbehind]

/-! ### Values and fields -/

theorem Gives.natBelow? {n limit : Nat} (h : Gives j (.integer n)) (hn : n < limit) :
    j.natBelow? limit = some n := by
  cases h
  have hrange : (0 : Int) ≤ n ∧ (n : Int) < limit := by omega
  simp [Json.natBelow?, hrange]

theorem Gives.text? {text : String} (h : Gives j (.text text)) : j.text? = some text := by
  cases h with
  | text hbody => simp [Json.text?, hbody.unescape?]

theorem Gives.bool? {b : Bool} (h : Gives j (.bool b)) : j.bool? = some b := by
  cases h
  rfl

def GivesField (member : String × Scalar) (field : String × Json) : Prop :=
  field.1 = member.1 ∧ Gives field.2 member.2

theorem GivesMembers.exists_namedMembers? {read : List (List Char × Json)}
    (h : GivesMembers members read) :
    ∃ named, namedMembers? read = some named ∧ List.Forall₂ GivesField members named := by
  induction h with
  | nil => exact ⟨[], rfl, .nil⟩
  | @cons member entry members read hentry _ ih =>
      obtain ⟨named, hnamed, hgives⟩ := ih
      rw [namedMembers?] at hnamed
      refine ⟨(member.1, entry.2) :: named, ?_, .cons ⟨rfl, hentry.2⟩ hgives⟩
      simp [namedMembers?, hnamed, hentry.1.unescape?]

theorem map_fst_eq_of_gives {fields : List (String × Json)}
    (h : List.Forall₂ GivesField members fields) : fields.map (·.1) = members.map (·.1) := by
  induction h with
  | nil => rfl
  | cons hfield _ ih => rw [List.map_cons, List.map_cons, hfield.1, ih]

/-- **The known fields of a flat object are those of its members that have known names**, if none of
them comes twice. -/
theorem SpellsObject.exists_record? {names : List String} (h : SpellsObject members cs)
    (hnodup : ((members.filter fun member => names.contains member.1).map (·.1)).Nodup) :
    ∃ j known, read? cs = some j ∧ j.record? names = some known ∧
      List.Forall₂ GivesField (members.filter fun member => names.contains member.1) known := by
  obtain ⟨read, hread, hmembers⟩ := h.exists_read?
  obtain ⟨named, hnamed, hgives⟩ := hmembers.exists_namedMembers?
  have hknown : List.Forall₂ GivesField (members.filter fun member => names.contains member.1)
      (named.filter fun field => names.contains field.1) := by
    refine List.rel_filter (fun member field hfield => ?_) hgives
    simp [hfield.1]
  refine ⟨.object read, _, hread, ?_, hknown⟩
  simp only [record?, hnamed]
  exact if_pos (map_fst_eq_of_gives hknown ▸ hnodup)

end StraightLine.Json
