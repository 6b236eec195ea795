import StraightLine.Proofs.Json.Literals

/-!
# Values read back

Reading undoes rendering for every value that the library writes, however deep and however long. A
value is read in front of any input that cannot continue a number, so the parts of an array or of an
object follow one from the other. The bound on the descent is never the reason to stop: twice the
length of what is rendered is enough.
-/

namespace StraightLine.Json

/-- The values that are written: truth values, integers and texts, and arrays and records of written
values. -/
inductive Written : Json → Prop
  | null : Written .null
  | bool (value : Bool) : Written (.bool value)
  | integer (i : Int) : Written (.ofInt i)
  | text (text : String) : Written (.ofText text)
  | array {items : List Json} (hitems : ∀ item ∈ items, Written item) : Written (.array items)
  | record {members : List (String × Json)} (hmembers : ∀ member ∈ members, Written member.2) :
      Written (.record members)

variable {j : Json} {c : Char} {cs rest : List Char} {bound : Nat}

theorem skipSpace_cons (hc : isSpace c = false) (cs : List Char) :
    skipSpace (c :: cs) = c :: cs := by
  simp [skipSpace, hc]

def Blank (gap : List Char) : Prop := ∀ c ∈ gap, isSpace c = true

instance (gap : List Char) : Decidable (Blank gap) := List.decidableBAll _ gap

theorem blank_nil : Blank [] := nofun

theorem skipSpace_append {gap : List Char} (hgap : Blank gap) (cs : List Char) :
    skipSpace (gap ++ cs) = skipSpace cs := List.dropWhile_append_of_pos hgap

theorem isSpace_of_isDigit (hc : c.isDigit = true) : isSpace c = false := by
  simp [isSpace, ne_of_isDigit hc]

theorem integer_eq_cons (i : Int) :
    ∃ c cs, (Text.integer i).toList = c :: cs ∧ (c.isDigit = true ∨ c = '-') := by
  cases i with
  | ofNat n =>
      obtain ⟨c, cs, hcs, hc⟩ := exists_toDigits_eq_cons n
      exact ⟨c, cs, by simpa [Text.integer, Text.natural] using hcs, Or.inl hc⟩
  | negSucc n =>
      exact ⟨'-', Nat.toDigits 10 (n + 1), by simp [Text.integer, Text.natural], Or.inr rfl⟩

theorem Written.exists_head (h : Written j) :
    ∃ c cs, j.render = c :: cs ∧ isSpace c = false ∧ c ≠ ']' := by
  cases h with
  | null => exact ⟨'n', _, by rw [render], by decide, by decide⟩
  | bool value =>
      cases value with
      | false => exact ⟨'f', _, by rw [render], by decide, by decide⟩
      | true => exact ⟨'t', _, by rw [render], by decide, by decide⟩
  | integer i =>
      obtain ⟨c, cs, hcs, hc | rfl⟩ := integer_eq_cons i
      · exact ⟨c, cs, by rw [ofInt, render, hcs], isSpace_of_isDigit hc, ne_of_isDigit hc rfl⟩
      · exact ⟨'-', cs, by rw [ofInt, render, hcs], by decide, by decide⟩
  | text text => exact ⟨'"', _, by rw [ofText, render, List.cons_append], by decide, by decide⟩
  | array => exact ⟨'[', _, by rw [render, List.cons_append], by decide, by decide⟩
  | record => exact ⟨'\x7b', _, by rw [Json.record, render, List.cons_append], by decide, by decide⟩

/-- The value is read whole in front of any input that does not continue a number. -/
def ReadsBack (j : Json) : Prop :=
  ∀ bound rest, 2 * j.render.length ≤ bound → EndsNumber rest →
    takeValue? bound (j.render ++ rest) = some (j, rest)

theorem ReadsBack.of_succ (hne : j.render ≠ [])
    (h : ∀ bound rest, 2 * j.render.length ≤ bound + 1 → EndsNumber rest →
    takeValue? (bound + 1) (j.render ++ rest) = some (j, rest)) : ReadsBack j := by
  intro bound rest hbound hrest
  have hpos : 0 < j.render.length := List.length_pos_iff.2 hne
  obtain ⟨bound, rfl⟩ : ∃ b, bound = b + 1 := ⟨bound - 1, by omega⟩
  exact h bound rest hbound hrest

theorem takeValue?_integer (i : Int) (hrest : EndsNumber rest) :
    takeValue? (bound + 1) ((Text.integer i).toList ++ rest) = some (.ofInt i, rest) := by
  obtain ⟨c, cs, hcs, hc⟩ := integer_eq_cons i
  have hnumber := takeNumber?_integer i hrest
  have hspace : isSpace c = false := by
    obtain hc | rfl := hc
    · exact isSpace_of_isDigit hc
    · rfl
  have hother : ∀ d : Char, d.isDigit = false → d ≠ '-' → c ≠ d := by
    intro d hd hminus
    obtain hc | rfl := hc
    · exact ne_of_isDigit hc hd
    · exact hminus.symm
  rw [ofInt]
  rw [hcs, List.cons_append] at hnumber ⊢
  rw [takeValue?, skipSpace_cons hspace]
  split
  case h_7 =>
    rw [hnumber]
    rfl
  all_goals
    next heq => exact absurd (List.cons.inj heq).1 (hother _ rfl (by decide))

theorem takeValue?_literal {body : List Char} (h : Literal body cs) :
    takeValue? (bound + 1) ('"' :: (body ++ '"' :: rest)) = some (.string body, rest) := by
  rw [takeValue?, skipSpace_cons (c := '"') rfl]
  simp [h.takeBody?]

theorem endsNumber_cons (hc : c.isDigit = false) (hpoint : c ≠ '.') (hmark : c ≠ 'e' ∧ c ≠ 'E')
    (cs : List Char) : EndsNumber (c :: cs) := by
  intro d hd
  cases hd
  exact ⟨hc, hpoint, hmark⟩

/-! ### Arrays -/

theorem renderItems_cons (item next : Json) (items : List Json) :
    renderItems (item :: next :: items) = item.render ++ ',' :: renderItems (next :: items) := by
  rw [renderItems]
  exact fun h => nomatch h

theorem takeItems?_render {items : List Json} (hne : items ≠ [])
    (h : ∀ item ∈ items, ReadsBack item) (hbound : 2 * (renderItems items).length < bound) :
    takeItems? bound (renderItems items ++ ']' :: rest) = some (items, rest) := by
  induction items generalizing bound with
  | nil => exact absurd rfl hne
  | cons item items ih =>
      obtain ⟨bound, rfl⟩ : ∃ b, bound = b + 1 := ⟨bound - 1, by omega⟩
      have hitem := h item List.mem_cons_self
      cases items with
      | nil =>
          rw [renderItems] at hbound ⊢
          have hread := hitem bound (']' :: rest) (by omega) (endsNumber_cons rfl (by decide)
            (by decide) rest)
          simp [takeItems?, hread, skipSpace_cons (c := ']') rfl]
      | cons next items =>
          rw [renderItems_cons, List.length_append, List.length_cons] at hbound
          have hread := hitem bound (',' :: (renderItems (next :: items) ++ ']' :: rest)) (by omega)
            (endsNumber_cons rfl (by decide) (by decide) _)
          have hrest : takeItems? bound (renderItems (next :: items) ++ ']' :: rest) =
              some (next :: items, rest) :=
            ih (by simp) (fun j hj => h j (List.mem_cons_of_mem item hj)) (by omega)
          rw [renderItems_cons, List.append_assoc, List.cons_append]
          simp [takeItems?, hread, skipSpace_cons (c := ',') rfl, hrest]

theorem takeValue?_bracket (hspace : isSpace c = false) (hclose : c ≠ ']') (cs : List Char) :
    takeValue? (bound + 1) ('[' :: c :: cs) = (takeItems? bound (c :: cs)).map
      fun r => (.array r.1, r.2) := by
  rw [takeValue?, skipSpace_cons (c := '[') rfl]
  simp only [skipSpace_cons hspace]
  split
  · next heq => exact absurd (List.cons.inj heq).1 hclose
  · rfl

theorem readsBack_array {items : List Json} (hwritten : ∀ item ∈ items, Written item)
    (h : ∀ item ∈ items, ReadsBack item) : ReadsBack (.array items) := by
  have hrender : (Json.array items).render = '[' :: renderItems items ++ [']'] := by rw [render]
  refine .of_succ (by simp [hrender]) fun bound rest hbound _ => ?_
  rw [hrender, List.length_append, List.length_cons, List.length_singleton] at hbound
  rw [hrender, List.append_assoc, List.cons_append, List.singleton_append]
  cases items with
  | nil => rfl
  | cons item items =>
      have hread : takeItems? bound (renderItems (item :: items) ++ ']' :: rest) =
          some (item :: items, rest) :=
        takeItems?_render (by simp) h (by omega)
      obtain ⟨c, cs, hcs, hspace, hclose⟩ := (hwritten item List.mem_cons_self).exists_head
      have hhead : ∃ tail, renderItems (item :: items) = c :: tail := by
        cases items with
        | nil => exact ⟨cs, by rw [renderItems, hcs]⟩
        | cons next items => exact ⟨_, by rw [renderItems_cons, hcs, List.cons_append]⟩
      obtain ⟨tail, htail⟩ := hhead
      rw [htail, List.cons_append] at hread ⊢
      rw [takeValue?_bracket hspace hclose, hread]
      rfl

/-! ### Records -/

theorem renderMembers_cons (name : List Char) (value : Json) (next : List Char × Json)
    (members : List (List Char × Json)) : renderMembers ((name, value) :: next :: members) =
      '"' :: (name ++ '"' :: ':' :: (value.render ++ ',' :: renderMembers (next :: members))) := by
  rw [renderMembers]
  · simp
  · exact fun h => nomatch h

theorem renderMembers_singleton (name : List Char) (value : Json) :
    renderMembers [(name, value)] = '"' :: (name ++ '"' :: ':' :: value.render) := by
  rw [renderMembers, List.cons_append]

def writtenMembers (members : List (String × Json)) : List (List Char × Json) :=
  members.map fun member => (escape member.1.toList, member.2)

section Members

variable {name body cs tail before after behind : List Char} {value : Json}
  {members : List (List Char × Json)}

theorem takeMembers?_last (hname : Literal body name) (hbefore : Blank before)
    (hafter : Blank after) (hbehind : Blank behind)
    (h : takeValue? bound cs = some (value, behind ++ '\x7d' :: rest)) :
    takeMembers? (bound + 1) (before ++ '"' :: (body ++ '"' :: (after ++ ':' :: cs))) =
      some ([(body, value)], rest) := by
  simp [takeMembers?, skipSpace_append hbefore, skipSpace_cons (c := '"') rfl, hname.takeBody?,
    skipSpace_append hafter, skipSpace_cons (c := ':') rfl, h, skipSpace_append hbehind,
    skipSpace_cons (c := '\x7d') rfl]

theorem takeMembers?_next (hname : Literal body name) (hbefore : Blank before)
    (hafter : Blank after) (hbehind : Blank behind)
    (h : takeValue? bound cs = some (value, behind ++ ',' :: tail))
    (htail : takeMembers? bound tail = some (members, rest)) :
    takeMembers? (bound + 1) (before ++ '"' :: (body ++ '"' :: (after ++ ':' :: cs))) =
      some ((body, value) :: members, rest) := by
  simp [takeMembers?, skipSpace_append hbefore, skipSpace_cons (c := '"') rfl, hname.takeBody?,
    skipSpace_append hafter, skipSpace_cons (c := ':') rfl, h, skipSpace_append hbehind,
    skipSpace_cons (c := ',') rfl, htail]

end Members

theorem takeValue?_brace {tail : List Char} (hquote : skipSpace cs = '"' :: tail) :
    takeValue? (bound + 1) ('\x7b' :: cs) = (takeMembers? bound cs).map
      fun r => (.object r.1, r.2) := by
  rw [takeValue?, skipSpace_cons (c := '\x7b') rfl]
  simp only [hquote]
  rfl

theorem takeMembers?_render {members : List (String × Json)} (hne : members ≠ [])
    (h : ∀ member ∈ members, ReadsBack member.2)
    (hbound : 2 * (renderMembers (writtenMembers members)).length < bound) :
    takeMembers? bound (renderMembers (writtenMembers members) ++ '\x7d' :: rest) =
      some (writtenMembers members, rest) := by
  induction members generalizing bound with
  | nil => exact absurd rfl hne
  | cons member members ih =>
      obtain ⟨name, value⟩ := member
      obtain ⟨bound, rfl⟩ : ∃ b, bound = b + 1 := ⟨bound - 1, by omega⟩
      have hvalue : ReadsBack value := h (name, value) List.mem_cons_self
      cases members with
      | nil =>
          have hone : writtenMembers [(name, value)] = [(escape name.toList, value)] := rfl
          rw [hone, renderMembers_singleton] at hbound ⊢
          simp only [List.length_cons, List.length_append] at hbound
          have hread := hvalue bound ('\x7d' :: rest) (by omega)
            (endsNumber_cons rfl (by decide) (by decide) rest)
          simpa using takeMembers?_last (literal_escape name.toList) blank_nil blank_nil
            blank_nil hread
      | cons next members =>
          have hmore : writtenMembers ((name, value) :: next :: members) =
              (escape name.toList, value) :: writtenMembers (next :: members) := rfl
          have hnext : writtenMembers (next :: members) =
              (escape next.1.toList, next.2) :: writtenMembers members := rfl
          rw [hmore, hnext, renderMembers_cons, ← hnext] at hbound ⊢
          simp only [List.length_cons, List.length_append] at hbound
          have hrest : takeMembers? bound
              (renderMembers (writtenMembers (next :: members)) ++ '\x7d' :: rest) =
              some (writtenMembers (next :: members), rest) :=
            ih (by simp) (fun m hm => h m (List.mem_cons_of_mem _ hm)) (by omega)
          have hread := hvalue bound
            (',' :: (renderMembers (writtenMembers (next :: members)) ++ '\x7d' :: rest))
            (by omega) (endsNumber_cons rfl (by decide) (by decide) _)
          simpa using takeMembers?_next (literal_escape name.toList) blank_nil blank_nil
            blank_nil hread hrest

theorem readsBack_record {members : List (String × Json)}
    (h : ∀ member ∈ members, ReadsBack member.2) : ReadsBack (.record members) := by
  have hrender : (Json.record members).render =
      '\x7b' :: renderMembers (writtenMembers members) ++ ['\x7d'] := by
    rw [Json.record, render, writtenMembers]
  refine .of_succ (by simp [hrender]) fun bound rest hbound _ => ?_
  rw [hrender, List.length_append, List.length_cons, List.length_singleton] at hbound
  rw [hrender, List.append_assoc, List.cons_append, List.singleton_append]
  cases members with
  | nil => rfl
  | cons member members =>
      have hread : takeMembers? bound
          (renderMembers (writtenMembers (member :: members)) ++ '\x7d' :: rest) =
          some (writtenMembers (member :: members), rest) :=
        takeMembers?_render (by simp) h (by omega)
      have hhead : ∃ tail, renderMembers (writtenMembers (member :: members)) = '"' :: tail := by
        cases members with
        | nil => exact ⟨_, renderMembers_singleton ..⟩
        | cons next members => exact ⟨_, renderMembers_cons ..⟩
      obtain ⟨tail, htail⟩ := hhead
      rw [htail, List.cons_append] at hread ⊢
      rw [takeValue?_brace (skipSpace_cons (c := '"') rfl _), hread]
      rfl

/-! ### Whole values -/

theorem Written.readsBack (h : Written j) : ReadsBack j := by
  induction h with
  | null =>
      refine .of_succ (by simp [render]) fun bound rest _ _ => ?_
      rw [render]
      rfl
  | bool value =>
      refine .of_succ (by cases value <;> simp [render]) fun bound rest _ _ => ?_
      cases value <;> rw [render] <;> rfl
  | integer i =>
      obtain ⟨c, cs, hcs, _⟩ := integer_eq_cons i
      have hrender : (ofInt i).render = (Text.integer i).toList := by rw [ofInt, render]
      refine .of_succ (by simp [hrender, hcs]) fun bound rest _ hrest => ?_
      rw [hrender]
      exact takeValue?_integer i hrest
  | text text =>
      have hrender : (ofText text).render = '"' :: (escape text.toList ++ ['"']) := by
        rw [ofText, render, List.cons_append]
      refine .of_succ (by simp [hrender]) fun bound rest _ _ => ?_
      rw [hrender, List.cons_append, List.append_assoc, List.singleton_append]
      exact takeValue?_literal (literal_escape text.toList)
  | array hwritten ih => exact readsBack_array hwritten ih
  | record _ ih => exact readsBack_record ih

/-- **Reading undoes rendering.** -/
theorem read?_render (h : Written j) : read? j.render = some j := by
  have hread := h.readsBack (2 * j.render.length + 2) [] (by omega) (fun c hc => by cases hc)
  rw [List.append_nil] at hread
  rw [read?, hread]
  rfl

/-! ### Fields and tags -/

theorem namedMembers?_written (members : List (String × Json)) :
    namedMembers? (writtenMembers members) = some members := by
  induction members with
  | nil => rfl
  | cons member members ih =>
      have hstep : writtenMembers (member :: members) =
          (escape member.1.toList, member.2) :: writtenMembers members := rfl
      rw [namedMembers?] at ih
      rw [namedMembers?, hstep, List.mapM_cons, ih]
      simp

/-- A record gives the fields that are known, and passes over the others. -/
theorem record?_record {names : List String} {members : List (String × Json)}
    (hnodup : ((members.filter fun member => names.contains member.1).map (·.1)).Nodup) :
    (record members).record? names =
        some (members.filter fun member => names.contains member.1) := by
  have hnamed := namedMembers?_written members
  rw [writtenMembers] at hnamed
  simp only [record, record?, hnamed]
  exact if_pos hnodup

@[simp] theorem tagged?_record (name : String) (content : Json) :
    (record [(name, content)]).tagged? = some (name, content) := by
  simp [record, tagged?]

@[simp] theorem tag?_ofText (name : String) : (ofText name).tag? = some name := text?_ofText name

end StraightLine.Json
