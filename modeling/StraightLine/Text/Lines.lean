/-!
# Lines and fields

A source text is a list of lines ended by line feeds, where a carriage return in front of the line
feed belongs to the line break. A line of fields is cut at its commas.
-/

namespace StraightLine.Text

/-- A line without the carriage return that may end it. -/
def dropReturn (line : List Char) : List Char :=
  if line.getLast? = some '\r' then line.dropLast else line

/-- The lines of a text. A carriage return that does not end a line is an ordinary character. -/
def lines (cs : List Char) : List (List Char) := (cs.splitOn '\n').map dropReturn

def fields (cs : List Char) : List (List Char) := cs.splitOn ','

theorem dropReturn_of_not_mem {line : List Char} (h : '\r' ∉ line) : dropReturn line = line := by
  rw [dropReturn, if_neg]
  exact fun hlast => h (List.mem_of_getLast? hlast)

/-- Lines that hold no break are found again in their joined text. -/
theorem lines_intercalate {ls : List (List Char)} (hne : ls ≠ []) (hfeed : ∀ l ∈ ls, '\n' ∉ l)
    (hreturn : ∀ l ∈ ls, '\r' ∉ l) : lines (['\n'].intercalate ls) = ls := by
  rw [lines, List.splitOn_intercalate '\n' hfeed hne,
    List.map_congr_left (fun l hl => dropReturn_of_not_mem (hreturn l hl)), List.map_id']

theorem fields_ne_nil (cs : List Char) : fields cs ≠ [] := List.splitOn_ne_nil ',' cs

end StraightLine.Text
