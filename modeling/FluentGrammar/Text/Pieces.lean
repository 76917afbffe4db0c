import FluentGrammar.Text.CharClass

/-! # Cutting text into pieces

    Trimming, lines, words and separators, on lists of characters. Each operation is a
    recursion on the text, so that what it keeps and what it drops can be read off.
-/

namespace FluentGrammar.Text

/-! ## Trimming -/

/-- The text without the white space it begins with. -/
def trimStart (cs : List Char) : List Char :=
  cs.dropWhile isWhiteSpace

/-- The text without the white space it ends with. -/
def trimEnd (cs : List Char) : List Char :=
  (cs.reverse.dropWhile isWhiteSpace).reverse

/-- The text without the white space at either end. -/
def trim (cs : List Char) : List Char :=
  trimEnd (trimStart cs)

/-! ## Separators -/

/-- The pieces between separators, empty ones included: one more piece than separators. -/
def splitBy {α : Type} (isSeparator : α → Bool) : List α → List (List α)
  | [] => [[]]
  | c :: rest =>
    if isSeparator c then [] :: splitBy isSeparator rest
    else
      match splitBy isSeparator rest with
      | [] => [[c]]
      | piece :: pieces => (c :: piece) :: pieces

theorem splitBy_ne_nil {α : Type} (isSeparator : α → Bool) (cs : List α) :
    splitBy isSeparator cs ≠ [] := by
  cases cs with
  | nil => simp [splitBy]
  | cons c rest =>
    simp only [splitBy]
    split
    · simp
    · split <;> simp

/-- The maximal runs without white space. -/
def words (cs : List Char) : List (List Char) :=
  (splitBy isWhiteSpace cs).filter (fun piece => !piece.isEmpty)

/-- What stands behind a mark that the text begins with. -/
def behind? {α : Type} [BEq α] : (mark text : List α) → Option (List α)
  | [], text => some text
  | _ :: _, [] => none
  | m :: mark, c :: text => if m == c then behind? mark text else none

theorem length_of_behind? {α : Type} [BEq α] {mark text rest : List α}
    (h : behind? mark text = some rest) : rest.length + mark.length = text.length := by
  induction mark generalizing text with
  | nil => cases h; rfl
  | cons m mark ih =>
    cases text with
    | nil => cases h
    | cons c text =>
      simp only [behind?] at h
      split at h
      · have := ih h
        simp only [List.length_cons]
        omega
      · cases h

/-- The text before and after the first occurrence of `mark`, if there is one. -/
def cutAt? (mark : List Char) : List Char → Option (List Char × List Char)
  | [] => if mark.isEmpty then some ([], []) else none
  | c :: rest =>
    match behind? mark (c :: rest) with
    | some after => some ([], after)
    | none => (cutAt? mark rest).map (fun (before, after) => (c :: before, after))

/-! ## Lines -/

/-- A line without the carriage return it may end with. -/
def dropReturn (line : List Char) : List Char :=
  if line.getLast? == some '\r' then line.dropLast else line

/-- Lines out of the pieces between line feeds: a piece that a line feed ended may also end
    with a carriage return, and nothing after the last line feed is no line. -/
def closeLines : List (List Char) → List (List Char)
  | [] => []
  | [last] => if last.isEmpty then [] else [last]
  | piece :: next :: rest => dropReturn piece :: closeLines (next :: rest)

/-- The lines of a text. A line feed ends a line, with or without a carriage return before
    it; a carriage return alone does not. -/
def lines (cs : List Char) : List (List Char) :=
  closeLines (splitBy (· == '\n') cs)

example : (lines "a\r\nb\rc\n\n".toList).map String.ofList = ["a", "b\rc", ""] := by
  decide +kernel

/-! ## Padding -/

/-- The text filled up with spaces on the right to at least `width` characters. -/
def padRight (width : Nat) (text : String) : String :=
  text ++ "".pushn ' ' (width - text.length)

end FluentGrammar.Text
