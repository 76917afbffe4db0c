import FluentGrammar.Grammar.Reader
import FluentGrammar.Grammar.Writable

/-! # Layout of a text

    The same grammar can be laid out in many ways: with blanks between tokens, with comments,
    and with lines that say nothing. Here is what it means that a text is another one in a
    wider layout, and that it is another one with its lines in a different order. Where a token
    ends is said in terms of its characters and of the one behind it.
-/

namespace FluentGrammar

/-- The text is made of white space, or empty. -/
def AllBlank (cs : List Char) : Prop :=
  ∀ c ∈ cs, Text.isWhiteSpace c = true

instance (cs : List Char) : Decidable (AllBlank cs) :=
  List.decidableBAll (fun c => Text.isWhiteSpace c = true) cs

/-- The text is a comment, or empty. -/
def IsComment (cs : List Char) : Prop :=
  ∀ c ∈ cs.head?, c = '#'

instance (cs : List Char) : Decidable (IsComment cs) :=
  Option.decidableForallMem cs.head?

/-! ## Bodies -/

/-- What stands between two parentheses, with white space added between words and commas. -/
inductive SpacedParameters : List Char → List Char → Prop where
  | nil : SpacedParameters [] []
  /-- White space is added. -/
  | added {c : Char} {cs cs' : List Char} (hc : Text.isWhiteSpace c = true)
      (h : SpacedParameters cs cs') : SpacedParameters cs (c :: cs')
  /-- White space is kept. -/
  | kept {c : Char} {cs cs' : List Char} (hc : Text.isWhiteSpace c = true)
      (h : SpacedParameters cs cs') : SpacedParameters (c :: cs) (c :: cs')
  | comma {cs cs' : List Char} (h : SpacedParameters cs cs') :
      SpacedParameters (',' :: cs) (',' :: cs')
  /-- A whole word. -/
  | word {word : String} {cs cs' : List Char} (hword : isParameterWord word = true)
      (hend : ∀ c ∈ cs.head?, Text.isWhiteSpace c = true ∨ c = ',')
      (h : SpacedParameters cs cs') : SpacedParameters (word.toList ++ cs) (word.toList ++ cs')

/-- The body of a rule, with white space added between tokens and within parameter lists. -/
inductive SpacedBody : List Char → List Char → Prop where
  | nil : SpacedBody [] []
  /-- White space is added. -/
  | added {c : Char} {cs cs' : List Char} (hc : Text.isWhiteSpace c = true)
      (h : SpacedBody cs cs') : SpacedBody cs (c :: cs')
  /-- White space is kept. -/
  | kept {c : Char} {cs cs' : List Char} (hc : Text.isWhiteSpace c = true)
      (h : SpacedBody cs cs') : SpacedBody (c :: cs) (c :: cs')
  | bar {cs cs' : List Char} (h : SpacedBody cs cs') : SpacedBody ('|' :: cs) ('|' :: cs')
  | epsilon {cs cs' : List Char} (h : SpacedBody cs cs') : SpacedBody ('ε' :: cs) ('ε' :: cs')
  | empty {cs cs' : List Char} (h : SpacedBody cs cs') :
      SpacedBody (Terminal.empty.name.toList ++ cs) (Terminal.empty.name.toList ++ cs')
  /-- A whole identifier. -/
  | identifier {name : String} {cs cs' : List Char} (hname : isIdentifier name = true)
      (hend : ∀ c ∈ cs.head?, continuesIdentifier c = false) (h : SpacedBody cs cs') :
      SpacedBody (name.toList ++ cs) (name.toList ++ cs')
  /-- An identifier with a parameter list, which may stand away from it. -/
  | call {name : String} {gap gap' inside inside' cs cs' : List Char}
      (hname : isIdentifier name = true) (hgap : AllBlank gap) (hgap' : AllBlank gap')
      (hinside : SpacedParameters inside inside') (h : SpacedBody cs cs') :
      SpacedBody (name.toList ++ (gap ++ '(' :: (inside ++ ')' :: cs)))
        (name.toList ++ (gap' ++ '(' :: (inside' ++ ')' :: cs')))

/-! ## Lines -/

/-- A line in another layout: there may be another comment behind it, and other white space
    around its parts. -/
inductive RelaidLine : List Char → List Char → Prop where
  /-- A line without content. -/
  | blank {gap gap' comment comment' : List Char} (hgap : AllBlank gap) (hgap' : AllBlank gap')
      (hcomment : IsComment comment) (hcomment' : IsComment comment') :
      RelaidLine (gap ++ comment) (gap' ++ comment')
  /-- A start line. There has to be white space in front of the name. -/
  | start {name : String} {front middle back front' middle' back' comment comment' : List Char}
      (hname : isVariableName name = true) (hfront : AllBlank front) (hfront' : AllBlank front')
      (hmiddle : AllBlank middle ∧ middle ≠ []) (hmiddle' : AllBlank middle' ∧ middle' ≠ [])
      (hback : AllBlank back) (hback' : AllBlank back') (hcomment : IsComment comment)
      (hcomment' : IsComment comment') :
      RelaidLine (front ++ ("start".toList ++ (middle ++ name.toList) ++ back) ++ comment)
        (front' ++ ("start".toList ++ (middle' ++ name.toList) ++ back') ++ comment')
  /-- A rule. White space behind the body is no part of it. -/
  | rule {name : String} {front back tail front' back' tail' : List Char}
      {body body' comment comment' : List Char} (hname : isVariableName name = true)
      (hfront : AllBlank front) (hfront' : AllBlank front') (hback : AllBlank back)
      (hback' : AllBlank back') (hbody : SpacedBody body body')
      (hlast : ∀ c ∈ body.getLast?, Text.isWhiteSpace c = false)
      (hlast' : ∀ c ∈ body'.getLast?, Text.isWhiteSpace c = false) (htail : AllBlank tail)
      (htail' : AllBlank tail') (hcomment : IsComment comment) (hcomment' : IsComment comment') :
      RelaidLine (front ++ (name.toList ++ (back ++ ("::=".toList ++ body)) ++ tail) ++ comment)
        (front' ++ (name.toList ++ (back' ++ ("::=".toList ++ body')) ++ tail') ++ comment')

/-- Lines in another layout, and lines without content among them. -/
inductive RelaidLines : List (List Char) → List (List Char) → Prop where
  | nil : RelaidLines [] []
  | line {line line' : List Char} {lines lines' : List (List Char)} (hline : RelaidLine line line')
      (h : RelaidLines lines lines') : RelaidLines (line :: lines) (line' :: lines')
  | inserted {gap comment : List Char} {lines lines' : List (List Char)} (hgap : AllBlank gap)
      (hcomment : IsComment comment) (h : RelaidLines lines lines') :
      RelaidLines lines ((gap ++ comment) :: lines')

/-! ## Texts -/

/-- The second text is the first one in another layout. -/
def Relaid (text text' : String) : Prop :=
  RelaidLines (Text.lines text.toList) (Text.lines text'.toList)

/-- The contents of the lines of a text, without comments and the white space around them. -/
def lineContents (text : String) : List (List Char) :=
  (Text.lines text.toList).map lineContent

/-- The second text has the lines of the first one in any order; comments and the white space
    around lines may differ. -/
def Reordered (text text' : String) : Prop :=
  (lineContents text').Perm (lineContents text)

instance (text text' : String) : Decidable (Reordered text text') :=
  inferInstanceAs (Decidable (List.Perm _ _))

/-- One of the lines of the text names the start variable. -/
def HasStartLine (text : String) : Prop :=
  ∃ content ∈ lineContents text, ∃ name, startName? content = some name

end FluentGrammar
