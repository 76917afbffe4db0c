import FluentGrammar.Json.Value

/-! # JSON text

    Two layouts: compact, without any blank, and indented, with two spaces per level and one
    entry per line. Text stays as it is except for the quote, the backslash and the control
    characters below the space.
-/

namespace FluentGrammar.Json

/-- A control character by its code point in four digits. -/
def controlCode (c : Char) : String :=
  let digits := Nat.toDigits 16 c.toNat
  "\\u" ++ "".pushn '0' (4 - digits.length) ++ String.ofList digits

/-- One character of a JSON string. -/
def escapeChar (c : Char) : String :=
  if c == '"' then "\\\""
  else if c == '\\' then "\\\\"
  else if c == '\x08' then "\\b"
  else if c == '\t' then "\\t"
  else if c == '\n' then "\\n"
  else if c == '\x0c' then "\\f"
  else if c == '\r' then "\\r"
  else if c < ' ' then controlCode c
  else String.singleton c

/-- A text as a JSON string. -/
def quoted (s : String) : String :=
  "\"" ++ String.join (s.toList.map escapeChar) ++ "\""

/-! ## Compact layout -/

mutual

/-- The value without blanks. -/
def compact : Json → String
  | .null => "null"
  | .bool b => if b then "true" else "false"
  | .natural n => toString n
  | .decimal text => text
  | .string s => quoted s
  | .array items => "[" ++ String.intercalate "," (compactItems items) ++ "]"
  | .object fields => "\x7b" ++ String.intercalate "," (compactFields fields) ++ "\x7d"

def compactItems : List Json → List String
  | [] => []
  | item :: rest => compact item :: compactItems rest

def compactFields : List (String × Json) → List String
  | [] => []
  | (name, value) :: rest => (quoted name ++ ":" ++ compact value) :: compactFields rest

end

/-! ## Indented layout -/

/-- The blanks at the beginning of a line of the given depth. -/
def indent (depth : Nat) : String :=
  "".pushn ' ' (2 * depth)

/-- Entries between brackets, one a line; nothing between the brackets if there is none. -/
def bracketed (opening closing : String) (depth : Nat) (entries : List String) : String :=
  if entries.isEmpty then opening ++ closing
  else
    opening ++ "\n" ++
      String.intercalate ",\n" (entries.map (fun entry => indent (depth + 1) ++ entry)) ++
      "\n" ++ indent depth ++ closing

mutual

/-- The value laid out over several lines, its first line at the given depth. -/
def indentedAt (depth : Nat) : Json → String
  | .array items => bracketed "[" "]" depth (indentedItems (depth + 1) items)
  | .object fields => bracketed "\x7b" "\x7d" depth (indentedFields (depth + 1) fields)
  | .null => "null"
  | .bool b => if b then "true" else "false"
  | .natural n => toString n
  | .decimal text => text
  | .string s => quoted s

def indentedItems (depth : Nat) : List Json → List String
  | [] => []
  | item :: rest => indentedAt depth item :: indentedItems depth rest

def indentedFields (depth : Nat) : List (String × Json) → List String
  | [] => []
  | (name, value) :: rest =>
    (quoted name ++ ": " ++ indentedAt depth value) :: indentedFields depth rest

end

/-- The value with two spaces of indentation per level. -/
def indented (json : Json) : String :=
  indentedAt 0 json

end FluentGrammar.Json
