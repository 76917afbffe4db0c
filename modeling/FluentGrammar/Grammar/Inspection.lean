import FluentGrammar.Grammar.Basic
import FluentGrammar.Text.CharClass

/-! # The inspection format

    A grammar with all of its structure spelled out on one line: every constructor and field
    by name, variables with their ids, texts as quoted literals. A literal is a text in double
    quotes, written so that every character of it can be seen: the usual control characters by
    a letter, the quote and the backslash after a backslash, and whatever cannot be seen where
    it stands by its code point.
-/

namespace FluentGrammar

/-! ## Quoted literals -/

namespace Text

/-- A code point in small hexadecimal digits, as in `\u{301}`. -/
def escapeCode (c : Char) : String :=
  "\\u\x7b" ++ String.ofList (Nat.toDigits 16 c.toNat) ++ "\x7d"

/-- One character of a quoted literal. -/
def escapeChar (c : Char) : String :=
  if c == '\x00' then "\\0"
  else if c == '\t' then "\\t"
  else if c == '\r' then "\\r"
  else if c == '\n' then "\\n"
  else if c == '\\' then "\\\\"
  else if c == '"' then "\\\""
  else if isVisible c then String.singleton c
  else escapeCode c

/-- The text as a quoted literal. -/
def quoted (s : String) : String :=
  "\"" ++ String.join (s.toList.map escapeChar) ++ "\""

example : escapeCode '\u0301' = "\\u\x7b301\x7d" ∧ quoted "a\"b" = "\"a\\\"b\"" := by
  decide +kernel

end Text

/-! ## Grammars -/

/-- A list between square brackets. -/
def inspectList (items : List String) : String :=
  "[" ++ String.intercalate ", " items ++ "]"

/-- A constructor with named fields. -/
def inspectRecord (name : String) (fields : List (String × String)) : String :=
  name ++ " \x7b " ++
    String.intercalate ", " (fields.map (fun (field, value) => field ++ ": " ++ value)) ++
    " \x7d"

/-- A parameter, spelled out. -/
def Parameter.inspect (p : Parameter) : String :=
  inspectRecord "Parameter" [("ty", Text.quoted p.type), ("name", Text.quoted p.name)]

/-- A terminal, spelled out. -/
def Terminal.inspect (t : Terminal) : String :=
  inspectRecord "Terminal"
    [("name", Text.quoted t.name), ("params", inspectList (t.params.map Parameter.inspect))]

/-- A symbol, spelled out. -/
def Symbol.inspect : Symbol → String
  | .term t => "Terminal(" ++ t.inspect ++ ")"
  | .var v => "Variable(" ++ v.label ++ ")"

/-- A rule, spelled out. -/
def Rule.inspect : Rule → String
  | .derivation lhs rhs =>
    inspectRecord "Derivation"
      [("lhs", lhs.label), ("rhs", inspectList (rhs.map Symbol.inspect))]
  | .selection lhs alternatives =>
    inspectRecord "Selection"
      [("lhs", lhs.label), ("alternatives", inspectList (alternatives.map Variable.label))]

/-- A grammar, spelled out. -/
def Grammar.inspect (g : Grammar) : String :=
  inspectRecord "Grammar"
    [("start", g.start.label), ("rules", inspectList (g.rules.map Rule.inspect))]

end FluentGrammar
