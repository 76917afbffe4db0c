import FluentGrammar.Json.Value
import FluentGrammar.Number.Decimal

/-! # JSON text, read

    A value with nothing but blanks around it. A number with neither sign, fraction nor
    exponent is a natural number; any other keeps its digits as written. Of two fields of one
    name in an object the later one counts.
-/

namespace FluentGrammar.Json

/-! ## Blanks and numbers -/

/-- The blanks of JSON. -/
def isBlank (c : Char) : Bool :=
  c == ' ' || c == '\t' || c == '\n' || c == '\r'

/-- The text without the blanks it begins with. -/
def skipBlanks (cs : List Char) : List Char :=
  cs.dropWhile isBlank

/-- The digits that the text begins with, at least one, and the rest. -/
def readDigits (cs : List Char) : Option (List Char × List Char) :=
  match cs.takeWhile Char.isDigit with
  | [] => none
  | digits => some (digits, cs.dropWhile Char.isDigit)

/-- The digits before the point; a zero among them stands alone. -/
def readWhole (cs : List Char) : Option (List Char × List Char) :=
  match cs with
  | '0' :: rest => some (['0'], rest)
  | _ => readDigits cs

/-- A point and the digits behind it, or nothing. -/
def readFraction (cs : List Char) : Option (List Char × List Char) :=
  match cs with
  | '.' :: rest => (readDigits rest).map (fun (digits, after) => ('.' :: digits, after))
  | _ => some ([], cs)

/-- The digits of an exponent behind its sign. -/
def readExponentDigits (mark : List Char) (cs : List Char) :
    Option (List Char × List Char) :=
  (readDigits cs).map (fun (digits, after) => (mark ++ digits, after))

/-- An exponent, or nothing. -/
def readExponent (cs : List Char) : Option (List Char × List Char) :=
  match cs with
  | e :: sign :: rest =>
    if e == 'e' || e == 'E' then
      if sign == '+' || sign == '-' then readExponentDigits [e, sign] rest
      else readExponentDigits [e] (sign :: rest)
    else some ([], cs)
  | [e] => if e == 'e' || e == 'E' then none else some ([], cs)
  | [] => some ([], [])

/-- A number. -/
def readNumber (cs : List Char) : Option (Json × List Char) := do
  let (sign, cs) := match cs with
    | '-' :: rest => (['-'], rest)
    | _ => ([], cs)
  let (whole, cs) ← readWhole cs
  let (fraction, cs) ← readFraction cs
  let (exponent, cs) ← readExponent cs
  if sign.isEmpty && fraction.isEmpty && exponent.isEmpty then
    return (.natural (Number.ofDigits whole), cs)
  return (.decimal (String.ofList (sign ++ whole ++ fraction ++ exponent)), cs)

/-! ## Strings -/

/-- The value of a hexadecimal digit. -/
def hexDigit? (c : Char) : Option Nat :=
  if c.isDigit then some (c.toNat - '0'.toNat)
  else if 'a' ≤ c ∧ c ≤ 'f' then some (c.toNat - 'a'.toNat + 10)
  else if 'A' ≤ c ∧ c ≤ 'F' then some (c.toNat - 'A'.toNat + 10)
  else none

/-- The value of four hexadecimal digits. -/
def hexValue? (a b c d : Char) : Option Nat := do
  return (((← hexDigit? a) * 16 + (← hexDigit? b)) * 16 + (← hexDigit? c)) * 16 + (← hexDigit? d)

/-- The code point of a high and a low surrogate. -/
def surrogatePair? (high low : Nat) : Option Nat :=
  if 0xD800 ≤ high ∧ high < 0xDC00 ∧ 0xDC00 ≤ low ∧ low < 0xE000 then
    some (0x10000 + (high - 0xD800) * 0x400 + (low - 0xDC00))
  else none

/-- The character that a letter behind a backslash stands for. -/
def escaped? (c : Char) : Option Char :=
  match c with
  | '"' => some '"'
  | '\\' => some '\\'
  | '/' => some '/'
  | 'b' => some '\x08'
  | 'f' => some '\x0c'
  | 'n' => some '\n'
  | 'r' => some '\r'
  | 't' => some '\t'
  | _ => none

/-- Whether a number is a half of a surrogate pair. -/
def isSurrogate (n : Nat) : Bool :=
  0xD800 ≤ n && n < 0xE000

/-- The characters of a string up to its closing quote, and the text behind that. Structural
    recursion on `fuel`: every step reads a character at least. -/
def readCharacters : (fuel : Nat) → List Char → Option (List Char × List Char)
  | 0, _ => none
  | _ + 1, [] => none
  | _ + 1, '"' :: rest => some ([], rest)
  | fuel + 1, '\\' :: 'u' :: a :: b :: c :: d :: rest => do
    let first ← hexValue? a b c d
    if isSurrogate first then
      match rest with
      | '\\' :: 'u' :: e :: f :: g :: h :: rest =>
        let code ← surrogatePair? first (← hexValue? e f g h)
        let (cs, after) ← readCharacters fuel rest
        return (Char.ofNat code :: cs, after)
      | _ => none
    else
      let (cs, after) ← readCharacters fuel rest
      return (Char.ofNat first :: cs, after)
  | fuel + 1, '\\' :: c :: rest => do
    let meant ← escaped? c
    let (cs, after) ← readCharacters fuel rest
    return (meant :: cs, after)
  | fuel + 1, c :: rest => do
    if c < ' ' || c == '\\' then none
    let (cs, after) ← readCharacters fuel rest
    return (c :: cs, after)

/-- The string behind an opening quote. -/
def readString (fuel : Nat) (cs : List Char) : Option (String × List Char) :=
  (readCharacters fuel cs).map (fun (text, after) => (String.ofList text, after))

/-! ## Values -/

/-- Fields with one of them set; a later value takes the place of an earlier one. -/
def setField (name : String) (value : Json) : List (String × Json) → List (String × Json)
  | [] => [(name, value)]
  | (other, old) :: rest =>
    if other == name then (name, value) :: rest else (other, old) :: setField name value rest

mutual

/-- A value, with blanks before it. Structural recursion on `fuel`, as in the two functions
    below: of two steps, one reads a character at least. -/
def readValue : (fuel : Nat) → List Char → Option (Json × List Char)
  | 0, _ => none
  | fuel + 1, cs =>
    match skipBlanks cs with
    | 'n' :: 'u' :: 'l' :: 'l' :: rest => some (.null, rest)
    | 't' :: 'r' :: 'u' :: 'e' :: rest => some (.bool true, rest)
    | 'f' :: 'a' :: 'l' :: 's' :: 'e' :: rest => some (.bool false, rest)
    | '"' :: rest => (readString fuel rest).map (fun (s, after) => (.string s, after))
    | '[' :: rest =>
      match skipBlanks rest with
      | ']' :: after => some (.array [], after)
      | _ => (readItems fuel rest).map (fun (items, after) => (.array items, after))
    | '\x7b' :: rest =>
      match skipBlanks rest with
      | '\x7d' :: after => some (.object [], after)
      | _ => (readFields fuel rest []).map (fun (fields, after) => (.object fields, after))
    | other => readNumber other

/-- The items of an array up to its closing bracket. -/
def readItems : (fuel : Nat) → List Char → Option (List Json × List Char)
  | 0, _ => none
  | fuel + 1, cs => do
    let (item, cs) ← readValue fuel cs
    match skipBlanks cs with
    | ']' :: after => return ([item], after)
    | ',' :: rest =>
      let (items, after) ← readItems fuel rest
      return (item :: items, after)
    | _ => none

/-- The fields of an object up to its closing brace, behind those read before. -/
def readFields : (fuel : Nat) → List Char → List (String × Json) →
    Option (List (String × Json) × List Char)
  | 0, _, _ => none
  | fuel + 1, cs, before =>
    match skipBlanks cs with
    | '"' :: rest => do
      let (name, cs) ← readString fuel rest
      match skipBlanks cs with
      | ':' :: cs =>
        let (value, cs) ← readValue fuel cs
        let fields := setField name value before
        match skipBlanks cs with
        | '\x7d' :: after => return (fields, after)
        | ',' :: rest => readFields fuel rest fields
        | _ => none
      | _ => none
    | _ => none

end

/-- The value that a text holds. -/
def read? (text : String) : Option Json := do
  let cs := text.toList
  let (value, rest) ← readValue (2 * (cs.length + 1)) cs
  if (skipBlanks rest).isEmpty then some value else none

end FluentGrammar.Json
