/-! # JSON values

    The values that reports are made of and that stored forms are read from. Objects keep
    the order of their fields. Counts and ids are natural numbers; any other number is only
    ever rejected, so it is kept as it was written.
-/

namespace FluentGrammar

/-- A JSON value. -/
inductive Json where
  | null
  | bool (value : Bool)
  /-- A number written as a natural number. -/
  | natural (value : Nat)
  /-- A number with a sign, a fraction or an exponent, as written. -/
  | decimal (text : String)
  | string (value : String)
  | array (items : List Json)
  | object (fields : List (String × Json))

namespace Json

/-- The value of a field of an object. -/
def field? (name : String) : Json → Option Json
  | .object fields => fields.lookup name
  | _ => none

def asString? : Json → Option String
  | .string s => some s
  | _ => none

def asBool? : Json → Option Bool
  | .bool b => some b
  | _ => none

def asArray? : Json → Option (List Json)
  | .array items => some items
  | _ => none

/-- A natural number below `bound`. -/
def asNaturalBelow? (bound : Nat) : Json → Option Nat
  | .natural n => if n < bound then some n else none
  | _ => none

/-- A list of values, each read by `read`. -/
def asListOf? {α : Type} (read : Json → Option α) (json : Json) : Option (List α) :=
  json.asArray?.bind (fun items => items.mapM read)

end Json

end FluentGrammar
