import FluentGrammar.Json.Value
import FluentGrammar.Rewriting.Canonical

/-! # Stored forms, read

    A record is read from an object that has all of its fields, and maybe others, or from an
    array of just its values in order. A case of a sum is read from an object with one field;
    a case without contents also from its name. Only a configuration may lack fields, which
    then have their default.
-/

namespace FluentGrammar

/-! ## Records and sums -/

namespace Json

/-- The values of a record with the given fields. -/
def record? (names : List String) : Json → Option (List Json)
  | .object fields => names.mapM (fun name => fields.lookup name)
  | .array items => if items.length = names.length then some items else none
  | _ => none

/-- The values of a record that may lack some of the given fields. In an array, only the last
    ones can be lacking. -/
def lenientRecord? (names : List String) : Json → Option (List (Option Json))
  | .object fields => some (names.map (fun name => fields.lookup name))
  | .array items =>
    if items.length ≤ names.length then
      some (items.map some ++ List.replicate (names.length - items.length) none)
    else none
  | _ => none

/-- The name of a case of a sum, and its contents if it has any. -/
def case? : Json → Option (String × Option Json)
  | .string name => some (name, none)
  | .object [(name, content)] => some (name, some content)
  | _ => none

/-- The fields of the contents of a case, which have to be an object. -/
def caseRecord? (names : List String) : Json → Option (List Json)
  | .object fields => names.mapM (fun name => fields.lookup name)
  | _ => none

/-- Whether a case has no contents. -/
def isBare : Option Json → Bool
  | none => true
  | some .null => true
  | some _ => false

/-- A number that may be absent. -/
def asOptionalBelow? (bound : Nat) : Json → Option (Option Nat)
  | .null => some none
  | json => (json.asNaturalBelow? bound).map some

end Json

/-- Ids are numbers of 32 bits. -/
def idBound : Nat :=
  UInt32.size

/-- Counts are numbers of 64 bits. -/
def countBound : Nat :=
  UInt64.size

/-! ## Symbols and rules -/

def Parameter.ofJson? (json : Json) : Option Parameter := do
  let [type, name] ← json.record? ["ty", "name"] | none
  return ⟨← type.asString?, ← name.asString?⟩

def Terminal.ofJson? (json : Json) : Option Terminal := do
  let [name, params] ← json.record? ["name", "params"] | none
  return ⟨← name.asString?, ← params.asListOf? Parameter.ofJson?⟩

def Variable.ofJson? (json : Json) : Option Variable := do
  let [id, name] ← json.record? ["id", "name"] | none
  return ⟨← id.asNaturalBelow? idBound, ← name.asString?⟩

def Symbol.ofJson? (json : Json) : Option Symbol := do
  match ← json.case? with
  | ("Terminal", some content) => return .term (← Terminal.ofJson? content)
  | ("Variable", some content) => return .var (← Variable.ofJson? content)
  | _ => none

def Rule.ofJson? (json : Json) : Option Rule := do
  match ← json.case? with
  | ("Derivation", some content) =>
    let [lhs, rhs] ← content.caseRecord? ["lhs", "rhs"] | none
    return .derivation (← Variable.ofJson? lhs) (← rhs.asListOf? Symbol.ofJson?)
  | ("Selection", some content) =>
    let [lhs, alternatives] ← content.caseRecord? ["lhs", "alternatives"] | none
    return .selection (← Variable.ofJson? lhs) (← alternatives.asListOf? Variable.ofJson?)
  | _ => none

def Rule.Shape.ofJson? (json : Json) : Option Rule.Shape := do
  let (name, content) ← json.case?
  if !Json.isBare content then none
  match name with
  | "Derivation" => some .derivation
  | "Selection" => some .selection
  | _ => none

/-! ## Tags, configurations and tallies -/

def Tag.ofJson? (json : Json) : Option Tag := do
  match ← json.case? with
  | ("Full", some content) =>
    let [node] ← content.caseRecord? ["node"] | none
    return .full (← node.asString?)
  | ("PartialSelection", some content) =>
    let [node, required] ← content.caseRecord? ["node", "required"] | none
    return .partialSelection (← node.asString?) (← required.asListOf? Parameter.ofJson?)
  | ("PartialDerivation", some content) =>
    let [node, required, implicit] ←
      content.caseRecord? ["node", "required", "implicit"] | none
    return .partialDerivation (← node.asString?) (← required.asListOf? Parameter.ofJson?)
      (← implicit.asListOf? Variable.ofJson?)
  | ("Bridge", content) => if Json.isBare content then some .bridge else none
  | _ => none

/-- The value of a field that has a default. -/
def fieldOr {α : Type} (fallback : α) (read : Json → Option α) : Option Json → Option α
  | none => some fallback
  | some json => read json

def Config.ofJson? (json : Json) : Option Config := do
  let [detect, limit, fold] ← json.lenientRecord?
    ["detect_unsupported", "max_iterations", "fold_input_empties"] | none
  return {
    detectUnsupported := ← fieldOr Config.default.detectUnsupported Json.asBool? detect
    maxIterations :=
      ← fieldOr Config.default.maxIterations (Json.asOptionalBelow? countBound) limit
    foldInputEmpties := ← fieldOr Config.default.foldInputEmpties Json.asBool? fold }

def Tally.ofJson? (json : Json) : Option Tally := do
  let counts ← json.record? ["iterations", "bridges", "synthesized", "folded", "pruned"]
  let [iterations, bridges, synthesized, folded, pruned] ←
    counts.mapM (Json.asNaturalBelow? countBound) | none
  return ⟨iterations, bridges, synthesized, folded, pruned⟩

end FluentGrammar
