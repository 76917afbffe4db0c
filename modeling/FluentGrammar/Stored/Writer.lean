import FluentGrammar.Json.Value
import FluentGrammar.Rewriting.Canonical

/-! # Stored forms, written

    The JSON form of each kind of value. A record is an object with its fields in order. A
    case of a sum is an object with one field, named for the case; a case without contents
    is just its name.
-/

namespace FluentGrammar

/-- An array of the forms of several values. -/
def Json.list {α : Type} (write : α → Json) (xs : List α) : Json :=
  .array (xs.map write)

/-- A case of a sum with its contents. -/
def Json.variant (name : String) (content : Json) : Json :=
  .object [(name, content)]

/-! ## Symbols and rules -/

def Parameter.toJson (p : Parameter) : Json :=
  .object [("ty", .string p.type), ("name", .string p.name)]

def Terminal.toJson (t : Terminal) : Json :=
  .object [("name", .string t.name), ("params", .list Parameter.toJson t.params)]

def Variable.toJson (v : Variable) : Json :=
  .object [("id", .natural v.id), ("name", .string v.name)]

def Symbol.toJson : Symbol → Json
  | .term t => .variant "Terminal" t.toJson
  | .var v => .variant "Variable" v.toJson

def Rule.toJson : Rule → Json
  | .derivation lhs rhs =>
    .variant "Derivation" (.object [("lhs", lhs.toJson), ("rhs", .list Symbol.toJson rhs)])
  | .selection lhs alternatives =>
    .variant "Selection"
      (.object [("lhs", lhs.toJson), ("alternatives", .list Variable.toJson alternatives)])

def Rule.Shape.toJson : Rule.Shape → Json
  | .derivation => .string "Derivation"
  | .selection => .string "Selection"

/-! ## Tags, configurations and tallies -/

def Tag.toJson : Tag → Json
  | .full node => .variant "Full" (.object [("node", .string node)])
  | .partialSelection node required =>
    .variant "PartialSelection"
      (.object [("node", .string node), ("required", .list Parameter.toJson required)])
  | .partialDerivation node required implicit =>
    .variant "PartialDerivation"
      (.object [("node", .string node), ("required", .list Parameter.toJson required),
        ("implicit", .list Variable.toJson implicit)])
  | .bridge => .string "Bridge"

def Config.toJson (c : Config) : Json :=
  .object [("detect_unsupported", .bool c.detectUnsupported),
    ("max_iterations", (c.maxIterations.map Json.natural).getD .null),
    ("fold_input_empties", .bool c.foldInputEmpties)]

def Tally.toJson (t : Tally) : Json :=
  .object [("iterations", .natural t.iterations), ("bridges", .natural t.bridges),
    ("synthesized", .natural t.synthesized), ("folded", .natural t.folded),
    ("pruned", .natural t.pruned)]

end FluentGrammar
