import FluentGrammar.Chain.Enumeration
import FluentGrammar.Tag.Tagging

/-! # Graphs

    A grammar drawn as a graph in the DOT language. Variables are nodes: diamonds for
    selections and ellipses for derivations, the start variable with a double border.
    Terminals are blue boxes. A dashed edge leads from a selection to each alternative, and
    an edge with a position on it from a derivation to each symbol.

    Variables can be coloured by their tags, and selections with a conflict in orange: those
    with two chains that read the same terminal first.
-/

namespace FluentGrammar

/-! ## Conflicts -/

/-- What the terminus of a chain starts with, unless that is the empty terminal. -/
def Grammar.chainTerminal? (g : Grammar) (c : Chain) : Option Terminal :=
  ((g.rule? c.terminus).bind Rule.leadingTerminal?).filter (fun t => !t.isEmpty)

/-- Whether an element stands in a list twice. -/
def hasRepeated {α : Type} [BEq α] : List α → Bool
  | [] => false
  | x :: rest => rest.contains x || hasRepeated rest

/-- Whether two chains of a variable read the same terminal first. -/
def Grammar.chainsCollide (g : Grammar) (v : Variable) : Bool :=
  match g.chains v with
  | .ok chains => hasRepeated (chains.filterMap g.chainTerminal?)
  | .error _ => false

/-- Whether a rule is a selection with a conflict. -/
def Grammar.hasConflict (g : Grammar) (r : Rule) : Bool :=
  r.isSelection && g.chainsCollide r.lhs

/-- The selections with a conflict, in order. -/
def Grammar.conflicts (g : Grammar) : List Variable :=
  (g.rules.filter g.hasConflict).map Rule.lhs

/-! ## Statements -/

/-- The name of the node of a variable. -/
def Variable.nodeName (v : Variable) : String :=
  "v" ++ toString v.id

/-- The name of the node of a terminal. -/
def Terminal.nodeName (t : Terminal) : String :=
  "\"t_" ++ t.text ++ "\""

/-- The name of the node of a symbol. -/
def Symbol.nodeName : Symbol → String
  | .term t => t.nodeName
  | .var v => v.nodeName

/-- A statement with attributes. -/
def statement (subject attributes : String) : String :=
  "  " ++ subject ++ " [" ++ attributes ++ "];"

/-- The attributes that fill a node with a colour. -/
def filled (colour : String) : String :=
  ", style=filled, fillcolor=" ++ colour

/-- How the node of a variable with the given tag is filled. -/
def Tag.fill : Tag → String
  | .partialSelection .. => filled "lightyellow"
  | .partialDerivation .. => filled "lightyellow"
  | .bridge => filled "lightgray"
  | .full _ => ""

/-- What is drawn besides the rules. -/
structure GraphOptions where
  /-- Colour variables by their tags. -/
  tags : Option Tagging
  /-- Mark selections with a conflict. -/
  showConflicts : Bool

/-- Draw the rules only. -/
def GraphOptions.plain : GraphOptions :=
  ⟨none, false⟩

/-- The conflicts that are marked. -/
def GraphOptions.marked (options : GraphOptions) (g : Grammar) : List Variable :=
  if options.showConflicts then g.conflicts else []

/-- How the node of a variable is filled: a conflict counts more than a tag. -/
def variableFill (tags : Option Tagging) (marked : List Variable) (v : Variable) : String :=
  if marked.contains v then filled "orange"
  else ((tags.bind (fun t => t.tag? v)).map Tag.fill).getD ""

/-- The node of the variable of a rule. -/
def variableNode (g : Grammar) (tags : Option Tagging) (marked : List Variable)
    (r : Rule) : String :=
  let shape := if r.isSelection then "diamond" else "ellipse"
  let fill := variableFill tags marked r.lhs
  let border := if r.lhs == g.start then ", peripheries=2" else ""
  statement r.lhs.nodeName ("label=\"" ++ r.lhs.name ++ "\", shape=" ++ shape ++ fill ++ border)

/-- The node of a terminal. -/
def terminalNode (t : Terminal) : String :=
  statement t.nodeName ("label=\"" ++ t.text ++ "\", shape=box" ++ filled "lightblue")

/-- The edges that leave the variable of a rule. -/
def ruleEdges : Rule → List String
  | .selection lhs alternatives =>
    alternatives.map (fun v => statement (lhs.nodeName ++ " -> " ++ v.nodeName) "style=dashed")
  | .derivation lhs rhs =>
    rhs.zipIdx.map (fun (s, position) =>
      statement (lhs.nodeName ++ " -> " ++ s.nodeName) ("label=\"" ++ toString position ++ "\""))

/-! ## The graph -/

/-- The lines before the nodes. -/
def graphHeader : List String :=
  ["digraph Grammar \x7b", "  rankdir=LR;", "  node [shape=box];"]

/-- The lines that explain the colour of conflicts. -/
def conflictLegend : List String :=
  ["  // Legend", "  subgraph cluster_legend \x7b", "    label=\"Legend\";",
    "    style=dashed;",
    "    legend_conflict [label=\"Shared prefix\", shape=diamond" ++ filled "orange" ++ "];",
    "  \x7d"]

/-- The lines of the graph. -/
def Grammar.graphLines (g : Grammar) (options : GraphOptions) : List String :=
  let marked := options.marked g
  let nodes := g.rules.map (variableNode g options.tags marked)
  let terminals := "  // Terminals" :: g.terminals.map terminalNode
  let edges := g.rules.flatMap ruleEdges
  let legend := if marked.isEmpty then [] else "" :: conflictLegend
  graphHeader ++ "" :: nodes ++ "" :: terminals ++ "" :: edges ++ legend ++ ["\x7d"]

/-- The graph of a grammar. -/
def Grammar.graph (g : Grammar) (options : GraphOptions) : String :=
  String.join ((g.graphLines options).map (fun line => line ++ "\n"))

end FluentGrammar
