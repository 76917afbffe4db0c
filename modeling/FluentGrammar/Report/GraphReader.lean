import FluentGrammar.Grammar.Token
import FluentGrammar.Number.Decimal
import FluentGrammar.Report.Graph

/-! # Graphs, read

    The part of the DOT language that graphs are drawn in. A text is cut into tokens and these
    into statements, each of them as far as a semicolon or a brace. A quoted string ends at the
    next quotation mark that has no backslash in front of it, whatever was meant to be quoted.

    The statements of a graph tell which grammar is drawn: the variables are nodes, and edges
    lead to what their rules mention, in order.
-/

namespace FluentGrammar

namespace Dot

/-! ## Tokens -/

/-- A token of the DOT language. -/
inductive Token where
  /-- A name or a number without quotation marks. -/
  | word (text : String)
  /-- What stands between two quotation marks. -/
  | quoted (content : String)
  /-- A quotation mark that none follows. -/
  | unclosed
  /-- The arrow of an edge. -/
  | arrow
  /-- Any other character. -/
  | mark (c : Char)
deriving DecidableEq

/-- Where in a text a character stands, and what of its token stands in front of it. -/
inductive Place where
  | code (word : List Char)
  | quoted (content : List Char)
  | comment

/-- Characters of names and numbers. -/
def isWordCharacter (c : Char) : Bool :=
  c.isAlphanum || c == '_' || 128 ≤ c.toNat

/-- The token that a word is, if there is one. -/
def wordTokens (word : List Char) : List Token :=
  if word.isEmpty then [] else [.word (String.ofList word)]

/-- The tokens of a text, from a place in it. -/
def lex : Place → List Char → List Token
  | .code word, [] => wordTokens word
  | .quoted _, [] => [.unclosed]
  | .comment, [] => []
  | .comment, c :: rest => if c == '\n' then lex (.code []) rest else lex .comment rest
  | .quoted content, c :: rest =>
    if c == '"' && content.getLast? != some '\\' then
      .quoted (String.ofList content) :: lex (.code []) rest
    else lex (.quoted (content ++ [c])) rest
  | .code word, '/' :: '/' :: rest => wordTokens word ++ lex .comment rest
  | .code word, '-' :: '>' :: rest => wordTokens word ++ .arrow :: lex (.code []) rest
  | .code word, c :: rest =>
    if isWordCharacter c then lex (.code (word ++ [c])) rest
    else
      wordTokens word ++
        if c == '"' then lex (.quoted []) rest
        else if c.isWhitespace then lex (.code []) rest
        else .mark c :: lex (.code []) rest

/-- What a name, a number or a quoted string stands for. -/
def Token.text? : Token → Option String
  | .word text => some text
  | .quoted content => some content
  | _ => none

/-- Whether a statement ends with the token. -/
def Token.endsStatement : Token → Bool
  | .mark c => c == ';' || c == '\x7b' || c == '\x7d'
  | _ => false

/-! ## Statements -/

/-- A statement. Attributes are names with values. -/
inductive Statement where
  /-- A graph or a subgraph begins. -/
  | enter (kind name : String)
  /-- It ends. -/
  | leave
  /-- An attribute of a graph. -/
  | setting (key value : String)
  /-- Attributes of every node. -/
  | defaults (attributes : List (String × String))
  | node (id : String) (attributes : List (String × String))
  | edge (source target : String) (attributes : List (String × String))
  /-- No statement of these kinds. -/
  | unreadable
deriving DecidableEq

/-- Attributes with commas between them, and the end of the statement. -/
def readAttributes : List Token → Option (List (String × String))
  | [key, .mark '=', value, .mark ']', .mark ';'] => do
    return [(← key.text?, ← value.text?)]
  | key :: .mark '=' :: value :: .mark ',' :: rest => do
    return (← key.text?, ← value.text?) :: (← readAttributes rest)
  | _ => none

/-- The statement that tokens are. -/
def statement? : List Token → Option Statement
  | [.mark '\x7d'] => some .leave
  | [.word kind, .word name, .mark '\x7b'] => some (.enter kind name)
  | [key, .mark '=', value, .mark ';'] => do return .setting (← key.text?) (← value.text?)
  | subject :: .mark '[' :: rest => do
    let attributes ← readAttributes rest
    if subject == .word "node" then return .defaults attributes
    return .node (← subject.text?) attributes
  | source :: .arrow :: target :: .mark '[' :: rest => do
    return .edge (← source.text?) (← target.text?) (← readAttributes rest)
  | _ => none

/-- The tokens of one statement after the other. -/
def pieces : List Token → List (List Token)
  | [] => []
  | t :: rest =>
    if t.endsStatement then [t] :: pieces rest
    else
      match pieces rest with
      | [] => [[t]]
      | piece :: others => (t :: piece) :: others

/-- The statements of a text. -/
def readChars (cs : List Char) : List Statement :=
  (pieces (lex (.code []) cs)).map (fun piece => (statement? piece).getD .unreadable)

/-- The statements of a graph. -/
def read (text : String) : List Statement :=
  readChars text.toList

/-! ## The grammar that is drawn -/

/-- The id of the node that the statement makes. -/
def Statement.nodeId? : Statement → Option String
  | .node id _ => some id
  | _ => none

/-- The variable whose node the statement makes, and how the node is drawn. -/
def Statement.drawn? : Statement → Option (Variable × List (String × String))
  | .node id attributes =>
    match id.toList with
    | 'v' :: digits =>
      (attributes.lookup "label").map (fun name => (⟨Number.ofDigits digits, name⟩, attributes))
    | _ => none
  | _ => none

/-- Where an edge from the given node leads. -/
def Statement.target? (source : String) : Statement → Option String
  | .edge origin target _ => if origin == source then some target else none
  | _ => none

/-- The terminal that a text spells. -/
def terminal? (text : List Char) : Option Terminal :=
  match tokens text with
  | .ok [.name name params] => some ⟨name, params.getD []⟩
  | _ => none

/-- The symbol whose node has the given id. -/
def symbol? (vars : List Variable) (id : String) : Option Symbol :=
  match id.toList with
  | 't' :: '_' :: text => (terminal? text).map .term
  | _ => (vars.find? (fun v => v.nodeName == id)).map .var

/-- The rule that is drawn for a variable: a selection if its node is a diamond. -/
def rule? (statements : List Statement) (vars : List Variable) (v : Variable)
    (attributes : List (String × String)) : Option Rule := do
  let symbols ← (statements.filterMap (Statement.target? v.nodeName)).mapM (symbol? vars)
  if attributes.lookup "shape" == some "diamond" then
    return .selection v (← symbols.mapM Symbol.toVariable?)
  return .derivation v symbols

/-- The grammar that statements draw. The node of the start variable has a double border. -/
def grammar? (statements : List Statement) : Option Grammar := do
  let drawn := statements.filterMap Statement.drawn?
  let (start, _) ← drawn.find? (fun (_, attributes) => (attributes.lookup "peripheries").isSome)
  let rules ← drawn.mapM (fun (v, attributes) => rule? statements (drawn.map (·.1)) v attributes)
  return ⟨start, rules⟩

/-- Every quotation mark in the text has a backslash in front of it. -/
def WellQuoted (cs : List Char) : Prop :=
  ∀ front back, cs = front ++ '"' :: back → front.getLast? = some '\\'

/-! ## Nodes of known variables

    A variable may be called anything, and its name is copied into the label of its node as it
    is, with quotation marks and line feeds. Whoever knows the variables can tell where each
    label ends, and so how the node is drawn.
-/

/-- The beginning of the line that makes the node of a variable, as far as the label. -/
def labelled (v : Variable) : String :=
  "  " ++ v.nodeName ++ " [label=\"" ++ v.name ++ "\""

/-- How the nodes of the variables are drawn, in lines that begin the text. -/
def nodes? : List Variable → List Char → Option (List (Variable × List (String × String)))
  | [], _ => some []
  | v :: vars, text => do
    let (line, below) ← Text.cutAt? ['\n'] (← Text.behind? (labelled v).toList text)
    let attributes ←
      readAttributes (.word "label" :: .mark '=' :: .quoted v.name :: lex (.code []) line)
    return (v, attributes) :: (← nodes? vars below)

/-- How the node of a variable is drawn in a graph of the variables, which has the nodes of
    them all below its first empty line. -/
def node? (vars : List Variable) (text : String) (v : Variable) :
    Option (List (String × String)) := do
  let (_, below) ← Text.cutAt? ['\n', '\n'] text.toList
  let drawn ← nodes? vars below
  (drawn.find? (fun d => d.1 == v)).map Prod.snd

end Dot

/-! ## The statements of a grammar -/

/-- The id of the node of a symbol. -/
def Symbol.nodeId : Symbol → String
  | .term t => "t_" ++ t.text
  | .var v => v.nodeName

/-- The colour of variables with the given tag. -/
def Tag.colour? : Tag → Option String
  | .partialSelection .. => some "lightyellow"
  | .partialDerivation .. => some "lightyellow"
  | .bridge => some "lightgray"
  | .full _ => none

/-- The colour of a variable: a conflict counts more than a tag. -/
def GraphOptions.colour? (options : GraphOptions) (g : Grammar) (v : Variable) : Option String :=
  if (options.marked g).contains v then some "orange"
  else (options.tags.bind (fun t => t.tag? v)).bind Tag.colour?

/-- The attributes of a node with a colour. -/
def colourAttributes : Option String → List (String × String)
  | none => []
  | some colour => [("style", "filled"), ("fillcolor", colour)]

/-- How the node of the variable of a rule is drawn. -/
def Rule.nodeAttributes (g : Grammar) (options : GraphOptions) (r : Rule) :
    List (String × String) :=
  [("shape", if r.isSelection then "diamond" else "ellipse")] ++
    colourAttributes (options.colour? g r.lhs) ++
    (if r.lhs == g.start then [("peripheries", "2")] else [])

/-- The node of the variable of a rule. -/
def Rule.nodeStatement (g : Grammar) (options : GraphOptions) (r : Rule) : Dot.Statement :=
  .node r.lhs.nodeName (("label", r.lhs.name) :: r.nodeAttributes g options)

/-- The node of a terminal. -/
def Terminal.nodeStatement (t : Terminal) : Dot.Statement :=
  .node (Symbol.term t).nodeId
    (("label", t.text) :: ("shape", "box") :: colourAttributes (some "lightblue"))

/-- Where the edges of a rule lead, and how they are drawn: to each alternative, or to each symbol
    with its position. -/
def Rule.edges : Rule → List (String × List (String × String))
  | .selection _ alternatives => alternatives.map (fun v => (v.nodeName, [("style", "dashed")]))
  | .derivation _ rhs =>
    rhs.zipIdx.map (fun (x, position) => (x.nodeId, [("label", toString position)]))

/-- The edges that leave the variable of a rule. -/
def Rule.edgeStatements (r : Rule) : List Dot.Statement :=
  r.edges.map (fun (target, attributes) => .edge r.lhs.nodeName target attributes)

/-- What every graph begins with. -/
def headerStatements : List Dot.Statement :=
  [.enter "digraph" "Grammar", .setting "rankdir" "LR", .defaults [("shape", "box")]]

/-- The legend. -/
def legendStatements : List Dot.Statement :=
  [.enter "subgraph" "cluster_legend", .setting "label" "Legend", .setting "style" "dashed",
    .node "legend_conflict" (("label", "Shared prefix") :: ("shape", "diamond") ::
      colourAttributes (some "orange")), .leave]

/-- The statements of the graph of a grammar. -/
def Grammar.statements (g : Grammar) (options : GraphOptions) : List Dot.Statement :=
  headerStatements ++ g.rules.map (Rule.nodeStatement g options) ++
    g.terminals.map Terminal.nodeStatement ++ g.rules.flatMap Rule.edgeStatements ++
    (if (options.marked g).isEmpty then [] else legendStatements) ++ [.leave]

end FluentGrammar
