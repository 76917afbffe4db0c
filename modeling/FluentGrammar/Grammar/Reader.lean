import FluentGrammar.Grammar.Token
import FluentGrammar.Grammar.Validation
import FluentGrammar.Supply.Variables

/-! # The text format, read

    A text is read line by line. `#` begins a comment. A line is blank, a `start` line that
    names the start variable, or a rule `Name ::= body`. A body with a bar in it is a
    selection among variables; any other is a derivation. Without a `start` line the first
    rule belongs to the start variable.

    The first appearance of a name in a text takes a new variable from the supply, and every
    later one means that variable. What a text that cannot be read has taken stays taken.
-/

namespace FluentGrammar

/-! ## Errors -/

/-- Why a text is no grammar. -/
inductive ReadError where
  /-- A line is not well formed. -/
  | malformed (line : Nat) (fault : LineFault)
  /-- An alternative of a selection is a terminal. -/
  | terminalAlternative (line : Nat) (name : String)
  /-- There is a second start line. -/
  | duplicateStart (line : Nat)
  /-- There is neither a rule nor a start line. -/
  | noRules
  /-- The rules have a fault. -/
  | grammar (fault : GrammarError)
deriving DecidableEq

/-- How an unreadable text is reported. -/
def ReadError.diagnostic : ReadError → Diagnostic
  | .malformed line fault =>
    { message := s!"line {line}: " ++ fault.message
      code := "stepwise::text::syntax"
      help := none
      subjects := [] }
  | .terminalAlternative line name =>
    { message := s!"line {line}: selection alternative `{name}` is not a variable"
      code := "stepwise::text::terminal_alternative"
      help := some s!"wrap the terminal in its own rule, e.g. `Name ::= {name}`"
      subjects := [] }
  | .duplicateStart line =>
    { message := s!"line {line}: start variable declared twice"
      code := "stepwise::text::duplicate_start"
      help := none
      subjects := [] }
  | .noRules =>
    { message := "grammar text defines no rules"
      code := "stepwise::text::empty"
      help := none
      subjects := [] }
  | .grammar fault => fault.diagnostic

/-! ## Names -/

/-- The variables that the names of a text stand for so far, and where new ones come from. -/
structure Scope where
  supply : VariableSupply
  known : List (String × Variable)

/-- A step of reading. It keeps the scope also when it fails. -/
abbrev Reading := EStateM ReadError Scope

/-- Fail at a line. -/
def failAt {α : Type} (line : Nat) (fault : LineFault) : Reading α :=
  throw (.malformed line fault)

/-- The outcome of something that can be at fault, at a line. -/
def atLine {α : Type} (line : Nat) : Except LineFault α → Reading α
  | .ok value => pure value
  | .error fault => failAt line fault

/-- The variable that a name stands for. -/
def variableNamed (line : Nat) (name : String) : Reading Variable := do
  if !isVariableName name then failAt line (.notAVariable name)
  let scope ← get
  match scope.known.lookup name with
  | some v => return v
  | none =>
    let (v, supply) := scope.supply.take name
    set { scope with supply := supply, known := (name, v) :: scope.known : Scope }
    return v

/-! ## Rules -/

/-- The alternative that stands between two bars. -/
def readAlternative (line : Nat) : List Token → Reading Variable
  | [.name name params] =>
    if !beginsWithCapital name then throw (.terminalAlternative line name)
    else if params.isSome then failAt line (.variableWithParameters name)
    else variableNamed line name
  | _ => failAt line .alternativeNotSingle

/-- The symbol that a token of a derivation stands for. -/
def readSymbol (line : Nat) : Token → Reading Symbol
  | .name name params => do
    if !beginsWithCapital name then return .term ⟨name, params.getD []⟩
    if params.isSome then failAt line (.variableWithParameters name)
    return .var (← variableNamed line name)
  | _ => failAt line .epsilonNotAlone

/-- The rule with the given left-hand side and body. -/
def readRule (line : Nat) (lhs : Variable) (body : List Char) : Reading Rule := do
  -- A malformed token anywhere in the body comes before any fault of its names.
  let tokens ← atLine line (tokens body)
  if tokens.any Token.isBar then
    return .selection lhs (← (Text.splitBy Token.isBar tokens).mapM (readAlternative line))
  if tokens == [.epsilon] then return .derivation lhs []
  if tokens.contains .epsilon then failAt line .epsilonNotAlone
  return .derivation lhs (← tokens.mapM (readSymbol line))

/-! ## Lines -/

/-- What the lines read so far declare. -/
structure Draft where
  start : Option Variable
  rules : List Rule

/-- A line without its comment and without the blanks around it. -/
def lineContent (line : List Char) : List Char :=
  Text.trim (line.takeWhile (· != '#'))

/-- The name on a start line: the word `start`, and behind a blank the name. -/
def startName? (content : List Char) : Option (List Char) :=
  match Text.behind? "start".toList content with
  | none => none
  | some rest => if rest.head?.all Text.isWhiteSpace then some (Text.trim rest) else none

/-- Add what a line declares. -/
def readLine (draft : Draft) (line : Nat) (text : List Char) : Reading Draft := do
  let content := lineContent text
  if content.isEmpty then return draft
  match startName? content with
  | some name =>
    if draft.start.isSome then throw (.duplicateStart line)
    return { draft with start := some (← variableNamed line (String.ofList name)) }
  | none =>
    match Text.cutAt? "::=".toList content with
    | none => failAt line .noRuleMark
    | some (name, body) =>
      -- The left-hand side takes its variable before the names of the body do.
      let lhs ← variableNamed line (String.ofList (Text.trim name))
      return { draft with rules := draft.rules ++ [← readRule line lhs body] }

/-- Add what the remaining lines declare; `line` is the number of the first of them. -/
def readLines (draft : Draft) (line : Nat) : List (List Char) → Reading Draft
  | [] => return draft
  | text :: rest => do
    let draft ← readLine draft line text
    readLines draft (line + 1) rest

/-- The grammar that a draft declares. -/
def Draft.grammar (draft : Draft) : Except ReadError Grammar :=
  match draft.start.or (draft.rules.head?.map Rule.lhs) with
  | none => .error .noRules
  | some start => (Grammar.ofRules start draft.rules).mapError .grammar

/-- Read a text with variables from a supply. The supply that is left comes with the outcome,
    also when the text cannot be read. -/
def Grammar.readWith (supply : VariableSupply) (text : String) :
    Except ReadError Grammar × VariableSupply :=
  match (readLines ⟨none, []⟩ 1 (Text.lines text.toList)).run ⟨supply, []⟩ with
  | .ok draft scope => (draft.grammar, scope.supply)
  | .error error scope => (.error error, scope.supply)

/-- Read a text, with variables numbered from zero. -/
def Grammar.read (text : String) : Except ReadError Grammar :=
  (Grammar.readWith .fresh text).1

end FluentGrammar
