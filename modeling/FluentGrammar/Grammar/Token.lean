import FluentGrammar.Grammar.Symbol
import FluentGrammar.Text.Pieces

/-! # Tokens of a rule body

    A body is made of names, the bar between alternatives, and the mark `ε` for nothing. An
    identifier may carry a parameter list in parentheses. The name `<empty>` of the empty
    terminal is a token of its own; it takes no parameters.
-/

namespace FluentGrammar

/-! ## Identifiers -/

/-- Characters that an identifier may begin with. -/
def startsIdentifier (c : Char) : Bool :=
  Text.isAlphabetic c || c == '_'

/-- Characters that an identifier may go on with. -/
def continuesIdentifier (c : Char) : Bool :=
  Text.isAlphanumeric c || c == '_'

/-- Whether a name begins with a capital, which makes it the name of a variable. -/
def beginsWithCapital (name : String) : Bool :=
  name.toList.head?.any Text.isUppercase

/-- Whether a name is the name of a variable and an identifier throughout. -/
def isVariableName (name : String) : Bool :=
  beginsWithCapital name && name.toList.all continuesIdentifier

/-! ## Faults -/

/-- What is wrong with a line of the text format. -/
inductive LineFault where
  /-- The line is neither a rule nor a start line. -/
  | noRuleMark
  /-- A name stands where a variable has to. -/
  | notAVariable (name : String)
  /-- A variable carries a parameter list. -/
  | variableWithParameters (name : String)
  /-- There is not exactly one name between two bars. -/
  | alternativeNotSingle
  /-- The mark `ε` stands beside other tokens. -/
  | epsilonNotAlone
  /-- A character that no token begins with. -/
  | unexpectedCharacter (c : Char)
  /-- A parenthesis is opened inside a parameter list. -/
  | nestedParentheses
  /-- A parameter list is not closed. -/
  | unclosedParameters
  /-- A parameter is not a type and a name. -/
  | malformedParameter (text : String)
deriving DecidableEq

/-- The sentence that reports a fault. -/
def LineFault.message : LineFault → String
  | .noRuleMark => "expected `Name ::= body` or `start Name`"
  | .notAVariable name => s!"`{name}` is not a variable name"
  | .variableWithParameters name => s!"variable `{name}` cannot take parameters"
  | .alternativeNotSingle => "each selection alternative must be a single variable"
  | .epsilonNotAlone => "`ε` must stand alone"
  | .unexpectedCharacter c => s!"unexpected character `{c}`"
  | .nestedParentheses => "nested parentheses in parameter list"
  | .unclosedParameters => "unclosed parameter list"
  | .malformedParameter text => s!"parameter `{text}` must be `Type name`"

/-! ## Parameter lists -/

/-- The text up to the closing parenthesis, and the text behind it. -/
def closeParenthesis : List Char → Except LineFault (List Char × List Char)
  | [] => .error .unclosedParameters
  | c :: rest =>
    if c == ')' then .ok ([], rest)
    else if c == '(' then .error .nestedParentheses
    else (closeParenthesis rest).map (fun (inside, after) => (c :: inside, after))

/-- One parameter: a type and a name. -/
def readParameter (text : List Char) : Except LineFault Parameter :=
  match Text.words text with
  | [type, name] => .ok ⟨String.ofList type, String.ofList name⟩
  | _ => .error (.malformedParameter (String.ofList (Text.trim text)))

/-- The parameters between two parentheses, with a comma between any two of them. -/
def readParameters (inside : List Char) : Except LineFault (List Parameter) :=
  let inside := Text.trim inside
  if inside.isEmpty then .ok []
  else (Text.splitBy (· == ',') inside).mapM readParameter

/-- The parameter list at the front of the text, if a parenthesis is opened there, and the
    text behind it. -/
def readParameterList (cs : List Char) :
    Except LineFault (Option (List Parameter) × List Char) :=
  match cs with
  | '(' :: rest => do
    let (inside, after) ← closeParenthesis rest
    let params ← readParameters inside
    return (some params, after)
  | _ => .ok (none, cs)

/-! ## Tokens -/

/-- A token of a rule body. -/
inductive Token where
  /-- A name, with a parameter list or without one. -/
  | name (text : String) (params : Option (List Parameter))
  /-- The bar between two alternatives. -/
  | bar
  /-- The mark for nothing. -/
  | epsilon
deriving DecidableEq

/-- Whether the token is a bar. -/
def Token.isBar (t : Token) : Bool :=
  t == .bar

theorem length_closeParenthesis {cs inside after : List Char}
    (h : closeParenthesis cs = .ok (inside, after)) : after.length < cs.length := by
  induction cs generalizing inside after with
  | nil => cases h
  | cons c rest ih =>
    simp only [closeParenthesis] at h
    split at h
    · cases h; exact Nat.lt_succ_self _
    · split at h
      · cases h
      · cases hr : closeParenthesis rest with
        | error e => rw [hr] at h; cases h
        | ok pair =>
          rw [hr] at h
          cases h
          exact Nat.lt_succ_of_lt (ih hr)

theorem length_readParameterList {cs after : List Char} {params : Option (List Parameter)}
    (h : readParameterList cs = .ok (params, after)) : after.length ≤ cs.length := by
  unfold readParameterList at h
  split at h
  · rename_i rest
    cases hc : closeParenthesis rest with
    | error e => simp [hc, bind, Except.bind] at h
    | ok pair =>
      obtain ⟨inside, rest'⟩ := pair
      have hlen := length_closeParenthesis hc
      cases hp : readParameters inside with
      | error e => simp [hc, hp, bind, Except.bind] at h
      | ok ps =>
        simp only [hc, hp, bind, Except.bind, pure, Except.pure] at h
        cases h
        simp only [List.length_cons]
        omega
  · cases h; exact Nat.le_refl _

theorem length_dropWhile_le {α : Type} (p : α → Bool) (xs : List α) :
    (xs.dropWhile p).length ≤ xs.length :=
  (List.dropWhile_suffix p).length_le

/-- The tokens of a rule body. -/
def tokens (cs : List Char) : Except LineFault (List Token) :=
  match cs with
  | [] => .ok []
  | c :: rest =>
    if Text.isWhiteSpace c then tokens rest
    else if c == '|' then return .bar :: (← tokens rest)
    else if c == 'ε' then return .epsilon :: (← tokens rest)
    else
      match _he : Text.behind? Terminal.empty.name.toList (c :: rest) with
      | some after => return .name Terminal.empty.name none :: (← tokens after)
      | none =>
        if startsIdentifier c then
          let name := String.ofList (c :: rest.takeWhile continuesIdentifier)
          let behind := (rest.dropWhile continuesIdentifier).dropWhile Text.isWhiteSpace
          match _hp : readParameterList behind with
          | .error fault => .error fault
          | .ok (params, after) => return .name name params :: (← tokens after)
        else .error (.unexpectedCharacter c)
termination_by cs.length
decreasing_by
  · exact Nat.lt_succ_self _
  · exact Nat.lt_succ_self _
  · exact Nat.lt_succ_self _
  · have := Text.length_of_behind? _he
    have : 0 < Terminal.empty.name.toList.length := by decide
    omega
  · have h₁ := length_readParameterList _hp
    have h₂ : behind.length ≤ (rest.dropWhile continuesIdentifier).length :=
      length_dropWhile_le Text.isWhiteSpace (rest.dropWhile continuesIdentifier)
    have h₃ := length_dropWhile_le continuesIdentifier rest
    simp only [List.length_cons]
    omega

end FluentGrammar
