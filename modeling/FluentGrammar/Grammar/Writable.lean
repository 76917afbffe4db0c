import FluentGrammar.Grammar.Naming
import FluentGrammar.Grammar.Token

/-! # What the text format can spell

    A grammar need not come from a text, and its names may be anything. It can be written down
    and read back when variables carry names of variables, terminals carry identifiers that
    begin with no capital, parameters consist of two words, and names tell variables apart.
-/

namespace FluentGrammar

/-- Characters that end a word of a parameter, and the one that begins a comment. -/
def endsWord (c : Char) : Bool :=
  Text.isWhiteSpace c || c == '(' || c == ')' || c == ',' || c == '#'

/-- Whether this can be a word of a parameter. -/
def isParameterWord (word : String) : Bool :=
  !word.toList.isEmpty && word.toList.all (fun c => !endsWord c)

/-- Whether the parameter can be written. -/
def Parameter.isWritable (p : Parameter) : Bool :=
  isParameterWord p.type && isParameterWord p.name

/-- Whether this is read as one identifier. The letter `ε` in front is the mark for nothing. -/
def isIdentifier (name : String) : Bool :=
  match name.toList with
  | [] => false
  | c :: rest => startsIdentifier c && c != 'ε' && rest.all continuesIdentifier

/-- Whether the terminal can be written. -/
def Terminal.isWritable (t : Terminal) : Bool :=
  t.isEmpty ||
    isIdentifier t.name && !beginsWithCapital t.name && t.params.all Parameter.isWritable

/-- A grammar that can be written down and read back. -/
structure Grammar.Writable (g : Grammar) : Prop where
  /-- A variable has one name. -/
  named_alike : NamedAlike g.occurrences
  /-- A name belongs to one variable. -/
  told_by_name : ToldByName g.occurrences
  /-- The names are names of variables. -/
  names : ∀ v ∈ g.occurrences, isVariableName v.name = true
  /-- The terminals can be written. -/
  terminals : ∀ r ∈ g.rules, ∀ t ∈ r.terminals, t.isWritable = true

end FluentGrammar
