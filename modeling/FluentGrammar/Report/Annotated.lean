import FluentGrammar.Grammar.Basic
import FluentGrammar.Tag.Tagging
import FluentGrammar.Text.Pieces

/-! # Annotated text

    The text format with the tag of each variable in a comment behind its rule. It reads
    back as the same grammar.
-/

namespace FluentGrammar

/-- The column at which comments begin. -/
def commentColumn : Nat :=
  40

/-- The first variable of a grammar with the given name. -/
def Grammar.variableNamed? (g : Grammar) (name : String) : Option Variable :=
  g.vars.find? (fun v => v.name == name)

/-- The tag of the variable whose rule stands on a line. -/
def Grammar.lineTag? (g : Grammar) (tags : Tagging) (line : List Char) : Option Tag := do
  let (name, _) ← Text.cutAt? " ::=".toList line
  let v ← g.variableNamed? (String.ofList name)
  tags.tag? v

/-- A line with its comment. -/
def Grammar.annotateLine (g : Grammar) (tags : Tagging) (line : List Char) : String :=
  match g.lineTag? tags line with
  | some tag => Text.padRight commentColumn (String.ofList line) ++ " # " ++ tag.text
  | none => String.ofList line

/-- The text of a grammar with the tags in comments. -/
def Grammar.annotatedText (g : Grammar) (tags : Tagging) : String :=
  String.join ((Text.lines g.text.toList).map (fun line => g.annotateLine tags line ++ "\n"))

end FluentGrammar
