import FluentGrammar.Grammar.Evaluation

/-! # The language of a grammar

    A grammar without circles derives finitely many strings, which can be listed. The list
    is given up when it grows beyond a limit, for any variable on the way.
-/

namespace FluentGrammar

/-- All concatenations of a word of one list with a word of another, in order. -/
def concatWords (heads tails : List Word) : List Word :=
  sortedSet (heads.flatMap (fun u => tails.map (fun w => u ++ w)))

/-- The words of a sequence of symbols, each put behind the given ones. Where a variable is
    put behind words, the number of pairs may not exceed the limit. -/
def sequenceWords (limit : Nat) (words : Variable → Option (List Word)) :
    List Symbol → List Word → Option (List Word)
  | [], acc => some acc
  | .term t :: rest, acc => sequenceWords limit words rest (concatWords acc [t.word])
  | .var v :: rest, acc => do
    let tails ← words v
    if limit < acc.length * tails.length then none
    else sequenceWords limit words rest (concatWords acc tails)

/-- The words of several variables together with the given ones. Their number may not exceed
    the limit at any time. -/
def unionWords (limit : Nat) (words : Variable → Option (List Word)) :
    List Variable → List Word → Option (List Word)
  | [], acc => some acc
  | v :: rest, acc => do
    let acc := sortedSet (acc ++ (← words v))
    if limit < acc.length then none else unionWords limit words rest acc

/-- The words of a rule, out of the words of the variables it refers to. -/
def ruleWords (limit : Nat) (words : Variable → Option (List Word)) :
    Rule → Option (List Word)
  | .derivation _ rhs => sequenceWords limit words rhs [[]]
  | .selection _ alternatives => unionWords limit words alternatives []

/-- The words that a grammar derives, in order, unless there are too many. -/
def Grammar.language (g : Grammar) (limit : Nat) : Option (List Word) :=
  g.evaluate (ruleWords limit)

end FluentGrammar
