import FluentGrammar.Language.Words

/-! # Counting derivations

    How many derivation trees each word of a grammar has. Counts go up to the largest number
    of 64 bits and stay there. A grammar is ambiguous when some word has two trees.
-/

namespace FluentGrammar

/-- The largest count. -/
def countLimit : Nat :=
  UInt64.size - 1

/-- The sum of two counts, which stays at the largest one. -/
def addCounts (m n : Nat) : Nat :=
  min (m + n) countLimit

/-- The product of two counts, which stays at the largest one. -/
def mulCounts (m n : Nat) : Nat :=
  min (m * n) countLimit

/-- A word with the number of its derivation trees. -/
abbrev CountedWord := Word × Nat

/-- A list in the order of its words, with the counts of equal words that stand next to each
    other added up. -/
def mergeCounts : List CountedWord → List CountedWord
  | [] => []
  | (w, n) :: rest =>
    match mergeCounts rest with
    | [] => [(w, n)]
    | (u, m) :: merged =>
      if compare w u == .eq then (w, addCounts n m) :: merged else (w, n) :: (u, m) :: merged

/-- The words in order, each once, with the counts of equal words added up. -/
def collectCounts (entries : List CountedWord) : List CountedWord :=
  mergeCounts (sortOn (·.1) entries)

/-- All concatenations of a word of one list with a word of another, in order. -/
def concatCounts (heads tails : List CountedWord) : List CountedWord :=
  collectCounts
    (heads.flatMap (fun (u, m) => tails.map (fun (w, n) => (u ++ w, mulCounts m n))))

/-- The counted words of a sequence of symbols, each put behind the given ones. -/
def sequenceCounts (limit : Nat) (counts : Variable → Option (List CountedWord)) :
    List Symbol → List CountedWord → Option (List CountedWord)
  | [], acc => some acc
  | .term t :: rest, acc => sequenceCounts limit counts rest (concatCounts acc [(t.word, 1)])
  | .var v :: rest, acc => do
    let tails ← counts v
    if limit < acc.length * tails.length then none
    else sequenceCounts limit counts rest (concatCounts acc tails)

/-- The counted words of several variables together with the given ones. -/
def unionCounts (limit : Nat) (counts : Variable → Option (List CountedWord)) :
    List Variable → List CountedWord → Option (List CountedWord)
  | [], acc => some acc
  | v :: rest, acc => do
    let acc := collectCounts (acc ++ (← counts v))
    if limit < acc.length then none else unionCounts limit counts rest acc

/-- The counted words of a rule, out of those of the variables it refers to. -/
def ruleCounts (limit : Nat) (counts : Variable → Option (List CountedWord)) :
    Rule → Option (List CountedWord)
  | .derivation _ rhs => sequenceCounts limit counts rhs [([], 1)]
  | .selection _ alternatives => unionCounts limit counts alternatives []

/-- The words that a grammar derives with the numbers of their derivation trees, in order,
    unless there are too many words. -/
def Grammar.derivationCounts (g : Grammar) (limit : Nat) : Option (List CountedWord) :=
  g.evaluate (ruleCounts limit)

/-- Whether some word has two derivation trees, unless there are too many words. -/
def Grammar.isAmbiguous (g : Grammar) (limit : Nat) : Option Bool :=
  (g.derivationCounts limit).map (fun counts => counts.any (fun (_, n) => 1 < n))

end FluentGrammar
