import FluentGrammar.Grammar.Basic
import Mathlib.SetTheory.Cardinal.NatCard

/-! # Derivation trees

    A tree of a variable says which alternative is taken at every selection on the way to a
    word. It is told apart from other trees of the same word by these choices alone. The
    number of trees of a word measures how ambiguous the word is.
-/

namespace FluentGrammar

mutual

/-- A derivation tree of a variable. -/
inductive Tree (g : Grammar) : Variable → Type where
  /-- The trees of the symbols of its derivation. -/
  | derivation {v lhs : Variable} {rhs : List Symbol}
      (rule : g.rule? v = some (.derivation lhs rhs)) (below : Forest g rhs) : Tree g v
  /-- The tree of one of its alternatives. -/
  | selection {v lhs u : Variable} {alternatives : List Variable}
      (rule : g.rule? v = some (.selection lhs alternatives)) (choice : u ∈ alternatives)
      (below : Tree g u) : Tree g v

/-- Derivation trees of a sequence of symbols. -/
inductive Forest (g : Grammar) : List Symbol → Type where
  /-- No symbols have no trees. -/
  | nil : Forest g []
  /-- A terminal is a leaf. -/
  | term {t : Terminal} {rest : List Symbol} (behind : Forest g rest) :
      Forest g (.term t :: rest)
  /-- A variable has a tree of its own. -/
  | var {v : Variable} {rest : List Symbol} (front : Tree g v) (behind : Forest g rest) :
      Forest g (.var v :: rest)

end

variable {g : Grammar}

mutual

/-- The word of a tree: what its leaves stand for, in order. -/
def Tree.word {v : Variable} : Tree g v → Word
  | .derivation _ below => below.word
  | .selection _ _ below => below.word

/-- The word of a sequence of trees. -/
def Forest.word {symbols : List Symbol} : Forest g symbols → Word
  | .nil => []
  | @Forest.term _ t _ behind => t.word ++ behind.word
  | .var front behind => front.word ++ behind.word

end

/-- The trees of a variable that have a word. -/
abbrev TreesOf (g : Grammar) (v : Variable) (w : Word) : Type :=
  {T : Tree g v // T.word = w}

/-- The number of derivation trees of a word. -/
noncomputable def treeCount (g : Grammar) (v : Variable) (w : Word) : Nat :=
  Nat.card (TreesOf g v w)

/-- No word of the start variable has two derivation trees. -/
def Grammar.Unambiguous (g : Grammar) : Prop :=
  ∀ T T' : Tree g g.start, T.word = T'.word → T = T'

end FluentGrammar
