import FluentGrammar.Grammar.Basic

/-! # Reachable variables

    A variable is reachable when references lead to it from the start variable. Edges that
    are not visible in the rules can be added: a derivation that builds an empty rule
    implicitly does not refer to it any more, but still needs it.
-/

namespace FluentGrammar

/-- An edge from one variable to another. -/
abbrev Edge := Variable × Variable

/-- The targets of the edges that leave a variable, in order. -/
def targetsFrom (edges : List Edge) (v : Variable) : List Variable :=
  (edges.filter (fun e => e.1 == v)).map (·.2)

namespace Grammar

/-- The variables that a variable leads to: its references, then its extra edges. -/
def successors (g : Grammar) (extra : List Edge) (v : Variable) : List Variable :=
  ((g.rule? v).map Rule.references).getD [] ++ targetsFrom extra v

/-- Visit the variables on `pending`, the last one first, and what they lead to. Structural
    recursion on `fuel`: every visit takes one variable off `pending`. -/
def collectReachable (next : Variable → List Variable) :
    (fuel : Nat) → (pending seen : List Variable) → List Variable
  | 0, _, seen => seen
  | _ + 1, [], seen => seen
  | fuel + 1, v :: pending, seen =>
    if seen.contains v then collectReachable next fuel pending seen
    else collectReachable next fuel ((next v).reverse ++ pending) (v :: seen)

/-- The variables reachable from the start variable, each once. A variable is put on the
    pending list once for each reference and each edge that leads to it, and the start
    variable once more. -/
def reachable (g : Grammar) (extra : List Edge) : List Variable :=
  let visits := 1 + (g.rules.flatMap Rule.references).length + extra.length
  collectReachable (g.successors extra) visits [g.start] []

/-- The grammar without the rules of unreachable variables, and those variables in order.
    Dropping such rules cannot introduce a fault. -/
def prune (g : Grammar) (extra : List Edge) : Grammar × List Variable :=
  let reached := g.reachable extra
  let (kept, dropped) := g.rules.partition (fun r => reached.contains r.lhs)
  (⟨g.start, kept⟩, dropped.map Rule.lhs)

end Grammar

end FluentGrammar
