import FluentGrammar.Grammar.Basic
import FluentGrammar.Grammar.Error

/-! # Validation

    The faults of a rule set are looked for in a fixed order: two rules for one variable, no
    rule for the start variable, a malformed selection, a reference to a variable without a
    rule, a circle of references. Each is looked for in the order of the left-hand sides, so
    the fault that is reported does not hang on the order in which the rules were given.
-/

namespace FluentGrammar

/-! ## Circles of references -/

/-- Follow the references of `v` depth first. `path` leads from the start of the search to
    the variable that refers to `v`; the variables in `done` are known to lead to no circle.
    A reference back into the path closes a circle, which is the error. Structural recursion
    on `fuel`, the longest path there can be. -/
def searchCircle (references : Variable → List Variable) :
    (fuel : Nat) → (path done : List Variable) → (v : Variable) →
    Except (List Variable) (List Variable)
  | 0, _, done, _ => .ok done
  | fuel + 1, path, done, v => do
    let path := path ++ [v]
    let done ← (references v).foldlM (fun done w =>
      -- The part of the path in front of `w` leads to the circle and is not on it.
      if path.contains w then .error (path.dropWhile (fun u => u != w) ++ [w])
      else if done.contains w then .ok done
      else searchCircle references fuel path done w) done
    return v :: done

/-- The first circle of references among the rules, its first variable repeated at the end. -/
def findCircle (rules : List Rule) : Option (List Variable) :=
  let references := fun v =>
    ((rules.find? (fun r => r.lhs == v)).map Rule.references).getD []
  let search := rules.foldlM (fun done r =>
    if done.contains r.lhs then .ok done
    else searchCircle references rules.length [] done r.lhs) []
  match search with
  | .error circle => some circle
  | .ok _ => none

/-! ## Faults of single rules -/

/-- The first variable of a list that stands in it before. -/
def firstRepeated (vars : List Variable) : Option Variable :=
  go [] vars
where
  go (seen : List Variable) : List Variable → Option Variable
    | [] => none
    | v :: rest => if seen.contains v then some v else go (v :: seen) rest

/-- Whether a rule is a selection with fewer than two alternatives, or with one twice. -/
def Rule.isMalformed : Rule → Bool
  | .derivation .. => false
  | .selection _ alternatives =>
    alternatives.length < 2 || (firstRepeated alternatives).isSome

/-- The first variable a rule refers to that none of the rules belongs to. -/
def Rule.danglingReference (rules : List Rule) (r : Rule) : Option Variable :=
  r.references.find? (fun v => !rules.any (fun s => s.lhs == v))

/-! ## Faults of a rule set -/

/-- The first fault of a start variable and rules in the order of their left-hand sides. -/
def firstFault (start : Variable) (rules : List Rule) : Option GrammarError :=
  ((firstRepeated (rules.map Rule.lhs)).map .duplicateRule).or <|
  (if rules.any (fun r => r.lhs == start) then none else some (.missingStartRule start)).or <|
  ((rules.find? Rule.isMalformed).map (fun r => .malformedSelection r.lhs)).or <|
  ((rules.findSome? (Rule.danglingReference rules)).map .undefinedRule).or <|
  (findCircle rules).map .recursive

/-- The grammar of the given rules, or the first fault of them. -/
def Grammar.ofRules (start : Variable) (rules : List Rule) : Except GrammarError Grammar :=
  let rules := sortRules rules
  match firstFault start rules with
  | some fault => .error fault
  | none => .ok ⟨start, rules⟩

/-- The grammar of rules that come with a start variable or without one. -/
def Grammar.build (start : Option Variable) (rules : List Rule) : Except GrammarError Grammar :=
  match start with
  | none => .error .missingStart
  | some start => Grammar.ofRules start rules

/-! ## Replacing a rule -/

/-- The rule of a variable, which has to have one. -/
def Grammar.rule (g : Grammar) (v : Variable) : Except GrammarError Rule :=
  match g.rule? v with
  | some r => .ok r
  | none => .error (.undefinedRule v)

/-- The grammar with the rule of one of its variables replaced. -/
def Grammar.withRule (g : Grammar) (r : Rule) : Except GrammarError Grammar :=
  if g.contains r.lhs then
    Grammar.ofRules g.start (g.rules.filter (fun s => s.lhs != r.lhs) ++ [r])
  else .error (.undefinedRule r.lhs)

/-! ## What a grammar keeps of its rules -/

theorem Grammar.rules_of_ofRules {start : Variable} {rules : List Rule} {g : Grammar}
    (h : Grammar.ofRules start rules = .ok g) : g = ⟨start, sortRules rules⟩ := by
  unfold ofRules at h
  simp only at h
  split at h
  · cases h
  · exact (Except.ok.inj h).symm

end FluentGrammar
