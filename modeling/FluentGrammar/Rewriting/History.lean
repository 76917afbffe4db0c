import FluentGrammar.Grammar.Naming
import FluentGrammar.Grammar.WellFormed
import FluentGrammar.Rewriting.Canonical

/-! # Passes in any order

    The passes need not be run in the order that leads to a canonical form. They may be run one
    by one in any order, a shared prefix may be factored out that was found some passes ago, and
    the session goes on where a pass has failed.
-/

namespace FluentGrammar

/-! ## Moves -/

/-- A pass that is run by itself. -/
inductive Move where
  /-- Bridge terminals. -/
  | bridge
  /-- Fold empty rules. -/
  | fold
  /-- Drop what is unreachable. -/
  | drop
  /-- Factor a shared prefix out. -/
  | factor (target : SharedPrefix)

/-- The pass of a move. -/
def Move.run (m : Move) (g : Grammar) (tags : Tagging) : Pass Tagged :=
  match m with
  | .bridge => bridgeTerminals g tags
  | .fold => foldEmpties g tags
  | .drop => dropUnreachable g tags
  | .factor target => leftFactor g tags target

/-- A grammar with its tags and the session that rewrites it. -/
structure Stage where
  grammar : Grammar
  tags : Tagging
  session : Session

/-- A grammar with its tags and a new session. -/
def Stage.ofGrammar (g : Grammar) (tags : Tagging) : Stage :=
  ⟨g, tags, .ofGrammar g⟩

/-- The stage that a move leads to. A pass that fails leaves the grammar and the tags as they
    were, but what it took from the session stays taken. -/
def Stage.after (stage : Stage) (m : Move) : Stage :=
  match m.run stage.grammar stage.tags stage.session with
  | .ok (g, tags) session => ⟨g, tags, session⟩
  | .error _ session => { stage with session := session }

/-- Every variable of the grammar has a tag. -/
def Tagging.Covers (t : Tagging) (g : Grammar) : Prop :=
  ∀ v ∈ g.vars, ∃ tag, t.require v = .ok tag

/-- How the parts of a stage fit together. -/
structure Stage.Sound (stage : Stage) : Prop where
  valid : stage.grammar.Valid
  /-- A variable has one name. -/
  named_alike : NamedAlike stage.grammar.occurrences
  /-- The session hands out none of the ids in use. -/
  below : ∀ v ∈ stage.grammar.occurrences, v.id < stage.session.ids.issued
  /-- The session hands out none of the names in use. -/
  reserved : ∀ v ∈ stage.grammar.occurrences, stage.session.names.contains v.name = true
  covered : stage.tags.Covers stage.grammar

/-- How a move may fail. Folding and factoring may find a tag that does not suit its rule.
    Factoring may also find that the root has gone, that it is no selection any more, that a
    chain does not lead where it should, or that no alternative of the root is on a chain. -/
def Move.MayFail : Move → PassError → Prop
  | .bridge, _ => False
  | .fold, e => ∃ m, e = .mismatch m
  | .drop, _ => False
  | .factor target, e => e = .grammar (.undefinedRule target.root) ∨
      (∃ v, e = .grammar (.malformedSelection v)) ∨ ∃ m, e = .mismatch m

end FluentGrammar
