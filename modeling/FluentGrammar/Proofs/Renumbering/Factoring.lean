import FluentGrammar.Proofs.Renumbering.Passes
import FluentGrammar.Proofs.SharedPrefix.Progress

/-! # Factoring under other ids

    A variable is split along the same chains, into parts with the same names, and what has
    been split is recalled where it was. So what stands on the workbench is the same up to
    ids, and so is the grammar that it makes.
-/

namespace FluentGrammar

variable {f : Nat → Nat} {task task' : FactorTask} {b b' : Workbench}

/-! ## Tags of new rules -/

/-- The parts of a variable under other ids. -/
def Split.renumber (f : Nat → Nat) (split : Split) : Split :=
  ⟨split.full.map (Variable.renumber f), split.part.renumber f⟩

/-- Two workbenches hold the same up to ids. -/
structure Workbench.Under (f : Nat → Nat) (b b' : Workbench) : Prop where
  session : b.session.Under f b'.session
  splits : b'.splits = b.splits.map (Prod.map (Variable.renumber f) (Split.renumber f))
  rules : b'.rules = b.rules.map (Rule.renumber f)
  tags : b'.tags = b.tags.map (Prod.map (Variable.renumber f) (Tag.renumber f))

/-- Two tasks are the same up to ids. -/
structure FactorTask.Under (f : Nat → Nat) (task task' : FactorTask) : Prop where
  grammar : task'.grammar = task.grammar.renumber f
  tags : task.tags.Under f task'.tags
  target : task'.target = task.target.renumber f

theorem FactorTask.Under.symbol (h : task.Under f task') :
    task'.target.symbol = task.target.symbol := by
  rw [h.target]
  rfl

theorem FactorTask.Under.root (h : task.Under f task') :
    task'.target.root = task.target.root.renumber f := by
  rw [h.target]
  rfl

variable {split split' : Variable → Factoring Split}

section Injective

variable (hf : Function.Injective f)

include hf

variable {g : Grammar} {tags tags' : Tagging} {s s' : Session} {target : SharedPrefix}

end Injective

end FluentGrammar
