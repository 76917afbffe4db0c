import FluentGrammar.Grammar.Layout

/-! # Names that a text has accepted

    A text asks for variables by their names, one line after the other. Reading accepts the
    names that are legal, and stops at the first fault. Which names it has accepted until then
    depends on the text alone: not on the variables that they stand for, and not on the supply
    that these come from.

    Several texts can be read with one supply. Each of them begins without any names.
-/

namespace FluentGrammar

/-- The names that reading accepts, in order, and whether it goes on behind them. -/
structure Acceptance where
  names : List String
  goesOn : Bool

namespace Acceptance

/-- No name is asked for. -/
def proceed : Acceptance :=
  ⟨[], true⟩

/-- Reading stops. -/
def stop : Acceptance :=
  ⟨[], false⟩

/-- What comes later counts only if reading goes on. -/
def andThen (a b : Acceptance) : Acceptance :=
  if a.goesOn then ⟨a.names ++ b.names, b.goesOn⟩ else a

/-- One after the other. -/
def each {α : Type} (f : α → Acceptance) : List α → Acceptance
  | [] => proceed
  | x :: rest => (f x).andThen (each f rest)

theorem andThen_proceed (a : Acceptance) : a.andThen proceed = a := by
  obtain ⟨names, goesOn⟩ := a
  cases goesOn
  · rfl
  · simp [andThen, proceed]

end Acceptance

namespace Grammar

end Grammar

end FluentGrammar
