import FluentGrammar.Grammar.Basic

/-! # Derivation

    What it means that a variable derives a word. A derivation rule derives the concatenations
    of words of its symbols, a selection what one of its alternatives derives. The enumerators
    of words compute this relation; the passes are to keep it.
-/

namespace FluentGrammar

mutual

/-- A variable derives a word. -/
inductive Derives (g : Grammar) : Variable → Word → Prop where
  /-- The symbols of its derivation do. -/
  | derivation {v lhs : Variable} {rhs : List Symbol} {w : Word}
      (rule : g.rule? v = some (.derivation lhs rhs)) (symbols : DerivesAll g rhs w) :
      Derives g v w
  /-- One of its alternatives does. -/
  | selection {v lhs u : Variable} {alternatives : List Variable} {w : Word}
      (rule : g.rule? v = some (.selection lhs alternatives)) (choice : u ∈ alternatives)
      (chosen : Derives g u w) : Derives g v w

/-- A sequence of symbols derives a word. -/
inductive DerivesAll (g : Grammar) : List Symbol → Word → Prop where
  /-- No symbols derive the empty word. -/
  | nil : DerivesAll g [] []
  /-- A terminal derives its own word. -/
  | term {t : Terminal} {rest : List Symbol} {w : Word} (behind : DerivesAll g rest w) :
      DerivesAll g (.term t :: rest) (t.word ++ w)
  /-- A variable derives one of its words. -/
  | var {v : Variable} {rest : List Symbol} {u w : Word} (front : Derives g v u)
      (behind : DerivesAll g rest w) : DerivesAll g (.var v :: rest) (u ++ w)

end

/-! ## Inversion -/

variable {g : Grammar}

theorem derives_iff_of_derivation {v lhs : Variable} {rhs : List Symbol} {w : Word}
    (rule : g.rule? v = some (.derivation lhs rhs)) : Derives g v w ↔ DerivesAll g rhs w := by
  constructor
  · intro h
    cases h with
    | derivation rule' symbols =>
      rw [rule] at rule'
      cases rule'
      exact symbols
    | selection rule' choice chosen =>
      rw [rule] at rule'
      cases rule'
  · exact Derives.derivation rule

theorem derives_iff_of_selection {v lhs : Variable} {alternatives : List Variable} {w : Word}
    (rule : g.rule? v = some (.selection lhs alternatives)) :
    Derives g v w ↔ ∃ u ∈ alternatives, Derives g u w := by
  constructor
  · intro h
    cases h with
    | derivation rule' symbols =>
      rw [rule] at rule'
      cases rule'
    | selection rule' choice chosen =>
      rw [rule] at rule'
      cases rule'
      exact ⟨_, choice, chosen⟩
  · rintro ⟨u, choice, chosen⟩
    exact .selection rule choice chosen

/-- What a variable derives hangs on its id alone. -/
theorem Derives.congr {v u : Variable} (hid : v.id = u.id) {w : Word} (h : Derives g v w) :
    Derives g u w := by
  cases h with
  | derivation rule symbols =>
    rw [Grammar.rule?_congr hid] at rule
    exact .derivation rule symbols
  | selection rule choice chosen =>
    rw [Grammar.rule?_congr hid] at rule
    exact .selection rule choice chosen

@[simp] theorem derivesAll_nil {w : Word} : DerivesAll g [] w ↔ w = [] := by
  constructor
  · intro h
    cases h
    rfl
  · rintro rfl
    exact .nil

@[simp] theorem derivesAll_term {t : Terminal} {rest : List Symbol} {w : Word} :
    DerivesAll g (.term t :: rest) w ↔ ∃ u, w = t.word ++ u ∧ DerivesAll g rest u := by
  constructor
  · intro h
    cases h with
    | term behind => exact ⟨_, rfl, behind⟩
  · rintro ⟨u, rfl, behind⟩
    exact .term behind

@[simp] theorem derivesAll_var {v : Variable} {rest : List Symbol} {w : Word} :
    DerivesAll g (.var v :: rest) w ↔
      ∃ u₁ u₂, w = u₁ ++ u₂ ∧ Derives g v u₁ ∧ DerivesAll g rest u₂ := by
  constructor
  · intro h
    cases h with
    | var front behind => exact ⟨_, _, rfl, front, behind⟩
  · rintro ⟨u₁, u₂, rfl, front, behind⟩
    exact .var front behind

/-- A concatenation of sequences derives the concatenations of their words. -/
theorem derivesAll_append {front behind : List Symbol} {w : Word} :
    DerivesAll g (front ++ behind) w ↔
      ∃ u₁ u₂, w = u₁ ++ u₂ ∧ DerivesAll g front u₁ ∧ DerivesAll g behind u₂ := by
  induction front generalizing w with
  | nil =>
    simp only [List.nil_append, derivesAll_nil]
    constructor
    · intro h
      exact ⟨[], w, rfl, rfl, h⟩
    · rintro ⟨_, _, rfl, rfl, h⟩
      exact h
  | cons s rest ih =>
    cases s with
    | term t =>
      simp only [List.cons_append, derivesAll_term, ih]
      constructor
      · rintro ⟨_, rfl, u₁, u₂, rfl, h₁, h₂⟩
        exact ⟨t.word ++ u₁, u₂, (List.append_assoc _ _ _).symm, ⟨u₁, rfl, h₁⟩, h₂⟩
      · rintro ⟨_, u₂, rfl, ⟨u₁, rfl, h₁⟩, h₂⟩
        exact ⟨u₁ ++ u₂, List.append_assoc _ _ _, u₁, u₂, rfl, h₁, h₂⟩
    | var v =>
      simp only [List.cons_append, derivesAll_var, ih]
      constructor
      · rintro ⟨a, _, rfl, ha, u₁, u₂, rfl, h₁, h₂⟩
        exact ⟨a ++ u₁, u₂, (List.append_assoc _ _ _).symm, ⟨a, u₁, rfl, ha, h₁⟩, h₂⟩
      · rintro ⟨_, u₂, rfl, ⟨a, u₁, rfl, ha, h₁⟩, h₂⟩
        exact ⟨a, u₁ ++ u₂, List.append_assoc _ _ _, ha, u₁, u₂, rfl, h₁, h₂⟩

end FluentGrammar
