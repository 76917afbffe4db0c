import FluentGrammar.Grammar.Basic

/-! # Names and numbers of variables

    A variable is its id, and a name is what it is printed under. Where the two go together,
    as in a grammar that was read from a text, either one tells which variable is meant, and
    the ids may be exchanged for others without a change to anything that is printed.
-/

namespace FluentGrammar

/-! ## Occurrences -/

/-- The variables that a rule mentions, its own first. -/
def Rule.mentions (r : Rule) : List Variable :=
  r.lhs :: r.references

/-- Every occurrence of a variable in a grammar. -/
def Grammar.occurrences (g : Grammar) : List Variable :=
  g.start :: g.rules.flatMap Rule.mentions

/-- Occurrences of the same variable carry the same name. -/
def NamedAlike (vars : List Variable) : Prop :=
  ∀ v ∈ vars, ∀ w ∈ vars, v.id = w.id → v.name = w.name

/-- Occurrences under the same name are of the same variable. -/
def ToldByName (vars : List Variable) : Prop :=
  ∀ v ∈ vars, ∀ w ∈ vars, v.name = w.name → v.id = w.id

/-! ## Other ids -/

section Renumber

variable (f : Nat → Nat)

/-- The variable under another id. -/
def Variable.renumber (v : Variable) : Variable :=
  ⟨f v.id, v.name⟩

/-- The symbol with its variable under another id. -/
def Symbol.renumber : Symbol → Symbol
  | .term t => .term t
  | .var v => .var (v.renumber f)

/-- The rule with its variables under other ids. -/
def Rule.renumber : Rule → Rule
  | .derivation lhs rhs => .derivation (lhs.renumber f) (rhs.map (Symbol.renumber f))
  | .selection lhs alternatives =>
    .selection (lhs.renumber f) (alternatives.map (Variable.renumber f))

/-- The grammar with its variables under other ids; names, terminals and the order of
    everything stay. -/
def Grammar.renumber (g : Grammar) : Grammar :=
  ⟨g.start.renumber f, g.rules.map (Rule.renumber f)⟩

end Renumber

/-! ## What other ids leave alone -/

variable {f : Nat → Nat}

@[simp] theorem Variable.renumber_id (v : Variable) : (v.renumber f).id = f v.id := rfl

@[simp] theorem Variable.renumber_name (v : Variable) : (v.renumber f).name = v.name := rfl

@[simp] theorem Symbol.renumber_text (x : Symbol) : (x.renumber f).text = x.text := by
  cases x <;> rfl

@[simp] theorem Rule.renumber_lhs (r : Rule) : (r.renumber f).lhs = r.lhs.renumber f := by
  cases r <;> rfl

theorem Rule.renumber_references (r : Rule) :
    (r.renumber f).references = r.references.map (Variable.renumber f) := by
  cases r with
  | selection lhs alternatives => rfl
  | derivation lhs rhs =>
    simp only [renumber, references, List.filterMap_map, List.map_filterMap]
    congr 1
    funext x
    cases x <;> rfl

@[simp] theorem Rule.renumber_text (r : Rule) : (r.renumber f).text = r.text := by
  cases r with
  | selection lhs alternatives =>
    have hnames : (alternatives.map (Variable.renumber f)).map (·.name) =
        alternatives.map (·.name) := by
      rw [List.map_map]
      rfl
    cases alternatives with
    | nil => rfl
    | cons v rest =>
      simp only [text, renumber, body, Rule.lhs]
      rw [← hnames]
      rfl
  | derivation lhs rhs =>
    have htexts : (rhs.map (Symbol.renumber f)).map (fun s => " " ++ s.text) =
        rhs.map (fun s => " " ++ s.text) := by
      rw [List.map_map]
      exact List.map_congr_left fun x _ => by simp
    cases rhs with
    | nil => rfl
    | cons x rest =>
      simp only [text, renumber, body, Rule.lhs]
      rw [← htexts]
      rfl

theorem Rule.mem_mentions {r : Rule} {v : Variable} :
    v ∈ r.mentions ↔ v = r.lhs ∨ v ∈ r.references := by
  simp [mentions]

namespace Grammar

variable {g : Grammar} {r : Rule} {v : Variable}

theorem start_mem_occurrences : g.start ∈ g.occurrences :=
  List.mem_cons_self ..

theorem mem_occurrences_of_mentions (hr : r ∈ g.rules) (hv : v ∈ r.mentions) :
    v ∈ g.occurrences :=
  List.mem_cons_of_mem _ (List.mem_flatMap_of_mem hr hv)

theorem lhs_mem_occurrences (hr : r ∈ g.rules) : r.lhs ∈ g.occurrences :=
  mem_occurrences_of_mentions hr (List.mem_cons_self ..)

theorem reference_mem_occurrences (hr : r ∈ g.rules) (hv : v ∈ r.references) :
    v ∈ g.occurrences :=
  mem_occurrences_of_mentions hr (List.mem_cons_of_mem _ hv)

end Grammar

end FluentGrammar
