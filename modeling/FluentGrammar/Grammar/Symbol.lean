/-! # Symbols

    Terminals are plain values: two terminals are equal when their names and parameter lists
    are. Variables are identities: two occurrences are the same variable when their ids are
    equal, whatever they are called. The name of a variable only matters where variables are
    printed or put in order.

    What a grammar derives are words: strings of terminals. The empty terminal stands for the
    empty word.
-/

namespace FluentGrammar

/-! ## Parameters and terminals -/

/-- A typed parameter of a terminal, such as `int value`. -/
structure Parameter where
  /-- The type, a single word. -/
  type : String
  /-- The name, a single word. -/
  name : String
deriving DecidableEq

/-- Parameters are ordered by type, then by name. -/
instance : Ord Parameter :=
  ⟨fun p q => (compare p.type q.type).then (compare p.name q.name)⟩

/-- The parameter as it is written in a parameter list. -/
def Parameter.text (p : Parameter) : String :=
  p.type ++ " " ++ p.name

/-- A terminal: one call of a builder method, with the parameters it takes. -/
structure Terminal where
  /-- Name of the method. -/
  name : String
  /-- What the method takes, in order. -/
  params : List Parameter
deriving DecidableEq

namespace Terminal

/-- Terminals are ordered by name, then by parameter list. -/
instance : Ord Terminal :=
  ⟨fun s t => (compare s.name t.name).then (compare s.params t.params)⟩

/-- The terminal that stands for the empty string. Its name is no identifier, so no method
    has it. -/
def empty : Terminal :=
  ⟨"<empty>", []⟩

/-- Whether this is the terminal that stands for the empty string. -/
def isEmpty (t : Terminal) : Bool :=
  t == empty

theorem isEmpty_iff {t : Terminal} : t.isEmpty = true ↔ t = empty := by
  simp [isEmpty]

/-- The terminal as it is written in a rule. -/
def text (t : Terminal) : String :=
  if t.params.isEmpty then t.name
  else t.name ++ "(" ++ String.intercalate ", " (t.params.map Parameter.text) ++ ")"

end Terminal

/-! ## Variables -/

/-- A variable: an identity and the name it is printed under. -/
structure Variable where
  /-- What makes it this variable and no other. -/
  id : Nat
  /-- What it is called. -/
  name : String
deriving DecidableEq

namespace Variable

/-- Two occurrences are the same variable when their ids are equal. -/
instance : BEq Variable :=
  ⟨fun v w => v.id == w.id⟩

/-- Variables are ordered by name, then by id. -/
instance : Ord Variable :=
  ⟨fun v w => (compare v.name w.name).then (compare v.id w.id)⟩

@[simp] theorem beq_iff {v w : Variable} : (v == w) = true ↔ v.id = w.id := by
  change (v.id == w.id) = true ↔ _
  simp

instance : EquivBEq Variable where
  rfl := by intro v; simp
  symm := by intro v w h; simp_all
  trans := by intro u v w h₁ h₂; simp_all

/-- The variable with its id, for output that has to tell namesakes apart. -/
def label (v : Variable) : String :=
  v.name ++ "#" ++ toString v.id

end Variable

/-- The names of variables, joined by a separator. -/
def joinNames (separator : String) (vars : List Variable) : String :=
  String.intercalate separator (vars.map (·.name))

/-! ## Symbols -/

/-- A symbol of a right-hand side. -/
inductive Symbol where
  /-- A terminal. -/
  | term (t : Terminal)
  /-- A reference to a variable. -/
  | var (v : Variable)
deriving DecidableEq

namespace Symbol

/-- Equal terminals, or occurrences of the same variable. -/
def same : Symbol → Symbol → Bool
  | .term s, .term t => s == t
  | .var v, .var w => v == w
  | _, _ => false

instance : BEq Symbol := ⟨same⟩

/-- All terminals come before all variables. -/
instance : Ord Symbol where
  compare
    | .term s, .term t => compare s t
    | .term _, .var _ => .lt
    | .var _, .term _ => .gt
    | .var v, .var w => compare v w

/-- The terminal, if the symbol is one. -/
def toTerminal? : Symbol → Option Terminal
  | .term t => some t
  | .var _ => none

/-- The variable, if the symbol is one. -/
def toVariable? : Symbol → Option Variable
  | .term _ => none
  | .var v => some v

/-- Whether the symbol is a terminal. -/
def isTerminal (s : Symbol) : Bool :=
  s.toTerminal?.isSome

/-- The symbol as it is written in a rule. -/
def text : Symbol → String
  | .term t => t.text
  | .var v => v.name

end Symbol

/-! ## Words -/

/-- A string of terminals. -/
abbrev Word := List Terminal

/-- A word as text, with a blank between any two terminals. -/
def Word.text (w : Word) : String :=
  String.intercalate " " (List.map Terminal.text w)

/-- The word that a terminal stands for. -/
def Terminal.word (t : Terminal) : Word :=
  if t.isEmpty then [] else [t]

@[simp] theorem Terminal.word_empty : Terminal.empty.word = [] := by
  simp [word, isEmpty]

theorem Terminal.word_of_ne_empty {t : Terminal} (h : t ≠ .empty) : t.word = [t] := by
  simp [word, isEmpty, h]

end FluentGrammar
