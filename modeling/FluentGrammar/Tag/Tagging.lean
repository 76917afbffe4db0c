import FluentGrammar.Grammar.Reachability
import FluentGrammar.Rewriting.Error

/-! # Taggings

    A tagging gives tags to variables. It is a map: a variable is looked up by its id, and a
    second entry for a variable replaces its tag but not the name it was entered under.

    When a rule is split or loses its leading symbol, its tag moves to the new rule in a
    changed form. A tag that cannot describe the new rule is a mismatch.
-/

namespace FluentGrammar

/-! ## Changing a tag -/

namespace Tag

/-- The tag of a rule of the given shape that runs when `params` have been read: they join
    the components read before. -/
def withComponents (tag : Tag) (params : List Parameter) (shape : Rule.Shape) :
    Except PassError Tag :=
  match tag, shape with
  | .full node, .derivation => .ok (.partialDerivation node params [])
  | .full node, .selection => .ok (.partialSelection node params)
  | .partialSelection node required, .selection =>
    .ok (.partialSelection node (required ++ params))
  | .partialDerivation node required implicit, .derivation =>
    .ok (.partialDerivation node (required ++ params) implicit)
  | .bridge, .derivation => .ok .bridge
  | _, _ => .error (.mismatch (.components tag shape))

/-- The tag of a derivation that also builds the node of the empty rule `v`. -/
def withImplicit (tag : Tag) (v : Variable) : Except PassError Tag :=
  match tag with
  | .full node => .ok (.partialDerivation node [] [v])
  | .partialDerivation node required implicit =>
    .ok (.partialDerivation node required (implicit ++ [v]))
  | .partialSelection .. => .error (.mismatch (.folding v tag))
  | .bridge => .error (.mismatch (.folding v tag))

/-- The tag of a rule that takes the place of one of the other shape: the same node and
    components. -/
def reshaped (tag : Tag) (shape : Rule.Shape) : Except PassError Tag :=
  match tag, shape with
  | .full _, _ => .ok tag
  | .partialSelection .., .selection => .ok tag
  | .partialDerivation .., .derivation => .ok tag
  | .bridge, .derivation => .ok tag
  | .partialSelection node required, .derivation =>
    .ok (.partialDerivation node required [])
  | _, _ => .error (.mismatch (.retagging tag shape))

end Tag

/-! ## Tags of variables -/

/-- Tags of variables, in the order in which the variables were entered. -/
structure Tagging where
  /-- The variables and their tags; no variable stands here twice. -/
  entries : List (Variable × Tag)
deriving DecidableEq

namespace Tagging

/-- A tagging without entries. -/
def empty : Tagging :=
  ⟨[]⟩

/-- The tag of a variable. -/
def tag? (t : Tagging) (v : Variable) : Option Tag :=
  (t.entries.find? (fun entry => entry.1 == v)).map (·.2)

/-- The tag of a variable, which has to have one. -/
def require (t : Tagging) (v : Variable) : Except PassError Tag :=
  match t.tag? v with
  | some tag => .ok tag
  | none => .error (.missingTag v)

/-- The entries with the tag of one variable set. -/
def setEntry (v : Variable) (tag : Tag) : List (Variable × Tag) → List (Variable × Tag)
  | [] => [(v, tag)]
  | (w, old) :: rest =>
    if w == v then (w, tag) :: rest else (w, old) :: setEntry v tag rest

/-- Set the tag of a variable. -/
def insert (t : Tagging) (v : Variable) (tag : Tag) : Tagging :=
  ⟨setEntry v tag t.entries⟩

/-- Set the tags of several variables, one after the other. -/
def extend (t : Tagging) (entries : List (Variable × Tag)) : Tagging :=
  entries.foldl (fun t (v, tag) => t.insert v tag) t

/-- The tagging with the given entries, later ones replacing earlier ones. -/
def ofEntries (entries : List (Variable × Tag)) : Tagging :=
  empty.extend entries

/-- Keep the entries of some variables only. -/
def retain (t : Tagging) (keep : Variable → Bool) : Tagging :=
  ⟨t.entries.filter (fun entry => keep entry.1)⟩

/-- The number of entries. -/
def size (t : Tagging) : Nat :=
  t.entries.length

/-- The entries in the order of their variables. -/
def sorted (t : Tagging) : List (Variable × Tag) :=
  sortOn (·.1) t.entries

/-- The empty rules that the method of a variable builds as well. -/
def implicitOf (t : Tagging) (v : Variable) : List Variable :=
  ((t.tag? v).map Tag.implicit).getD []

/-- An edge from each variable to each empty rule that its method builds. -/
def implicitEdges (t : Tagging) : List Edge :=
  t.entries.flatMap (fun (v, tag) => tag.implicit.map (fun w => (v, w)))

/-- The tagging in which every variable of a grammar builds a node of its own name. -/
def full (g : Grammar) : Tagging :=
  ofEntries (g.vars.map (fun v => (v, .full v.name)))

/-! ## Looking up after setting -/

@[simp] theorem tag?_insert_self (t : Tagging) (v : Variable) (tag : Tag) :
    (t.insert v tag).tag? v = some tag := by
  unfold insert tag?
  simp only
  induction t.entries with
  | nil => simp [setEntry]
  | cons entry rest ih =>
    obtain ⟨w, old⟩ := entry
    simp only [setEntry]
    by_cases h : (w == v) = true
    · simp [h]
    · simp only [h]
      simpa [List.find?_cons, h] using ih

theorem tag?_insert_ne (t : Tagging) {v w : Variable} (tag : Tag) (h : v.id ≠ w.id) :
    (t.insert v tag).tag? w = t.tag? w := by
  have hvw : (v == w) = false := by
    cases hc : v == w with
    | false => rfl
    | true => exact absurd (Variable.beq_iff.mp hc) h
  unfold insert tag?
  simp only
  congr 1
  induction t.entries with
  | nil => simp [setEntry, hvw]
  | cons entry rest ih =>
    obtain ⟨u, old⟩ := entry
    simp only [setEntry]
    by_cases hu : (u == v) = true
    · -- The entry that is replaced is not the one that is looked up.
      have huw : (u == w) = false := by
        cases hc : u == w with
        | false => rfl
        | true =>
          have h₁ := Variable.beq_iff.mp hu
          have h₂ := Variable.beq_iff.mp hc
          exact absurd (h₁.symm.trans h₂) h
      simp [hu, huw]
    · simp only [hu]
      simp [List.find?_cons, ih]

end Tagging

end FluentGrammar
