/-! # A supply of names

    A name is wanted under a seed. An unused seed is given as it is. A used one gets a
    number behind it, counted by one counter for all seeds, so that numbers never go back.
-/

namespace FluentGrammar

/-- A supply of names. -/
structure NameSupply where
  /-- The names in use, each once, the latest first. -/
  taken : List String
  /-- The next number to be tried. -/
  counter : Nat

namespace NameSupply

/-- A supply with no name in use. -/
def fresh : NameSupply :=
  ⟨[], 0⟩

/-- Whether a name is in use. -/
def contains (s : NameSupply) (name : String) : Bool :=
  s.taken.contains name

/-- Mark a name as used. -/
def reserve (s : NameSupply) (name : String) : NameSupply :=
  if s.contains name then s else { s with taken := name :: s.taken }

/-- A supply that gives none of the given names. -/
def reserving (names : List String) : NameSupply :=
  names.foldl reserve fresh

/-- The number of names in use. -/
def size (s : NameSupply) : Nat :=
  s.taken.length

/-- A seed with a number behind it. -/
def numbered (seed : String) (k : Nat) : String :=
  seed ++ toString k

/-- The first number from `k` on whose name is unused, after at most `tries` attempts. -/
def firstFree (taken : List String) (seed : String) : (tries : Nat) → (k : Nat) → Nat
  | 0, k => k
  | tries + 1, k =>
    if taken.contains (numbered seed k) then firstFree taken seed tries (k + 1) else k

/-- Give a name for the seed and mark it as used. Among one more number than there are names
    in use, one gives an unused name, so as many attempts as names suffice. -/
def take (s : NameSupply) (seed : String) : String × NameSupply :=
  if s.contains seed then
    let k := firstFree s.taken seed s.taken.length s.counter
    (numbered seed k, ⟨numbered seed k :: s.taken, k + 1⟩)
  else (seed, ⟨seed :: s.taken, s.counter⟩)

/-- The state of the supply in one line. -/
def text (s : NameSupply) : String :=
  s!"NameSource \x7b len: {s.size}, counter: {s.counter} \x7d"

/-! ## What is in use -/

theorem contains_iff {s : NameSupply} {name : String} :
    s.contains name = true ↔ name ∈ s.taken := by
  simp [contains]

theorem mem_reserve {s : NameSupply} {name other : String} :
    other ∈ (s.reserve name).taken ↔ other = name ∨ other ∈ s.taken := by
  unfold reserve
  split
  · rename_i h
    have := contains_iff.mp h
    constructor
    · exact Or.inr
    · rintro (rfl | h)
      · exact this
      · exact h
  · simp

end NameSupply

end FluentGrammar
