/-! # Runs of code points

    A set of characters is kept as an increasing list of runs. A run is an arithmetic
    progression: step 1 for a block, step 2 for scripts whose capitals and small letters
    alternate. Membership looks at runs only up to the one that could hold the code point.
-/

namespace FluentGrammar.Text

/-- The code points `first`, `first + step`, and so on up to `last`. -/
structure CodeRun where
  first : Nat
  last : Nat
  step : Nat

namespace CodeRun

/-- Whether a code point is a member of the run. -/
def contains (r : CodeRun) (n : Nat) : Bool :=
  r.first ≤ n && n ≤ r.last && (n - r.first) % r.step == 0

/-- Whether a code point lies in an increasing list of runs. -/
def anyContains : List CodeRun → Nat → Bool
  | [], _ => false
  | r :: rest, n => if n ≤ r.last then r.contains n else anyContains rest n

/-- Number of code points in a list of disjoint runs. -/
def total (runs : List CodeRun) : Nat :=
  runs.foldl (fun sum r => sum + ((r.last - r.first) / r.step + 1)) 0

/-- Whether the runs stand in increasing order, without overlap. -/
def ordered : List CodeRun → Bool
  | [] => true
  | [r] => r.first ≤ r.last
  | r :: s :: rest => r.first ≤ r.last && r.last < s.first && ordered (s :: rest)

/-! ## Membership in an ordered list -/

theorem contains_le {r : CodeRun} {n : Nat} (h : r.contains n = true) :
    r.first ≤ n ∧ n ≤ r.last := by
  simp only [contains, Bool.and_eq_true, decide_eq_true_eq] at h
  exact h.1

theorem ordered_tail {r : CodeRun} {rest : List CodeRun} (h : ordered (r :: rest) = true) :
    ordered rest = true := by
  cases rest with
  | nil => rfl
  | cons s rest =>
    simp only [ordered, Bool.and_eq_true] at h
    exact h.2

theorem last_lt_of_mem {r : CodeRun} {rest : List CodeRun} (h : ordered (r :: rest) = true) :
    ∀ s ∈ rest, r.last < s.first := by
  induction rest generalizing r with
  | nil => intro s hs; cases hs
  | cons t rest ih =>
    simp only [ordered, Bool.and_eq_true, decide_eq_true_eq] at h
    intro s hs
    rcases List.mem_cons.mp hs with rfl | hs
    · exact h.1.2
    · have ht : t.first ≤ t.last := by
        cases rest with
        | nil => simpa [ordered] using h.2
        | cons u rest =>
          have h2 := h.2
          simp only [ordered, Bool.and_eq_true, decide_eq_true_eq] at h2
          exact h2.1.1
      have := ih h.2 s hs
      omega

/-- In an ordered list the search finds exactly the members of the runs. -/
theorem anyContains_eq_any {runs : List CodeRun} (h : ordered runs = true) (n : Nat) :
    anyContains runs n = runs.any (·.contains n) := by
  induction runs with
  | nil => rfl
  | cons r rest ih =>
    simp only [anyContains, List.any_cons]
    by_cases hn : n ≤ r.last
    · have hrest : rest.any (·.contains n) = false := by
        rw [List.any_eq_false]
        intro s hs hc
        have h1 := last_lt_of_mem h s hs
        have h2 := contains_le hc
        omega
      simp [hn, hrest]
    · have hr : r.contains n = false := by
        cases hc : r.contains n with
        | false => rfl
        | true => exact absurd (contains_le hc).2 hn
      simp [hn, hr, ih (ordered_tail h)]

end CodeRun

end FluentGrammar.Text
