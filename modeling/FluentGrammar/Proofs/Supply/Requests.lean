import FluentGrammar.Proofs.Supply.Names
import Mathlib.Order.Bounds.Defs

/-! # Serving requests for names

    A supply of names serves requests one after the other: names are reserved, and names are
    taken for seeds. What is in use at any time is what was reserved or taken before. There are
    only so many names in use, so a search for an unused one ends, and it ends at the least
    number that the counter has not passed and whose name is unused.
-/

namespace FluentGrammar.NameSupply

/-! ## Requests -/

/-- What a supply is asked for. -/
inductive Request where
  /-- Mark a name as used. -/
  | reserve (name : String)
  /-- Give a name for a seed. -/
  | take (seed : String)

/-- Serve a request: the name that it puts in use, and the supply that is left. -/
def serve (s : NameSupply) : Request → String × NameSupply
  | .reserve name => (name, s.reserve name)
  | .take seed => s.take seed

/-- Serve requests in order: the names that they put in use, and the supply that is left. -/
def serveAll (s : NameSupply) : List Request → List String × NameSupply
  | [] => ([], s)
  | request :: rest =>
    let (name, s₁) := s.serve request
    let (names, s₂) := s₁.serveAll rest
    (name :: names, s₂)

variable {s : NameSupply} {seed name : String} {taken names : List String} {k j : Nat}

theorem serve_taken (s : NameSupply) (request : Request) :
    name ∈ (s.serve request).2.taken ↔ name = (s.serve request).1 ∨ name ∈ s.taken := by
  cases request with
  | reserve other => exact mem_reserve
  | take seed =>
    show name ∈ (s.take seed).2.taken ↔ _
    rw [take_taken, List.mem_cons]
    rfl

/-- In use after some requests is what they put in use and what was in use before. -/
theorem serveAll_taken (s : NameSupply) (requests : List Request) :
    name ∈ (s.serveAll requests).2.taken ↔ name ∈ (s.serveAll requests).1 ∨ name ∈ s.taken := by
  induction requests generalizing s with
  | nil => simp [serveAll]
  | cons request rest ih =>
    show name ∈ ((s.serve request).2.serveAll rest).2.taken ↔
      name ∈ (s.serve request).1 :: ((s.serve request).2.serveAll rest).1 ∨ _
    rw [ih, serve_taken, List.mem_cons, or_left_comm, or_assoc]

theorem serveAll_append (s : NameSupply) (earlier later : List Request) :
    (s.serveAll (earlier ++ later)).2 = ((s.serveAll earlier).2.serveAll later).2 := by
  induction earlier generalizing s with
  | nil => rfl
  | cons request rest ih => exact ih (s.serve request).2

/-! ## The search for a number -/

/-- The search for an unused name behind a seed: it ends at the number that is tried, if the
    name with that number is unused, and goes on with the next number otherwise. -/
inductive Search (taken : List String) (seed : String) : Nat → Nat → Prop where
  | found {k : Nat} : numbered seed k ∉ taken → Search taken seed k k
  | next {k j : Nat} : numbered seed k ∈ taken → Search taken seed (k + 1) j →
      Search taken seed k j

/-- The number at which a search ends is the least one whose name is unused. -/
theorem Search.isLeast (h : Search taken seed k j) :
    IsLeast {i | k ≤ i ∧ numbered seed i ∉ taken} j := by
  induction h with
  | found hfree => exact ⟨⟨Nat.le_refl _, hfree⟩, fun i hi => hi.1⟩
  | @next k j hused _ ih =>
    obtain ⟨⟨hle, hfree⟩, hleast⟩ := ih
    refine ⟨⟨by omega, hfree⟩, fun i ⟨hi, hifree⟩ => hleast ⟨?_, hifree⟩⟩
    -- The number that was tried first has a used name, so it is not `i`.
    have hne : i ≠ k := by
      rintro rfl
      exact hifree hused
    omega

/-- With attempts enough to get to an unused name, the search ends where the attempts do. -/
theorem search_firstFree {tries : Nat} (h : numbered seed (firstFree taken seed tries k) ∉ taken) :
    Search taken seed k (firstFree taken seed tries k) := by
  induction tries generalizing k with
  | zero => exact .found h
  | succ tries ih =>
    rw [firstFree] at h ⊢
    by_cases hk : taken.contains (numbered seed k) = true
    · rw [if_pos hk] at h ⊢
      exact .next (List.contains_iff_mem.mp hk) (ih h)
    · rw [if_neg hk] at h ⊢
      exact .found h

/-- A search passes at most as many numbers as there are names in use. -/
theorem Search.le_add_length (h : Search taken seed k j) : j ≤ k + taken.length := by
  have hpassed : ∀ i < j - k, numbered seed (k + i) ∈ taken := by
    intro i hi
    by_contra hfree
    have := h.isLeast.2 ⟨Nat.le_add_right k i, hfree⟩
    omega
  have := le_length_of_numbered_mem hpassed
  omega

/-! ## The counter -/

/-- An unused seed is given as it is. -/
theorem take_of_not_mem (h : seed ∉ s.taken) :
    (s.take seed).1 = seed ∧ (s.take seed).2.counter = s.counter := by
  rw [take, if_neg (mt contains_iff.mp h)]
  exact ⟨rfl, rfl⟩

/-- A used seed is given with the number that the search for an unused name ends at, and the
    counter is left just above this number. -/
theorem take_of_mem (h : seed ∈ s.taken) :
    ∃ k, Search s.taken seed s.counter k ∧ (s.take seed).1 = numbered seed k ∧
      (s.take seed).2.counter = k + 1 := by
  rw [take, if_pos (contains_iff.mpr h)]
  exact ⟨_, search_firstFree (firstFree_not_mem s.taken seed s.counter), rfl, rfl⟩

theorem counter_le_serve (s : NameSupply) (request : Request) :
    s.counter ≤ (s.serve request).2.counter := by
  cases request with
  | reserve name =>
    show s.counter ≤ (s.reserve name).counter
    unfold reserve
    split <;> exact Nat.le_refl _
  | take seed =>
    show s.counter ≤ (s.take seed).2.counter
    by_cases h : seed ∈ s.taken
    · obtain ⟨k, hsearch, -, hcounter⟩ := take_of_mem h
      have hle := hsearch.isLeast.1.1
      omega
    · exact Nat.le_of_eq (take_of_not_mem h).2.symm

theorem counter_le_serveAll (s : NameSupply) (requests : List Request) :
    s.counter ≤ (s.serveAll requests).2.counter := by
  induction requests generalizing s with
  | nil => exact Nat.le_refl _
  | cons request rest ih => exact Nat.le_trans (counter_le_serve s request) (ih _)

theorem Search.congr {taken' : List String} (hsame : ∀ name, name ∈ taken ↔ name ∈ taken')
    (h : Search taken seed k j) : Search taken' seed k j := by
  induction h with
  | found hfree => exact .found (mt (hsame _).mpr hfree)
  | next hused _ ih => exact .next ((hsame _).mp hused) ih

/-! ## Names after any requests -/

/-- The names in use after some requests to a supply in which names were reserved. -/
def inUse (names : List String) (requests : List Request) : List String :=
  names ++ ((reserving names).serveAll requests).1

theorem mem_inUse {requests : List Request} :
    name ∈ inUse names requests ↔ name ∈ ((reserving names).serveAll requests).2.taken := by
  rw [inUse, List.mem_append, serveAll_taken, mem_reserving, or_comm]

/-- A name is given whatever was asked for before, and it is none of the names in use. It is the
    seed just when that is unused. Otherwise a search that starts at the counter ends at the
    least number with an unused name, at most as far on as there are names in use; the seed is
    given with this number, and the counter is left just above it. No request turns the counter
    back. -/
theorem take_after_requests (names : List String) (requests : List Request) (seed : String) :
    let s := ((reserving names).serveAll requests).2
    let used := inUse names requests
    (s.take seed).1 ∉ used ∧
      ((s.take seed).1 = seed ↔ seed ∉ used) ∧
      (if seed ∈ used then
        ∃ k, Search used seed s.counter k ∧ k ≤ s.counter + used.length ∧
          IsLeast {i | s.counter ≤ i ∧ numbered seed i ∉ used} k ∧
          (s.take seed).1 = numbered seed k ∧ (s.take seed).2.counter = k + 1
      else (s.take seed).2.counter = s.counter) ∧
      ∀ more, s.counter ≤ ((reserving names).serveAll (requests ++ more)).2.counter := by
  intro s used
  have hused : ∀ name, name ∈ s.taken ↔ name ∈ used := fun _ => mem_inUse.symm
  have hnew : (s.take seed).1 ∉ used := mt (hused _).mpr (take_not_mem s seed)
  refine ⟨hnew, ⟨fun hseed => hseed ▸ hnew, fun hseed => ?_⟩, ?_, fun more => ?_⟩
  · exact (take_of_not_mem (mt (hused _).mp hseed)).1
  · split
    · rename_i hseed
      obtain ⟨k, hsearch, hname, hcounter⟩ := take_of_mem ((hused seed).mpr hseed)
      have hsearch := hsearch.congr hused
      exact ⟨k, hsearch, hsearch.le_add_length, hsearch.isLeast, hname, hcounter⟩
    · rename_i hseed
      exact (take_of_not_mem (mt (hused _).mp hseed)).2
  · rw [serveAll_append]
    exact counter_le_serveAll s more

/-- The counter is shared by all seeds, and numbers whose names were reserved are passed over. -/
example : ((reserving ["X", "X1", "Y"]).serveAll
      [.take "X", .take "X", .take "Y", .reserve "Z", .take "X1", .take "Z"]).1 =
    ["X0", "X2", "Y3", "Z", "X14", "Z5"] := by
  decide +kernel

end FluentGrammar.NameSupply
