import FluentGrammar.Supply.Names
import Mathlib.Data.List.Nodup
import Mathlib.Data.List.Perm.Subperm

/-! # Names are new

    A supply never gives a name that is in use. Names with different numbers behind the same
    seed are different, so among one more number than there are names in use there is one whose
    name is unused.
-/

namespace FluentGrammar.NameSupply

variable {s : NameSupply} {seed name : String} {taken names : List String}

/-! ## Numbered names -/

/-- The number can be read off behind the seed. -/
theorem numbered_injective (seed : String) : Function.Injective (numbered seed) := by
  intro j k h
  have hdigits : Nat.toDigits 10 j = Nat.toDigits 10 k := by
    have hchars : seed.toList ++ (toString j).toList = seed.toList ++ (toString k).toList := by
      rw [← String.toList_append, ← String.toList_append]
      exact congrArg String.toList h
    simpa [Nat.toString_eq_ofList_toDigits] using hchars
  rw [← Nat.ofDigitChars_ten_toDigits (n := j), hdigits, Nat.ofDigitChars_ten_toDigits]

/-- A search that ends at a name in use has tried every number on its way. -/
theorem numbered_mem_of_firstFree {tries k : Nat}
    (h : numbered seed (firstFree taken seed tries k) ∈ taken) :
    ∀ j ≤ tries, numbered seed (k + j) ∈ taken := by
  induction tries generalizing k with
  | zero =>
    intro j hj
    obtain rfl : j = 0 := by omega
    exact h
  | succ tries ih =>
    rw [firstFree] at h
    by_cases hk : taken.contains (numbered seed k) = true
    · rw [if_pos hk] at h
      intro j hj
      cases j with
      | zero => exact List.contains_iff_mem.mp hk
      | succ j =>
        have hmem := ih h j (by omega)
        rwa [Nat.add_assoc, Nat.add_comm 1 j] at hmem
    · rw [if_neg hk] at h
      exact absurd (List.contains_iff_mem.mpr h) hk

/-- Different numbers behind a seed give different names, so no more of them are in use than
    there are names. -/
theorem le_length_of_numbered_mem {k n : Nat} (h : ∀ j < n, numbered seed (k + j) ∈ taken) :
    n ≤ taken.length := by
  have hnodup : ((List.range n).map fun j => numbered seed (k + j)).Nodup :=
    List.Nodup.map (fun _ _ hij => Nat.add_left_cancel (numbered_injective seed hij))
      List.nodup_range
  have hsub : ((List.range n).map fun j => numbered seed (k + j)) ⊆ taken := by
    intro name hname
    obtain ⟨j, hj, rfl⟩ := List.mem_map.mp hname
    exact h j (List.mem_range.mp hj)
  have hlength := (List.subperm_of_subset hnodup hsub).length_le
  rwa [List.length_map, List.length_range] at hlength

/-- As many attempts as there are names in use lead to an unused one. -/
theorem firstFree_not_mem (taken : List String) (seed : String) (k : Nat) :
    numbered seed (firstFree taken seed taken.length k) ∉ taken := by
  intro h
  have htried := numbered_mem_of_firstFree h
  -- One name more than are in use cannot all be in use.
  have hle := le_length_of_numbered_mem fun j (hj : j < taken.length + 1) =>
    htried j (Nat.lt_succ_iff.mp hj)
  omega

/-! ## Names that are given -/

theorem take_not_mem (s : NameSupply) (seed : String) : (s.take seed).1 ∉ s.taken := by
  unfold take
  by_cases h : s.contains seed = true
  · rw [if_pos h]
    exact firstFree_not_mem s.taken seed s.counter
  · rw [if_neg h]
    exact fun hmem => h (contains_iff.mpr hmem)

theorem take_taken (s : NameSupply) (seed : String) :
    (s.take seed).2.taken = (s.take seed).1 :: s.taken := by
  unfold take
  split <;> rfl

/-- A name for a seed: the seed itself, or the seed and a number. -/
def NamedAfter (seed name : String) : Prop :=
  name = seed ∨ ∃ k, name = numbered seed k

theorem take_namedAfter (s : NameSupply) (seed : String) : NamedAfter seed (s.take seed).1 := by
  unfold take
  split
  · exact Or.inr ⟨_, rfl⟩
  · exact Or.inl rfl

theorem mem_foldl_reserve :
    name ∈ (names.foldl reserve s).taken ↔ name ∈ names ∨ name ∈ s.taken := by
  induction names generalizing s with
  | nil => simp
  | cons other rest ih =>
    rw [List.foldl_cons, ih, mem_reserve, List.mem_cons, or_left_comm, or_assoc]

theorem mem_reserving : name ∈ (reserving names).taken ↔ name ∈ names := by
  rw [reserving, mem_foldl_reserve]
  simp [fresh]

end FluentGrammar.NameSupply
