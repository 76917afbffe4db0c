import FluentGrammar.Grammar.Symbol

/-! # A supply of variables

    Variables are handed out with consecutive ids, so no two of one supply are the same.
-/

namespace FluentGrammar

/-- A supply of variables. -/
structure VariableSupply where
  /-- The id of the next variable; for a supply that started at zero, also the number of
      variables handed out. -/
  issued : Nat

namespace VariableSupply

/-- A supply that has handed out nothing. -/
def fresh : VariableSupply :=
  ⟨0⟩

/-- A supply whose variables differ from all of the given ones. -/
def after (vars : List Variable) : VariableSupply :=
  ⟨vars.foldl (fun next v => max next (v.id + 1)) 0⟩

/-- Hand out a variable of the given name. -/
def take (s : VariableSupply) (name : String) : Variable × VariableSupply :=
  (⟨s.issued, name⟩, ⟨s.issued + 1⟩)

/-! ## Freshness -/

theorem foldl_max_ge (vars : List Variable) (n : Nat) :
    n ≤ vars.foldl (fun next v => max next (v.id + 1)) n := by
  induction vars generalizing n with
  | nil => exact Nat.le_refl n
  | cons v rest ih => exact Nat.le_trans (Nat.le_max_left n (v.id + 1)) (ih _)

theorem lt_foldl_max {vars : List Variable} {v : Variable} (hv : v ∈ vars) (n : Nat) :
    v.id < vars.foldl (fun next v => max next (v.id + 1)) n := by
  induction vars generalizing n with
  | nil => cases hv
  | cons w rest ih =>
    rcases List.mem_cons.mp hv with rfl | hv
    · exact Nat.lt_of_lt_of_le (Nat.lt_succ_self _)
        (Nat.le_trans (Nat.le_max_right n (v.id + 1)) (foldl_max_ge rest _))
    · exact ih hv _

/-- The ids of the given variables lie below everything that is handed out after them. -/
theorem id_lt_after {vars : List Variable} {v : Variable} (hv : v ∈ vars) :
    v.id < (after vars).issued :=
  lt_foldl_max hv 0

end VariableSupply

end FluentGrammar
