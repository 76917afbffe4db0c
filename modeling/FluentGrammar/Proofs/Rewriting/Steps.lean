import FluentGrammar.Rewriting.Session
import Mathlib.Data.List.Forall2
import Mathlib.Order.RelClasses

/-! # Outcomes of steps

    What it means that a step of a rewriting succeeds or fails, taken apart along the way in
    which the step is put together.
-/

namespace FluentGrammar

/-! ## Matched lists -/

section Matched

variable {α β : Type} {R : α → β → Prop} {xs : List α} {ys : List β}

/-- Each element of the first of two matched lists is matched by one of the second. -/
theorem exists_matched_right (h : List.Forall₂ R xs ys) {x : α} (hx : x ∈ xs) :
    ∃ y ∈ ys, R x y := by
  induction h with
  | nil => cases hx
  | @cons a b as bs hab _ ih =>
    rcases List.mem_cons.mp hx with rfl | hx
    · exact ⟨b, List.mem_cons_self .., hab⟩
    · obtain ⟨y, hy, hxy⟩ := ih hx
      exact ⟨y, List.mem_cons_of_mem _ hy, hxy⟩

/-- Each element of the second of two matched lists is matched by one of the first. -/
theorem exists_matched_left (h : List.Forall₂ R xs ys) {y : β} (hy : y ∈ ys) :
    ∃ x ∈ xs, R x y := by
  obtain ⟨x, hx, hxy⟩ := exists_matched_right h.flip hy
  exact ⟨x, hx, hxy⟩

/-- Lists that are both matched with a list between them are matched with each other. -/
theorem forall₂_trans {γ : Type} {S : β → γ → Prop} {T : α → γ → Prop} {zs : List γ}
    (h : List.Forall₂ R xs ys) (h' : List.Forall₂ S ys zs)
    (hcomp : ∀ x y z, R x y → S y z → T x z) : List.Forall₂ T xs zs := by
  induction h generalizing zs with
  | nil =>
    cases h'
    exact .nil
  | cons hxy _ ih =>
    cases h' with
    | cons hyz hrest => exact .cons (hcomp _ _ _ hxy hyz) (ih hrest)

end Matched

/-! ## Success and failure -/

section Outcomes

variable {ε σ α β : Type} {s s' : σ}

theorem bind_eq_ok {x : EStateM ε σ α} {f : α → EStateM ε σ β} {b : β} :
    (x >>= f) s = .ok b s' ↔ ∃ a s₁, x s = .ok a s₁ ∧ f a s₁ = .ok b s' := by
  show EStateM.bind x f s = _ ↔ _
  unfold EStateM.bind
  cases x s with
  | ok a s₁ =>
    constructor
    · intro h
      exact ⟨a, s₁, rfl, h⟩
    · intro hex
      obtain ⟨a', s₂, hx, hf⟩ := hex
      cases hx
      exact hf
  | error e s₁ => simp

theorem bind_eq_error {x : EStateM ε σ α} {f : α → EStateM ε σ β} {e : ε} :
    (x >>= f) s = .error e s' ↔
      x s = .error e s' ∨ ∃ a s₁, x s = .ok a s₁ ∧ f a s₁ = .error e s' := by
  show EStateM.bind x f s = _ ↔ _
  unfold EStateM.bind
  cases x s with
  | ok a s₁ =>
    constructor
    · intro h
      exact Or.inr ⟨a, s₁, rfl, h⟩
    · intro h
      rcases h with h | ⟨a', s₂, hx, hf⟩
      · cases h
      · cases hx
        exact hf
  | error e' s₁ => simp

/-- Behind a step that succeeds, its continuation decides the outcome. -/
theorem bind_of_ok {x : EStateM ε σ α} {f : α → EStateM ε σ β} {a : α}
    (h : x s = .ok a s') : (x >>= f) s = f a s' := by
  show EStateM.bind x f s = _
  unfold EStateM.bind
  rw [h]

/-- A step that fails decides the outcome. -/
theorem bind_of_error {x : EStateM ε σ α} {f : α → EStateM ε σ β} {e : ε}
    (h : x s = .error e s') : (x >>= f) s = .error e s' :=
  bind_eq_error.mpr (Or.inl h)

theorem pure_eq_ok {a b : α} :
    (pure a : EStateM ε σ α) s = .ok b s' ↔ a = b ∧ s = s' := by
  show EStateM.Result.ok a s = .ok b s' ↔ _
  simp

theorem ofExcept_eq_ok {x : Except ε α} {a : α} :
    (ofExcept x : EStateM ε σ α) s = .ok a s' ↔ x = .ok a ∧ s = s' := by
  cases x with
  | ok value =>
    show EStateM.Result.ok value s = .ok a s' ↔ _
    simp
  | error e =>
    show EStateM.Result.error e s = .ok a s' ↔ _
    simp

theorem ofExcept_eq_error {x : Except ε α} {e : ε} :
    (ofExcept x : EStateM ε σ α) s = .error e s' ↔ x = .error e ∧ s = s' := by
  cases x with
  | ok value =>
    show EStateM.Result.ok value s = .error e s' ↔ _
    simp
  | error e' =>
    show EStateM.Result.error e' s = .error e s' ↔ _
    simp

theorem throw_eq_ok {e : ε} {a : α} :
    (throw e : EStateM ε σ α) s = .ok a s' ↔ False := by
  show EStateM.Result.error e s = .ok a s' ↔ _
  simp

theorem get_eq_ok {a : σ} : (get : EStateM ε σ σ) s = .ok a s' ↔ a = s ∧ s' = s := by
  show EStateM.Result.ok s s = .ok a s' ↔ _
  constructor
  · intro h
    cases h
    exact ⟨rfl, rfl⟩
  · intro hand
    obtain ⟨ha, hs⟩ := hand
    rw [ha, hs]

theorem set_eq_ok {t : σ} {u : PUnit} :
    (set t : EStateM ε σ PUnit) s = .ok u s' ↔ s' = t := by
  show EStateM.Result.ok PUnit.unit t = .ok u s' ↔ _
  constructor
  · intro h
    cases h
    rfl
  · intro h
    rw [h]

theorem modify_eq_ok {f : σ → σ} {u : PUnit} :
    (modify f : EStateM ε σ PUnit) s = .ok u s' ↔ s' = f s := by
  show EStateM.Result.ok PUnit.unit (f s) = .ok u s' ↔ _
  constructor
  · intro h
    cases h
    rfl
  · intro h
    rw [h]

theorem except_bind_eq_ok {x : Except ε α} {f : α → Except ε β} {b : β} :
    (x >>= f) = .ok b ↔ ∃ a, x = .ok a ∧ f a = .ok b := by
  cases x with
  | ok a =>
    constructor
    · intro h
      exact ⟨a, rfl, h⟩
    · intro hex
      obtain ⟨a', ha, hf⟩ := hex
      cases ha
      exact hf
  | error e =>
    constructor
    · intro h
      cases h
    · intro hex
      obtain ⟨a, ha, _⟩ := hex
      cases ha

theorem except_bind_eq_error {x : Except ε α} {f : α → Except ε β} {e : ε} :
    (x >>= f) = .error e ↔ x = .error e ∨ ∃ a, x = .ok a ∧ f a = .error e := by
  cases x with
  | ok a =>
    constructor
    · intro h
      exact Or.inr ⟨a, rfl, h⟩
    · intro h
      rcases h with h | ⟨a', ha, hf⟩
      · cases h
      · cases ha
        exact hf
  | error e' =>
    constructor
    · intro h
      cases h
      exact Or.inl rfl
    · intro h
      rcases h with h | ⟨a, ha, -⟩
      · cases h
        rfl
      · cases ha

theorem except_map_eq_ok {x : Except ε α} {f : α → β} {b : β} :
    x.map f = .ok b ↔ ∃ a, x = .ok a ∧ f a = b := by
  cases x <;> simp [Except.map]

theorem except_mapError_eq_error {δ : Type} {x : Except ε α} {f : ε → δ} {e : δ} :
    x.mapError f = .error e ↔ ∃ fault, x = .error fault ∧ f fault = e := by
  cases x <;> simp [Except.mapError]

/-- A step that is taken for every element of a list succeeds when each of them does. -/
theorem except_mapM_eq_ok {f : α → Except ε β} {xs : List α} {ys : List β} :
    xs.mapM f = .ok ys ↔ List.Forall₂ (fun x y => f x = .ok y) xs ys := by
  induction xs generalizing ys with
  | nil =>
    rw [List.mapM_nil]
    constructor
    · intro h
      cases h
      exact .nil
    · intro h
      cases h
      rfl
  | cons x rest ih =>
    rw [List.mapM_cons]
    constructor
    · intro h
      obtain ⟨y, hy, h⟩ := except_bind_eq_ok.mp h
      obtain ⟨ys', hys', h⟩ := except_bind_eq_ok.mp h
      cases h
      exact .cons hy (ih.mp hys')
    · intro h
      cases h with
      | @cons x y xs ys' hy hrest =>
        exact except_bind_eq_ok.mpr ⟨y, hy, except_bind_eq_ok.mpr ⟨ys', ih.mpr hrest, rfl⟩⟩

/-- A step that is taken for every element of a list fails when one of them does. -/
theorem except_mapM_eq_error {f : α → Except ε β} {xs : List α} {e : ε}
    (h : xs.mapM f = .error e) : ∃ x ∈ xs, f x = .error e := by
  induction xs with
  | nil => cases h
  | cons x rest ih =>
    rw [List.mapM_cons] at h
    rcases except_bind_eq_error.mp h with h | ⟨y, -, h⟩
    · exact ⟨x, List.mem_cons_self .., h⟩
    · rcases except_bind_eq_error.mp h with h | ⟨ys, -, h⟩
      · obtain ⟨x', hx', h⟩ := ih h
        exact ⟨x', List.mem_cons_of_mem _ hx', h⟩
      · cases h

/-- A step that leads from every state to one that is related to it, whether it succeeds or
    fails, and that fails only with errors of a kind. -/
def Confined (R : σ → σ → Prop) (P : ε → Prop) (x : EStateM ε σ α) : Prop :=
  ∀ s, (∀ a s', x s = .ok a s' → R s s') ∧ ∀ e s', x s = .error e s' → R s s' ∧ P e

namespace Confined

variable {R : σ → σ → Prop} {P : ε → Prop}

theorem of_ok {x : EStateM ε σ α} (hx : Confined R P x) {a : α} (h : x s = .ok a s') : R s s' :=
  (hx s).1 a s' h

theorem of_error {x : EStateM ε σ α} (hx : Confined R P x) {e : ε} (h : x s = .error e s') :
    R s s' ∧ P e :=
  (hx s).2 e s' h

/-- What follows a step need only be confined for the values that the step can have. -/
theorem bind [IsTrans σ R] {x : EStateM ε σ α} {f : α → EStateM ε σ β} (hx : Confined R P x)
    (hf : ∀ a s s', x s = .ok a s' → Confined R P (f a)) : Confined R P (x >>= f) := by
  intro s
  constructor
  · intro b s' h
    obtain ⟨a, s₁, hrun, h⟩ := bind_eq_ok.mp h
    exact trans_of R ((hx s).1 a s₁ hrun) ((hf a s s₁ hrun s₁).1 b s' h)
  · intro e s' h
    rcases bind_eq_error.mp h with h | ⟨a, s₁, hrun, h⟩
    · exact (hx s).2 e s' h
    · obtain ⟨hrest, he⟩ := (hf a s s₁ hrun s₁).2 e s' h
      exact ⟨trans_of R ((hx s).1 a s₁ hrun) hrest, he⟩

theorem modify {f : σ → σ} (hf : ∀ s, R s (f s)) :
    Confined R P (modify f : EStateM ε σ PUnit) := by
  intro s
  refine ⟨fun a s' h => ?_, fun e s' h => nomatch h⟩
  rw [modify_eq_ok.mp h]
  exact hf s

/-- What looks at the state first is confined if it is for every state. -/
theorem get_bind {f : σ → EStateM ε σ β} (hf : ∀ s, Confined R P (f s)) :
    Confined R P ((MonadState.get : EStateM ε σ σ) >>= f) := by
  intro s
  exact hf s s

section Refl

variable [Std.Refl R]

theorem pure (a : α) : Confined R P (pure a : EStateM ε σ α) := by
  intro s
  refine ⟨fun b s' h => ?_, fun e s' h => nomatch h⟩
  rw [(pure_eq_ok.mp h).2]
  exact refl_of R s'

theorem throw {e : ε} (he : P e) : Confined R P (throw e : EStateM ε σ α) := by
  intro s
  refine ⟨fun b s' h => (nomatch h), fun e' s' h => ?_⟩
  cases h
  exact ⟨refl_of R s, he⟩

theorem ofExcept {x : Except ε α} (hx : ∀ e, x = .error e → P e) :
    Confined R P (ofExcept x : EStateM ε σ α) := by
  intro s
  constructor
  · intro a s' h
    rw [(ofExcept_eq_ok.mp h).2]
    exact refl_of R s'
  · intro e s' h
    obtain ⟨he, rfl⟩ := ofExcept_eq_error.mp h
    exact ⟨refl_of R s, hx e he⟩

end Refl

end Confined

/-- A step that succeeds in a state. -/
def Succeeds (x : EStateM ε σ α) (s : σ) : Prop :=
  ∃ a s', x s = .ok a s'

namespace Succeeds

theorem bind {x : EStateM ε σ α} {f : α → EStateM ε σ β} {s : σ} (hx : Succeeds x s)
    (hf : ∀ a s', x s = .ok a s' → Succeeds (f a) s') : Succeeds (x >>= f) s := by
  obtain ⟨a, s₁, hrun⟩ := hx
  obtain ⟨b, s₂, hrest⟩ := hf a s₁ hrun
  exact ⟨b, s₂, bind_eq_ok.mpr ⟨a, s₁, hrun, hrest⟩⟩

theorem pure (a : α) (s : σ) : Succeeds (pure a : EStateM ε σ α) s :=
  ⟨a, s, rfl⟩

theorem get (s : σ) : Succeeds (get : EStateM ε σ σ) s :=
  ⟨s, s, rfl⟩

theorem set (t s : σ) : Succeeds (set t : EStateM ε σ PUnit) s :=
  ⟨_, t, rfl⟩

theorem modify (f : σ → σ) (s : σ) : Succeeds (modify f : EStateM ε σ PUnit) s :=
  ⟨_, f s, rfl⟩

theorem ofExcept {x : Except ε α} {a : α} (hx : x = .ok a) (s : σ) :
    Succeeds (ofExcept x : EStateM ε σ α) s :=
  ⟨a, s, ofExcept_eq_ok.mpr ⟨hx, rfl⟩⟩

/-- What follows something without a state goes on in the same state. -/
theorem ofExcept_bind {x : Except ε α} {f : α → EStateM ε σ β} {a : α} {s : σ}
    (hx : x = .ok a) (hf : Succeeds (f a) s) :
    Succeeds (FluentGrammar.ofExcept x >>= f) s := by
  refine (Succeeds.ofExcept hx s).bind fun a' s' hrun => ?_
  obtain ⟨ha', rfl⟩ := ofExcept_eq_ok.mp hrun
  obtain rfl : a = a' := Except.ok.inj (hx.symm.trans ha')
  exact hf

/-- What looks at the state first goes on in the same state. -/
theorem get_bind {f : σ → EStateM ε σ β} {s : σ} (hf : Succeeds (f s) s) :
    Succeeds ((MonadState.get : EStateM ε σ σ) >>= f) s := by
  refine (Succeeds.get s).bind fun s₀ s₁ hrun => ?_
  obtain ⟨hs₀, hs₁⟩ := get_eq_ok.mp hrun
  rw [hs₀, hs₁]
  exact hf

/-- What succeeds does not fail. -/
theorem not_error {x : EStateM ε σ α} {s s' : σ} {e : ε} (hx : Succeeds x s) :
    x s ≠ .error e s' := by
  obtain ⟨a, s₁, hrun⟩ := hx
  rw [hrun]
  exact fun h => nomatch h

end Succeeds

end Outcomes

/-- The grammar of rewritten rules is the one that validation makes of them. -/
theorem rebuild_eq_ok {start : Variable} {rules : List Rule} {g : Grammar}
    {s s' : Session} :
    rebuild start rules s = .ok g s' ↔ Grammar.ofRules start rules = .ok g ∧ s = s' := by
  unfold rebuild
  rw [ofExcept_eq_ok]
  cases Grammar.ofRules start rules <;> simp [Except.mapError]

theorem rebuild_succeeds {start : Variable} {rules : List Rule} {g : Grammar}
    (h : Grammar.ofRules start rules = .ok g) (s : Session) :
    Succeeds (rebuild start rules) s :=
  ⟨g, s, rebuild_eq_ok.mpr ⟨h, rfl⟩⟩

end FluentGrammar
