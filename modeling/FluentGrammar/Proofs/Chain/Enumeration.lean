import FluentGrammar.Proofs.Grammar.Validation
import FluentGrammar.Proofs.Rewriting.Steps
import FluentGrammar.SharedPrefix.Discovery

/-! # The chains of a valid grammar

    In a valid grammar the chains of every variable can be listed and read, whatever fuel is
    given above the rank of the variable. The lists follow the rules: a derivation that is
    led by a variable passes on the chains of that variable, and a selection those of all its
    alternatives.
-/

namespace FluentGrammar

/-! ## Lists of chains -/

/-- The chains of a variable; none, if they cannot be listed. -/
def Grammar.chainsOf (g : Grammar) (v : Variable) : List Chain :=
  (g.chains v).toOption.getD []

/-- The chains of a variable with their contents; none, if they cannot be read. -/
def Grammar.readsOf (g : Grammar) (v : Variable) : List ReadChain :=
  (g.readChains v).toOption.getD []

/-- A chain with its contents. -/
def Grammar.readChain (g : Grammar) (c : Chain) : Except PassError ReadChain := do
  return ⟨c, ← g.head c, ← g.trailing c⟩

/-- What a derivation that is not led by a variable reads first. -/
def headAt : List Symbol → Head
  | .term t :: _ => if t.isEmpty then .sentinel else .terminal t
  | .var _ :: _ => .nothing
  | [] => .nothing

/-- The chain with a variable put in front, which leaves further symbols to be read. -/
def ReadChain.extend (v : Variable) (behind : List Symbol) (c : ReadChain) : ReadChain :=
  ⟨.cons v c.chain, c.head, c.trailing ++ behind⟩

/-- How the chains of a variable come from those of the variables below it. -/
def Grammar.chainsBy (g : Grammar) (v : Variable) : Rule → List Chain
  | .derivation _ (.var w :: _) => (g.chainsOf w).map (Chain.cons v)
  | .derivation _ (.term _ :: _) => [⟨v, []⟩]
  | .derivation _ [] => [⟨v, []⟩]
  | .selection _ alternatives => (alternatives.flatMap g.chainsOf).map (Chain.cons v)

/-- How the contents of the chains of a variable come from those of the variables below. -/
def Grammar.readsBy (g : Grammar) (v : Variable) : Rule → List ReadChain
  | .derivation _ (.var w :: rest) => (g.readsOf w).map (ReadChain.extend v rest)
  | .derivation _ (.term t :: rest) => [⟨⟨v, []⟩, headAt (.term t :: rest), rest⟩]
  | .derivation _ [] => [⟨⟨v, []⟩, .nothing, []⟩]
  | .selection _ alternatives => (alternatives.flatMap g.readsOf).map (ReadChain.extend v [])

theorem Grammar.requireRule_eq_ok {g : Grammar} {v : Variable} {r : Rule} :
    g.requireRule v = .ok r ↔ g.rule? v = some r := by
  unfold requireRule rule
  cases g.rule? v with
  | none => simp [Except.mapError]
  | some q => simp [Except.mapError]

section Lists

variable {g : Grammar} {v : Variable} {r : Rule}

theorem Rule.leading_mem_references (lhs w : Variable) (rest : List Symbol) :
    w ∈ (Rule.derivation lhs (.var w :: rest)).references :=
  Rule.mem_references_derivation.mpr (List.mem_cons_self ..)

theorem Rule.mem_references_of_behind {u : Variable} (h : .var u ∈ r.behindLeading) :
    u ∈ r.references := by
  cases r with
  | derivation lhs rhs => exact Rule.mem_references_derivation.mpr (List.mem_of_mem_tail h)
  | selection lhs alternatives => cases h

/-- One variable at a time, the chains of a rule are listed out of the chains below. -/
theorem chainsWithin_succ (hr : g.rule? v = some r) {fuel : Nat}
    (hbelow : ∀ u ∈ r.references, g.chainsWithin fuel u = .ok (g.chainsOf u)) :
    g.chainsWithin (fuel + 1) v = .ok (g.chainsBy v r) := by
  rw [Grammar.chainsWithin, Grammar.requireRule_eq_ok.mpr hr]
  cases r with
  | derivation lhs rhs =>
    cases rhs with
    | nil => rfl
    | cons x rest =>
      cases x with
      | term t => rfl
      | var w =>
        have hw := hbelow w (Rule.leading_mem_references ..)
        show (do return (← g.chainsWithin fuel w).map (Chain.cons v)) = _
        rw [hw]
        rfl
  | selection lhs alternatives =>
    -- No alternative fails, so the lists for them are put together.
    have hall : alternatives.mapM (g.chainsWithin fuel) =
        .ok (alternatives.map g.chainsOf) := by
      rw [except_mapM_eq_ok, List.forall₂_map_right_iff, List.forall₂_same]
      exact hbelow
    show (do return (← alternatives.mapM (g.chainsWithin fuel)).flatten.map (Chain.cons v)) = _
    rw [hall]
    show Except.ok _ = _
    rw [Grammar.chainsBy, List.flatMap_def]

theorem chainsOf_eq_of_chains {cs : List Chain} (h : g.chains v = .ok cs) :
    g.chainsOf v = cs := by
  unfold Grammar.chainsOf
  rw [h]
  rfl

/-- More fuel than the rank of a variable gives all of its chains. -/
theorem chainsWithin_eq_ok (hg : g.Valid) (hv : v.id ∈ ruleIds g.rules) :
    ∀ fuel, rank g.rules v.id < fuel → g.chainsWithin fuel v = .ok (g.chainsOf v) := by
  have hwell := hg.well_formed
  refine hg.rule_induction (P := fun v => ∀ fuel, rank g.rules v.id < fuel →
    g.chainsWithin fuel v = .ok (g.chainsOf v)) ?_ v hv
  intro v r hrule ih
  have hmem := Grammar.mem_of_rule? hrule
  have hlhs := Grammar.lhs_of_rule? hrule
  have hexpand : ∀ fuel, rank g.rules v.id < fuel →
      g.chainsWithin fuel v = .ok (g.chainsBy v r) := by
    intro fuel hfuel
    cases fuel with
    | zero => exact absurd hfuel (Nat.not_lt_zero _)
    | succ fuel =>
      apply chainsWithin_succ hrule
      intro u hu
      have hlt := hwell.rank_lt (refersTo_of_mem hmem hu)
      rw [hlhs] at hlt
      exact ih u hu fuel (by omega)
  -- The fuel that listing is given in the end is one such amount.
  have hchains : g.chains v = .ok (g.chainsBy v r) := by
    apply hexpand
    have hlt := hwell.rank_lt_length (mem_ruleIds_of_mem hmem)
    rw [hlhs] at hlt
    exact Nat.lt_succ_of_lt hlt
  intro fuel hfuel
  rw [hexpand fuel hfuel, chainsOf_eq_of_chains hchains]

theorem chains_eq_ok (hg : g.Valid) (hv : v.id ∈ ruleIds g.rules) :
    g.chains v = .ok (g.chainsOf v) := by
  apply chainsWithin_eq_ok hg hv
  have hlt := hg.well_formed.rank_lt_length hv
  exact Nat.lt_succ_of_lt hlt

theorem mem_ruleIds_of_rule? (hr : g.rule? v = some r) : v.id ∈ ruleIds g.rules :=
  Grammar.lhs_of_rule? hr ▸ mem_ruleIds_of_mem (Grammar.mem_of_rule? hr)

/-- The references of a rule have rules of their own. -/
theorem mem_ruleIds_of_reference (hg : g.Valid) (hr : g.rule? v = some r) {u : Variable}
    (hu : u ∈ r.references) : u.id ∈ ruleIds g.rules :=
  defines_iff_mem_ruleIds.mp (hg.well_formed.closed r (Grammar.mem_of_rule? hr) u hu)

theorem chainsOf_eq (hg : g.Valid) (hr : g.rule? v = some r) :
    g.chainsOf v = g.chainsBy v r := by
  apply chainsOf_eq_of_chains
  apply chainsWithin_succ hr
  intro u hu
  have hmem := Grammar.mem_of_rule? hr
  have hlt := hg.well_formed.rank_lt (refersTo_of_mem hmem hu)
  have hlt' := hg.well_formed.rank_lt_length (mem_ruleIds_of_mem hmem)
  exact chainsWithin_eq_ok hg (mem_ruleIds_of_reference hg hr hu) _ (hlt.trans hlt')

end Lists

/-! ## Reading chains -/

section Reading

variable {g : Grammar} {v : Variable} {r : Rule}

theorem readChains_eq : g.readChains v = g.chains v >>= fun cs => cs.mapM g.readChain := rfl

theorem head_cons {c : Chain} {h : Head} (hc : g.head c = .ok h) :
    g.head (.cons v c) = .ok h := by
  unfold Grammar.head at hc ⊢
  rw [Chain.terminus_cons]
  obtain ⟨q, hq, hc⟩ := except_bind_eq_ok.mp hc
  refine except_bind_eq_ok.mpr ⟨q, hq, ?_⟩
  cases q with
  | derivation lhs rhs =>
    cases rhs with
    | nil => exact hc
    | cons x rest =>
      cases x with
      | term t => exact hc
      | var w => cases hc
  | selection lhs alternatives => cases hc

theorem trailing_cons {c : Chain} {behind : List Symbol} (hr : g.rule? v = some r)
    (hc : g.trailing c = .ok behind) :
    g.trailing (.cons v c) = .ok (behind ++ r.behindLeading) := by
  unfold Grammar.trailing at hc ⊢
  obtain ⟨rules, hrules, hc⟩ := except_bind_eq_ok.mp hc
  cases hc
  refine except_bind_eq_ok.mpr ⟨rules ++ [r], ?_, ?_⟩
  · rw [except_mapM_eq_ok] at hrules ⊢
    rw [Chain.vars_cons, List.reverse_cons]
    refine List.rel_append hrules (.cons ?_ .nil)
    exact Grammar.requireRule_eq_ok.mpr hr
  · rw [List.flatMap_append]
    show Except.ok _ = Except.ok _
    rw [List.flatMap_cons, List.flatMap_nil, List.append_nil]

theorem readChain_cons {c : Chain} {rc : ReadChain} (hr : g.rule? v = some r)
    (hc : g.readChain c = .ok rc) :
    g.readChain (.cons v c) = .ok (rc.extend v r.behindLeading) := by
  unfold Grammar.readChain at hc ⊢
  obtain ⟨h, hhead, hc⟩ := except_bind_eq_ok.mp hc
  obtain ⟨behind, htrailing, hc⟩ := except_bind_eq_ok.mp hc
  cases hc
  rw [head_cons hhead, trailing_cons hr htrailing]
  rfl

/-- Which chains stand for which contents. -/
def ReadsChain (g : Grammar) (c : Chain) (rc : ReadChain) : Prop :=
  g.readChain c = .ok rc

theorem forall₂_readsChain_cons (hr : g.rule? v = some r) {cs : List Chain}
    {rcs : List ReadChain} (h : List.Forall₂ (ReadsChain g) cs rcs) :
    List.Forall₂ (ReadsChain g) (cs.map (Chain.cons v))
      (rcs.map (ReadChain.extend v r.behindLeading)) := by
  rw [List.forall₂_map_left_iff, List.forall₂_map_right_iff]
  exact h.imp fun _ _ => readChain_cons hr

theorem forall₂_flatMap {α β γ : Type} {R : β → γ → Prop} {xs : List α} {f : α → List β}
    {k : α → List γ} (h : ∀ x ∈ xs, List.Forall₂ R (f x) (k x)) :
    List.Forall₂ R (xs.flatMap f) (xs.flatMap k) := by
  induction xs with
  | nil => exact .nil
  | cons x rest ih =>
    rw [List.flatMap_cons, List.flatMap_cons]
    exact List.rel_append (h x (List.mem_cons_self ..))
      (ih fun y hy => h y (List.mem_cons_of_mem _ hy))

/-- The lists of a rule are read when the lists below it are. -/
theorem forall₂_readsBy (hr : g.rule? v = some r)
    (hbelow : ∀ u ∈ r.references, List.Forall₂ (ReadsChain g) (g.chainsOf u) (g.readsOf u)) :
    List.Forall₂ (ReadsChain g) (g.chainsBy v r) (g.readsBy v r) := by
  -- A chain ends at a derivation that is not led by a variable.
  have hstop : ∀ lhs rhs, r = .derivation lhs rhs → (∀ w rest, rhs ≠ .var w :: rest) →
      ReadsChain g ⟨v, []⟩ ⟨⟨v, []⟩, headAt rhs, rhs.tail⟩ := by
    intro lhs rhs hrhs hled
    have hrule := Grammar.requireRule_eq_ok.mpr hr
    have htrailing : g.trailing ⟨v, []⟩ = .ok rhs.tail := by
      unfold Grammar.trailing
      show ([v].mapM g.requireRule >>= _) = _
      rw [List.mapM_cons, List.mapM_nil, hrule, hrhs]
      show Except.ok (rhs.tail ++ []) = _
      rw [List.append_nil]
    have hhead : g.head ⟨v, []⟩ = .ok (headAt rhs) := by
      unfold Grammar.head
      show (g.requireRule v >>= _) = _
      rw [hrule, hrhs]
      cases rhs with
      | nil => rfl
      | cons x rest =>
        cases x with
        | term t => rfl
        | var w => exact absurd rfl (hled w rest)
    unfold ReadsChain Grammar.readChain
    rw [hhead, htrailing]
    rfl
  cases r with
  | derivation lhs rhs =>
    cases rhs with
    | nil => exact .cons (hstop lhs [] rfl (fun _ _ h => nomatch h)) .nil
    | cons x rest =>
      cases x with
      | term t => exact .cons (hstop lhs _ rfl (fun _ _ h => nomatch h)) .nil
      | var w =>
        have hw := hbelow w (Rule.leading_mem_references ..)
        exact forall₂_readsChain_cons hr hw
  | selection lhs alternatives =>
    exact forall₂_readsChain_cons hr (forall₂_flatMap hbelow)

theorem readsOf_eq_of_readChains {rcs : List ReadChain} (h : g.readChains v = .ok rcs) :
    g.readsOf v = rcs := by
  unfold Grammar.readsOf
  rw [h]
  rfl

/-- In a valid grammar all chains are read. -/
theorem forall₂_readsOf (hg : g.Valid) (hv : v.id ∈ ruleIds g.rules) :
    List.Forall₂ (ReadsChain g) (g.chainsOf v) (g.readsOf v) ∧
      ∀ r, g.rule? v = some r → g.readsOf v = g.readsBy v r := by
  refine hg.rule_induction (P := fun v =>
    List.Forall₂ (ReadsChain g) (g.chainsOf v) (g.readsOf v) ∧
      ∀ r, g.rule? v = some r → g.readsOf v = g.readsBy v r) ?_ v hv
  intro v r hrule ih
  have hread := forall₂_readsBy hrule fun u hu => (ih u hu).1
  rw [← chainsOf_eq hg hrule] at hread
  -- The contents that are read are the expected ones, so these are the contents.
  have hreads : g.readChains v = .ok (g.readsBy v r) := by
    rw [readChains_eq, chains_eq_ok hg (mem_ruleIds_of_rule? hrule)]
    exact except_mapM_eq_ok.mpr hread
  rw [readsOf_eq_of_readChains hreads]
  refine ⟨hread, ?_⟩
  intro q hq
  rw [hrule] at hq
  cases hq
  rfl

theorem readChains_eq_ok (hg : g.Valid) (hv : v.id ∈ ruleIds g.rules) :
    g.readChains v = .ok (g.readsOf v) := by
  rw [readChains_eq, chains_eq_ok hg hv]
  exact except_mapM_eq_ok.mpr (forall₂_readsOf hg hv).1

theorem readsOf_eq (hg : g.Valid) (hr : g.rule? v = some r) :
    g.readsOf v = g.readsBy v r :=
  (forall₂_readsOf hg (mem_ruleIds_of_rule? hr)).2 r hr

end Reading

end FluentGrammar
