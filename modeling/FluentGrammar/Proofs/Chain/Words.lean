import FluentGrammar.Language.Derivation
import FluentGrammar.Proofs.Chain.Parting

/-! # The words of chains

    A chain stands for the words that begin with what it reads first and go on with words of
    the symbols that it leaves. A variable derives the words of all of its chains. So a word
    of a variable begins either with the terminal that a chain reads first, or, behind a
    chain that reads none, with what the symbols left by the chain begin with.
-/

namespace FluentGrammar

variable {g : Grammar} {v : Variable} {w : Word}

/-- What a chain reads first, as a word. -/
def Head.word : Head → Word
  | .terminal t => [t]
  | .nothing => []
  | .sentinel => []

/-- A chain and the symbols that it leaves derive a word. -/
def ReadChain.Derives (g : Grammar) (c : ReadChain) (w : Word) : Prop :=
  ∃ u, w = c.head.word ++ u ∧ DerivesAll g c.trailing u

/-! ## Chains of a rule -/

theorem word_headAt_term (t : Terminal) (rest : List Symbol) :
    (headAt (.term t :: rest)).word = t.word := by
  show (if t.isEmpty then Head.sentinel else Head.terminal t).word =
    if t.isEmpty then [] else [t]
  by_cases ht : t.isEmpty = true
  · rw [if_pos ht, if_pos ht]
    rfl
  · rw [if_neg ht, if_neg ht]
    rfl

/-- More symbols behind a chain go on with the words of the chain. -/
theorem ReadChain.derives_extend {c : ReadChain} {behind : List Symbol} :
    (c.extend v behind).Derives g w ↔
      ∃ u₁ u₂, w = u₁ ++ u₂ ∧ c.Derives g u₁ ∧ DerivesAll g behind u₂ := by
  show (∃ u, w = c.head.word ++ u ∧ DerivesAll g (c.trailing ++ behind) u) ↔ _
  constructor
  · intro hex
    obtain ⟨u, hw, hu⟩ := hex
    obtain ⟨u₁, u₂, rfl, h₁, h₂⟩ := derivesAll_append.mp hu
    refine ⟨c.head.word ++ u₁, u₂, ?_, ⟨u₁, rfl, h₁⟩, h₂⟩
    rw [hw, List.append_assoc]
  · intro hex
    obtain ⟨_, u₂, hw, ⟨u₁, hfront, h₁⟩, h₂⟩ := hex
    refine ⟨u₁ ++ u₂, ?_, derivesAll_append.mpr ⟨u₁, u₂, rfl, h₁, h₂⟩⟩
    rw [hw, hfront, List.append_assoc]

theorem ReadChain.derives_extend_nil {c : ReadChain} :
    (c.extend v []).Derives g w ↔ c.Derives g w := by
  rw [derives_extend]
  constructor
  · intro hex
    obtain ⟨u₁, u₂, hw, h₁, h₂⟩ := hex
    rw [derivesAll_nil.mp h₂, List.append_nil] at hw
    rw [hw]
    exact h₁
  · intro h
    exact ⟨w, [], (List.append_nil w).symm, h, .nil⟩

/-- A word of a rule is one of a chain, when those of its references are. -/
theorem derives_iff_exists_readsBy {r : Rule} (hrule : g.rule? v = some r)
    (hbelow : ∀ u ∈ r.references, ∀ w,
      Derives g u w ↔ ∃ c ∈ g.readsOf u, c.Derives g w) :
    Derives g v w ↔ ∃ c ∈ g.readsBy v r, c.Derives g w := by
  cases r with
  | derivation lhs rhs =>
    rw [derives_iff_of_derivation hrule]
    cases rhs with
    | nil => simp [Grammar.readsBy, ReadChain.Derives, Head.word]
    | cons x rest =>
      cases x with
      | term t =>
        rw [derivesAll_term]
        -- The only chain stops at the terminal, with the rest of the sequence behind it.
        simp only [Grammar.readsBy, List.mem_singleton, exists_eq_left, ReadChain.Derives,
          word_headAt_term]
      | var x =>
        -- A chain of the leading variable, with what follows the variable put behind it.
        have hx := hbelow x (Rule.leading_mem_references lhs x rest)
        rw [derivesAll_var, Grammar.readsBy]
        constructor
        · intro hex
          obtain ⟨u₁, u₂, hw, h₁, h₂⟩ := hex
          obtain ⟨c, hc, h₁⟩ := (hx u₁).mp h₁
          exact ⟨_, List.mem_map_of_mem hc,
            ReadChain.derives_extend.mpr ⟨u₁, u₂, hw, h₁, h₂⟩⟩
        · intro hex
          obtain ⟨_, hmem, h⟩ := hex
          obtain ⟨c, hc, rfl⟩ := List.mem_map.mp hmem
          obtain ⟨u₁, u₂, hw, h₁, h₂⟩ := ReadChain.derives_extend.mp h
          exact ⟨u₁, u₂, hw, (hx u₁).mpr ⟨c, hc, h₁⟩, h₂⟩
  | selection lhs alternatives =>
    rw [derives_iff_of_selection hrule, Grammar.readsBy]
    constructor
    · intro hex
      obtain ⟨u, hu, h⟩ := hex
      obtain ⟨c, hc, h⟩ := (hbelow u hu w).mp h
      exact ⟨_, List.mem_map_of_mem (List.mem_flatMap.mpr ⟨u, hu, hc⟩),
        ReadChain.derives_extend_nil.mpr h⟩
    · intro hex
      obtain ⟨_, hmem, h⟩ := hex
      obtain ⟨c, hlist, rfl⟩ := List.mem_map.mp hmem
      obtain ⟨u, hu, hc⟩ := List.mem_flatMap.mp hlist
      exact ⟨u, hu, (hbelow u hu w).mpr ⟨c, hc, ReadChain.derives_extend_nil.mp h⟩⟩

/-! ## Chains of a variable -/

/-- A variable of a valid grammar derives the words of its chains. -/
theorem derives_iff_exists_read (hg : g.Valid) (hv : v.id ∈ ruleIds g.rules) :
    Derives g v w ↔ ∃ c ∈ g.readsOf v, c.Derives g w := by
  refine hg.rule_induction (P := fun v => ∀ w,
    Derives g v w ↔ ∃ c ∈ g.readsOf v, c.Derives g w) ?_ v hv w
  intro v r hrule ih w
  rw [readsOf_eq hg hrule]
  exact derives_iff_exists_readsBy hrule ih

/-! ## Every variable derives a word -/

theorem exists_derivesAll {symbols : List Symbol}
    (h : ∀ u, Symbol.var u ∈ symbols → ∃ w, Derives g u w) :
    ∃ w, DerivesAll g symbols w := by
  induction symbols with
  | nil => exact ⟨[], .nil⟩
  | cons x rest ih =>
    obtain ⟨w, hw⟩ := ih fun u hu => h u (List.mem_cons_of_mem _ hu)
    cases x with
    | term t => exact ⟨t.word ++ w, .term hw⟩
    | var x =>
      obtain ⟨u, hu⟩ := h x (List.mem_cons_self ..)
      exact ⟨u ++ w, .var hu hw⟩

theorem exists_derives (hg : g.Valid) (hv : v.id ∈ ruleIds g.rules) : ∃ w, Derives g v w := by
  refine hg.rule_induction (P := fun v => ∃ w, Derives g v w) ?_ v hv
  intro v r hrule ih
  cases r with
  | derivation lhs rhs =>
    have hsymbols : ∃ w, DerivesAll g rhs w :=
      exists_derivesAll fun u hu => ih u (Rule.mem_references_derivation.mpr hu)
    obtain ⟨w, hw⟩ := hsymbols
    exact ⟨w, .derivation hrule hw⟩
  | selection lhs alternatives =>
    have htwo := (hg.well_formed.selections lhs alternatives (Grammar.mem_of_rule? hrule)).1
    obtain ⟨u, hu⟩ := List.exists_mem_of_length_pos (l := alternatives) (by omega)
    obtain ⟨w, hw⟩ := ih u hu
    exact ⟨w, .selection hrule hu hw⟩

/-- Every chain has a word. -/
theorem exists_word_of_mem_readsOf (hg : g.Valid) (hv : v.id ∈ ruleIds g.rules)
    {c : ReadChain} (hc : c ∈ g.readsOf v) : ∃ w, c.Derives g w := by
  have hbehind : ∀ {v : Variable} {r : Rule}, g.rule? v = some r →
      ∃ w, DerivesAll g r.behindLeading w := by
    intro v r hrule
    refine exists_derivesAll fun u hu => ?_
    exact exists_derives hg
      (mem_ruleIds_of_reference hg hrule (Rule.mem_references_of_behind hu))
  refine readsOf_induction hg (P := fun _ c => ∃ w, c.Derives g w) ?_ ?_ ?_ v hv c hc
  · intro v lhs rhs hrule _
    obtain ⟨w, hw⟩ := hbehind hrule
    exact ⟨(headAt rhs).word ++ w, w, rfl, hw⟩
  · intro v lhs x rest c hrule _ ih
    obtain ⟨u, hu⟩ := ih
    obtain ⟨w, hw⟩ := hbehind hrule
    exact ⟨u ++ w, ReadChain.derives_extend.mpr ⟨u, w, rfl, hu, hw⟩⟩
  · intro v lhs alternatives x c _ _ _ ih
    obtain ⟨u, hu⟩ := ih
    exact ⟨u, ReadChain.derives_extend_nil.mpr hu⟩

/-! ## First terminals -/

variable {t : Terminal}

/-- A chain of the variable reads the terminal first. -/
def Grammar.LeadsWith (g : Grammar) (v : Variable) (t : Terminal) : Prop :=
  ∃ c ∈ g.readsOf v, c.head = .terminal t

/-- A chain of the variable reads nothing first, and the symbols that it leaves derive a word
    that begins with the terminal. -/
def Grammar.HidesFirst (g : Grammar) (v : Variable) (t : Terminal) : Prop :=
  ∃ c ∈ g.readsOf v, c.head.terminal? = none ∧ ∃ u, DerivesAll g c.trailing (t :: u)

/-- The first terminals of a variable are those that its chains lead with or hide. -/
theorem derives_first_iff (hg : g.Valid) (hv : v.id ∈ ruleIds g.rules) :
    (∃ u, Derives g v (t :: u)) ↔ g.LeadsWith v t ∨ g.HidesFirst v t := by
  constructor
  · intro hex
    obtain ⟨u, h⟩ := hex
    obtain ⟨c, hc, w, hword, hw⟩ := (derives_iff_exists_read hg hv).mp h
    cases hhead : c.head with
    | terminal s =>
      -- The word begins with what the chain reads first.
      rw [hhead] at hword
      obtain ⟨rfl, -⟩ := List.cons.inj hword
      exact Or.inl ⟨c, hc, hhead⟩
    | nothing =>
      rw [hhead] at hword
      refine Or.inr ⟨c, hc, by rw [hhead]; rfl, u, ?_⟩
      rw [show t :: u = w from hword]
      exact hw
    | sentinel =>
      rw [hhead] at hword
      refine Or.inr ⟨c, hc, by rw [hhead]; rfl, u, ?_⟩
      rw [show t :: u = w from hword]
      exact hw
  · intro h
    rcases h with ⟨c, hc, hhead⟩ | ⟨c, hc, hhead, u, hu⟩
    · -- What is left to be read has a word, whichever it is.
      obtain ⟨w, u, hw, hu⟩ := exists_word_of_mem_readsOf hg hv hc
      refine ⟨u, (derives_iff_exists_read hg hv).mpr ⟨c, hc, u, ?_, hu⟩⟩
      rw [hhead]
      rfl
    · refine ⟨u, (derives_iff_exists_read hg hv).mpr ⟨c, hc, t :: u, ?_, hu⟩⟩
      have hnone : c.head.word = [] := by
        cases hword : c.head with
        | terminal s =>
          rw [hword] at hhead
          cases hhead
        | nothing => rfl
        | sentinel => rfl
      rw [hnone, List.nil_append]

end FluentGrammar
