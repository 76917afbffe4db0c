import FluentGrammar.Proofs.Chain.Openings
import FluentGrammar.Proofs.Chain.Words
import FluentGrammar.Proofs.Value.Ambiguity

/-! # Variables fall apart into chains

    A derivation tree begins along one chain: it takes the alternatives that the chain takes,
    and goes down to the terminus. What is left of it are trees of the symbols that the chain
    leaves, in the order in which the chain leaves them. So the trees of a variable are those
    of its chains, and the number of trees of a word is the sum, over the chains, of the
    numbers of ways in which the word is derived along them.
-/

namespace FluentGrammar

variable {g : Grammar} {v u : Variable} {w : Word}

/-! ## The chain of a tree -/

mutual

/-- The chain that a tree begins along. -/
def Tree.chain {v : Variable} : Tree g v → Chain
  | .derivation _ below =>
    match below.leading? with
    | some c => .cons v c
    | none => ⟨v, []⟩
  | .selection _ _ below => .cons v below.chain

/-- The chain of the first tree, if the first symbol is a variable. -/
def Forest.leading? {symbols : List Symbol} : Forest g symbols → Option Chain
  | .nil => none
  | .term _ => none
  | .var front _ => some front.chain

end

theorem Tree.root_chain (T : Tree g v) : T.chain.root = v := by
  cases T with
  | derivation rule below =>
    rw [Tree.chain]
    cases below.leading? <;> rfl
  | selection rule choice below => rfl

/-- The trees of a variable that begin along a chain. -/
abbrev TreesAlong (g : Grammar) (v : Variable) (c : Chain) : Type :=
  {T : Tree g v // T.chain = c}

/-! ## Forests side by side -/

/-- The trees of one sequence of symbols, and those of another one behind them. -/
def Forest.append {behind : List Symbol} :
    (front : List Symbol) → Forest g front → Forest g behind → Forest g (front ++ behind)
  | [], _, G => G
  | .term _ :: rest, .term F, G => .term (append rest F G)
  | .var _ :: rest, .var T F, G => .var T (append rest F G)

theorem Forest.word_append {front behind : List Symbol} (F : Forest g front)
    (G : Forest g behind) : (Forest.append front F G).word = F.word ++ G.word := by
  induction front with
  | nil =>
    cases F
    rfl
  | cons x rest ih =>
    cases F with
    | term F =>
      show _ ++ (Forest.append rest F G).word = (_ ++ F.word) ++ G.word
      rw [ih, List.append_assoc]
    | var T F =>
      show T.word ++ (Forest.append rest F G).word = (T.word ++ F.word) ++ G.word
      rw [ih, List.append_assoc]

/-- A forest of two sequences is made of a forest of each in one way. -/
theorem Forest.bijective_append (front behind : List Symbol) :
    Function.Bijective
      (fun p : Forest g front × Forest g behind => Forest.append front p.1 p.2) := by
  -- Along the front: its first symbol tells what a forest begins with, so two forests of one
  -- shape are compared part by part.
  induction front with
  | nil =>
    constructor
    · rintro ⟨F, G⟩ ⟨F', G'⟩ h
      cases F
      cases F'
      cases (show G = G' from h)
      rfl
    · exact fun G => ⟨(.nil, G), rfl⟩
  | cons x rest ih =>
    obtain ⟨hinjective, hsurjective⟩ := ih
    constructor
    · rintro ⟨F, G⟩ ⟨F', G'⟩ h
      cases F with
      | term F =>
        cases F' with
        | term F' =>
          have hrest : Forest.append rest F G = Forest.append rest F' G' := by
            injection h
          cases @hinjective (F, G) (F', G') hrest
          rfl
      | var T F =>
        cases F' with
        | var T' F' =>
          obtain ⟨rfl, hrest⟩ :
              T = T' ∧ Forest.append rest F G = Forest.append rest F' G' := by
            injection h with _ _ htree hrest
            exact ⟨htree, hrest⟩
          cases @hinjective (F, G) (F', G') hrest
          rfl
    · intro H
      cases H with
      | term H =>
        obtain ⟨⟨F, G⟩, rfl⟩ := hsurjective H
        exact ⟨(.term F, G), rfl⟩
      | var T H =>
        obtain ⟨⟨F, G⟩, rfl⟩ := hsurjective H
        exact ⟨(.var T F, G), rfl⟩

/-! ## Growing trees out of forests -/

/-- The trees along a chain correspond one by one to the forests of the symbols that the chain
    leaves, and read what the chain reads first in addition. -/
def ReadChain.Grows (g : Grammar) (v : Variable) (c : ReadChain) : Prop :=
  ∃ grow : Forest g c.trailing ≃ TreesAlong g v c.chain,
    ∀ F, (grow F).1.word = c.head.word ++ F.word

/-- Where trees along a chain grow, trees along a longer one grow out of them. -/
theorem ReadChain.Grows.extend {c : ReadChain} {behind : List Symbol} (h : c.Grows g u)
    (make : TreesAlong g u c.chain × Forest g behind → TreesAlong g v (.cons v c.chain))
    (hmake : Function.Bijective make)
    (hword : ∀ p, (make p).1.word = p.1.1.word ++ p.2.word) : (c.extend v behind).Grows g v := by
  obtain ⟨grow, hgrow⟩ := h
  let join := Equiv.ofBijective _ (Forest.bijective_append (g := g) c.trailing behind)
  refine ⟨join.symm.trans ((grow.prodCongr (.refl _)).trans (.ofBijective make hmake)), ?_⟩
  intro H
  obtain ⟨⟨F, G⟩, rfl⟩ := join.surjective H
  show (make (grow.prodCongr (.refl _) (join.symm (join (F, G))))).1.word =
    c.head.word ++ (Forest.append c.trailing F G).word
  rw [Equiv.symm_apply_apply, hword, Forest.word_append, ← List.append_assoc, ← hgrow]
  rfl

/-- Where no variable leads a derivation, its trees are those of what stands behind the first
    symbol. -/
theorem ReadChain.Grows.stop {lhs : Variable} {rhs : List Symbol}
    (hrule : g.rule? v = some (.derivation lhs rhs)) (hstop : ∀ w rest, rhs ≠ .var w :: rest) :
    ReadChain.Grows g v ⟨⟨v, []⟩, headAt rhs, rhs.tail⟩ := by
  -- The chain is the variable itself, so a tree of the rule is told by the forest behind the head
  -- and by nothing else.
  cases rhs with
  | nil =>
    refine ⟨.ofBijective (fun F => ⟨.derivation hrule F, ?_⟩) ⟨?_, ?_⟩, fun F => ?_⟩
    · cases (show Forest g [] from F)
      rfl
    · intro F F' h
      cases h
      rfl
    · rintro ⟨T, -⟩
      cases T with
      | derivation rule' below =>
        cases hrule.symm.trans rule'
        exact ⟨below, rfl⟩
      | selection rule' choice below => cases hrule.symm.trans rule'
    · rfl
  | cons x rest =>
    cases x with
    | var x => exact absurd rfl (hstop x rest)
    | term t =>
      refine ⟨.ofBijective (fun F => ⟨.derivation hrule (.term F), rfl⟩) ⟨?_, ?_⟩, fun F => ?_⟩
      · intro F F' h
        cases h
        rfl
      · rintro ⟨T, -⟩
        cases T with
        | derivation rule' below =>
          cases hrule.symm.trans rule'
          cases below with
          | term F => exact ⟨F, rfl⟩
        | selection rule' choice below => cases hrule.symm.trans rule'
      · show t.word ++ F.word = (headAt (.term t :: rest)).word ++ F.word
        rw [word_headAt_term]

/-- A derivation that a variable leads passes the trees of that variable on. -/
theorem ReadChain.Grows.pass {lhs : Variable} {rest : List Symbol} {c : ReadChain}
    (hrule : g.rule? v = some (.derivation lhs (.var u :: rest))) (h : c.Grows g u) :
    (c.extend v rest).Grows g v := by
  refine h.extend (fun p => ⟨.derivation hrule (.var p.1.1 p.2), ?_⟩) ⟨?_, ?_⟩ ?_
  · show Chain.cons v p.1.1.chain = _
    rw [p.1.2]
  · rintro ⟨⟨T, hT⟩, F⟩ ⟨⟨T', hT'⟩, F'⟩ heq
    cases heq
    rfl
  · rintro ⟨T, hT⟩
    cases T with
    | derivation rule' below =>
      cases hrule.symm.trans rule'
      cases below with
      | var T F => exact ⟨(⟨T, Chain.cons_injective v hT⟩, F), rfl⟩
    | selection rule' choice below => cases hrule.symm.trans rule'
  · rintro ⟨⟨T, hT⟩, F⟩
    rfl

/-- A selection passes the trees of its alternatives on, each along chains of its own. -/
theorem ReadChain.Grows.choose {lhs : Variable} {alternatives : List Variable} {c : ReadChain}
    (hrule : g.rule? v = some (.selection lhs alternatives)) (hu : u ∈ alternatives)
    (hroot : c.chain.root = u) (h : c.Grows g u) : (c.extend v []).Grows g v := by
  refine h.extend (fun p => ⟨.selection hrule hu p.1.1, ?_⟩) ⟨?_, ?_⟩ ?_
  · show Chain.cons v p.1.1.chain = _
    rw [p.1.2]
  · rintro ⟨⟨T, hT⟩, F⟩ ⟨⟨T', hT'⟩, F'⟩ heq
    cases heq
    cases F
    cases F'
    rfl
  · rintro ⟨T, hT⟩
    cases T with
    | derivation rule' below => cases hrule.symm.trans rule'
    | @selection _ _ x _ rule' choice below =>
      cases hrule.symm.trans rule'
      have hchain : below.chain = c.chain := Chain.cons_injective v hT
      -- The chain begins at the alternative that is taken.
      obtain rfl : x = u := by rw [← below.root_chain, hchain, hroot]
      exact ⟨(⟨below, hchain⟩, .nil), rfl⟩
  · rintro ⟨⟨T, hT⟩, F⟩
    cases F
    show T.word = T.word ++ []
    rw [List.append_nil]

/-- Along every chain of a variable of a valid grammar, trees grow. -/
theorem ReadChain.grows (hg : g.Valid) (hv : v.id ∈ ruleIds g.rules) {c : ReadChain}
    (hc : c ∈ g.readsOf v) : c.Grows g v := by
  refine readsOf_induction hg (P := fun v c => c.Grows g v) ?_ ?_ ?_ v hv c hc
  · exact fun v lhs rhs hrule hstop => .stop hrule hstop
  · exact fun v lhs x rest c hrule _ ih => .pass hrule ih
  · intro v lhs alternatives x c hrule hx hc ih
    exact .choose hrule hx (root_of_mem_readsOf hg (mem_ruleIds_of_reference hg hrule hx) hc) ih

/-! ## Counting ways -/

/-- The ways in which a word is derived along a chain: behind what the chain reads first, the
    symbols that it leaves derive the rest. -/
abbrev ReadChain.Ways (g : Grammar) (c : ReadChain) (w : Word) : Type :=
  {F : Forest g c.trailing // c.head.word ++ F.word = w}

/-- The number of ways in which a word is derived along a chain. -/
noncomputable def ReadChain.wayCount (g : Grammar) (c : ReadChain) (w : Word) : Nat :=
  Nat.card (c.Ways g w)

/-- The ways along a chain are the derivation trees that begin along it. -/
theorem ReadChain.Grows.card_treesOf {c : ReadChain} (h : c.Grows g v) (w : Word) :
    Nat.card {T : TreesOf g v w // T.1.chain = c.chain} = c.wayCount g w := by
  obtain ⟨grow, hgrow⟩ := h
  refine (Nat.card_congr (.ofBijective
    (fun F => ⟨⟨(grow F.1).1, (hgrow F.1).trans F.2⟩, (grow F.1).2⟩) ⟨?_, ?_⟩)).symm
  · rintro ⟨F, hF⟩ ⟨F', hF'⟩ heq
    rw [Subtype.mk.injEq, Subtype.mk.injEq] at heq
    obtain rfl := grow.injective (Subtype.ext heq)
    rfl
  · rintro ⟨⟨T, hword⟩, hchain⟩
    obtain ⟨F, hF⟩ := grow.surjective ⟨T, hchain⟩
    have htree : (grow F).1 = T := congrArg Subtype.val hF
    refine ⟨⟨F, ?_⟩, Subtype.ext (Subtype.ext htree)⟩
    rw [← hgrow, htree, hword]

theorem mem_ruleIds_of_mem_trailing (hg : g.Valid) (hv : v.id ∈ ruleIds g.rules) {c : ReadChain}
    (hc : c ∈ g.readsOf v) : ∀ u, .var u ∈ c.trailing → u.id ∈ ruleIds g.rules := by
  have hbehind : ∀ {v : Variable} {r : Rule}, g.rule? v = some r →
      ∀ u, .var u ∈ r.behindLeading → u.id ∈ ruleIds g.rules := fun hrule u hu =>
    mem_ruleIds_of_reference hg hrule (Rule.mem_references_of_behind hu)
  refine readsOf_induction hg
    (P := fun _ c => ∀ u, .var u ∈ c.trailing → u.id ∈ ruleIds g.rules) ?_ ?_ ?_ v hv c hc
  · exact fun v lhs rhs hrule _ => hbehind hrule
  · intro v lhs x rest c hrule _ ih u hu
    rcases List.mem_append.mp hu with hu | hu
    · exact ih u hu
    · exact hbehind hrule u hu
  · intro v lhs alternatives x c _ _ _ ih u hu
    rcases List.mem_append.mp hu with hu | hu
    · exact ih u hu
    · cases hu

theorem Head.value_once {h : Head} (hne : h ≠ .terminal .empty) :
    h.value Terminal.once = Word.once h.word := by
  cases h with
  | nothing => rfl
  | sentinel => rfl
  | terminal t =>
    have ht : t ≠ .empty := fun heq => hne (heq ▸ rfl)
    show Word.once t.word = Word.once [t]
    rw [Terminal.word_of_ne_empty ht]

/-- The ways along a chain, valued by their words, add up to the value of the chain. -/
theorem ReadChain.totals_ways (hg : g.Valid) {a : Nat → WordSum}
    (ha : IsValuation Terminal.once g.rules a) (hv : v.id ∈ ruleIds g.rules) {c : ReadChain}
    (hc : c ∈ g.readsOf v) :
    Totals (fun F : Forest g c.trailing => Word.once (c.head.word ++ F.word))
      (c.value Terminal.once a) := by
  have hforests : Totals (Forest.value Terminal.once : Forest g c.trailing → WordSum)
      (sequenceValue Terminal.once a c.trailing) :=
    Forest.totals_value fun u hu =>
      Tree.totals_value hg ha (mem_ruleIds_of_mem_trailing hg hv hc u hu)
  have hne : c.head ≠ .terminal .empty := fun hhead => ne_empty_of_head hg hv hc hhead rfl
  refine (hforests.mul_left (c.head.value Terminal.once)).of_bijective
    Function.bijective_id fun F => ?_
  show Word.once (c.head.word ++ F.word) = _ * F.value Terminal.once
  rw [Word.once_append, F.value_once, Head.value_once hne]

theorem ReadChain.finite_ways (hg : g.Valid) (hv : v.id ∈ ruleIds g.rules) {c : ReadChain}
    (hc : c ∈ g.readsOf v) (w : Word) : Finite (c.Ways g w) := by
  obtain ⟨a, ha⟩ := hg.well_formed.exists_valuation Terminal.once
  have hfinite := (totals_ways hg ha hv hc).finite
  exact Subtype.finite

/-- The ways along all of its chains are the derivation trees of a variable. -/
theorem treeCount_eq_sum_wayCount (hg : g.Valid) (hv : v.id ∈ ruleIds g.rules) (w : Word) :
    treeCount g v w = ((g.readsOf v).map fun c => c.wayCount g w).sum := by
  obtain ⟨a, ha⟩ := hg.well_formed.exists_valuation Terminal.once
  rw [treeCount_eq hg ha hv, ha.eq_sum_reads hg Terminal.once_empty hv, WordSum.count_sum_map]
  refine congrArg List.sum (List.map_congr_left fun c hc => ?_)
  exact (ReadChain.totals_ways hg ha hv hc).count_eq w

/-! ## The trees and words of a variable -/

/-- The word that a chain opens with: the terminal that its terminus starts with. Where that is
    empty or starts with the empty terminal, there is none. -/
def Grammar.openingWord (g : Grammar) (c : Chain) : Word :=
  ((g.opening c).map Terminal.word).getD []

theorem word_head_eq (hg : g.Valid) (hv : v.id ∈ ruleIds g.rules) {c : ReadChain}
    (hc : c ∈ g.readsOf v) : c.head.word = g.openingWord c.chain := by
  unfold Grammar.openingWord
  rw [opening_eq hg hv hc]
  cases hhead : c.head with
  | nothing => rfl
  | sentinel => exact Terminal.word_empty.symm
  | terminal t => exact (Terminal.word_of_ne_empty (ne_empty_of_head hg hv hc hhead)).symm

/-- What a chain with its contents is made of. -/
theorem ReadsChain.parts {c : Chain} {rc : ReadChain} (h : ReadsChain g c rc) :
    rc.chain = c ∧ g.head c = .ok rc.head ∧ g.trailing c = .ok rc.trailing := by
  obtain ⟨head, hhead, h⟩ := except_bind_eq_ok.mp h
  obtain ⟨trailing, htrailing, h⟩ := except_bind_eq_ok.mp h
  cases h
  exact ⟨rfl, hhead, htrailing⟩

theorem readsChain_of_mem (hg : g.Valid) (hv : v.id ∈ ruleIds g.rules) {c : ReadChain}
    (hc : c ∈ g.readsOf v) : ReadsChain g c.chain c := by
  have hread := (forall₂_readsOf hg hv).1
  rw [← map_chain_readsOf hg hv, List.forall₂_map_left_iff, List.forall₂_same] at hread
  exact hread c hc

/-- A variable falls apart into its chains: its words are those of its chains, and so are the
    derivation trees of each word. -/
theorem Grammar.chains_decompose (hg : g.Valid) (hv : Defines g.rules v) :
    ∃ reads : List ReadChain, g.readChains v = .ok reads ∧
      g.chains v = .ok (reads.map (·.chain)) ∧
      (∀ c ∈ reads, g.head c.chain = .ok c.head ∧ c.head.word = g.openingWord c.chain ∧
        g.trailing c.chain = .ok c.trailing) ∧
      (∀ w, Derives g v w ↔
        ∃ c ∈ reads, ∃ u, w = c.head.word ++ u ∧ DerivesAll g c.trailing u) ∧
      ∀ w, Finite (TreesOf g v w) ∧
        treeCount g v w = (reads.map fun c => c.wayCount g w).sum ∧
        ∀ c ∈ reads, Finite (c.Ways g w) ∧
          Nat.card {T : TreesOf g v w // T.1.chain = c.chain} = c.wayCount g w := by
  have hv := defines_iff_mem_ruleIds.mp hv
  refine ⟨g.readsOf v, readChains_eq_ok hg hv, ?_, ?_,
    fun w => derives_iff_exists_read hg hv, fun w => ?_⟩
  · rw [chains_eq_ok hg hv, map_chain_readsOf hg hv]
  · intro c hc
    obtain ⟨-, hhead, htrailing⟩ := (readsChain_of_mem hg hv hc).parts
    exact ⟨hhead, word_head_eq hg hv hc, htrailing⟩
  · refine ⟨finite_treesOf hg hv w, treeCount_eq_sum_wayCount hg hv w, fun c hc => ?_⟩
    exact ⟨c.finite_ways hg hv hc w, (c.grows hg hv hc).card_treesOf w⟩

/-- A word behind a call, which is read along two chains. -/
def calledTwice : Grammar :=
  ⟨⟨0, "S"⟩,
    [.derivation ⟨1, "A"⟩ [.term ⟨"a", []⟩],
     .selection ⟨2, "P"⟩ [⟨4, "R"⟩, ⟨3, "Q"⟩],
     .derivation ⟨3, "Q"⟩ [.term ⟨"a", []⟩, .term ⟨"b", []⟩],
     .derivation ⟨4, "R"⟩ [.var ⟨1, "A"⟩, .term ⟨"b", []⟩],
     .derivation ⟨0, "S"⟩ [.var ⟨2, "P"⟩, .var ⟨1, "A"⟩]]⟩

theorem calledTwice_valid : calledTwice.Valid :=
  Grammar.valid_of_pairwise (by decide +kernel) (by decide +kernel)

/-- The two chains of the start variable, and what they leave. -/
def calledTwiceReads : List ReadChain :=
  [⟨⟨⟨0, "S"⟩, [⟨2, "P"⟩, ⟨4, "R"⟩, ⟨1, "A"⟩]⟩, .terminal ⟨"a", []⟩,
      [.term ⟨"b", []⟩, .var ⟨1, "A"⟩]⟩,
    ⟨⟨⟨0, "S"⟩, [⟨2, "P"⟩, ⟨3, "Q"⟩]⟩, .terminal ⟨"a", []⟩,
      [.term ⟨"b", []⟩, .var ⟨1, "A"⟩]⟩]

/-- The start variable has the derivation trees of both chains. -/
theorem calledTwice_decomposes :
    calledTwice.Valid ∧ Defines calledTwice.rules ⟨0, "S"⟩ ∧
      calledTwice.chains ⟨0, "S"⟩ = .ok (calledTwiceReads.map (·.chain)) ∧
      ∀ w, treeCount calledTwice ⟨0, "S"⟩ w =
        (calledTwiceReads.map fun c => c.wayCount calledTwice w).sum := by
  have hdefines : Defines calledTwice.rules ⟨0, "S"⟩ :=
    defines_iff_mem_ruleIds.mpr (by decide +kernel)
  have hreads : calledTwice.readChains ⟨0, "S"⟩ = .ok calledTwiceReads := by rfl
  obtain ⟨reads, hread, hchains, -, -, htrees⟩ :=
    Grammar.chains_decompose calledTwice_valid hdefines
  cases hreads.symm.trans hread
  exact ⟨calledTwice_valid, hdefines, hchains, fun w => (htrees w).2.1⟩

end FluentGrammar
