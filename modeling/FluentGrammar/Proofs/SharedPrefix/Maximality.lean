import FluentGrammar.Proofs.Chain.Openings
import FluentGrammar.Proofs.SharedPrefix.Discovery
import Mathlib.Data.List.Pairwise

/-! # What discovery leaves out

    Nothing: a shared prefix holds every chain of its root that opens with its symbol. The
    chains are gathered at the first selection that has two chains which open alike. All of
    them go the same way down to the last variable that they share, so below that variable
    there are no other chains that open with the symbol, and none of them passes it by.
-/

namespace FluentGrammar

variable {g : Grammar} {detect : Bool} {v : Variable} {x : Option Terminal}

/-- Two different chains of the variable open with the same terminal, the empty one apart. -/
def Grammar.Collides (g : Grammar) (v : Variable) : Prop :=
  ∃ c ∈ g.chainsOf v, ∃ d ∈ g.chainsOf v, c.ids ≠ d.ids ∧
    ∃ t, t ≠ .empty ∧ g.opening c = some t ∧ g.opening d = some t

/-! ## Chains that part further down -/

theorem Chain.eq_of_cons_eq {v w : Variable} {c d : Chain} (h : Chain.cons v c = .cons w d) :
    v = w ∧ c = d := by
  have hvw : v = w := congrArg Chain.root h
  subst hvw
  exact ⟨rfl, Chain.cons_injective v h⟩

namespace Part

variable {k n : Nat} {c d : Chain}

theorem root_eq (h : Part g k c d) : c.root = d.root := by
  cases h <;> rfl

/-- Chains that share two variables or more also share all but the first one. -/
theorem of_cons (h : Part g (k + 2) (.cons v c) (.cons v d)) : Part g (k + 1) c d := by
  generalize hc : Chain.cons v c = c' at h
  generalize hd : Chain.cons v d = d' at h
  cases h with
  | later h =>
    rw [(Chain.eq_of_cons_eq hc).2, (Chain.eq_of_cons_eq hd).2]
    exact h

/-- Where less is dropped than two chains share, they still start at the same variable. -/
theorem root_dropFront (h : Part g k c d) (hn : n < k) :
    (c.dropFront n).root = (d.dropFront n).root := by
  induction n generalizing k c d with
  | zero => exact h.root_eq
  | succ n ih =>
    cases h with
    | here => omega
    | @later k v c d h =>
      have hlength := h.lt_length
      rw [dropFront_cons (by omega), dropFront_cons (by omega)]
      exact ih h (by omega)

end Part

/-! ## Narrowing -/

/-- Chains that all go the same way for a while: none of them parts from the first one among
    its first variables. -/
def SameWay (g : Grammar) (n : Nat) (first : Chain) (chains : List Chain) : Prop :=
  first ∈ chains ∧ n < first.length ∧ ∀ c ∈ chains, c = first ∨ ∃ k, n < k ∧ Part g k first c

namespace SameWay

variable {n : Nat} {first : Chain} {chains : List Chain}

theorem lt_length (h : SameWay g n first chains) {c : Chain} (hc : c ∈ chains) :
    n < c.length := by
  rcases h.2.2 c hc with rfl | ⟨k, hk, hpart⟩
  · exact h.2.1
  · exact hk.trans hpart.lt_length.2

theorem root_eq (h : SameWay g n first chains) {c : Chain} (hc : c ∈ chains) :
    c.root = first.root := by
  rcases h.2.2 c hc with rfl | ⟨k, -, hpart⟩
  · rfl
  · exact hpart.root_eq.symm

theorem root_dropFront (h : SameWay g n first chains) {c : Chain} (hc : c ∈ chains) :
    (c.dropFront n).root = (first.dropFront n).root := by
  rcases h.2.2 c hc with rfl | ⟨k, hk, hpart⟩
  · rfl
  · exact (hpart.root_dropFront hk).symm

/-- Behind their first variable they go the same way, too. -/
theorem of_cons (h : SameWay g (n + 1) (.cons v first) (chains.map (Chain.cons v))) :
    SameWay g n first chains := by
  obtain ⟨hfirst, hlength, hother⟩ := h
  refine ⟨(List.mem_map_of_injective (Chain.cons_injective v)).mp hfirst, ?_, ?_⟩
  · exact Nat.lt_of_succ_lt_succ hlength
  · intro c hc
    rcases hother _ (List.mem_map_of_mem hc) with heq | ⟨k, hk, hpart⟩
    · exact Or.inl (Chain.cons_injective v heq)
    · obtain ⟨k, rfl⟩ := Nat.exists_eq_add_of_lt hk
      have hpart : Part g (n + k + 2) (.cons v first) (.cons v c) := by
        rwa [show n + 1 + k + 1 = n + k + 2 by omega] at hpart
      exact Or.inr ⟨n + k + 1, by omega, hpart.of_cons⟩

theorem map_dropFront_cons (h : SameWay g n first chains) :
    (chains.map (Chain.cons v)).map (·.dropFront (n + 1)) = chains.map (·.dropFront n) := by
  rw [List.map_map]
  exact List.map_congr_left fun c hc => dropFront_cons (h.lt_length hc)

end SameWay

/-- If all chains of a variable that open alike go the same way, they are those of the
    variable that it leads to which open alike. -/
theorem map_dropFront_chainsOpening (hg : g.Valid) {n : Nat} {first : Chain}
    (hv : v.id ∈ ruleIds g.rules) (h : SameWay g n first (g.chainsOpening v x)) :
    (g.chainsOpening v x).map (·.dropFront n) = g.chainsOpening (first.dropFront n).root x := by
  induction n generalizing v first with
  | zero =>
    have hroot : (first.dropFront 0).root = v :=
      root_of_mem_chainsOf hg hv (mem_chainsOpening.mp h.1).1
    rw [hroot]
    exact List.map_id _
  | succ n ih =>
    obtain ⟨r, hr, hrv⟩ := mem_ruleIds.mp hv
    have hrule := Grammar.rule?_of_mem hg.well_formed.nodup_ruleIds hr hrv
    have hfirst := (mem_chainsOpening.mp h.1).1
    cases r with
    | derivation lhs rhs =>
      by_cases hled : ∃ w rest, rhs = .var w :: rest
      · obtain ⟨w, rest, rfl⟩ := hled
        rw [chainsOpening_of_leading hg hrule] at h ⊢
        obtain ⟨below, -, rfl⟩ := List.mem_map.mp h.1
        have hbelow := h.of_cons
        have hw := mem_ruleIds_of_reference hg hrule (Rule.leading_mem_references lhs w rest)
        rw [hbelow.map_dropFront_cons, dropFront_cons hbelow.2.1]
        exact ih hw hbelow
      · -- The chain of such a derivation has no second variable.
        rw [chainsOf_of_stop hg hrule fun w rest heq => hled ⟨w, rest, heq⟩,
          List.mem_singleton] at hfirst
        have hlength := h.2.1
        rw [hfirst] at hlength
        exact absurd hlength (by simp [Chain.length, Chain.vars])
    | selection lhs alternatives =>
      rw [chainsOpening_of_selection hg hrule] at h ⊢
      obtain ⟨below, hmem, rfl⟩ := List.mem_map.mp h.1
      have hbelow := h.of_cons
      obtain ⟨u, hu, hbelowu⟩ := List.mem_flatMap.mp hmem
      have huid := mem_ruleIds_of_reference hg hrule hu
      have hroot := root_of_mem_chainsOf hg huid (mem_chainsOpening.mp hbelowu).1
      have hnodup : alternatives.Nodup :=
        (hg.well_formed.selections lhs alternatives hr).2.imp fun hne heq =>
          hne (congrArg Variable.id heq)
      -- They go the same way, so they are chains of one alternative only.
      have honly : ∀ w ∈ alternatives, g.chainsOpening w x ≠ [] → w = u := by
        intro w hw hne
        obtain ⟨c, hc⟩ := List.exists_mem_of_ne_nil _ hne
        have hwroot := root_of_mem_chainsOf hg (mem_ruleIds_of_reference hg hrule hw)
          (mem_chainsOpening.mp hc).1
        rw [← hwroot, ← hroot]
        exact hbelow.root_eq (List.mem_flatMap.mpr ⟨w, hw, hc⟩)
      have hflat := flatMap_eq_of_unique hnodup hu honly
      rw [hbelow.map_dropFront_cons, dropFront_cons hbelow.2.1]
      rw [hflat] at hbelow ⊢
      exact ih huid hbelow

/-! ## Collisions -/

/-- No two chains of a variable share a first terminal exactly when no two collide. -/
theorem nodup_terminals_iff (hg : g.Valid) (hv : v.id ∈ ruleIds g.rules) :
    ((g.readsOf v).filterMap (·.head.terminal?)).Nodup ↔ ¬ g.Collides v := by
  have hterminal : ∀ {h : Head} {t : Terminal}, h.terminal? = some t ↔ h = .terminal t := by
    intro h t
    cases h <;> simp [Head.terminal?]
  rw [List.Nodup, List.pairwise_filterMap]
  constructor
  · intro hpairwise hcollides
    obtain ⟨_, hcmem, _, hdmem, hne, t, ht, hct, hdt⟩ := hcollides
    obtain ⟨c, hc, rfl⟩ := (mem_chainsOf hg hv).mp hcmem
    obtain ⟨d, hd, rfl⟩ := (mem_chainsOf hg hv).mp hdmem
    -- The list says it for two chains in order, and a clash may be in either order.
    have hsymm : Std.Symm fun c d : ReadChain => ∀ t, c.head.terminal? = some t →
        ∀ t', d.head.terminal? = some t' → t ≠ t' :=
      ⟨fun _ _ h t ht t' ht' heq => h t' ht' t ht heq.symm⟩
    have hcd : c ≠ d := fun heq => hne (heq ▸ rfl)
    exact hpairwise.forall hc hd hcd t (hterminal.mpr ((opening_eq_some hg hv hc ht).mp hct))
      t (hterminal.mpr ((opening_eq_some hg hv hd ht).mp hdt)) rfl
  · intro hcollides
    have hchains := List.pairwise_map.mp (nodup_chains hg hv)
    refine hchains.imp_of_mem ?_
    intro c d hc hd hne t ht t' ht' heq
    subst heq
    have hempty := ne_empty_of_head hg hv hc (hterminal.mp ht)
    obtain ⟨k, hpart⟩ := exists_part hg hv hc hd hne
    exact hcollides ⟨c.chain, (mem_chainsOf hg hv).mpr ⟨c, hc, rfl⟩,
      d.chain, (mem_chainsOf hg hv).mpr ⟨d, hd, rfl⟩, hpart.ids_ne, t, hempty,
      (opening_eq_some hg hv hc hempty).mpr (hterminal.mp ht),
      (opening_eq_some hg hv hd hempty).mpr (hterminal.mp ht')⟩

theorem unshared_false_iff (hg : g.Valid) (hv : v.id ∈ ruleIds g.rules) :
    g.Unshared false v ↔ ¬ g.Collides v := by
  rw [Grammar.Unshared, nodup_terminals_iff hg hv]
  exact ⟨fun hand => hand.2, fun h => ⟨fun hfalse => (nomatch hfalse), h⟩⟩

/-! ## The first collision -/

theorem exists_first_of_firstPrefix {reached : List Variable} {p : SharedPrefix} :
    ∀ {rules : List Rule},
      g.firstPrefix detect (((rules.filter Rule.isSelection).map Rule.lhs).filter
        reached.contains) = .ok (some p) →
      ∃ front v alternatives behind, rules = front ++ .selection v alternatives :: behind ∧
        reached.contains v = true ∧ g.prefixAt detect v = .ok (some p) ∧
          ∀ u choices, Rule.selection u choices ∈ front → reached.contains u = true →
            g.prefixAt detect u = .ok none := by
  intro rules
  induction rules with
  | nil =>
    intro h
    cases h
  | cons r rest ih =>
    intro h
    -- What is skipped in front of the first one is not a reachable selection that has one.
    have hskip : (∀ u choices, r = .selection u choices → reached.contains u = true →
          g.prefixAt detect u = .ok none) →
        g.firstPrefix detect (((rest.filter Rule.isSelection).map Rule.lhs).filter
          reached.contains) = .ok (some p) →
        ∃ front v alternatives behind,
          r :: rest = front ++ .selection v alternatives :: behind ∧
          reached.contains v = true ∧ g.prefixAt detect v = .ok (some p) ∧
            ∀ u choices, Rule.selection u choices ∈ front → reached.contains u = true →
              g.prefixAt detect u = .ok none := by
      intro hnone hrest
      obtain ⟨front, v, alternatives, behind, rfl, hv, hfound, hfront⟩ := ih hrest
      refine ⟨r :: front, v, alternatives, behind, rfl, hv, hfound, ?_⟩
      intro u choices hu hreached
      rcases List.mem_cons.mp hu with heq | hu
      · exact hnone u choices heq.symm hreached
      · exact hfront u choices hu hreached
    cases r with
    | derivation lhs rhs =>
      rw [List.filter_cons_of_neg (by simp [Rule.isSelection])] at h
      exact hskip (fun u choices heq => nomatch heq) h
    | selection lhs alternatives =>
      rw [List.filter_cons_of_pos (by rfl), List.map_cons] at h
      by_cases hreached : reached.contains lhs = true
      · rw [List.filter_cons_of_pos (by exact hreached), Grammar.firstPrefix] at h
        obtain ⟨found, hfound, h⟩ := except_bind_eq_ok.mp h
        cases found with
        | some q =>
          cases h
          exact ⟨[], lhs, alternatives, rest, rfl, hreached, hfound, by simp⟩
        | none =>
          refine hskip (fun u choices heq _ => ?_) h
          cases heq
          exact hfound
      · rw [List.filter_cons_of_neg (by exact hreached)] at h
        refine hskip (fun u choices heq hu => ?_) h
        cases heq
        exact absurd hu hreached

/-! ## What is gathered -/

theorem sharedLength_le {first : Chain} {rest : List Chain} {c : Chain} (hc : c ∈ rest) :
    sharedLength (first :: rest) ≤ commonLength first.vars c.vars :=
  (foldl_min_spec (fun c : Chain => commonLength first.vars c.vars) rest first.length).2 c hc

theorem chains_of_gather (hg : g.Valid) (hv : v.id ∈ ruleIds g.rules) {p : SharedPrefix}
    (h : gather v (g.readsOf v) = some p) (hne : p.symbol ≠ .empty) :
    p.chains = g.chainsOpening v (some p.symbol) := by
  obtain ⟨t, -, rfl⟩ := Option.map_eq_some_iff.mp h
  exact map_chain_filter_head hg hv hne

/-- What is gathered at a selection goes the same way as far as its chains are narrowed. -/
theorem SharedPrefix.Gathered.sameWay {first : ReadChain} {rest : List ReadChain} {n : Nat}
    {p : SharedPrefix} (h : p.Gathered g v first rest n) (hg : g.Valid)
    (hv : v.id ∈ ruleIds g.rules) : SameWay g n first.chain p.chains := by
  obtain ⟨c, -, hpart⟩ := h.part
  rw [h.chains_eq]
  refine ⟨List.mem_cons_self .., Nat.lt_of_succ_lt hpart.lt_length.1, ?_⟩
  intro d hd
  by_cases heq : d = first.chain
  · exact Or.inl heq
  · rw [List.map_cons] at hd
    have hrest := (List.mem_cons.mp hd).resolve_left heq
    obtain ⟨d, hdmem, rfl⟩ := List.mem_map.mp hrest
    obtain ⟨k, hk⟩ := exists_part hg hv (h.listed first (List.mem_cons_self ..)).1
      (h.listed d (List.mem_cons_of_mem _ hdmem)).1 (Ne.symm heq)
    have hshared := h.shared
    rw [h.chains_eq, List.map_cons] at hshared
    have hle : sharedLength (first.chain :: rest.map (·.chain)) ≤
        commonLength first.chain.vars d.chain.vars := sharedLength_le hrest
    rw [hshared, hk.commonLength_eq] at hle
    exact Or.inr ⟨k, hle, hk⟩

theorem successor?_cons (v : Variable) (c : Chain) :
    (Chain.cons v c).successor? v = some c.root := by
  unfold Chain.successor?
  rw [Chain.vars_cons, List.dropWhile_cons_of_neg (by simp [bne])]
  rfl

/-! ## Shared prefixes that leave nothing out -/

/-- A shared prefix that leaves nothing out. -/
structure SharedPrefix.Maximal (g : Grammar) (p : SharedPrefix) : Prop where
  symbol_ne : p.symbol ≠ .empty
  /-- The root is a reachable selection. -/
  selects : ∃ lhs alternatives, g.rule? p.root = some (.selection lhs alternatives)
  reached : g.Reaches [] p.root.id
  /-- The chains are all chains of the root that open with the symbol, each of them once. -/
  chains_eq : p.chains = g.chainsOpening p.root (some p.symbol)
  nodup : (p.chains.map Chain.ids).Nodup
  two_le : 2 ≤ p.chains.length
  /-- They do not all go on with the same variable. -/
  forks : ∃ c ∈ p.chains, ∃ d ∈ p.chains, ∃ u w, c.successor? p.root = some u ∧
    d.successor? p.root = some w ∧ u.id ≠ w.id
  /-- In the first reachable selection with a collision, all chains that open with the symbol
      pass the root. -/
  passed : ∃ front v alternatives behind,
    g.rules = front ++ .selection v alternatives :: behind ∧
      g.Reaches [] v.id ∧ g.Collides v ∧
      (∀ u choices, Rule.selection u choices ∈ front → g.Reaches [] u.id → ¬ g.Collides u) ∧
        ∀ c ∈ g.chainsOpening v (some p.symbol), p.root ∈ c.vars

/-- Whatever is discovered leaves nothing out. -/
theorem SharedPrefix.Maximal.of_discover (hg : g.Valid) {p : SharedPrefix}
    (h : g.discover detect = .ok (some p)) : p.Maximal g := by
  have hforks := SharedPrefix.Forks.of_discover hg h
  have hnodup := hg.well_formed.nodup_ruleIds
  obtain ⟨front, v, alternatives, behind, hrules, hreached, hfound, hfront⟩ :=
    exists_first_of_firstPrefix h
  have hmem : Rule.selection v alternatives ∈ g.rules := by
    rw [hrules]
    exact List.mem_append_right _ (List.mem_cons_self ..)
  have hv : v.id ∈ ruleIds g.rules := mem_ruleIds_of_mem hmem
  obtain ⟨-, hnarrowed⟩ := prefixAt_eq_ok hg hv hfound
  -- Discovery gathers the chains of one terminal and then cuts what they have in common off.
  obtain ⟨q, hgather, hnarrow⟩ := exists_of_narrowed_eq_some hnarrowed
  obtain ⟨first, rest, n, hq⟩ := exists_gathered hg hv hgather
  rw [hq.narrow_eq hg hv] at hnarrow
  cases hnarrow
  obtain ⟨hfirst, hhead⟩ := hq.listed first (List.mem_cons_self ..)
  have hchains := chains_of_gather hg hv hgather (ne_empty_of_head hg hv hfirst hhead)
  have hway := hq.sameWay hg hv
  -- All of them run through the new root, so its chains are theirs without the common front.
  have hall : q.chains.map (·.dropFront n) =
      g.chainsOpening (first.chain.dropFront n).root (some q.symbol) := by
    rw [hchains] at hway ⊢
    exact map_dropFront_chainsOpening hg hv hway
  obtain ⟨lhs, choices, -, -, hrule, -⟩ := hforks.fork
  have hroot := mem_ruleIds_of_rule? hrule
  refine ⟨hforks.symbol_ne, ⟨lhs, choices, hrule⟩, hforks.reached, hall, ?_, ?_, ?_, ?_⟩
  · rw [hall]
    exact (List.filter_sublist.map Chain.ids).nodup (nodup_ids_chainsOf hg hroot)
  · obtain ⟨c, hc, -⟩ := hq.part
    have hpos := List.length_pos_of_mem hc
    simp only [hq.chains_eq, List.length_map, List.length_cons]
    omega
  · -- The front is a longest one: behind it, two of the chains go on differently.
    obtain ⟨c, hc, hpart⟩ := hq.part
    obtain ⟨pivot, _, _, c', d', -, hc', hd', -, -, hne⟩ := hpart.dropFront
    refine ⟨_, List.mem_map_of_mem hway.1, _, List.mem_map_of_mem (a := c.chain) ?_,
      c'.root, d'.root, ?_, ?_, hne⟩
    · rw [hq.chains_eq]
      exact List.mem_map_of_mem (List.mem_cons_of_mem _ hc)
    · rw [hc']
      exact successor?_cons pivot c'
    · rw [hc', hd']
      exact successor?_cons pivot d'
  · refine ⟨front, v, alternatives, behind, hrules,
      (Grammar.mem_reachable_iff hnodup).mp hreached, ?_, ?_, ?_⟩
    · by_contra hcollides
      have hnone := gather_eq_none (v := v).mpr ((nodup_terminals_iff hg hv).mpr hcollides)
      rw [hgather] at hnone
      cases hnone
    · -- A selection before it would have been found first.
      intro u uchoices hu hreach
      have hmem : Rule.selection u uchoices ∈ g.rules := by
        rw [hrules]
        exact List.mem_append_left _ hu
      have hid : u.id ∈ ruleIds g.rules := mem_ruleIds_of_mem hmem
      have hnone := hfront u uchoices hu ((Grammar.mem_reachable_iff hnodup).mpr hreach)
      exact (nodup_terminals_iff hg hid).mp ((prefixAt_eq_none hg hid).mp hnone).2
    · intro c hc
      rw [← hchains] at hc
      rw [← hway.root_dropFront hc]
      exact root_dropFront_mem c n

/-- In a valid grammar all chains can be listed, and discovery without a look for chains
    alike never fails. It finds nothing exactly if no two chains of a reachable selection
    collide, and what it finds leaves nothing out. -/
theorem Grammar.discover_maximal (hg : g.Valid) :
    (∀ v, Defines g.rules v → g.chains v = .ok (g.chainsOf v)) ∧
      (∀ e, g.discover false ≠ .error e) ∧
      (g.discover false = .ok none ↔
        ∀ v alternatives, Rule.selection v alternatives ∈ g.rules → g.Reaches [] v.id →
          ¬ g.Collides v) ∧
      ∀ p, g.discover false = .ok (some p) → p.Maximal g := by
  refine ⟨fun v hv => chains_eq_ok hg (defines_iff_mem_ruleIds.mp hv), ?_, ?_,
    fun p h => .of_discover hg h⟩
  · intro e h
    obtain ⟨v, hv, h⟩ := exists_of_firstPrefix_error h
    obtain ⟨alternatives, hr, -⟩ := (mem_reachableSelections hg).mp hv
    have hid : v.id ∈ ruleIds g.rules := mem_ruleIds_of_mem hr
    rw [prefixAt_eq hg hid] at h
    exact narrowed_ne_error hg hid e h
  · rw [discover_eq_none hg]
    constructor
    · intro h v alternatives hr hreach
      exact (unshared_false_iff hg (mem_ruleIds_of_mem hr)).mp (h v alternatives hr hreach)
    · intro h v alternatives hr hreach
      exact (unshared_false_iff hg (mem_ruleIds_of_mem hr)).mpr (h v alternatives hr hreach)

/-- Two calls that share their first terminal below an alternative of the start variable. -/
def nestedCall : Grammar :=
  ⟨⟨0, "S"⟩,
    [.selection ⟨1, "A"⟩ [⟨3, "C"⟩, ⟨4, "D"⟩],
     .derivation ⟨2, "B"⟩ [.term ⟨"y", []⟩],
     .derivation ⟨3, "C"⟩ [.term ⟨"x", []⟩, .term ⟨"y", []⟩],
     .derivation ⟨4, "D"⟩ [.term ⟨"x", []⟩, .term ⟨"z", []⟩],
     .selection ⟨0, "S"⟩ [⟨1, "A"⟩, ⟨2, "B"⟩]]⟩

theorem nestedCall_valid : nestedCall.Valid :=
  Grammar.valid_of_pairwise (by decide +kernel) (by decide +kernel)

/-- The prefix that they share. -/
def nestedCallPrefix : SharedPrefix :=
  ⟨⟨"x", []⟩, ⟨1, "A"⟩, [⟨⟨1, "A"⟩, [⟨3, "C"⟩]⟩, ⟨⟨1, "A"⟩, [⟨4, "D"⟩]⟩]⟩

theorem nestedCall_discover :
    nestedCall.Valid ∧ nestedCall.discover false = .ok (some nestedCallPrefix) ∧
      nestedCallPrefix.Maximal nestedCall := by
  have hfound : nestedCall.discover false = .ok (some nestedCallPrefix) := by decide +kernel
  exact ⟨nestedCall_valid, hfound, (Grammar.discover_maximal nestedCall_valid).2.2.2 _ hfound⟩

end FluentGrammar
