import FluentGrammar.Proofs.Canonical.Form
import FluentGrammar.Proofs.Canonical.WellTagged
import FluentGrammar.Proofs.SharedPrefix.ChainCounts
import FluentGrammar.Proofs.Report.GraphRules

/-! # Marked conflicts

    A graph marks a selection when the same terminal is read twice along its chains, which is
    found out without discovery. Marks are what the text of the graph shows, whatever variables
    are called. The marked variables are still those in which discovery sees a collision,
    reachable or not. In a canonical form all selections are reachable by
    references alone, since what is kept for the tags only is `<empty>`; so nothing is marked.
-/

namespace FluentGrammar

variable {config : Config} {g g' : Grammar} {tags tags' : Tagging} {s s' : Session}
variable {options : GraphOptions} {v : Variable}

/-- In the text of the graph, the node of the variable is filled in the colour of conflicts. -/
def GraphOptions.Marks (options : GraphOptions) (g : Grammar) (v : Variable) : Prop :=
  ∃ attributes, Dot.node? g.vars (g.graph options) v = some attributes ∧
    attributes.lookup "fillcolor" = some "orange"

/-! ## Collisions -/

theorem hasRepeated_iff {α : Type} [BEq α] [LawfulBEq α] {xs : List α} :
    hasRepeated xs = true ↔ ¬ xs.Nodup := by
  induction xs with
  | nil => simp [hasRepeated]
  | cons x rest ih =>
    rw [hasRepeated, Bool.or_eq_true, List.contains_iff_mem, ih, List.nodup_cons, not_and_or,
      not_not]

/-- How often a terminal is read is how many chains open with it. -/
theorem count_chainTerminal {t : Terminal} (ht : t ≠ .empty) :
    ((g.chainsOf v).filterMap g.chainTerminal?).count t =
      (g.chainsOpening v (some t)).length := by
  rw [List.count_filterMap, List.countP_eq_length_filter]
  congr 1
  refine List.filter_congr fun c _ => ?_
  rw [Bool.eq_iff_iff, beq_iff_eq, beq_iff_eq]
  show (g.opening c).filter _ = some t ↔ _
  rw [Option.filter_eq_some_iff]
  have hread : (!t.isEmpty) = true := by
    rw [Bool.not_eq_true', Bool.eq_false_iff]
    exact mt Terminal.isEmpty_iff.mp ht
  exact and_iff_left hread

/-- A list that has no key twice has two elements if it has two keys. -/
theorem two_le_length_iff {α β : Type} [DecidableEq α] {f : α → β} {xs : List α}
    (hnodup : (xs.map f).Nodup) : 2 ≤ xs.length ↔ ∃ x ∈ xs, ∃ y ∈ xs, f x ≠ f y := by
  rw [← List.toFinset_card_of_nodup hnodup.of_map, Nat.succ_le_iff, Finset.one_lt_card]
  simp only [List.mem_toFinset]
  constructor
  · rintro ⟨x, hx, y, hy, hne⟩
    exact ⟨x, hx, y, hy, fun heq => hne (List.inj_on_of_nodup_map hnodup hx hy heq)⟩
  · rintro ⟨x, hx, y, hy, hne⟩
    exact ⟨x, hx, y, hy, fun heq => hne (congrArg f heq)⟩

/-- The chains of a variable collide when at least two of them open with the same terminal. -/
theorem collides_iff (hg : g.Valid) (hv : v.id ∈ ruleIds g.rules) :
    g.Collides v ↔ ∃ t, t ≠ .empty ∧ 2 ≤ g.openings (some t) v.id := by
  have htwo : ∀ t : Terminal, 2 ≤ g.openings (some t) v.id ↔
      ∃ c ∈ g.chainsOpening v (some t), ∃ d ∈ g.chainsOpening v (some t), c.ids ≠ d.ids := by
    intro t
    rw [← length_chainsOpening hg hv]
    exact two_le_length_iff ((List.filter_sublist.map Chain.ids).nodup (nodup_ids_chainsOf hg hv))
  simp only [htwo, mem_chainsOpening]
  constructor
  · rintro ⟨c, hc, d, hd, hne, t, ht, hct, hdt⟩
    exact ⟨t, ht, c, ⟨hc, hct⟩, d, ⟨hd, hdt⟩, hne⟩
  · rintro ⟨t, ht, c, ⟨hc, hct⟩, d, ⟨hd, hdt⟩, hne⟩
    exact ⟨c, hc, d, hd, hne, t, ht, hct, hdt⟩

/-- The name of a variable does not matter for its collisions. -/
theorem collides_congr (hg : g.Valid) {w : Variable} (hv : v.id ∈ ruleIds g.rules)
    (hid : v.id = w.id) : g.Collides v ↔ g.Collides w := by
  rw [collides_iff hg hv, collides_iff hg (hid ▸ hv), hid]

/-- The chains in which the graph sees a conflict are those that collide. -/
theorem chainsCollide_iff (hg : g.Valid) (hv : v.id ∈ ruleIds g.rules) :
    g.chainsCollide v = true ↔ g.Collides v := by
  unfold Grammar.chainsCollide
  rw [chains_eq_ok hg hv, collides_iff hg hv]
  show hasRepeated ((g.chainsOf v).filterMap g.chainTerminal?) = true ↔ _
  rw [hasRepeated_iff, List.nodup_iff_count_le_one, not_forall]
  refine exists_congr fun t => ?_
  rw [Nat.not_le]
  by_cases ht : t = .empty
  · -- The empty terminal is left out.
    have hzero : ((g.chainsOf v).filterMap g.chainTerminal?).count t = 0 := by
      rw [List.count_eq_zero, List.mem_filterMap]
      rintro ⟨c, -, hc⟩
      have hread := (Option.filter_eq_some_iff.mp hc).2
      rw [Terminal.isEmpty_iff.mpr ht] at hread
      cases hread
    rw [hzero]
    exact iff_of_false (Nat.not_lt_zero 1) fun hand => hand.1 ht
  · rw [count_chainTerminal ht, length_chainsOpening hg hv]
    exact (and_iff_right ht).symm

/-! ## Marks -/

/-- No tag has the colour of conflicts. -/
theorem Tag.colour?_ne_orange (tag : Tag) : tag.colour? ≠ some "orange" := by
  cases tag with
  | full node => exact nofun
  | partialSelection node required => exact (by decide : some "lightyellow" ≠ some "orange")
  | partialDerivation node required implicit =>
    exact (by decide : some "lightyellow" ≠ some "orange")
  | bridge => exact (by decide : some "lightgray" ≠ some "orange")

/-- Nothing but a conflict gives a variable its colour, whatever its tag is. -/
theorem colour?_eq_orange_iff :
    options.colour? g v = some "orange" ↔ (options.marked g).contains v = true := by
  unfold GraphOptions.colour?
  by_cases hmarked : (options.marked g).contains v = true
  · rw [if_pos hmarked]
    exact iff_of_true rfl hmarked
  · rw [if_neg hmarked]
    refine iff_of_false (fun h => ?_) hmarked
    obtain ⟨tag, -, hcolour⟩ := Option.bind_eq_some_iff.mp h
    exact tag.colour?_ne_orange hcolour

/-- Conflicts are found at rules. -/
theorem defines_of_marked (h : (options.marked g).contains v = true) : Defines g.rules v := by
  unfold GraphOptions.marked at h
  split at h
  · obtain ⟨w, hw, hid⟩ := List.mem_map.mp (contains_iff_mem_ids.mp h)
    obtain ⟨r, hr, rfl⟩ := List.mem_map.mp hw
    exact ⟨r, List.mem_of_mem_filter hr, hid⟩
  · cases h

/-- The graph shows those conflicts that were found. -/
theorem marks_iff_contains :
    options.Marks g v ↔ (options.marked g).contains v = true := by
  unfold GraphOptions.Marks
  rw [node?_graph]
  cases hrule : g.rule? v with
  | none =>
    refine iff_of_false (fun ⟨_, hnode, _⟩ => nomatch hnode) fun hmarked => ?_
    obtain ⟨r, hr, hid⟩ := defines_of_marked hmarked
    exact List.find?_eq_none.mp hrule r hr (Variable.beq_iff.mpr hid)
  | some r =>
    have hid : r.lhs.id = v.id := Grammar.lhs_of_rule? hrule
    rw [contains_iff_mem_ids, ← hid, ← contains_iff_mem_ids, ← colour?_eq_orange_iff,
      ← lookup_fillcolor]
    simp

/-- If the grammar was read, marks are attributes of statements. -/
theorem marks_iff_find?_node {text : String} (h : Grammar.read text = .ok g)
    (hv : Defines g.rules v) :
    options.Marks g v ↔ ∃ attributes,
      (Dot.read (g.graph options)).find? (fun s => s.nodeId? == some v.nodeName) =
        some (.node v.nodeName attributes) ∧ attributes.lookup "fillcolor" = some "orange" := by
  rw [find?_node (Grammar.writable_of_read h).2 hv]
  refine exists_congr fun attributes => and_congr_left fun _ => ?_
  simp [Option.map_eq_some_iff]

/-- What is marked is a selection with chains that collide. -/
theorem marks_iff (hg : g.Valid) (hshow : options.showConflicts = true) :
    options.Marks g v ↔
      (∃ lhs alternatives, g.rule? v = some (.selection lhs alternatives)) ∧ g.Collides v := by
  rw [marks_iff_contains, GraphOptions.marked, if_pos hshow, Grammar.conflicts,
    contains_iff_mem_ids, List.map_map, List.mem_map]
  simp only [List.mem_filter, Grammar.hasConflict, Bool.and_eq_true]
  constructor
  · rintro ⟨r, ⟨hr, hselection, hcollide⟩, hid⟩
    have hlhs := mem_ruleIds_of_mem hr
    -- The report goes through the rules, and each rule is the one found for its variable.
    have hrule := Grammar.rule?_of_mem hg.well_formed.nodup_ruleIds hr hid
    rw [chainsCollide_iff hg hlhs, collides_congr hg hlhs hid] at hcollide
    cases r with
    | derivation lhs rhs => cases hselection
    | selection lhs alternatives => exact ⟨⟨lhs, alternatives, hrule⟩, hcollide⟩
  · rintro ⟨⟨lhs, alternatives, hrule⟩, hcollides⟩
    have hr := Grammar.mem_of_rule? hrule
    have hid := Grammar.lhs_of_rule? hrule
    have hlhs := mem_ruleIds_of_mem hr
    refine ⟨_, ⟨hr, rfl, ?_⟩, hid⟩
    rw [chainsCollide_iff hg hlhs, collides_congr hg hlhs hid]
    exact hcollides

/-- Discovery finds nothing just when no variable that references lead to is marked. -/
theorem discover_eq_none_iff_marks (hg : g.Valid) (hshow : options.showConflicts = true) :
    g.discover false = .ok none ↔ ∀ v : Variable, g.Reaches [] v.id → ¬ options.Marks g v := by
  rw [discover_eq_none hg]
  constructor
  · intro h v hreach hmarks
    obtain ⟨⟨lhs, alternatives, hrule⟩, hcollides⟩ := (marks_iff hg hshow).mp hmarks
    have hr := Grammar.mem_of_rule? hrule
    have hid : lhs.id = v.id := Grammar.lhs_of_rule? hrule
    have hlhs : lhs.id ∈ ruleIds g.rules := mem_ruleIds_of_mem hr
    have hunshared := h lhs alternatives hr (hid ▸ hreach)
    rw [unshared_false_iff hg hlhs, collides_congr hg hlhs hid] at hunshared
    exact hunshared hcollides
  · intro h v alternatives hr hreach
    have hv : v.id ∈ ruleIds g.rules := mem_ruleIds_of_mem hr
    have hrule := Grammar.rule?_of_mem hg.well_formed.nodup_ruleIds hr (v := v) rfl
    rw [unshared_false_iff hg hv]
    exact fun hcollides =>
      h v hreach ((marks_iff hg hshow).mpr ⟨⟨v, alternatives, hrule⟩, hcollides⟩)

/-- The root of a shared prefix is marked. -/
theorem SharedPrefix.Maximal.marks_root {p : SharedPrefix} (h : p.Maximal g) (hg : g.Valid)
    (hshow : options.showConflicts = true) : options.Marks g p.root := by
  obtain ⟨lhs, alternatives, hrule⟩ := h.selects
  have hroot := mem_ruleIds_of_rule? hrule
  have htwo := h.two_le
  rw [h.chains_eq, length_chainsOpening hg hroot] at htwo
  exact (marks_iff hg hshow).mpr
    ⟨h.selects, (collides_iff hg hroot).mpr ⟨p.symbol, h.symbol_ne, htwo⟩⟩

/-! ## What is kept for tags -/

/-- No pass tags a variable twice. -/
theorem passInvariant_nodup_ids :
    PassInvariant config (fun _ tags _ => tags.ids.Nodup) where
  count := fun _ h => h
  bridge := by
    intro g tags s g' tags' s' h hrun
    obtain ⟨rules, bridges, s₁, -, ⟨-, -, rfl, -⟩ | ⟨-, rfl, -⟩⟩ := bridgeTerminals_run hrun
    · exact h
    · exact Tagging.nodup_ids_extend h _
  fold := fun h hrun _ => (foldRules_eq_ok hrun).1.nodup h
  drop := by
    intro g tags s g' tags' s' h hrun
    obtain ⟨-, rfl, -⟩ := dropUnreachable_eq_ok.mp hrun
    exact Tagging.nodup_ids_retain h _
  factor := by
    intro g tags s target g' tags' s' h _ hrun
    obtain ⟨lhs, alternatives, tag, bench, -, -, -, -, rfl, -⟩ := leftFactor_eq_ok hrun
    exact Tagging.nodup_ids_extend h _

/-- What is reached by implicit edges alone reads nothing, so nothing is reached behind it. -/
theorem WellTagged.reaches_or_readsNothing (h : WellTagged g tags) (hg : Coherent g tags s)
    (hnodup : tags.ids.Nodup) {i : Nat} (hreach : g.Reaches tags.implicitEdges i) :
    g.Reaches [] i ∨ ∃ v : Variable, v.id = i ∧ g.ReadsNothing v := by
  have hrules := hg.valid.well_formed.nodup_ruleIds
  unfold Grammar.Reaches at hreach
  induction hreach with
  | refl => exact Or.inl .refl
  | @tail j k _ hleads ih =>
    rcases hleads with href | hedge
    · refine Or.inl (ih.elim (fun hj => .tail hj (Or.inl href)) ?_)
      -- A rule that reads nothing refers to nothing.
      rintro ⟨v, rfl, lhs, hrule⟩
      obtain ⟨r, hr, hid, w, hw, -⟩ := href
      rw [Grammar.rule?_of_mem hrules hr hid] at hrule
      cases hrule
      cases hw
    · obtain ⟨v, tag, rfl, htag, w, hw, rfl⟩ := (Tagging.exists_implicitEdge_iff hnodup).mp hedge
      have hv : v.id ∈ ruleIds g.rules := by
        rw [← hg.tagged, ← Tagging.tag?_isSome, htag]
        rfl
      obtain ⟨r, hr, hid⟩ := mem_ruleIds.mp hv
      obtain ⟨tag', htag', -, himplicit⟩ := h r hr
      rw [Tagging.tag?_congr hid, htag] at htag'
      cases htag'
      exact Or.inr ⟨w, rfl, himplicit w hw⟩

/-- A selection of a canonical form is reached by references, if the tags were full before. -/
theorem reaches_of_selection {c : Canonical} (hg : g.Valid)
    (h : canonicalize config g (.full g) = .ok c) {lhs : Variable} {alternatives : List Variable}
    (hrule : c.grammar.rule? v = some (.selection lhs alternatives)) :
    c.grammar.Reaches [] v.id := by
  obtain ⟨-, g', tags', s', hrun, rfl⟩ := canonicalize_eq_ok.mp h
  have hfitted := (wellTagged_full hg).initial hg
  have hfinal := hfitted.canonicalPass hrun
  have hcanonical := hfitted.coherent.canonicalPass hrun
  have hnodup : tags'.ids.Nodup :=
    passInvariant_nodup_ids.canonicalPass (Tagging.nodup_ids_retain (Tagging.nodup_ids_full g) _)
      hrun
  have hreach := hcanonical.reached v.id (mem_ruleIds_of_rule? hrule)
  refine (hfinal.tagged.reaches_or_readsNothing hfinal.coherent hnodup hreach).resolve_right ?_
  rintro ⟨u, hid, lhs', hrule'⟩
  have hsame := Grammar.rule?_of_mem hfinal.coherent.valid.well_formed.nodup_ruleIds
    (Grammar.mem_of_rule? hrule') ((Grammar.lhs_of_rule? hrule').trans hid)
  rw [hsame] at hrule
  cases hrule

/-! ## Marks and discovery -/

/-- A graph that shows conflicts marks those selections that have two different chains which
    open with the same terminal, the empty one apart. So nothing is discovered just when no
    variable that references lead to is marked; the root of a shared prefix is marked; and
    nothing is marked in a canonical form, if the tags were full before. Where the grammar was
    read from a text, the first statement that makes the node of a variable shows its mark. -/
theorem Grammar.marked_conflicts (hg : g.Valid) (hshow : options.showConflicts = true) :
    (∀ v, options.Marks g v ↔
      (∃ lhs alternatives, g.rule? v = some (.selection lhs alternatives)) ∧
        ∃ c ∈ g.chainsOf v, ∃ d ∈ g.chainsOf v, c.ids ≠ d.ids ∧
          ∃ t, t ≠ .empty ∧ g.opening c = some t ∧ g.opening d = some t) ∧
    (g.discover false = .ok none ↔
      ∀ v, (g.reachable []).contains v = true → ¬ options.Marks g v) ∧
    (∀ detect p, g.discover detect = .ok (some p) → options.Marks g p.root) ∧
    (∀ config c, canonicalize config g (.full g) = .ok c →
      ∀ v, ¬ options.Marks c.grammar v) ∧
    ∀ text, Grammar.read text = .ok g → ∀ v, Defines g.rules v →
      (options.Marks g v ↔ ∃ attributes,
        (Dot.read (g.graph options)).find? (fun s => s.nodeId? == some v.nodeName) =
          some (.node v.nodeName attributes) ∧ attributes.lookup "fillcolor" = some "orange") := by
  refine ⟨fun v => marks_iff hg hshow, ?_, fun detect p h => ?_, fun config c h v hmarks => ?_,
    fun text h v hv => marks_iff_find?_node h hv⟩
  · simp only [Grammar.mem_reachable_iff hg.well_formed.nodup_ruleIds]
    exact discover_eq_none_iff_marks hg hshow
  · exact (SharedPrefix.Maximal.of_discover hg h).marks_root hg hshow
  · obtain ⟨s', -, hcanonical⟩ := Canonicalized.of_canonicalize hg h
    have hvalid := hcanonical.coherent.valid
    obtain ⟨⟨lhs, alternatives, hrule⟩, -⟩ := (marks_iff hvalid hshow).mp hmarks
    have hnone := (discover_eq_none_iff_marks hvalid hshow).mp hcanonical.discover_eq
    exact hnone v (reaches_of_selection hg h hrule) hmarks

/-- `sharedCall` as a text. -/
def sharedCallText : String :=
  "start S\nA ::= x(Int count)\nB ::= x(Int count) C\nC ::= y\nS ::= A | B\n"

/-- The start variable of a shared call is marked until the call is factored out. -/
theorem sharedCall_marked :
    sharedCall.Valid ∧ sharedCall.discover true = .ok (some sharedCallPrefix) ∧
      GraphOptions.Marks ⟨none, true⟩ sharedCall ⟨0, "S"⟩ ∧
      canonicalize .default sharedCall (.full sharedCall) = .ok sharedCallFactored ∧
      (∀ v, ¬ GraphOptions.Marks ⟨none, true⟩ sharedCallFactored.grammar v) ∧
      Grammar.read sharedCallText = .ok sharedCall ∧
      ∃ attributes, (Dot.read (sharedCall.graph ⟨none, true⟩)).find?
        (fun s => s.nodeId? == some "v0") = some (.node "v0" attributes) ∧
          attributes.lookup "fillcolor" = some "orange" := by
  have hshow : GraphOptions.showConflicts ⟨none, true⟩ = true := rfl
  have hfound : sharedCall.discover true = .ok (some sharedCallPrefix) := by decide +kernel
  have hread : Grammar.read sharedCallText = .ok sharedCall :=
    Grammar.read_of_declared sharedCall_valid (by decide +kernel)
  have hstart : Defines sharedCall.rules ⟨0, "S"⟩ := sharedCall_valid.well_formed.start_defined
  obtain ⟨-, -, hroot, hfinal, hstatements⟩ := Grammar.marked_conflicts sharedCall_valid hshow
  have hmarks := hroot true _ hfound
  exact ⟨sharedCall_valid, hfound, hmarks, canonical_sharedCall, hfinal _ _ canonical_sharedCall,
    hread, (hstatements _ hread _ hstart).mp hmarks⟩

end FluentGrammar
