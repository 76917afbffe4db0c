import FluentGrammar.Proofs.Canonical.Form
import FluentGrammar.Proofs.Canonical.Idempotence
import FluentGrammar.Report.Document

/-! # The check and the canonical form

    A check looks for violations in single rules and for a shared prefix on chains of rules.
    The passes look for the same, and for variables that are unreachable or tagged needlessly.
    Where there are none of these, a grammar passes the check just when bringing it into
    canonical form leaves it as it is.
-/

namespace FluentGrammar

variable {config : Config} {g : Grammar} {tags : Tagging}

/-! ## Violations -/

theorem lateTerminals_eq_nil {rhs : List Symbol} :
    lateTerminals rhs = [] ↔ ∀ symbol ∈ rhs.tail, symbol.isTerminal = false := by
  unfold lateTerminals
  rw [List.map_eq_nil_iff, List.filter_eq_nil_iff]
  constructor
  · intro h symbol hsymbol
    obtain ⟨k, hk, rfl⟩ := List.getElem_of_mem hsymbol
    have hplace : (rhs.tail[k], k + 1) ∈ rhs.zipIdx := by
      rw [List.mem_zipIdx_iff_getElem?, ← List.getElem?_tail]
      exact List.getElem?_eq_getElem hk
    have hlate := h _ hplace
    simpa using hlate
  · rintro h ⟨symbol, position⟩ hplace hlate
    obtain ⟨hposition, hterminal⟩ := Bool.and_eq_true_iff.mp hlate
    cases position with
    | zero => simp at hposition
    | succ k =>
      rw [List.mem_zipIdx_iff_getElem?, ← List.getElem?_tail] at hplace
      have htail := h symbol (List.mem_of_getElem? hplace)
      rw [htail] at hterminal
      cases hterminal

theorem Rule.violations_eq_nil {r : Rule} :
    r.violations = [] ↔
      (∀ symbol ∈ r.behindLeading, symbol.isTerminal = false) ∧ r.isEmptyDerivation = false := by
  cases r with
  | derivation lhs rhs =>
    cases rhs with
    | nil => simp [violations, isEmptyDerivation]
    | cons first rest =>
      rw [violations, List.map_eq_nil_iff, lateTerminals_eq_nil]
      · exact (and_iff_left rfl).symm
      · exact List.cons_ne_nil first rest
  | selection lhs alternatives => simp [violations, behindLeading, isEmptyDerivation]

/-- A grammar without violations has terminals only in front, and no empty rule. -/
theorem Grammar.violations_eq_nil :
    g.violations = [] ↔ TerminalsLead g.rules ∧ NoneEmpty g.rules := by
  unfold violations TerminalsLead NoneEmpty
  rw [List.flatMap_eq_nil_iff]
  simp only [Rule.violations_eq_nil]
  exact forall₂_and

/-! ## The check -/

/-- Where chains alike are not asked for, discovery does not fail. -/
theorem discover_false_ne_error (hg : g.Valid) (e : PassError) : g.discover false ≠ .error e := by
  intro h
  obtain ⟨v, hv, h⟩ := exists_of_firstPrefix_error h
  obtain ⟨alternatives, hr, -⟩ := (mem_reachableSelections hg).mp hv
  have hid : v.id ∈ ruleIds g.rules := mem_ruleIds_of_mem hr
  rw [prefixAt_eq hg hid] at h
  exact narrowed_ne_error hg hid e h

/-- A grammar passes the check if it has no violation and no shared prefix is discovered. -/
theorem Check.isCanonical_of (hg : g.Valid) :
    (Check.of g).isCanonical = true ↔
      (TerminalsLead g.rules ∧ NoneEmpty g.rules) ∧ g.discover false = .ok none := by
  show (g.violations.isEmpty && (g.discover false).toOption.join.isNone) = true ↔ _
  rw [Bool.and_eq_true, List.isEmpty_iff, Grammar.violations_eq_nil, Option.isNone_iff_eq_none]
  apply and_congr_right'
  cases h : g.discover false with
  | error e => exact absurd h (discover_false_ne_error hg e)
  | ok found =>
    show found = none ↔ _
    rw [Except.ok.injEq]

/-! ## The passes -/

/-- Tags of the variables of the grammar fit the grammar and a new session. -/
theorem Coherent.ofGrammar (hg : g.Valid) (htagged : ∀ i, i ∈ tags.ids ↔ i ∈ ruleIds g.rules) :
    Coherent g tags (.ofGrammar g) := by
  refine ⟨hg, fun i hi => ?_, htagged⟩
  obtain ⟨r, hr, rfl⟩ := mem_ruleIds.mp hi
  exact VariableSupply.id_lt_after (List.mem_map_of_mem hr)

/-- Among grammars in which everything is reachable and tagged, and nothing else is tagged,
    those that pass the check are those that are their own canonical form; and nothing is
    done to find that out. -/
theorem Check.isCanonical_iff (hg : g.Valid) (hfolds : config.foldInputEmpties = true)
    (hdetect : config.detectUnsupported = false)
    (hreached : ∀ v, Defines g.rules v → (g.reachable []).contains v = true)
    (htags : ∀ v, (tags.tag? v).isSome = true ↔ Defines g.rules v) :
    ((Check.of g).isCanonical = true ↔
      ∃ c, canonicalize config g tags = .ok c ∧ c.grammar = g ∧ c.tags = tags) ∧
    ∀ c, canonicalize config g tags = .ok c → c.grammar = g → c.tags = tags →
      c.tally = .zero := by
  have hnodup := hg.well_formed.nodup_ruleIds
  have htagged : ∀ i, i ∈ tags.ids ↔ i ∈ ruleIds g.rules := by
    intro i
    rw [← defines_iff_mem_ruleIds (v := ⟨i, ""⟩), ← htags ⟨i, ""⟩, Tagging.tag?_isSome]
  have hall : ∀ i ∈ ruleIds g.rules, g.Reaches tags.implicitEdges i := by
    intro i hi
    refine Grammar.Reaches.mono ((Grammar.mem_reachable_iff hnodup (v := ⟨i, ""⟩)).mp ?_)
    exact hreached ⟨i, ""⟩ (defines_iff_mem_ruleIds.mpr hi)
  -- A grammar that passes the check goes through all passes as it is.
  have hclean : (Check.of g).isCanonical = true →
      canonicalize config g tags = .ok ⟨g, tags, .zero⟩ := by
    intro hcheck
    obtain ⟨⟨hled, hnone⟩, hsettled⟩ := (Check.isCanonical_of hg).mp hcheck
    rw [← hdetect] at hsettled
    have hinitial := Coherent.ofGrammar hg htagged
    rw [canonicalize_eq_ok, Tagging.retain_of_subset fun i => (htagged i).mp]
    exact ⟨hinitial.exists_entries, _, _, _,
      hinitial.canonicalPass_settled hled (fun _ => hnone) hall hsettled, rfl⟩
  -- What comes out of all passes has nothing that a check finds.
  have hform : ∀ c, canonicalize config g tags = .ok c → c.grammar = g →
      (Check.of g).isCanonical = true := by
    intro c h hsame
    obtain ⟨s', -, hcanonical⟩ := Canonicalized.of_canonicalize hg h
    rw [hsame] at hcanonical
    rw [Check.isCanonical_of hg]
    exact ⟨⟨hcanonical.led, hcanonical.none_empty (Or.inl hfolds)⟩, hcanonical.discover_eq⟩
  refine ⟨⟨fun hcheck => ⟨_, hclean hcheck, rfl, rfl⟩, ?_⟩, fun c h hsame _ => ?_⟩
  · rintro ⟨c, h, hsame, -⟩
    exact hform c h hsame
  · have hzero := hclean (hform c h hsame)
    rw [h] at hzero
    cases hzero
    rfl

/-- A selection of two calls, and a rule that nothing leads to. -/
def twoCalls : Grammar :=
  ⟨⟨0, "S"⟩,
    [.derivation ⟨1, "A"⟩ [.term ⟨"x", []⟩],
     .derivation ⟨2, "B"⟩ [.term ⟨"y", []⟩, .var ⟨1, "A"⟩],
     .derivation ⟨3, "D"⟩ [.term ⟨"z", []⟩],
     .selection ⟨0, "S"⟩ [⟨1, "A"⟩, ⟨2, "B"⟩]]⟩

/-- The part of it that the start variable leads to. -/
def twoCallsReached : Grammar :=
  ⟨⟨0, "S"⟩,
    [.derivation ⟨1, "A"⟩ [.term ⟨"x", []⟩],
     .derivation ⟨2, "B"⟩ [.term ⟨"y", []⟩, .var ⟨1, "A"⟩],
     .selection ⟨0, "S"⟩ [⟨1, "A"⟩, ⟨2, "B"⟩]]⟩

theorem twoCalls_valid : twoCalls.Valid :=
  Grammar.valid_of_pairwise (by decide +kernel) (by decide +kernel)

theorem canonical_twoCalls :
    twoCalls.canonical = .ok ⟨twoCallsReached, .full twoCallsReached, ⟨0, 0, 0, 0, 1⟩⟩ := by
  decide +kernel

/-- What is left of two calls passes the check, and is its own canonical form even if no round
    is allowed. -/
theorem twoCallsReached_check :
    twoCallsReached.Valid ∧ (Check.of twoCallsReached).isCanonical = true ∧
      ∃ c, canonicalize ⟨false, some 0, true⟩ twoCallsReached (.full twoCallsReached) = .ok c ∧
        c.grammar = twoCallsReached ∧ c.tags = .full twoCallsReached ∧ c.tally = .zero := by
  obtain ⟨s', -, hleft⟩ := Canonicalized.of_canonicalize twoCalls_valid canonical_twoCalls
  have hvalid : twoCallsReached.Valid := hleft.coherent.valid
  have hcheck : (Check.of twoCallsReached).isCanonical = true := by decide +kernel
  have hreached : ∀ v, Defines twoCallsReached.rules v →
      (twoCallsReached.reachable []).contains v = true := by
    intro v hv
    rw [Grammar.mem_reachable_iff hvalid.well_formed.nodup_ruleIds]
    exact hleft.reached v.id (defines_iff_mem_ruleIds.mp hv)
  have htags : ∀ v, ((Tagging.full twoCallsReached).tag? v).isSome = true ↔
      Defines twoCallsReached.rules v := by
    intro v
    rw [Tagging.tag?_isSome, hleft.coherent.tagged, defines_iff_mem_ruleIds]
  let config : Config := ⟨false, some 0, true⟩
  have hfolds : config.foldInputEmpties = true := rfl
  obtain ⟨hiff, hzero⟩ := Check.isCanonical_iff hvalid hfolds rfl hreached htags
  obtain ⟨c, hrun, hsame, hkept⟩ := hiff.mp hcheck
  exact ⟨hvalid, hcheck, c, hrun, hsame, hkept, hzero c hrun hsame hkept⟩

end FluentGrammar
