import FluentGrammar.Proofs.Rewriting.Coherence
import FluentGrammar.Proofs.SharedPrefix.Runs

/-! # Factoring keeps values

    Every step of factoring adds variables, rules and tags to a workbench and records splits
    whose shapes are those for which parts are worth no more than what was split. From these
    shapes the values of the factored grammar are bounded by induction along the references
    of the grammar in front of it.
-/

namespace FluentGrammar

/-! ## Steps on a workbench -/

/-- What every step of factoring keeps. `s` is the session that factoring begins with. -/
structure Workbench.Sound (task : FactorTask) (s : Session) (b : Workbench) : Prop where
  recorded : ∀ v split, (v, split) ∈ b.splits →
    SplitShape task (Recorded b.splits) b.rules v split
  fresh : ∀ i ∈ ruleIds b.rules, s.ids.issued ≤ i ∧ i < b.session.ids.issued
  tagged : b.tags.map (·.1.id) = ruleIds b.rules
  led : TerminalsLead task.grammar.rules → TerminalsLead b.rules
  issued_le : s.ids.issued ≤ b.session.ids.issued
  rounds_eq : b.session.tally.iterations = s.tally.iterations

/-- Splits and rules are added and never taken away. -/
structure Workbench.Grows (b b' : Workbench) : Prop where
  splits : b.splits ⊆ b'.splits
  rules : b.rules ⊆ b'.rules

theorem Workbench.Grows.refl (b : Workbench) : b.Grows b :=
  ⟨List.Subset.refl _, List.Subset.refl _⟩

theorem Workbench.Grows.trans {b b₁ b₂ : Workbench} (h₁ : b.Grows b₁) (h₂ : b₁.Grows b₂) :
    b.Grows b₂ :=
  ⟨List.Subset.trans h₁.splits h₂.splits, List.Subset.trans h₁.rules h₂.rules⟩

theorem Workbench.sound_empty (task : FactorTask) (s : Session) :
    Workbench.Sound task s ⟨s, [], [], []⟩ where
  recorded := fun _ _ h => nomatch h
  fresh := fun _ h => nomatch h
  tagged := rfl
  led := fun _ _ h => nomatch h
  issued_le := Nat.le_refl _
  rounds_eq := rfl

section Steps

variable {task : FactorTask} {s : Session} {b b' : Workbench}

theorem Workbench.Sound.add {rule : Rule} {tag : Tag} (hb : b.Sound task s)
    (hled : TerminalsLead task.grammar.rules → TerminalsLead [rule])
    (hadd : b.Adds rule tag b') : b'.Sound task s ∧ b.Grows b' ∧ rule ∈ b'.rules := by
  have hle := hb.issued_le
  have hsplits : b.splits = b'.splits := hadd.splits_eq.symm
  have hrules : b.rules ⊆ b'.rules := by
    rw [hadd.rules_eq]
    exact List.subset_append_left ..
  -- A new rule and its tag go to the end of both lists, under the id that was issued for it.
  refine ⟨⟨?_, ?_, ?_, ?_, ?_, ?_⟩, ⟨fun _ h => hsplits ▸ h, hrules⟩, ?_⟩
  · intro u split hu
    rw [← hsplits] at hu ⊢
    exact (hb.recorded u split hu).mono (fun _ _ => id) hrules
  · intro i hi
    rw [hadd.rules_eq, ruleIds_append, List.mem_append] at hi
    rw [hadd.issued_eq]
    rcases hi with hi | hi
    · have := hb.fresh i hi
      omega
    · have hid : i = rule.lhs.id := List.mem_singleton.mp hi
      have := hadd.id_eq
      omega
  · rw [hadd.tags_eq, hadd.rules_eq, ruleIds_append, List.map_append, hb.tagged]
    rfl
  · intro hg r hr
    rw [hadd.rules_eq] at hr
    rcases List.mem_append.mp hr with hr | hr
    · exact hb.led hg r hr
    · exact hled hg r hr
  · rw [hadd.issued_eq]
    exact Nat.le_succ_of_le hle
  · rw [hadd.rounds_eq]
    exact hb.rounds_eq
  · rw [hadd.rules_eq]
    exact List.mem_append_right _ (List.mem_singleton.mpr rfl)

theorem Workbench.Sound.addDerivation {rhs : List Symbol} {tag : Tag} {v : Variable}
    (hb : b.Sound task s)
    (hled : TerminalsLead task.grammar.rules → ∀ x ∈ rhs.tail, x.isTerminal = false)
    (hadd : b.Adds (.derivation v rhs) tag b') :
    b'.Sound task s ∧ b.Grows b' ∧ Rule.derivation v rhs ∈ b'.rules := by
  refine hb.add ?_ hadd
  intro hg r hr
  rw [List.mem_singleton] at hr
  subst hr
  exact hled hg

theorem Workbench.Sound.choose {vars : List Variable} {tag : Tag} {v : Variable}
    (hb : b.Sound task s) (h : b.Chooses vars tag v b') :
    b'.Sound task s ∧ b.Grows b' ∧ Selects b'.rules v vars := by
  cases h with
  | alone hvars => exact ⟨hb, .refl b, Or.inl hvars⟩
  | added _ hadd =>
    obtain ⟨hb', hgrows, hrule⟩ := hb.add (fun _ r hr x hx => by
      rw [List.mem_singleton] at hr
      subst hr
      cases hx) hadd
    exact ⟨hb', hgrows, Or.inr hrule⟩

/-- A split that has been made on a sound workbench can be recorded on it. -/
theorem Workbench.Sound.record {v : Variable} {made : Split} (hb : b.Sound task s)
    (hshape : SplitShape task (Recorded b.splits) b.rules v made) :
    Workbench.Sound task s { b with splits := (v, made) :: b.splits } := by
  have hsplits : b.splits ⊆ (v, made) :: b.splits := List.subset_cons_self ..
  refine ⟨?_, hb.fresh, hb.tagged, hb.led, hb.issued_le, hb.rounds_eq⟩
  -- The new record speaks of records made before it, which are all still there.
  intro w split hw
  rcases List.mem_cons.mp hw with heq | hw
  · cases heq
    exact hshape.mono (Recorded.mono hsplits) (List.Subset.refl _)
  · exact (hb.recorded w split hw).mono (Recorded.mono hsplits) (List.Subset.refl _)

/-- The runs that keep a workbench sound and record what they do. -/
def Keeps (task : FactorTask) (s : Session) : SplitRun := fun b v split b' =>
  b.Sound task s → b'.Sound task s ∧ b.Grows b' ∧ Recorded b'.splits v split

theorem PartsRun.sound {onChain alternatives fulls parts fulls' parts' : List Variable}
    (h : PartsRun (Keeps task s) onChain alternatives fulls parts b fulls' parts' b')
    (hb : b.Sound task s) :
    b'.Sound task s ∧ b.Grows b' ∧
      Parted (Recorded b'.splits) onChain alternatives fulls parts fulls' parts' := by
  induction h with
  | nil => exact ⟨hb, .refl _, .nil⟩
  | aside hv _ ih =>
    obtain ⟨hb', hgrows, hparted⟩ := ih hb
    exact ⟨hb', hgrows, .aside hv hparted⟩
  | through hv hs _ ih =>
    obtain ⟨hb₁, hgrows₁, hrecorded⟩ := hs hb
    obtain ⟨hb', hgrows', hparted⟩ := ih hb₁
    -- The split was recorded before the rest was split, and records stay.
    have hlater := Recorded.mono hgrows'.splits _ _ hrecorded
    exact ⟨hb', hgrows₁.trans hgrows', .through hv hlater hparted⟩
  | both hv hs _ ih =>
    obtain ⟨hb₁, hgrows₁, hrecorded⟩ := hs hb
    obtain ⟨hb', hgrows', hparted⟩ := ih hb₁
    have hlater := Recorded.mono hgrows'.splits _ _ hrecorded
    exact ⟨hb', hgrows₁.trans hgrows', .both hv hlater hparted⟩

/-- Up to the record of it, a split is made as its shape tells. -/
theorem SplitStep.sound {v : Variable} {split : Split}
    (h : SplitStep task (Keeps task s) b v split b') (hb : b.Sound task s) :
    b'.Sound task s ∧ b.Grows b' ∧
      SplitShape task (Recorded b'.splits) b'.rules v split := by
  -- What stands behind the first symbol moves on to the new rules, so they lead with terminals as
  -- the old ones did.
  have hbehind : ∀ {lhs x rest}, task.grammar.rule? v = some (.derivation lhs (x :: rest)) →
      TerminalsLead task.grammar.rules → ∀ y ∈ rest, y.isTerminal = false :=
    fun hrule hg => hg _ (Grammar.mem_of_rule? hrule)
  cases h with
  | reads _ hrule _ hpart =>
    obtain ⟨hb', hgrows, hmem⟩ := hb.addDerivation
      (fun hg y hy => hbehind hrule hg y (List.mem_of_mem_tail hy)) hpart
    exact ⟨hb', hgrows, .reads (Grammar.mem_of_rule? hrule) (Grammar.lhs_of_rule? hrule) hmem⟩
  | through _ hrule _ hbelow hpart =>
    obtain ⟨hb₁, hgrows₁, hrecorded⟩ := hbelow hb
    obtain ⟨hb', hgrows', hmem⟩ := hb₁.addDerivation (hbehind hrule) hpart
    exact ⟨hb', hgrows₁.trans hgrows', .through (Grammar.mem_of_rule? hrule)
      (Grammar.lhs_of_rule? hrule) (Recorded.mono hgrows'.splits _ _ hrecorded) hmem⟩
  | both _ hrule _ hbelow hpart hfull =>
    obtain ⟨hb₁, hgrows₁, hrecorded⟩ := hbelow hb
    obtain ⟨hb₂, hgrows₂, hmem⟩ := hb₁.addDerivation (hbehind hrule) hpart
    obtain ⟨hb', hgrows', hmem'⟩ := hb₂.addDerivation (hbehind hrule) hfull
    have hgrows := hgrows₂.trans hgrows'
    exact ⟨hb', hgrows₁.trans hgrows, .both (Grammar.mem_of_rule? hrule)
      (Grammar.lhs_of_rule? hrule) (Recorded.mono hgrows.splits _ _ hrecorded)
      (hgrows'.rules hmem) hmem'⟩
  | choice _ hrule hparts hne _ hpart =>
    obtain ⟨hb₁, hgrows₁, hparted⟩ := hparts.sound hb
    obtain ⟨hb', hgrows', hselects⟩ := hb₁.choose hpart
    exact ⟨hb', hgrows₁.trans hgrows', .choice (Grammar.mem_of_rule? hrule)
      (Grammar.lhs_of_rule? hrule) (hparted.mono (Recorded.mono hgrows'.splits)) hne hselects⟩
  | choices _ hrule hparts hne _ _ hpart hfull =>
    obtain ⟨hb₁, hgrows₁, hparted⟩ := hparts.sound hb
    obtain ⟨hb₂, hgrows₂, hselects⟩ := hb₁.choose hpart
    obtain ⟨hb', hgrows', hselects'⟩ := hb₂.choose hfull
    have hgrows := hgrows₂.trans hgrows'
    exact ⟨hb', hgrows₁.trans hgrows, .choices (Grammar.mem_of_rule? hrule)
      (Grammar.lhs_of_rule? hrule) (hparted.mono (Recorded.mono hgrows.splits)) hne
      (hselects.mono hgrows'.rules) hselects'⟩

/-- Splitting a variable keeps a workbench sound. -/
theorem keeps_splitVariable :
    ∀ b v split b', runsOf (splitVariable task) b v split b' → Keeps task s b v split b' := by
  refine splitWithin_induction ?_ ?_ _
  · intro b v split hrecorded hb
    exact ⟨hb, .refl b, hrecorded⟩
  · intro b v split b' hstep hb
    obtain ⟨hb', hgrows, hshape⟩ := hstep.sound hb
    refine ⟨hb'.record hshape, hgrows.trans ⟨?_, List.Subset.refl _⟩, v,
      List.mem_cons_self .., rfl⟩
    exact List.subset_cons_self ..

end Steps

/-! ## The factored grammar -/

/-- How the rules of a factored grammar come from a task. The root offers `alternatives` in
    the grammar of the task; `remaining` and `parts` are collected from them, `splits` records
    all splits, and `rest` goes on with the parts. -/
structure Factored (task : FactorTask) (rules : List Rule)
    (alternatives remaining parts : List Variable) (splits : List (Variable × Split))
    (rest : Variable) : Prop where
  root : ∃ lhs, Rule.selection lhs alternatives ∈ task.grammar.rules ∧
    lhs.id = task.target.root.id
  kept : ∀ r ∈ task.grammar.rules, r.lhs.id ≠ task.target.root.id → r ∈ rules
  recorded : ∀ v s, (v, s) ∈ splits → SplitShape task (Recorded splits) rules v s
  parted : Parted (Recorded splits) (task.successors task.target.root) alternatives [] []
    remaining parts
  selects : Selects rules rest parts
  rerooted : Rerooted task rules remaining rest

/-- Well-formed rules have no selection among nothing, so there are partial parts. -/
theorem Factored.parts_ne_nil {task : FactorTask} {rules : List Rule} {start rest : Variable}
    {alternatives remaining parts : List Variable} {splits : List (Variable × Split)}
    (h : Factored task rules alternatives remaining parts splits rest)
    (hrules : WellFormed start rules) : parts ≠ [] := by
  intro hnil
  rcases h.selects with hselects | hselects
  · rw [hnil] at hselects
    cases hselects
  · have htwo := (hrules.selections _ _ hselects).1
    rw [hnil] at htwo
    exact absurd htwo (by simp)

section Values

variable {K : Type} [Monoid K] [AddCommMonoid K] {term : Terminal → K} {le : K → K → Prop}
variable {a a' : Nat → K} {task : FactorTask} {rules : List Rule} {start rest : Variable}
variable {alternatives remaining parts : List Variable} {splits : List (Variable × Split)}

theorem FactorTask.successors_congr {v w : Variable} (hid : v.id = w.id) :
    task.successors v = task.successors w := by
  have hsame : (fun e : Edge => e.1 == v) = fun e => e.1 == w := by
    funext e
    change (e.1.id == v.id) = (e.1.id == w.id)
    rw [hid]
  unfold successors targetsFrom
  rw [hsame]

/-- The root and all variables that are split have their parts apart. -/
structure Factored.AllApart (task : FactorTask) (splits : List (Variable × Split)) : Prop where
  root : SplitsApart task (Recorded splits) task.target.root.id
  recorded : ∀ v s, (v, s) ∈ splits → SplitsApart task (Recorded splits) v.id

/-- The value of the root is at most what it was before, if that is so for everything that
    its alternatives lead to. -/
theorem Factored.root_value_le (hle : Compatible le)
    (h : Factored task rules alternatives remaining parts splits rest)
    (hmerge : Repeatable le ∨ SplitsApart task (Recorded splits) task.target.root.id)
    (hrules : WellFormed start rules) (ha' : IsValuation term rules a')
    (hvars : ∀ v ∈ alternatives, le (a' v.id) (a v.id))
    (hsplits : ∀ v ∈ alternatives, ∀ s, Recorded splits v s →
      le (s.value term a' task.target.symbol) (a v.id)) :
    le (a' task.target.root.id) (choiceValue a alternatives) := by
  obtain ⟨lhs, hlhs, hid⟩ := h.root
  obtain ⟨hfulls, hparts⟩ := mergeable_of_rule hmerge hlhs hid
  rw [FactorTask.successors_congr hid] at hfulls hparts
  rw [h.rerooted.value_eq h.selects ha']
  exact h.parted.read_value_le hle (h.parts_ne_nil hrules) hfulls hparts hvars hsplits

/-- No variable has a higher value in the factored grammar, and no split is worth more than
    the variable that was split. -/
theorem Factored.values_le (hle : Compatible le)
    (h : Factored task rules alternatives remaining parts splits rest)
    (hmerge : Repeatable le ∨ Factored.AllApart task splits)
    (hgrammar : task.grammar.Valid) (hrules : WellFormed start rules)
    (ha : IsValuation term task.grammar.rules a) (ha' : IsValuation term rules a') :
    ∀ i ∈ ruleIds task.grammar.rules, le (a' i) (a i) ∧
      ∀ v s, v.id = i → Recorded splits v s →
        le (s.value term a' task.target.symbol) (a i) := by
  have hnodup := hgrammar.well_formed.nodup_ruleIds
  -- Both bounds go through the induction together: a split is bounded by the splits of what
  -- the rule refers to, and by the values of what stands behind them.
  refine hgrammar.well_formed.reference_induction
    (P := fun i => le (a' i) (a i) ∧ ∀ v s, v.id = i → Recorded splits v s →
      le (s.value term a' task.target.symbol) (a i)) ?_
  intro r hr ih
  have hvars : ∀ v ∈ r.references, le (a' v.id) (a v.id) := fun v hv => (ih v hv).1
  have hsplits : ∀ v ∈ r.references, ∀ s, Recorded splits v s →
      le (s.value term a' task.target.symbol) (a v.id) :=
    fun v hv s hs => (ih v hv).2 v s rfl hs
  constructor
  · by_cases hroot : r.lhs.id = task.target.root.id
    · -- The root alone has a new rule.
      obtain ⟨lhs, hlhs, hid⟩ := h.root
      obtain rfl := eq_of_lhs_id_eq hnodup hr hlhs (hroot.trans hid.symm)
      rw [hroot, ← hid, ha.selection_eq hlhs, hid]
      exact h.root_value_le hle (hmerge.imp_right fun hapart => hapart.root) hrules ha' hvars
        hsplits
    · rw [ha' r (h.kept r hr hroot), ha r hr]
      exact hle.value_le term r hvars
  · intro v s hv hex
    obtain ⟨w, hw, hid⟩ := hex
    have hvalue := (h.recorded w s hw).value_le hle ha ha' hr hnodup hvars hsplits
      (hv.symm.trans hid.symm) (hmerge.imp_right fun hapart => hapart.recorded w s hw)
    rwa [hid, hv] at hvalue

end Values

theorem ValuedBelow.of_factored {task : FactorTask} {g' : Grammar} {rest : Variable}
    {alternatives remaining parts : List Variable} {splits : List (Variable × Split)}
    (h : Factored task g'.rules alternatives remaining parts splits rest)
    (hgrammar : task.grammar.Valid) (hg' : g'.Valid) : ValuedBelow task.grammar g' := by
  intro K _ _ term le _ hle a a' ha ha' i hi _
  exact (h.values_le hle.toCompatible (Or.inl hle.add_repeat) hgrammar hg'.well_formed ha ha'
    i hi).1

/-! ## The pass -/

section Pass

variable {task : FactorTask} {s s' : Session} {b b' : Workbench}
variable {g g' : Grammar} {tags tags' : Tagging} {target : SharedPrefix}

/-- The workbench when the root has its new rule. -/
structure Workbench.Finished (task : FactorTask) (s : Session) (alternatives remaining parts :
    List Variable) (rest : Variable) (b : Workbench) : Prop where
  recorded : ∀ v split, (v, split) ∈ b.splits →
    SplitShape task (Recorded b.splits) b.rules v split
  parted : Parted (Recorded b.splits) (task.successors task.target.root) alternatives [] []
    remaining parts
  selects : Selects b.rules rest parts
  rerooted : Rerooted task b.rules remaining rest
  ids : ∀ i, i ∈ ruleIds b.rules ↔
    i = task.target.root.id ∨ i ≠ task.target.root.id ∧ i ∈ b.tags.map (·.1.id)
  fresh : ∀ i ∈ ruleIds b.rules, i = task.target.root.id ∨
    s.ids.issued ≤ i ∧ i < b.session.ids.issued
  led : TerminalsLead task.grammar.rules → TerminalsLead b.rules
  issued_le : s.ids.issued ≤ b.session.ids.issued
  rounds_eq : b.session.tally.iterations = s.tally.iterations

/-- Giving the root its new rule, and perhaps a tag, finishes a sound workbench. -/
theorem Workbench.Sound.finish {alternatives remaining parts : List Variable}
    {rest : Variable} (hb : b.Sound task s) (rule : Rule) (tags : List (Variable × Tag))
    (hlhs : rule.lhs = task.target.root) (htags : ∀ entry ∈ tags, entry.1 = task.target.root)
    (hled : ∀ x ∈ rule.behindLeading, x.isTerminal = false)
    (hparted : Parted (Recorded b.splits) (task.successors task.target.root) alternatives []
      [] remaining parts)
    (hselects : Selects b.rules rest parts)
    (hrerooted : Rerooted task (b.rules ++ [rule]) remaining rest) :
    Workbench.Finished task s alternatives remaining parts rest
      { b with rules := b.rules ++ [rule], tags := b.tags ++ tags } := by
  have hrules : b.rules ⊆ b.rules ++ [rule] := List.subset_append_left ..
  -- The root is the one variable whose rule a sound workbench does not have yet.
  have hids : ∀ i, i ∈ ruleIds (b.rules ++ [rule]) ↔
      i ∈ ruleIds b.rules ∨ i = task.target.root.id := by
    intro i
    rw [ruleIds_append, List.mem_append]
    show _ ∨ i ∈ [rule.lhs.id] ↔ _
    rw [hlhs, List.mem_singleton]
  refine ⟨?_, hparted, hselects.mono hrules, hrerooted, ?_, ?_, ?_, hb.issued_le,
    hb.rounds_eq⟩
  · intro v split hv
    exact (hb.recorded v split hv).mono (fun _ _ => id) hrules
  · intro i
    rw [hids]
    show _ ↔ _ ∨ _ ∧ i ∈ (b.tags ++ tags).map (·.1.id)
    rw [List.map_append, List.mem_append, hb.tagged]
    constructor
    · intro hi
      by_cases hroot : i = task.target.root.id
      · exact Or.inl hroot
      · exact Or.inr ⟨hroot, Or.inl (hi.resolve_right hroot)⟩
    · intro hi
      rcases hi with hi | ⟨hroot, hi | hi⟩
      · exact Or.inr hi
      · exact Or.inl hi
      · obtain ⟨entry, hentry, hid⟩ := List.mem_map.mp hi
        rw [htags entry hentry] at hid
        exact absurd hid.symm hroot
  · intro i hi
    rcases (hids i).mp hi with hi | hi
    · exact Or.inr (hb.fresh i hi)
    · exact Or.inl hi
  · intro hg r hr
    rcases List.mem_append.mp hr with hr | hr
    · exact hb.led hg r hr
    · rw [List.mem_singleton] at hr
      subst hr
      exact hled

/-- A run of factoring finishes the workbench. -/
theorem RootRun.finished {alternatives remaining parts : List Variable} {tag : Tag}
    {rest : Variable} {b₁ b₂ : Workbench}
    (h : RootRun task alternatives tag remaining parts rest b b₁ b₂ b') (hb : b.Sound task s) :
    Workbench.Finished task s alternatives remaining parts rest b' := by
  obtain ⟨hb₁, -, hparted⟩ := (h.parts_run.mono keeps_splitVariable).sound hb
  obtain ⟨restTag, -, hchooses⟩ := h.chooses
  obtain ⟨hb₂, hgrows₂, hselects⟩ := hb₁.choose hchooses
  have hparted₂ := hparted.mono (Recorded.mono hgrows₂.splits)
  have hled : ∀ x ∈ (task.leadBody rest).tail, x.isTerminal = false := by
    intro x hx
    rw [List.mem_singleton.mp hx]
    rfl
  obtain ⟨leadTag, -, hroot⟩ := h.root_step
  cases hroot with
  | replaced hremaining =>
    -- The root has no other alternative: it reads the terminal itself and takes its tag along.
    refine hb₂.finish _ _ rfl ?_ hled hparted₂ hselects ?_
    · intro entry hentry
      rw [List.mem_singleton.mp hentry]
    · exact .replaced hremaining (List.mem_append_right _ (List.mem_singleton.mpr rfl))
  | @offered lead b₃ hremaining hlead =>
    obtain ⟨hb₃, hgrows₃, hmem⟩ := hb₂.addDerivation (fun _ => hled) hlead
    have hfinished := hb₃.finish (.selection task.target.root (lead :: remaining)) []
      rfl (fun _ hentry => nomatch hentry) (fun _ hx => nomatch hx)
      (hparted₂.mono (Recorded.mono hgrows₃.splits)) (hselects.mono hgrows₃.rules)
      (.offered lead (List.mem_append_left _ hmem)
        (List.mem_append_right _ (List.mem_singleton.mpr rfl)))
    rw [List.append_nil] at hfinished
    exact hfinished

variable {g g' : Grammar} {tags tags' : Tagging} {s' : Session} {target : SharedPrefix}

/-- The rules that factoring puts in the place of those of a grammar. -/
def Grammar.rootReplaced (g : Grammar) (root : Variable) (rules : List Rule) : List Rule :=
  g.rules.filter (fun r => r.lhs != root) ++ rules

theorem Variable.bne_iff {v w : Variable} : (v != w) = true ↔ v.id ≠ w.id := by
  rw [bne, Bool.not_eq_true', ← Bool.not_eq_true, beq_iff]

theorem Grammar.mem_rootReplaced {root : Variable} {rules : List Rule} {r : Rule} :
    r ∈ g.rootReplaced root rules ↔ r ∈ g.rules ∧ r.lhs.id ≠ root.id ∨ r ∈ rules := by
  unfold rootReplaced
  rw [List.mem_append, List.mem_filter, Variable.bne_iff]

theorem Grammar.mem_ruleIds_rootReplaced {root : Variable} {rules : List Rule} {i : Nat} :
    i ∈ ruleIds (g.rootReplaced root rules) ↔
      i ∈ ruleIds g.rules ∧ i ≠ root.id ∨ i ∈ ruleIds rules := by
  simp only [mem_ruleIds, mem_rootReplaced]
  constructor
  · intro hex
    obtain ⟨r, hr, hri⟩ := hex
    rcases hr with ⟨hr, hne⟩ | hr
    · exact Or.inl ⟨⟨r, hr, hri⟩, hri ▸ hne⟩
    · exact Or.inr ⟨r, hr, hri⟩
  · intro hi
    rcases hi with ⟨⟨r, hr, hri⟩, hne⟩ | ⟨r, hr, hri⟩
    · exact ⟨r, Or.inl ⟨hr, hri ▸ hne⟩, hri⟩
    · exact ⟨r, Or.inr hr, hri⟩

/-- Factoring fills a workbench, the rules of which then replace that of the root. -/
theorem leftFactor_eq_ok (h : leftFactor g tags target s = .ok (g', tags') s') :
    ∃ lhs alternatives tag bench, g.rule? target.root = some (.selection lhs alternatives) ∧
      tags.require target.root = .ok tag ∧
        factorRoot ⟨g, tags, target⟩ alternatives tag ⟨s, [], [], []⟩ = .ok () bench ∧
          Grammar.ofRules g.start (g.rootReplaced target.root bench.rules) = .ok g' ∧
            tags' = tags.extend bench.tags ∧ s' = bench.session := by
  unfold leftFactor at h
  obtain ⟨r, s₁, hrequire, h⟩ := bind_eq_ok.mp h
  obtain ⟨hr, hs₁⟩ := ofExcept_eq_ok.mp hrequire
  rw [Grammar.requireRule_eq_ok] at hr
  rw [← hs₁] at h
  cases r with
  -- Only the alternatives of a selection can share a prefix.
  | derivation lhs rhs => exact absurd h (by simp [throw_eq_ok])
  | selection lhs alternatives =>
    simp only at h
    obtain ⟨tag, s₂, hrequire', h⟩ := bind_eq_ok.mp h
    obtain ⟨htag, hs₂⟩ := ofExcept_eq_ok.mp hrequire'
    rw [← hs₂] at h
    obtain ⟨bench, s₃, hrun, h⟩ := bind_eq_ok.mp h
    obtain ⟨hstep, hs₃⟩ := runFactoring_eq_ok hrun
    obtain ⟨g₁, s₄, hrebuild, h⟩ := bind_eq_ok.mp h
    obtain ⟨hof, hs₄⟩ := rebuild_eq_ok.mp hrebuild
    obtain ⟨heq, hs'⟩ := pure_eq_ok.mp h
    cases heq
    refine ⟨lhs, alternatives, tag, bench, hr, htag, hstep, hof, rfl, ?_⟩
    rw [← hs', ← hs₄, hs₃]

/-- What a finished workbench says of the rules that replace those of the grammar. -/
theorem Workbench.Finished.factored {bench : Workbench} {lhs rest : Variable}
    {alternatives remaining parts : List Variable}
    (h : Workbench.Finished ⟨g, tags, target⟩ s alternatives remaining parts rest bench)
    (hrule : g.rule? target.root = some (.selection lhs alternatives)) :
    Factored ⟨g, tags, target⟩ (g.rootReplaced target.root bench.rules) alternatives remaining
      parts bench.splits rest := by
  have hbench : bench.rules ⊆ g.rootReplaced target.root bench.rules :=
    List.subset_append_right ..
  refine ⟨⟨lhs, Grammar.mem_of_rule? hrule, Grammar.lhs_of_rule? hrule⟩, ?_, ?_, h.parted,
    h.selects.mono hbench, ?_⟩
  · intro r hr hne
    exact Grammar.mem_rootReplaced.mpr (Or.inl ⟨hr, hne⟩)
  · intro v split hv
    exact (h.recorded v split hv).mono (fun _ _ => id) hbench
  · exact h.rerooted.mono hbench

/-- No variable is without a rule in the grammar of the new rules. -/
theorem Workbench.Finished.mem_ruleIds {bench : Workbench} {rest : Variable}
    {alternatives remaining parts : List Variable}
    (h : Workbench.Finished ⟨g, tags, target⟩ s alternatives remaining parts rest bench)
    (hof : Grammar.ofRules g.start (g.rootReplaced target.root bench.rules) = .ok g') {i : Nat}
    (hi : i ∈ ruleIds g.rules) : i ∈ ruleIds g'.rules := by
  have hmem : i ∈ ruleIds (g.rootReplaced target.root bench.rules) := by
    rw [Grammar.mem_ruleIds_rootReplaced, h.ids]
    by_cases hroot : i = target.root.id
    · exact Or.inr (Or.inl hroot)
    · exact Or.inl ⟨hi, hroot⟩
  obtain ⟨r, hr, hri⟩ := FluentGrammar.mem_ruleIds.mp hmem
  exact FluentGrammar.mem_ruleIds.mpr ⟨r, (Grammar.mem_rules_of_ofRules hof).mpr hr, hri⟩

/-- The order of the rules makes no difference to what factoring is. -/
theorem Factored.of_rules {task : FactorTask} {rules rules' : List Rule} {rest : Variable}
    {alternatives remaining parts : List Variable} {splits : List (Variable × Split)}
    (h : Factored task rules alternatives remaining parts splits rest)
    (hsub : rules ⊆ rules') :
    Factored task rules' alternatives remaining parts splits rest := by
  refine ⟨h.root, fun r hr hne => hsub (h.kept r hr hne), ?_, h.parted, h.selects.mono hsub,
    h.rerooted.mono hsub⟩
  intro v split hv
  exact (h.recorded v split hv).mono (fun _ _ => id) hsub

/-- Factoring a shared prefix out keeps a state coherent, lets no value grow and leaves
    terminals in front. -/
theorem Coherent.leftFactor (hg : Coherent g tags s)
    (h : leftFactor g tags target s = .ok (g', tags') s') :
    Rewritten g s g' tags' s' ∧ (TerminalsLead g.rules → TerminalsLead g'.rules) ∧
      ∃ alternatives remaining parts splits rest,
        Factored ⟨g, tags, target⟩ g'.rules alternatives remaining parts splits rest := by
  obtain ⟨lhs, alternatives, tag, bench, hrule, -, hstep, hof, htags, hs⟩ := leftFactor_eq_ok h
  obtain ⟨remaining, parts, rest, b₁, b₂, hrun⟩ := factorRoot_run hstep
  have hfinished := hrun.finished (Workbench.sound_empty ⟨g, tags, target⟩ s)
  have hroot : target.root.id ∈ ruleIds g.rules := mem_ruleIds_of_rule? hrule
  have hfactored := (hfinished.factored hrule).of_rules
    fun _ hr => (Grammar.mem_rules_of_ofRules hof).mpr hr
  rw [htags, hs]
  -- The new rules belong to the root or are new, and every one of them has its tag.
  refine ⟨.of_rules hg hof hfinished.issued_le ?_ ?_ ?_ hfinished.rounds_eq, ?_,
    alternatives, remaining, parts, bench.splits, rest, hfactored⟩
  · intro i hi
    rcases Grammar.mem_ruleIds_rootReplaced.mp hi with ⟨hi, -⟩ | hi
    · exact Or.inl hi
    · rcases hfinished.fresh i hi with hi | hnew
      · exact Or.inl (hi ▸ hroot)
      · exact Or.inr hnew
  · intro i
    rw [Tagging.mem_ids_extend, Grammar.mem_ruleIds_rootReplaced, hfinished.ids, hg.tagged]
    by_cases hi : i = target.root.id
    · simp [hi, hroot]
    · simp [hi, or_comm]
  · exact .of_factored hfactored hg.valid (Grammar.valid_of_ofRules hof)
  · intro hlead
    apply TerminalsLead.of_subset _ (rules_subset_of_ofRules hof)
    intro r hr
    rcases Grammar.mem_rootReplaced.mp hr with ⟨hr, -⟩ | hr
    · exact hlead r hr
    · exact hfinished.led hlead r hr

end Pass

end FluentGrammar
