import FluentGrammar.Proofs.Rewriting.Vocabulary
import FluentGrammar.Proofs.SharedPrefix.Factoring
import FluentGrammar.Proofs.SharedPrefix.Tracing

/-! # What factoring makes its rules of

    The chains of a shared prefix only say which alternatives are split. Rules are made of what
    stands in the grammar, of the shared terminal, of the root, and of variables that the
    session has handed out on the way. So a rewritten grammar stays within the vocabulary of the
    old one and the new variables, whatever the chains are.
-/

namespace FluentGrammar

variable {voc : Vocabulary} {task : FactorTask} {s : Session} {fresh : List Variable}
variable {b b₁ b' : Workbench}

/-- Both parts belong to the vocabulary. -/
structure Split.Over (voc : Vocabulary) (split : Split) : Prop where
  part : split.part ∈ voc.vars
  full : ∀ full, split.full = some full → full ∈ voc.vars

/-- A workbench the rules and splits of which are made of a vocabulary and of the variables that
    have been handed out for it. -/
structure Workbench.Stocked (voc : Vocabulary) (s : Session) (fresh : List Variable)
    (b : Workbench) : Prop where
  issues : s.Issues fresh b.session
  rules : ∀ r ∈ b.rules, r.Over (voc.extend fresh)
  splits : ∀ v split, (v, split) ∈ b.splits → split.Over (voc.extend fresh)

theorem Workbench.stocked_empty (voc : Vocabulary) (s : Session) :
    Workbench.Stocked voc s [] ⟨s, [], [], []⟩ where
  issues := .refl s
  rules := fun _ h => nomatch h
  splits := fun _ _ h => nomatch h

theorem Vocabulary.vars_extend_append (voc : Vocabulary) (fresh more : List Variable) :
    (voc.extend fresh).vars ⊆ (voc.extend (fresh ++ more)).vars := by
  rw [← Vocabulary.extend_extend]
  exact List.subset_append_left ..

theorem Split.Over.extend {split : Split} (h : split.Over (voc.extend fresh))
    (more : List Variable) : split.Over (voc.extend (fresh ++ more)) where
  part := voc.vars_extend_append fresh more h.part
  full := fun full hfull => voc.vars_extend_append fresh more (h.full full hfull)

theorem Rule.Over.extend_append {r : Rule} (h : r.Over (voc.extend fresh))
    (more : List Variable) : r.Over (voc.extend (fresh ++ more)) := by
  rw [← Vocabulary.extend_extend]
  exact h.extend more

theorem Symbol.Over.extend_append {x : Symbol} (h : x.Over (voc.extend fresh))
    (more : List Variable) : x.Over (voc.extend (fresh ++ more)) := by
  rw [← Vocabulary.extend_extend]
  exact h.extend more

/-! ## Adding -/

/-- The variable of a new rule joins the vocabulary. -/
theorem Workbench.Stocked.add {rule : Rule} {tag : Tag} (h : b.Stocked voc s fresh)
    (hadd : b.Adds rule tag b') (hrule : rule.Over (voc.extend (fresh ++ [rule.lhs]))) :
    b'.Stocked voc s (fresh ++ [rule.lhs]) where
  issues := h.issues.trans hadd.issues
  rules := by
    rw [hadd.rules_eq]
    exact List.forall_mem_append.mpr
      ⟨fun r hr => (h.rules r hr).extend_append _, List.forall_mem_singleton.mpr hrule⟩
  splits := by
    rw [hadd.splits_eq]
    exact fun v split hv => (h.splits v split hv).extend _

theorem Workbench.Stocked.addDerivation {v : Variable} {rhs : List Symbol} {tag : Tag}
    (h : b.Stocked voc s fresh) (hadd : b.Adds (.derivation v rhs) tag b')
    (hrhs : ∀ x ∈ rhs, x.Over (voc.extend fresh))
    (hbehind : ∀ t, .term t ∈ rhs.tail → voc.behind t) :
    b'.Stocked voc s (fresh ++ [v]) ∧ v ∈ (voc.extend (fresh ++ [v])).vars := by
  have hv : v ∈ (voc.extend (fresh ++ [v])).vars :=
    List.mem_append_right _ (List.mem_append_right _ (List.mem_singleton.mpr rfl))
  exact ⟨h.add hadd ⟨hv, fun x hx => (hrhs x hx).extend_append _, hbehind⟩, hv⟩

theorem Workbench.Stocked.choose {v : Variable} {vars : List Variable} {tag : Tag}
    (h : b.Stocked voc s fresh) (hchoose : b.Chooses vars tag v b')
    (hvars : vars ⊆ (voc.extend fresh).vars) :
    ∃ more, b'.Stocked voc s (fresh ++ more) ∧ v ∈ (voc.extend (fresh ++ more)).vars := by
  cases hchoose with
  | alone hone =>
    rw [hone] at hvars
    exact ⟨[], by rwa [List.append_nil], by
      rw [List.append_nil]
      exact hvars (List.mem_singleton.mpr rfl)⟩
  | added hone hadd =>
    have hv : v ∈ (voc.extend (fresh ++ [v])).vars :=
      List.mem_append_right _ (List.mem_append_right _ (List.mem_singleton.mpr rfl))
    exact ⟨[v], h.add hadd ⟨hv, List.Subset.trans hvars (voc.vars_extend_append fresh _)⟩, hv⟩

theorem Workbench.Stocked.record {v : Variable} {split : Split} (h : b.Stocked voc s fresh)
    (hsplit : split.Over (voc.extend fresh)) :
    Workbench.Stocked voc s fresh { b with splits := (v, split) :: b.splits } where
  issues := h.issues
  rules := h.rules
  splits := by
    intro w other hw
    rcases List.mem_cons.mp hw with heq | hw
    · cases heq
      exact hsplit
    · exact h.splits w other hw

/-! ## Splitting -/

/-- The runs that keep a workbench stocked and give a split made of what it is stocked with. -/
def Stocks (voc : Vocabulary) (s : Session) : SplitRun := fun b _ split b' =>
  ∀ fresh, b.Stocked voc s fresh →
    ∃ more, b'.Stocked voc s (fresh ++ more) ∧ split.Over (voc.extend (fresh ++ more))

theorem addUnique_subset {vars known : List Variable} {v : Variable} (hvars : vars ⊆ known)
    (hv : v ∈ known) : addUnique vars v ⊆ known := by
  intro y hy
  rcases mem_addUnique hy with hy | rfl
  · exact hvars hy
  · exact hv

theorem PartsRun.stocked {onChain alternatives fulls parts fulls' parts' : List Variable}
    (h : PartsRun (Stocks voc s) onChain alternatives fulls parts b fulls' parts' b')
    (halternatives : alternatives ⊆ voc.vars) (hb : b.Stocked voc s fresh)
    (hfulls : fulls ⊆ (voc.extend fresh).vars) (hparts : parts ⊆ (voc.extend fresh).vars) :
    ∃ more, b'.Stocked voc s (fresh ++ more) ∧ fulls' ⊆ (voc.extend (fresh ++ more)).vars ∧
      parts' ⊆ (voc.extend (fresh ++ more)).vars := by
  induction h generalizing fresh with
  | nil => exact ⟨[], by simpa using ⟨hb, hfulls, hparts⟩⟩
  | aside hv _ ih =>
    obtain ⟨hhead, hrest⟩ := List.cons_subset.mp halternatives
    exact ih hrest hb (addUnique_subset hfulls (List.mem_append_left _ hhead)) hparts
  | through hv hs _ ih =>
    obtain ⟨more₁, hb₁, hsplit⟩ := hs fresh hb
    have hsub := voc.vars_extend_append fresh more₁
    obtain ⟨more₂, hb', hfulls', hparts'⟩ := ih (List.cons_subset.mp halternatives).2 hb₁
      (List.Subset.trans hfulls hsub)
      (addUnique_subset (List.Subset.trans hparts hsub) hsplit.part)
    rw [List.append_assoc] at hb' hfulls' hparts'
    exact ⟨more₁ ++ more₂, hb', hfulls', hparts'⟩
  | both hv hs _ ih =>
    obtain ⟨more₁, hb₁, hsplit⟩ := hs fresh hb
    have hsub := voc.vars_extend_append fresh more₁
    obtain ⟨more₂, hb', hfulls', hparts'⟩ := ih (List.cons_subset.mp halternatives).2 hb₁
      (addUnique_subset (List.Subset.trans hfulls hsub) (hsplit.full _ rfl))
      (addUnique_subset (List.Subset.trans hparts hsub) hsplit.part)
    rw [List.append_assoc] at hb' hfulls' hparts'
    exact ⟨more₁ ++ more₂, hb', hfulls', hparts'⟩

/-- What stands behind the first symbol of a derivation of the vocabulary may be put behind
    another one, or stand alone. -/
theorem Rule.Over.rest {lhs : Variable} {x : Symbol} {rest : List Symbol}
    (h : (Rule.derivation lhs (x :: rest)).Over voc) :
    (∀ y ∈ rest, y.Over voc) ∧ (∀ t, .term t ∈ rest → voc.behind t) :=
  ⟨fun y hy => h.2.1 y (List.mem_cons_of_mem _ hy), h.2.2⟩

/-- A derivation that starts with a part of a variable instead of the variable. -/
theorem Workbench.Stocked.addLed {lhs v w y : Variable} {rest : List Symbol} {tag : Tag}
    (h : b.Stocked voc s fresh) (hadd : b.Adds (.derivation v (.var y :: rest)) tag b')
    (hr : (Rule.derivation lhs (.var w :: rest)).Over voc) (hy : y ∈ (voc.extend fresh).vars) :
    b'.Stocked voc s (fresh ++ [v]) ∧ v ∈ (voc.extend (fresh ++ [v])).vars := by
  obtain ⟨hrest, hbehind⟩ := hr.rest
  exact h.addDerivation hadd
    (List.forall_mem_cons.mpr ⟨hy, fun x hx => (hrest x hx).extend fresh⟩) hbehind

theorem SplitStep.stocks (htask : ∀ r ∈ task.grammar.rules, r.Over voc) {v : Variable}
    {split : Split} (h : SplitStep task (Stocks voc s) b v split b') :
    Stocks voc s b v split { b' with splits := (v, split) :: b'.splits } := by
  intro fresh hb
  -- Without a full part there is nothing to be shown of it.
  have hnone : ∀ {more : List Variable} {part : Variable},
      part ∈ (voc.extend (fresh ++ more)).vars →
        Split.Over (voc.extend (fresh ++ more)) ⟨none, part⟩ :=
    fun hpart => ⟨hpart, fun _ hfull => nomatch hfull⟩
  cases h with
  | @reads lhs part rest tag partTag b' htag hrule hpartTag hpart =>
    obtain ⟨hrest, hbehind⟩ := (htask _ (Grammar.mem_of_rule? hrule)).rest
    obtain ⟨hb', hv⟩ := hb.addDerivation hpart (fun x hx => (hrest x hx).extend fresh)
      fun t ht => hbehind t (List.mem_of_mem_tail ht)
    exact ⟨[part], hb'.record (hnone hv), hnone hv⟩
  | @through lhs w below part rest tag partTag b₁ b' htag hrule hpartTag hrun hpart =>
    obtain ⟨more, hb₁, hbelow⟩ := hrun fresh hb
    obtain ⟨hb', hv⟩ := hb₁.addLed hpart (htask _ (Grammar.mem_of_rule? hrule)) hbelow.part
    rw [List.append_assoc] at hb' hv
    exact ⟨more ++ [part], hb'.record (hnone hv), hnone hv⟩
  | @both lhs w belowFull below full part rest tag partTag b₁ b₂ b' htag hrule hpartTag hrun
      hpart hfull =>
    have hr := htask _ (Grammar.mem_of_rule? hrule)
    obtain ⟨more, hb₁, hbelow⟩ := hrun fresh hb
    obtain ⟨hb₂, hv⟩ := hb₁.addLed hpart hr hbelow.part
    obtain ⟨hb', hw⟩ := hb₂.addLed hfull hr
      (voc.vars_extend_append _ [part] (hbelow.full _ rfl))
    have hsplit : Split.Over (voc.extend (fresh ++ more ++ [part] ++ [full]))
        ⟨some full, part⟩ := by
      refine ⟨voc.vars_extend_append _ [full] hv, fun y hy => ?_⟩
      cases hy
      exact hw
    rw [List.append_assoc, List.append_assoc] at hb' hsplit
    exact ⟨more ++ ([part] ++ [full]), hb'.record hsplit, hsplit⟩
  | @choice lhs part alternatives parts tag partTag b₁ b' htag hrule hrun hne hpartTag hpart =>
    obtain ⟨more, hb₁, -, hparts⟩ := hrun.stocked (htask _ (Grammar.mem_of_rule? hrule)).2 hb
      (List.nil_subset _) (List.nil_subset _)
    obtain ⟨more', hb', hv⟩ := hb₁.choose hpart hparts
    rw [List.append_assoc] at hb' hv
    exact ⟨more ++ more', hb'.record (hnone hv), hnone hv⟩
  | @choices lhs full part alternatives fulls parts tag partTag b₁ b₂ b' htag hrule hrun hne
      hfulls hpartTag hpart hfull =>
    obtain ⟨more, hb₁, hfulls', hparts⟩ := hrun.stocked (htask _ (Grammar.mem_of_rule? hrule)).2
      hb (List.nil_subset _) (List.nil_subset _)
    obtain ⟨more₂, hb₂, hv⟩ := hb₁.choose hpart hparts
    obtain ⟨more₃, hb', hw⟩ := hb₂.choose hfull
      (List.Subset.trans hfulls' (voc.vars_extend_append _ more₂))
    have hsplit : Split.Over (voc.extend (fresh ++ more ++ more₂ ++ more₃))
        ⟨some full, part⟩ := by
      refine ⟨voc.vars_extend_append _ more₃ hv, fun y hy => ?_⟩
      cases hy
      exact hw
    rw [List.append_assoc, List.append_assoc] at hb' hsplit
    exact ⟨more ++ (more₂ ++ more₃), hb'.record hsplit, hsplit⟩

theorem stocks_splitVariable (htask : ∀ r ∈ task.grammar.rules, r.Over voc) :
    ∀ b v split b', runsOf (splitVariable task) b v split b' → Stocks voc s b v split b' := by
  refine splitWithin_induction ?_ (fun b v split b' h => h.stocks htask) _
  intro b v split hrecorded fresh hb
  obtain ⟨w, hw, -⟩ := hrecorded
  exact ⟨[], by rwa [List.append_nil], by
    rw [List.append_nil]
    exact hb.splits w split hw⟩

/-! ## The root -/

/-- Factoring adds to a vocabulary what it has been handed out. -/
theorem RootRun.stocked {alternatives remaining parts : List Variable} {rest lhs : Variable}
    {tag : Tag} {b₂ bench : Workbench}
    (h : RootRun task alternatives tag remaining parts rest ⟨s, [], [], []⟩ b₁ b₂ bench)
    (htask : ∀ r ∈ task.grammar.rules, r.Over voc)
    (hrule : task.grammar.rule? task.target.root = some (.selection lhs alternatives))
    (hroot : task.target.root ∈ voc.vars) (hsymbol : voc.terminals task.target.symbol) :
    ∃ fresh, bench.Stocked voc s fresh := by
  obtain ⟨more, hb₁, hremaining, hparts⟩ := (h.parts_run.mono (stocks_splitVariable htask)).stocked
    (htask _ (Grammar.mem_of_rule? hrule)).2 (Workbench.stocked_empty voc s)
    (List.nil_subset _) (List.nil_subset _)
  rw [List.nil_append] at hb₁ hremaining hparts
  obtain ⟨restTag, -, hchooses⟩ := h.chooses
  obtain ⟨more₂, hb₂, hrest⟩ := hb₁.choose hchooses hparts
  -- The new leading rule is made of the terminal of the prefix and of the rest that has just been
  -- made.
  have hlead : ∀ x ∈ task.leadBody rest, x.Over (voc.extend (more ++ more₂)) :=
    List.forall_mem_cons.mpr ⟨hsymbol, List.forall_mem_singleton.mpr hrest⟩
  have hbehind : ∀ t, .term t ∈ (task.leadBody rest).tail → voc.behind t := by
    intro t ht
    cases List.mem_singleton.mp ht
  obtain ⟨leadTag, -, hstep⟩ := h.root_step
  cases hstep with
  -- Either the root leads to the rest itself, or it offers a new variable that does.
  | replaced hnone =>
    refine ⟨more ++ more₂, hb₂.issues, ?_, hb₂.splits⟩
    exact List.forall_mem_append.mpr ⟨hb₂.rules,
      List.forall_mem_singleton.mpr ⟨List.mem_append_left _ hroot, hlead, hbehind⟩⟩
  | @offered lead b₃ hsome hadd =>
    obtain ⟨hb₃, hv⟩ := hb₂.addDerivation hadd hlead hbehind
    refine ⟨more ++ more₂ ++ [lead], hb₃.issues, ?_, hb₃.splits⟩
    refine List.forall_mem_append.mpr ⟨hb₃.rules, List.forall_mem_singleton.mpr
      ⟨List.mem_append_left _ hroot, List.cons_subset.mpr ⟨hv, ?_⟩⟩⟩
    rw [List.append_assoc]
    exact List.Subset.trans hremaining (voc.vars_extend_append more _)

theorem Grammar.Over.leftFactor {g g' : Grammar} {tags tags' : Tagging} {s' : Session}
    {target : SharedPrefix} (h : g.Over voc) (hroot : target.root ∈ voc.vars)
    (hsymbol : voc.terminals target.symbol)
    (hrun : leftFactor g tags target s = .ok (g', tags') s') :
    ∃ fresh, s.Issues fresh s' ∧ g'.Over (voc.extend fresh) := by
  obtain ⟨lhs, alternatives, tag, bench, hrule, -, hstep, hof, -, rfl⟩ := leftFactor_eq_ok hrun
  obtain ⟨remaining, parts, rest, b₁, b₂, hroots⟩ := factorRoot_run hstep
  obtain ⟨fresh, hbench⟩ := hroots.stocked h.rules hrule hroot hsymbol
  refine ⟨fresh, hbench.issues, .of_ofRules (List.mem_append_left _ h.start) ?_ hof⟩
  intro r hr
  rcases Grammar.mem_rootReplaced.mp hr with ⟨hr, -⟩ | hr
  · exact (h.rules r hr).extend fresh
  · exact hbench.rules r hr

end FluentGrammar
