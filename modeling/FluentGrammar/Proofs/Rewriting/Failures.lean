import FluentGrammar.Proofs.Rewriting.Bridging
import FluentGrammar.Proofs.Rewriting.Folding
import FluentGrammar.Proofs.SharedPrefix.Discovery
import FluentGrammar.Proofs.SharedPrefix.Runs
import FluentGrammar.Proofs.Supply.Sessions
import FluentGrammar.Rewriting.Canonical

/-! # Ways to fail

    Only counting a round fails because of the limit on rounds, and only discovery because a
    shape is ambiguous. All other failures are internal: the grammar and its tags do not fit
    together. Success or failure, a pass does nothing to a session but count and take variables,
    so a relation that these lead along relates the sessions before and behind every pass.
-/

namespace FluentGrammar

/-- Failures other than that of a limit on rounds. -/
def NotLimit (e : PassError) : Prop :=
  ∀ n, e ≠ .iterationLimit n

/-- Failures that speak of parts which do not fit together. -/
structure Internal (e : PassError) : Prop where
  not_limit : NotLimit e
  not_unsupported : ∀ shape, e ≠ .unsupported shape

theorem internal_grammar (fault : GrammarError) : Internal (.grammar fault) :=
  by constructor <;> intro _ h <;> cases h

theorem internal_missingTag (v : Variable) : Internal (.missingTag v) :=
  by constructor <;> intro _ h <;> cases h

theorem internal_mismatch (m : Mismatch) : Internal (.mismatch m) :=
  by constructor <;> intro _ h <;> cases h

/-! ## Outcomes without a state -/

section Outcomes

variable {tag : Tag} {e : PassError}

theorem Tagging.require_eq_error {tags : Tagging} {v : Variable} :
    tags.require v = .error e ↔ e = .missingTag v ∧ v.id ∉ tags.ids := by
  rw [← tag?_isSome]
  unfold require
  cases tags.tag? v <;> simp [eq_comm]

theorem Tagging.require_error {tags : Tagging} {v : Variable}
    (h : tags.require v = .error e) : Internal e := by
  rw [(require_eq_error.mp h).1]
  exact internal_missingTag v

theorem Tag.withComponents_error {params : List Parameter} {shape : Rule.Shape}
    (h : tag.withComponents params shape = .error e) : ∃ m, e = .mismatch m := by
  unfold withComponents at h
  split at h <;> cases h
  exact ⟨_, rfl⟩

theorem Tag.reshaped_error {shape : Rule.Shape} (h : tag.reshaped shape = .error e) :
    ∃ m, e = .mismatch m := by
  unfold reshaped at h
  split at h <;> cases h
  exact ⟨_, rfl⟩

theorem Tag.withImplicit_error {v : Variable} (h : tag.withImplicit v = .error e) :
    ∃ m, e = .mismatch m := by
  unfold withImplicit at h
  split at h <;> cases h <;> exact ⟨_, rfl⟩

theorem Grammar.requireRule_eq_error {g : Grammar} {v : Variable} :
    g.requireRule v = .error e ↔ e = .grammar (.undefinedRule v) ∧ g.rule? v = none := by
  unfold requireRule rule
  rw [except_mapError_eq_error]
  cases g.rule? v <;> simp [eq_comm]

theorem Grammar.requireRule_error {g : Grammar} {v : Variable}
    (h : g.requireRule v = .error e) : Internal e := by
  rw [(requireRule_eq_error.mp h).1]
  exact internal_grammar _

end Outcomes

/-! ## Relations of sessions -/

/-- Counting leads along a relation of sessions, and so does taking a variable under one of the
    seeds. -/
structure Session.Along (R : Session → Session → Prop) (seeds : String → Prop) : Prop where
  count : ∀ s f, R s (s.count f)
  take : ∀ s seed, seeds seed → R s (s.take seed).2

theorem Session.along_spends (seeds : String → Prop) : Session.Along Session.Spends seeds where
  count := fun _ _ => ⟨Nat.le_refl _, List.Subset.refl _⟩
  take := fun s seed _ => (Session.Issues.take s seed).spends

variable {R : Session → Session → Prop} [IsPreorder Session R] {P : PassError → Prop}
variable {seeds : String → Prop}

/-! ## Factoring -/

/-- The names that factoring wants for new variables. -/
inductive FactorTask.Seeds (task : FactorTask) : String → Prop where
  | part {r : Rule} (hr : r ∈ task.grammar.rules) : task.Seeds ("Partial_" ++ r.lhs.name)
  | full {r : Rule} (hr : r ∈ task.grammar.rules) : task.Seeds ("Full_" ++ r.lhs.name)
  | lead : task.Seeds (task.target.root.name ++ "_" ++ task.target.symbol.name)
  | rest : task.Seeds (task.target.root.name ++ "_" ++ task.target.symbol.name ++ "_K")

/-- Variables for which looking up a rule or a tag fails only with errors of a kind, together
    with those that their rules refer to. -/
structure FactorTask.LooksUp (task : FactorTask) (P : PassError → Prop) (V : Variable → Prop) :
    Prop where
  tag : ∀ v, V v → ∀ e, task.tags.require v = .error e → P e
  rule : ∀ v, V v → ∀ e, task.grammar.requireRule v = .error e → P e
  references : ∀ v r, V v → task.grammar.rule? v = some r → ∀ w ∈ r.references, V w

/-- Looking up fails internally, whatever the variable is. -/
theorem FactorTask.looksUp_internal (task : FactorTask) :
    task.LooksUp Internal (fun _ => True) where
  tag := fun _ _ _ => Tagging.require_error
  rule := fun _ _ _ => Grammar.requireRule_error
  references := fun _ _ _ _ _ _ => trivial

section Factoring

variable {task : FactorTask} {split : Variable → Factoring Split}

/-- Workbenches are related as their sessions are. -/
def Workbench.Related (R : Session → Session → Prop) (b b' : Workbench) : Prop :=
  R b.session b'.session

instance : IsPreorder Workbench (Workbench.Related R) where
  refl b := refl_of R b.session
  trans _ _ _ h₁ h₂ := trans_of R h₁ h₂

theorem confined_addVariable (hR : Session.Along R seeds) {seed : String} (hseed : seeds seed)
    (rule : Variable → Rule) (tag : Tag) :
    Confined (Workbench.Related R) P (addVariable seed rule tag) := by
  intro b
  refine ⟨fun v b' h => ?_, fun e b' h => (nomatch h)⟩
  rw [(addVariable_eq_ok.mp h).2]
  exact trans_of R (hR.take b.session seed hseed)
    (hR.count (b.session.take seed).2 fun t => { t with synthesized := t.synthesized + 1 })

theorem confined_addDerivation (hR : Session.Along R seeds) {seed : String} (hseed : seeds seed)
    (rhs : List Symbol) (tag : Tag) :
    Confined (Workbench.Related R) P (addDerivation seed rhs tag) :=
  confined_addVariable hR hseed _ _

theorem confined_addSelection (hR : Session.Along R seeds) {seed : String} (hseed : seeds seed)
    (alternatives : List Variable) (tag : Tag) :
    Confined (Workbench.Related R) P (addSelection seed alternatives tag) := by
  unfold addSelection
  split
  · exact .pure _
  · exact confined_addVariable hR hseed _ _

theorem confined_splitAlternatives {onChain alternatives : List Variable}
    (hsplit : ∀ v ∈ alternatives, Confined (Workbench.Related R) P (split v))
    (fulls parts : List Variable) : Confined (Workbench.Related R) P
      (splitAlternatives split onChain alternatives fulls parts) := by
  induction alternatives generalizing fulls parts with
  | nil => exact .pure _
  | cons v rest ih =>
    have hrest := ih fun w hw => hsplit w (List.mem_cons_of_mem _ hw)
    rw [splitAlternatives]
    split
    · exact (hsplit v (List.mem_cons_self ..)).bind fun s _ _ _ => hrest _ _
    · exact hrest _ _

theorem confined_splitDerivation (hR : Session.Along R task.Seeds) (hP : ∀ m, P (.mismatch m))
    {lhs : Variable} {rhs : List Symbol} (hr : .derivation lhs rhs ∈ task.grammar.rules)
    (hsplit : ∀ w, .var w ∈ rhs → Confined (Workbench.Related R) P (split w)) (tag : Tag) :
    Confined (Workbench.Related R) P (splitDerivation task split lhs rhs tag) := by
  have hpart : task.Seeds ("Partial_" ++ lhs.name) := .part hr
  have hfull : task.Seeds ("Full_" ++ lhs.name) := .full hr
  unfold splitDerivation
  refine (Confined.ofExcept fun e he => ?_).bind fun partTag _ _ _ => ?_
  · obtain ⟨m, rfl⟩ := Tag.withComponents_error he
    exact hP m
  cases rhs with
  | nil => exact .throw (hP _)
  | cons x rest =>
    cases x with
    | term t =>
      simp only
      split
      · exact (Confined.throw (hP _)).bind fun _ _ _ _ =>
          (confined_addDerivation hR hpart _ _).bind fun _ _ _ _ => .pure _
      · exact (confined_addDerivation hR hpart _ _).bind fun _ _ _ _ => .pure _
    | var w =>
      refine (hsplit w (List.mem_cons_self ..)).bind fun below _ _ _ =>
        (confined_addDerivation hR hpart _ _).bind fun part _ _ _ => ?_
      cases below.full with
      | none => exact .pure _
      | some full => exact (confined_addDerivation hR hfull _ _).bind fun _ _ _ _ => .pure _

theorem confined_splitSelection (hR : Session.Along R task.Seeds) (hP : ∀ m, P (.mismatch m))
    {lhs : Variable} {alternatives : List Variable}
    (hr : .selection lhs alternatives ∈ task.grammar.rules)
    (hsplit : ∀ v ∈ alternatives, Confined (Workbench.Related R) P (split v)) (tag : Tag) :
    Confined (Workbench.Related R) P (splitSelection task split lhs alternatives tag) := by
  have hpart : task.Seeds ("Partial_" ++ lhs.name) := .part hr
  have hfull : task.Seeds ("Full_" ++ lhs.name) := .full hr
  unfold splitSelection
  refine (confined_splitAlternatives hsplit _ _).bind fun collected _ _ _ => ?_
  -- The selection of the parts is made whether or not the test in front of it has failed, so what
  -- follows the test is told once.
  have hrest : Confined (Workbench.Related R) P (do
      let partTag ← ofExcept (tag.withComponents task.target.symbol.params .selection)
      let part ← addSelection ("Partial_" ++ lhs.name) collected.2 partTag
      if collected.1.isEmpty then return Split.mk none part
      return Split.mk (some (← addSelection ("Full_" ++ lhs.name) collected.1 tag)) part) := by
    refine (Confined.ofExcept fun e he => ?_).bind fun partTag _ _ _ =>
      (confined_addSelection hR hpart _ _).bind fun part _ _ _ => ?_
    · obtain ⟨m, rfl⟩ := Tag.withComponents_error he
      exact hP m
    · split
      · exact .pure _
      · exact (confined_addSelection hR hfull _ _).bind fun _ _ _ _ => .pure _
  simp only
  split
  · exact (Confined.throw (hP _)).bind fun _ _ _ _ => hrest
  · exact hrest

variable {V : Variable → Prop}

theorem confined_splitWithin (hR : Session.Along R task.Seeds) (hP : ∀ m, P (.mismatch m))
    (hV : task.LooksUp P V) (fuel : Nat) {v : Variable} (hv : V v) :
    Confined (Workbench.Related R) P (splitWithin task fuel v) := by
  -- Running out of fuel is a mismatch as well, so the fuel need not be shown to suffice.
  induction fuel generalizing v with
  | zero => exact .throw (hP _)
  | succ fuel ih =>
    unfold splitWithin
    refine Confined.get_bind fun bench => ?_
    split
    · exact .pure _
    · refine (Confined.ofExcept (hV.tag v hv)).bind fun tag _ _ _ =>
        (Confined.ofExcept (hV.rule v hv)).bind fun r s s' hlookup => ?_
      have hrule := Grammar.requireRule_eq_ok.mp (ofExcept_eq_ok.mp hlookup).1
      have hr := Grammar.mem_of_rule? hrule
      have hbelow := hV.references v r hv hrule
      have hrecord : ∀ made : Split, Confined (Workbench.Related R) P (do
          modify (fun bench : Workbench => { bench with splits := (v, made) :: bench.splits })
          return made) := fun made =>
        Confined.bind (.modify fun b => refl_of R b.session) fun _ _ _ _ => .pure _
      cases r with
      | derivation lhs rhs =>
        refine (confined_splitDerivation hR hP hr (fun w hw => ih (hbelow w ?_)) tag).bind
          fun made _ _ _ => hrecord made
        exact Rule.mem_references_derivation.mpr hw
      | selection lhs alternatives =>
        exact (confined_splitSelection hR hP hr (fun w hw => ih (hbelow w hw)) tag).bind
          fun made _ _ _ => hrecord made

theorem confined_factorRoot (hR : Session.Along R task.Seeds) (hP : ∀ m, P (.mismatch m))
    (hV : task.LooksUp P V) {alternatives : List Variable} (halternatives : ∀ v ∈ alternatives, V v)
    (tag : Tag) : Confined (Workbench.Related R) P (factorRoot task alternatives tag) := by
  have hmodify : ∀ {f : Workbench → Workbench}, (∀ b, (f b).session = b.session) →
      Confined (Workbench.Related R) P (modify f : Factoring PUnit) := by
    intro f hf
    refine Confined.modify fun b => ?_
    show R b.session (f b).session
    rw [hf]
    exact refl_of R _
  unfold factorRoot
  refine (confined_splitAlternatives
    (fun v hv => confined_splitWithin hR hP hV _ (halternatives v hv)) _ _).bind
    fun collected _ _ _ => (Confined.ofExcept fun e he => ?_).bind fun restTag _ _ _ =>
      (confined_addSelection hR .rest _ _).bind fun rest _ _ _ =>
        (Confined.ofExcept fun e he => ?_).bind fun leadTag _ _ _ => ?_
  · obtain ⟨m, rfl⟩ := Tag.withComponents_error he
    exact hP m
  · obtain ⟨m, rfl⟩ := Tag.reshaped_error he
    exact hP m
  · split
    · exact hmodify fun _ => rfl
    · exact (confined_addDerivation hR .lead _ _).bind fun _ _ _ _ => hmodify fun _ => rfl

omit [IsPreorder Session R] in
/-- What is left of a session is kept also when factoring fails. -/
theorem confined_runFactoring {step : Factoring Unit}
    (hstep : Confined (Workbench.Related R) P step) : Confined R P (runFactoring step) := by
  intro s
  obtain ⟨hok, herror⟩ := hstep ⟨s, [], [], []⟩
  unfold runFactoring
  rw [bind_of_ok (get_eq_ok.mpr ⟨rfl, rfl⟩)]
  cases hrun : step.run ⟨s, [], [], []⟩ with
  | ok u bench =>
    refine ⟨fun a s' h => ?_, fun e s' h => (nomatch h)⟩
    cases h
    exact hok u bench hrun
  | error e bench =>
    refine ⟨fun a s' h => (nomatch h), fun e' s' h => ?_⟩
    cases h
    exact herror e bench hrun

theorem confined_rebuild (start : Variable) (rules : List Rule) :
    Confined R Internal (rebuild start rules) := by
  refine .ofExcept fun e he => ?_
  obtain ⟨fault, -, rfl⟩ := except_mapError_eq_error.mp he
  exact internal_grammar fault

theorem confined_leftFactor (g : Grammar) (tags : Tagging) (target : SharedPrefix)
    (hR : Session.Along R (FactorTask.Seeds ⟨g, tags, target⟩)) :
    Confined R Internal (leftFactor g tags target) := by
  unfold leftFactor
  refine (Confined.ofExcept fun _ => Grammar.requireRule_error).bind fun r _ _ _ => ?_
  cases r with
  | derivation lhs rhs => exact .throw (internal_mismatch _)
  | selection lhs alternatives =>
    have hstep := fun tag => confined_factorRoot hR internal_mismatch
      (FactorTask.looksUp_internal ⟨g, tags, target⟩) (fun v (_ : v ∈ alternatives) => trivial) tag
    exact (Confined.ofExcept fun _ => Tagging.require_error).bind fun tag _ _ _ =>
      (confined_runFactoring (hstep tag)).bind fun bench _ _ _ =>
        (confined_rebuild _ _).bind fun _ _ _ _ => .pure _

end Factoring

/-! ## The other passes -/

theorem confined_foldLeading (hR : Session.Along R seeds) (hP : ∀ m, P (.mismatch m))
    (empties : List Variable) {lhs : Variable} {tags : Tagging}
    (htag : lhs.id ∈ tags.ids ∨ P (.missingTag lhs)) (rhs : List Symbol) :
    Confined R P (foldLeading empties lhs tags rhs) := by
  -- The tag of the rule is looked up again for every variable that is dropped, and it is there
  -- again.
  induction rhs generalizing tags with
  | nil => exact .pure _
  | cons x rest ih =>
    cases x with
    | term t => exact .pure _
    | var w =>
      rw [foldLeading]
      split
      · refine (Confined.ofExcept fun e he => ?_).bind fun tag _ _ _ =>
          (Confined.ofExcept fun e he => ?_).bind fun tag' _ _ _ =>
            (Confined.modify fun s => hR.count s _).bind fun _ _ _ _ => ih ?_
        · obtain ⟨rfl, hmissing⟩ := Tagging.require_eq_error.mp he
          exact htag.resolve_left hmissing
        · obtain ⟨m, rfl⟩ := Tag.withImplicit_error he
          exact hP m
        · exact htag.imp_left fun hmem => Tagging.mem_ids_insert.mpr (Or.inr hmem)
      · exact .pure _

theorem confined_foldRules (hR : Session.Along R seeds) (hP : ∀ m, P (.mismatch m))
    (empties : List Variable) {tags : Tagging} {rules : List Rule}
    (htags : ∀ r ∈ rules, r.lhs.id ∈ tags.ids ∨ P (.missingTag r.lhs)) :
    Confined R P (foldRules empties tags rules) := by
  induction rules generalizing tags with
  | nil => exact .pure _
  | cons r rest ih =>
    rw [foldRules]
    have hrule : Confined R P (foldRule empties tags r) := by
      cases r with
      | selection lhs alternatives => exact .pure _
      | derivation lhs rhs =>
        rw [foldRule]
        split
        · exact .pure _
        · exact (confined_foldLeading hR hP empties (htags _ (List.mem_cons_self ..)) rhs).bind
            fun _ _ _ _ => .pure _
    refine hrule.bind fun folded s s' hrun => (ih fun q hq => ?_).bind fun _ _ _ _ => .pure _
    exact (htags q (List.mem_cons_of_mem _ hq)).imp_left ((foldRule_eq_ok hrun).1.tagged_iff _).mpr

theorem confined_foldRounds (hR : Session.Along R seeds) (rounds : Nat) (g : Grammar)
    (tags : Tagging) : Confined R Internal (foldRounds rounds g tags) := by
  induction rounds generalizing g tags with
  | zero => exact .pure _
  | succ rounds ih =>
    rw [foldRounds]
    split
    · exact .pure _
    · have hrules : Confined R Internal (foldRules g.emptyVariables tags g.rules) :=
        confined_foldRules hR internal_mismatch _ fun r _ => Or.inr (internal_missingTag r.lhs)
      exact hrules.bind fun folded _ _ _ => (confined_rebuild _ _).bind fun g' _ _ _ => ih _ _

theorem confined_foldEmpties (hR : Session.Along R seeds) (g : Grammar) (tags : Tagging) :
    Confined R Internal (foldEmpties g tags) :=
  confined_foldRounds hR _ _ _

omit [IsPreorder Session R] in
theorem confined_dropUnreachable (hR : Session.Along R seeds) (g : Grammar) (tags : Tagging) :
    Confined R P (dropUnreachable g tags) := by
  intro s
  refine ⟨fun a s' h => ?_, fun e s' h => (nomatch h)⟩
  cases h
  exact hR.count s _

/-- The names that bridging wants for new variables. -/
def Grammar.BridgeSeeds (g : Grammar) (seed : String) : Prop :=
  ∃ r ∈ g.rules, ∃ t, .term t ∈ r.behindLeading ∧ seed = bridgeSeed t

theorem bridgeAll_along (hR : Session.Along R seeds) {symbols : List Symbol}
    (hseeds : ∀ t, .term t ∈ symbols → seeds (bridgeSeed t)) (s : Session) :
    R s (bridgeAll s symbols).2.2 := by
  induction symbols generalizing s with
  | nil => exact refl_of R s
  | cons x rest ih =>
    have hrest := ih fun t ht => hseeds t (List.mem_cons_of_mem _ ht)
    cases x with
    | term t => exact trans_of R (hR.take s _ (hseeds t (List.mem_cons_self ..))) (hrest _)
    | var v => exact hrest s

theorem bridgeRules_along (hR : Session.Along R seeds) {rules : List Rule}
    (hseeds : ∀ r ∈ rules, ∀ t, .term t ∈ r.behindLeading → seeds (bridgeSeed t))
    (s : Session) : R s (bridgeRules s rules).2.2 := by
  induction rules generalizing s with
  | nil => exact refl_of R s
  | cons r rest ih =>
    have hrest := ih fun q hq => hseeds q (List.mem_cons_of_mem _ hq)
    have hrule : R s (bridgeRule s r).2.2 := by
      have hown := hseeds r (List.mem_cons_self ..)
      cases r with
      | selection lhs alternatives => exact refl_of R s
      | derivation lhs rhs =>
        cases rhs with
        | nil => exact refl_of R s
        | cons first rest => exact bridgeAll_along hR hown s
    exact trans_of R hrule (hrest _)

theorem confined_bridgeTerminals (g : Grammar) (tags : Tagging)
    (hR : Session.Along R g.BridgeSeeds) : Confined R Internal (bridgeTerminals g tags) := by
  intro s
  have hbridges := bridgeRules_along hR (fun r hr t ht => ⟨r, hr, t, ht, rfl⟩) s
  unfold bridgeTerminals
  rw [bind_of_ok (get_eq_ok.mpr ⟨rfl, rfl⟩)]
  generalize bridgeRules s g.rules = bridged at hbridges ⊢
  obtain ⟨rules, bridges, s₁⟩ := bridged
  simp only at hbridges ⊢
  rw [bind_of_ok (set_eq_ok (u := ⟨⟩) |>.mpr rfl)]
  -- The bridges are made by a plain function; what is left is steps of the monad.
  have hrest : Confined R Internal (if bridges.isEmpty then (pure (g, tags) : Pass Tagged) else do
      modify (·.count (fun t => { t with bridges := t.bridges + bridges.length }))
      let g ← rebuild g.start (rules ++ bridges.map Bridge.rule)
      return (g, tags.extend (bridges.map (fun b => (b.holder, .bridge))))) := by
    split
    · exact .pure _
    · exact (Confined.modify fun s => hR.count s _).bind fun _ _ _ _ =>
        (confined_rebuild _ _).bind fun _ _ _ _ => .pure _
  obtain ⟨hok, herror⟩ := hrest s₁
  exact ⟨fun a s' h => trans_of R hbridges (hok a s' h),
    fun e s' h => (herror e s' h).imp_left (trans_of R hbridges)⟩

/-- A round that is allowed fails only when its parts do not fit together. -/
theorem confined_factorRound (g : Grammar) (tags : Tagging) (target : SharedPrefix)
    (hR : Session.Along R (FactorTask.Seeds ⟨g, tags, target⟩)) :
    Confined R Internal (factorRound g tags target) := by
  unfold factorRound
  exact (confined_leftFactor g tags target hR).bind fun _ _ _ _ =>
    (confined_dropUnreachable hR _ _).bind fun _ _ _ _ => confined_foldEmpties hR _ _

end FluentGrammar
