import FluentGrammar.Proofs.Rewriting.History
import FluentGrammar.Proofs.SharedPrefix.Factoring
import FluentGrammar.Proofs.SharedPrefix.Maximality
import FluentGrammar.Proofs.SharedPrefix.Progress

/-! # Chains before and after factoring

    Factoring a discovered prefix out makes progress that can be counted in chains: of the
    chains of the root that open with the symbol, one is left, and no chain that opens in
    another way is added anywhere. It rests on discovery leaving no chain out. Whatever is
    split lies on the chains of the prefix, so an alternative that is not split has no chain
    that opens with the symbol, and neither has a full part.
-/

namespace FluentGrammar

/-! ## Counting chains -/

/-- The number of chains of a variable that open alike. The variable is given by its id. -/
def Grammar.openings (g : Grammar) (x : Option Terminal) (i : Nat) : Nat :=
  (g.chainsOpening ⟨i, ""⟩ x).length

section Counting

theorem compatible_le : Compatible (K := Nat) (· ≤ ·) where
  refl := Nat.le_refl
  trans := Nat.le_trans
  add_le_add := Nat.add_le_add
  mul_le_mul := Nat.mul_le_mul
  zero_mul := Nat.zero_mul
  add_mul := Nat.add_mul
  mul_add_le := fun a b c => Nat.le_of_eq (Nat.mul_add a b c)

theorem repeatable_le : Repeatable (K := Nat) (· ≤ ·) := by
  intro a b
  show a + b ≤ a + (b + b)
  omega

variable {g : Grammar} {v : Variable} {x : Option Terminal}

theorem length_chainsOpening_of_stop (hg : g.Valid) {lhs : Variable} {rhs : List Symbol}
    (hr : g.rule? v = some (.derivation lhs rhs)) (hstop : ∀ w rest, rhs ≠ .var w :: rest) :
    (g.chainsOpening v x).length =
      if (Rule.derivation lhs rhs).leadingTerminal? = x then 1 else 0 := by
  have hopening : g.opening ⟨v, []⟩ = (Rule.derivation lhs rhs).leadingTerminal? := by
    unfold Grammar.opening
    show (g.rule? v).bind _ = _
    rw [hr]
    rfl
  unfold Grammar.chainsOpening
  rw [chainsOf_of_stop hg hr hstop]
  by_cases hx : (Rule.derivation lhs rhs).leadingTerminal? = x
  · rw [List.filter_cons_of_pos (by rw [hopening, beq_iff_eq, hx]), if_pos hx]
    rfl
  · rw [List.filter_cons_of_neg (by rw [hopening, beq_iff_eq]; exact hx), if_neg hx]
    rfl

/-- The name of a variable does not matter for the number of its chains. -/
theorem length_chainsOpening (hg : g.Valid) (hv : v.id ∈ ruleIds g.rules) :
    (g.chainsOpening v x).length = g.openings x v.id := by
  obtain ⟨r, hr, hrv⟩ := mem_ruleIds.mp hv
  have hrule := Grammar.rule?_of_mem hg.well_formed.nodup_ruleIds hr hrv
  have hrule' := Grammar.rule?_of_mem hg.well_formed.nodup_ruleIds hr (v := ⟨v.id, ""⟩) hrv
  unfold Grammar.openings
  cases r with
  | derivation lhs rhs =>
    by_cases hled : ∃ w rest, rhs = .var w :: rest
    · obtain ⟨w, rest, rfl⟩ := hled
      rw [chainsOpening_of_leading hg hrule, chainsOpening_of_leading hg hrule',
        List.length_map, List.length_map]
    · have hstop : ∀ w rest, rhs ≠ .var w :: rest := fun w rest heq => hled ⟨w, rest, heq⟩
      rw [length_chainsOpening_of_stop hg hrule hstop,
        length_chainsOpening_of_stop hg hrule' hstop]
  | selection lhs alternatives =>
    rw [chainsOpening_of_selection hg hrule, chainsOpening_of_selection hg hrule',
      List.length_map, List.length_map]

theorem openings_of_leading (hg : g.Valid) {w : Variable} {rest : List Symbol}
    (hr : Rule.derivation v (.var w :: rest) ∈ g.rules) :
    g.openings x v.id = g.openings x w.id := by
  have hrule := Grammar.rule?_of_mem hg.well_formed.nodup_ruleIds hr (v := v) rfl
  have hw := mem_ruleIds_of_reference hg hrule (Rule.leading_mem_references v w rest)
  rw [← length_chainsOpening hg (mem_ruleIds_of_rule? hrule), ← length_chainsOpening hg hw,
    chainsOpening_of_leading hg hrule, List.length_map]

theorem openings_of_stop (hg : g.Valid) {rhs : List Symbol}
    (hr : Rule.derivation v rhs ∈ g.rules) (hstop : ∀ w rest, rhs ≠ .var w :: rest) :
    g.openings x v.id = if (Rule.derivation v rhs).leadingTerminal? = x then 1 else 0 := by
  have hrule := Grammar.rule?_of_mem hg.well_formed.nodup_ruleIds hr (v := v) rfl
  rw [← length_chainsOpening hg (mem_ruleIds_of_rule? hrule),
    length_chainsOpening_of_stop hg hrule hstop]

theorem openings_of_selection (hg : g.Valid) {alternatives : List Variable}
    (hr : Rule.selection v alternatives ∈ g.rules) :
    g.openings x v.id = choiceValue (g.openings x) alternatives := by
  have hrule := Grammar.rule?_of_mem hg.well_formed.nodup_ruleIds hr (v := v) rfl
  rw [← length_chainsOpening hg (mem_ruleIds_of_rule? hrule),
    chainsOpening_of_selection hg hrule, List.length_map, List.length_flatMap]
  unfold choiceValue
  congr 1
  exact List.map_congr_left fun u hu =>
    length_chainsOpening hg (mem_ruleIds_of_reference hg hrule hu)

/-- A rule of two grammars has no more chains in the second one, if that is so for what it
    refers to. -/
theorem openings_le_of_rule {g' : Grammar} (hg : g.Valid) (hg' : g'.Valid) {r : Rule}
    (hr : r ∈ g.rules) (hr' : r ∈ g'.rules)
    (hbelow : ∀ u ∈ r.references, g'.openings x u.id ≤ g.openings x u.id) :
    g'.openings x r.lhs.id ≤ g.openings x r.lhs.id := by
  cases r with
  | derivation lhs rhs =>
    by_cases hled : ∃ w rest, rhs = .var w :: rest
    · obtain ⟨w, rest, rfl⟩ := hled
      have hle := hbelow w (Rule.leading_mem_references lhs w rest)
      rw [← openings_of_leading hg' hr', ← openings_of_leading hg hr] at hle
      exact hle
    · have hstop : ∀ w rest, rhs ≠ .var w :: rest := fun w rest heq => hled ⟨w, rest, heq⟩
      have hsame := (openings_of_stop (x := x) hg' hr' hstop).trans
        (openings_of_stop hg hr hstop).symm
      exact Nat.le_of_eq hsame
  | selection lhs alternatives =>
    have hle := compatible_le.choiceValue_le hbelow
    rw [Rule.references_selection, ← openings_of_selection hg' hr',
      ← openings_of_selection hg hr] at hle
    exact hle

theorem Selects.openings_eq (hg : g.Valid) {vars : List Variable}
    (h : Selects g.rules v vars) : g.openings x v.id = choiceValue (g.openings x) vars := by
  rcases h with rfl | h
  · rw [choiceValue_cons, choiceValue_nil, add_zero]
  · exact openings_of_selection hg h

/-- More chains of every kind, and of one kind truly more, are more chains. -/
theorem length_chainsOf_lt {g' : Grammar} {w : Variable}
    (hle : ∀ y, (g'.chainsOpening w y).length ≤ (g.chainsOpening v y).length)
    (hlt : (g'.chainsOpening w x).length < (g.chainsOpening v x).length) :
    (g'.chainsOf w).length < (g.chainsOf v).length := by
  have hcount : ∀ (g : Grammar) (v : Variable) (y : Option Terminal),
      ((g.chainsOf v).map g.opening).count y = (g.chainsOpening v y).length := by
    intro g v y
    rw [List.count_eq_length_filter, List.filter_map, List.length_map]
    rfl
  have hsub : ((g'.chainsOf w).map g'.opening).Subperm ((g.chainsOf v).map g.opening) := by
    rw [List.subperm_ext_iff]
    intro y _
    rw [hcount, hcount]
    exact hle y
  have hlength := hsub.length_le
  rw [List.length_map, List.length_map] at hlength
  refine Nat.lt_of_le_of_ne hlength fun heq => ?_
  -- As many chains in all would have to be as many of every kind.
  have hperm := hsub.perm_of_length_le (by rw [List.length_map, List.length_map, heq])
  have hsame := hperm.count_eq x
  rw [hcount, hcount] at hsame
  omega

end Counting

/-! ## Nothing is left out below the root -/

/-- All chains of a variable that open with the symbol go on the chains of the prefix. -/
def SharedPrefix.Gathers (g : Grammar) (p : SharedPrefix) (v : Variable) : Prop :=
  ∀ c ∈ g.chainsOpening v (some p.symbol), ∃ d ∈ p.chains, c.vars <:+ d.vars

section Gathering

variable {g : Grammar} {p : SharedPrefix} {v lhs : Variable}

theorem SharedPrefix.Maximal.gathers_root (h : p.Maximal g) : p.Gathers g p.root := by
  intro c hc
  rw [← h.chains_eq] at hc
  exact ⟨c, hc, List.suffix_refl _⟩

theorem SharedPrefix.Gathers.leading (hg : g.Valid) (h : p.Gathers g v) {w : Variable}
    {rest : List Symbol} (hr : g.rule? v = some (.derivation lhs (.var w :: rest))) :
    p.Gathers g w := by
  intro c hc
  have hcons : Chain.cons v c ∈ g.chainsOpening v (some p.symbol) := by
    rw [chainsOpening_of_leading hg hr]
    exact List.mem_map_of_mem hc
  obtain ⟨d, hd, hsuffix⟩ := h _ hcons
  exact ⟨d, hd, (List.suffix_cons v _).trans hsuffix⟩

theorem cons_mem_chainsOpening (hg : g.Valid) {alternatives : List Variable}
    (hr : g.rule? v = some (.selection lhs alternatives)) {u : Variable}
    (hu : u ∈ alternatives) {x : Option Terminal} {c : Chain} (hc : c ∈ g.chainsOpening u x) :
    Chain.cons v c ∈ g.chainsOpening v x := by
  rw [chainsOpening_of_selection hg hr]
  exact List.mem_map_of_mem (List.mem_flatMap.mpr ⟨u, hu, hc⟩)

theorem SharedPrefix.Gathers.alternative (hg : g.Valid) (h : p.Gathers g v)
    {alternatives : List Variable} (hr : g.rule? v = some (.selection lhs alternatives))
    {u : Variable} (hu : u ∈ alternatives) : p.Gathers g u := by
  intro c hc
  obtain ⟨d, hd, hsuffix⟩ := h _ (cons_mem_chainsOpening hg hr hu hc)
  exact ⟨d, hd, (List.suffix_cons v _).trans hsuffix⟩

/-- An alternative that is on no chain has no chain that opens with the symbol. -/
theorem SharedPrefix.Gathers.openings_eq_zero (hg : g.Valid) (h : p.Gathers g v)
    {alternatives : List Variable} (hr : g.rule? v = some (.selection lhs alternatives))
    {u : Variable} (hu : u ∈ alternatives)
    (hoff : (targetsFrom (p.chains.flatMap (fun c => neighbours c.vars)) v).contains u = false) :
    g.openings (some p.symbol) u.id = 0 := by
  have hid := mem_ruleIds_of_reference hg hr hu
  rw [← length_chainsOpening hg hid, List.length_eq_zero_iff, List.eq_nil_iff_forall_not_mem]
  intro c hc
  obtain ⟨d, hd, hsuffix⟩ := h _ (cons_mem_chainsOpening hg hr hu hc)
  have hroot : c.root = u := root_of_mem_chainsOf hg hid (mem_chainsOpening.mp hc).1
  have hmem : u ∈ targetsFrom (p.chains.flatMap (fun c => neighbours c.vars)) v := by
    refine mem_targetsFrom.mpr ⟨v, List.mem_flatMap.mpr ⟨d, hd, ?_⟩, rfl⟩
    rw [← hroot]
    exact mem_neighbours_of_suffix hsuffix
  rw [contains_iff_mem_ids.mpr (List.mem_map_of_mem hmem)] at hoff
  cases hoff

end Gathering

section Runs

variable {task : FactorTask} {b b' : Workbench}

/-- Only variables are split all of whose chains that open with the symbol are gathered. -/
def Workbench.Gathers (task : FactorTask) (b : Workbench) : Prop :=
  ∀ v split, (v, split) ∈ b.splits → task.target.Gathers task.grammar v

/-- The runs of splitting that keep to such variables. -/
def KeepsGathering (task : FactorTask) : SplitRun := fun b v _ b' =>
  task.target.Gathers task.grammar v → b.Gathers task → b'.Gathers task

theorem Workbench.Chooses.splits_eq {vars : List Variable} {tag : Tag} {v : Variable}
    (h : b.Chooses vars tag v b') : b'.splits = b.splits := by
  cases h with
  | alone _ => rfl
  | added _ hadd => exact hadd.splits_eq

theorem Workbench.Gathers.of_splits (h : b.Gathers task) (hsplits : b'.splits = b.splits) :
    b'.Gathers task := by
  intro v split hv
  rw [hsplits] at hv
  exact h v split hv

theorem PartsRun.gathers {onChain alternatives fulls parts fulls' parts' : List Variable}
    (h : PartsRun (KeepsGathering task) onChain alternatives fulls parts b fulls' parts' b')
    (hall : ∀ u ∈ alternatives, task.target.Gathers task.grammar u) (hb : b.Gathers task) :
    b'.Gathers task := by
  induction h with
  | nil => exact hb
  | aside _ _ ih => exact ih (fun u hu => hall u (List.mem_cons_of_mem _ hu)) hb
  | through _ hs _ ih =>
    exact ih (fun u hu => hall u (List.mem_cons_of_mem _ hu))
      (hs (hall _ (List.mem_cons_self ..)) hb)
  | both _ hs _ ih =>
    exact ih (fun u hu => hall u (List.mem_cons_of_mem _ hu))
      (hs (hall _ (List.mem_cons_self ..)) hb)

theorem SplitStep.gathers (hg : task.grammar.Valid) {v : Variable} {split : Split}
    (h : SplitStep task (KeepsGathering task) b v split b')
    (hv : task.target.Gathers task.grammar v) (hb : b.Gathers task) : b'.Gathers task := by
  cases h with
  | reads _ _ _ hpart => exact hb.of_splits hpart.splits_eq
  | through _ hrule _ hbelow hpart =>
    exact (hbelow (hv.leading hg hrule) hb).of_splits hpart.splits_eq
  | both _ hrule _ hbelow hpart hfull =>
    exact (hbelow (hv.leading hg hrule) hb).of_splits
      (hfull.splits_eq.trans hpart.splits_eq)
  | choice _ hrule hparts _ _ hpart =>
    have hb₁ := hparts.gathers (fun u hu => hv.alternative hg hrule hu) hb
    exact hb₁.of_splits hpart.splits_eq
  | choices _ hrule hparts _ _ _ hpart hfull =>
    have hb₁ := hparts.gathers (fun u hu => hv.alternative hg hrule hu) hb
    exact hb₁.of_splits (hfull.splits_eq.trans hpart.splits_eq)

theorem keepsGathering_splitVariable (hg : task.grammar.Valid) :
    ∀ b v split b', runsOf (splitVariable task) b v split b' →
      KeepsGathering task b v split b' := by
  refine splitWithin_induction ?_ ?_ _
  · intro b v split _ _ hb
    exact hb
  · intro b v split b' hstep hv hb w s hw
    rcases List.mem_cons.mp hw with heq | hw
    · cases heq
      exact hv
    · exact hstep.gathers hg hv hb w s hw

/-- Factoring splits only variables below a root from which nothing is left out. -/
theorem RootRun.gathers {alternatives remaining parts : List Variable} {tag : Tag}
    {rest lhs : Variable} {b₁ b₂ : Workbench}
    (h : RootRun task alternatives tag remaining parts rest b b₁ b₂ b')
    (hg : task.grammar.Valid)
    (hrule : task.grammar.rule? task.target.root = some (.selection lhs alternatives))
    (hroot : task.target.Gathers task.grammar task.target.root) (hb : b.Gathers task) :
    b'.Gathers task := by
  have hb₁ := (h.parts_run.mono (keepsGathering_splitVariable hg)).gathers
    (fun u hu => hroot.alternative hg hrule hu) hb
  obtain ⟨_, -, hchooses⟩ := h.chooses
  obtain ⟨_, -, hstep⟩ := h.root_step
  cases hstep with
  | replaced => exact hb₁.of_splits hchooses.splits_eq
  | offered _ hlead => exact hb₁.of_splits (hlead.splits_eq.trans hchooses.splits_eq)

end Runs

/-! ## Chains of the factored grammar -/

section Factored

variable {task : FactorTask} {g' : Grammar} {rest : Variable} {x : Option Terminal}
variable {alternatives remaining parts : List Variable} {splits : List (Variable × Split)}

/-- The full parts count for no more than the alternatives, if each of them counts for no
    more than the alternative that gives it. -/
theorem Parted.fulls_le {S : Variable → Split → Prop} {a b : Nat → Nat}
    {onChain alternatives fulls parts fulls' parts' : List Variable}
    (h : Parted S onChain alternatives fulls parts fulls' parts')
    (hgives : ∀ v ∈ alternatives, ∀ y, GivesFull S onChain v y → a y.id ≤ b v.id) :
    choiceValue a fulls' ≤ choiceValue a fulls + choiceValue b alternatives := by
  have hadd : ∀ (fulls : List Variable) (y : Variable),
      choiceValue a (addUnique fulls y) ≤ choiceValue a fulls + a y.id :=
    choiceValue_addUnique_le compatible_le repeatable_le
  -- The induction is on the alternatives. Each of them pays for the full part that it gives,
  -- if that is not among the collected ones already.
  induction h with
  | nil => exact Nat.le_add_right _ _
  | @aside v rest fulls parts fulls' parts' hoff _ ih =>
    have hle := ih fun u hu => hgives u (List.mem_cons_of_mem _ hu)
    have hv := hgives v (List.mem_cons_self ..) v (Or.inl ⟨hoff, rfl⟩)
    have hfulls := hadd fulls v
    rw [choiceValue_cons]
    omega
  | @through v part rest fulls parts fulls' parts' _ _ _ ih =>
    have hle := ih fun u hu => hgives u (List.mem_cons_of_mem _ hu)
    rw [choiceValue_cons]
    omega
  | @both v full part rest fulls parts fulls' parts' hon hs _ ih =>
    have hle := ih fun u hu => hgives u (List.mem_cons_of_mem _ hu)
    have hv := hgives v (List.mem_cons_self ..) full (Or.inr ⟨hon, part, hs⟩)
    have hfulls := hadd fulls full
    rw [choiceValue_cons]
    omega

/-- The number of chains of a variable that open in a given way, those that open with the
    symbol apart. -/
def FactorTask.otherOpenings (task : FactorTask) (x : Option Terminal) (i : Nat) : Nat :=
  if x = some task.target.symbol then 0 else task.grammar.openings x i

theorem FactorTask.otherOpenings_congr {i j : Nat}
    (h : task.grammar.openings x i = task.grammar.openings x j) :
    task.otherOpenings x i = task.otherOpenings x j := by
  unfold otherOpenings
  rw [h]

theorem FactorTask.otherOpenings_of_selection (hg : task.grammar.Valid) {lhs : Variable}
    (hr : Rule.selection lhs alternatives ∈ task.grammar.rules) :
    choiceValue (task.otherOpenings x) alternatives = task.otherOpenings x lhs.id := by
  unfold otherOpenings
  by_cases hx : x = some task.target.symbol
  · simp [hx, choiceValue]
  · simp only [if_neg hx]
    exact (openings_of_selection hg hr).symm

/-- The full part of a variable has no more chains than the variable, and none that opens
    with the symbol. -/
def FullBelow (task : FactorTask) (g' : Grammar) (splits : List (Variable × Split))
    (x : Option Terminal) (i : Nat) : Prop :=
  ∀ v s, v.id = i → Recorded splits v s → ∀ full, s.full = some full →
    g'.openings x full.id ≤ task.otherOpenings x i

/-- What the alternatives of a variable that is split give has no more chains than they have,
    and no chain that opens with the symbol. -/
theorem givesFull_le (hg : task.grammar.Valid) {v lhs : Variable}
    (hgathers : task.target.Gathers task.grammar v)
    (hrule : task.grammar.rule? v = some (.selection lhs alternatives))
    (hbelow : ∀ u ∈ alternatives, g'.openings x u.id ≤ task.grammar.openings x u.id)
    (hfull : ∀ u ∈ alternatives, FullBelow task g' splits x u.id) :
    ∀ u ∈ alternatives, ∀ y, GivesFull (Recorded splits) (task.successors v) u y →
      g'.openings x y.id ≤ task.otherOpenings x u.id := by
  intro u hu y hgives
  rcases hgives with ⟨hoff, rfl⟩ | ⟨-, part, hs⟩
  · -- An alternative on no chain is kept, and none of its chains opens with the symbol.
    have hle := hbelow y hu
    unfold FactorTask.otherOpenings
    by_cases hx : x = some task.target.symbol
    · rw [if_pos hx]
      rw [hx] at hle ⊢
      rwa [hgathers.openings_eq_zero hg hrule hu hoff] at hle
    · rwa [if_neg hx]
  · exact hfull u hu u _ rfl hs y rfl

/-- The bound on full parts goes from the variables below to the variable that is split. -/
theorem SplitShape.full_le (hg : task.grammar.Valid) (hg' : g'.Valid) {r : Rule}
    (hr : r ∈ task.grammar.rules)
    (hbelow : ∀ u ∈ r.references, g'.openings x u.id ≤ task.grammar.openings x u.id)
    (hfull : ∀ u ∈ r.references, FullBelow task g' splits x u.id)
    {v : Variable} (hv : v.id = r.lhs.id) (hgathers : task.target.Gathers task.grammar v)
    {s : Split} (h : SplitShape task (Recorded splits) g'.rules v s) {full : Variable}
    (hs : s.full = some full) :
    g'.openings x full.id ≤ task.otherOpenings x r.lhs.id := by
  have hnodup := hg.well_formed.nodup_ruleIds
  -- The shape names a rule of the variable that is split, and there is just one.
  have hsame : ∀ r' ∈ task.grammar.rules, r'.lhs.id = v.id → r' = r :=
    fun r' hr' hid => eq_of_lhs_id_eq hnodup hr' hr (hid.trans hv)
  cases h with
  | reads => cases hs
  | through => cases hs
  | choice => cases hs
  | @both lhs w belowFull below _ part rest hrule hlhs hbelow' _ hfull' =>
    cases hs
    obtain rfl := hsame _ hrule hlhs
    have hw := Rule.leading_mem_references lhs w rest
    show g'.openings x full.id ≤ task.otherOpenings x lhs.id
    rw [openings_of_leading hg' hfull',
      task.otherOpenings_congr (openings_of_leading hg hrule)]
    exact hfull w hw w _ rfl hbelow' belowFull rfl
  | @choices lhs _ part alternatives fulls parts hrule hlhs hparted _ _ hselects =>
    cases hs
    obtain rfl := hsame _ hrule hlhs
    have hrule? := Grammar.rule?_of_mem hnodup hrule hlhs
    rw [task.successors_congr hlhs] at hparted
    have hle := hparted.fulls_le
      (givesFull_le hg hgathers hrule? hbelow hfull)
    rw [choiceValue_nil, zero_add, task.otherOpenings_of_selection hg hrule] at hle
    rw [hselects.openings_eq hg']
    exact hle

/-- The root has one chain that opens with the symbol, besides those of what remains. -/
theorem Rerooted.openings_eq (hg' : g'.Valid)
    (h : Rerooted task g'.rules remaining rest) :
    g'.openings x task.target.root.id =
      (if x = some task.target.symbol then 1 else 0) +
        choiceValue (g'.openings x) remaining := by
  have hread : ∀ lead : Variable,
      Rule.derivation lead [.term task.target.symbol, .var rest] ∈ g'.rules →
        g'.openings x lead.id = if x = some task.target.symbol then 1 else 0 := by
    intro lead hlead
    rw [openings_of_stop hg' hlead (fun _ _ heq => nomatch heq)]
    simp only [eq_comm (a := x)]
    rfl
  cases h with
  | replaced hremaining hroot =>
    rw [hread _ hroot, hremaining, choiceValue_nil, add_zero]
  | offered lead hlead hroot =>
    rw [openings_of_selection hg' hroot, choiceValue_cons, hread _ hlead]

/-- What remains of the root has no more chains than the root had, and none that opens with
    the symbol. -/
theorem Factored.remaining_le
    (h : Factored task g'.rules alternatives remaining parts splits rest)
    (hg : task.grammar.Valid) (hroot : task.target.Gathers task.grammar task.target.root)
    (hbelow : ∀ u ∈ alternatives, g'.openings x u.id ≤ task.grammar.openings x u.id)
    (hfull : ∀ u ∈ alternatives, FullBelow task g' splits x u.id) :
    choiceValue (g'.openings x) remaining ≤ task.otherOpenings x task.target.root.id := by
  obtain ⟨lhs, hlhs, hid⟩ := h.root
  have hrule := Grammar.rule?_of_mem hg.well_formed.nodup_ruleIds hlhs hid
  have hle := h.parted.fulls_le (givesFull_le hg hroot hrule hbelow hfull)
  rwa [choiceValue_nil, zero_add, task.otherOpenings_of_selection hg hlhs, hid] at hle

/-- No variable has more chains of any kind in the factored grammar, and no full part has
    more chains than the variable that was split. -/
theorem Factored.openings_le
    (h : Factored task g'.rules alternatives remaining parts splits rest)
    (hg : task.grammar.Valid) (hg' : g'.Valid)
    (hroot : task.target.Gathers task.grammar task.target.root)
    (hread : 1 ≤ task.grammar.openings (some task.target.symbol) task.target.root.id)
    (hgathers : ∀ v s, (v, s) ∈ splits → task.target.Gathers task.grammar v) :
    ∀ i ∈ ruleIds task.grammar.rules,
      g'.openings x i ≤ task.grammar.openings x i ∧ FullBelow task g' splits x i := by
  have hnodup := hg.well_formed.nodup_ruleIds
  -- Both bounds go up the references together: a full part is made of full parts and of whole
  -- alternatives below.
  refine hg.well_formed.reference_induction (P := fun i =>
    g'.openings x i ≤ task.grammar.openings x i ∧ FullBelow task g' splits x i) ?_
  intro r hr ih
  have hbelow : ∀ u ∈ r.references, g'.openings x u.id ≤ task.grammar.openings x u.id :=
    fun u hu => (ih u hu).1
  have hfull : ∀ u ∈ r.references, FullBelow task g' splits x u.id := fun u hu => (ih u hu).2
  constructor
  · by_cases hid : r.lhs.id = task.target.root.id
    · -- The one chain that the root is given is paid for by those that it has lost.
      obtain ⟨lhs, hlhs, hlhsid⟩ := h.root
      obtain rfl := eq_of_lhs_id_eq hnodup hr hlhs (hid.trans hlhsid.symm)
      have hremaining := h.remaining_le hg hroot hbelow hfull
      rw [hid, h.rerooted.openings_eq hg']
      unfold FactorTask.otherOpenings at hremaining
      by_cases hx : x = some task.target.symbol
      · rw [if_pos hx] at hremaining ⊢
        rw [hx] at hremaining ⊢
        omega
      · rw [if_neg hx] at hremaining ⊢
        omega
    · exact openings_le_of_rule hg hg' hr (h.kept r hr hid) hbelow
  · intro v s hv hrecorded full hs
    obtain ⟨w, hw, hwid⟩ := hrecorded
    exact (h.recorded w s hw).full_le hg hg' hr hbelow hfull (hwid.trans hv)
      (hgathers w s hw) hs

end Factored

/-! ## Progress -/

section Progress

variable {g g' : Grammar} {tags tags' : Tagging} {s s' : Session} {p : SharedPrefix}

/-- Factoring a discovered prefix out leaves one chain of the root that opens with its symbol.
    Neither the root nor any other variable has more chains that open in another way, so the
    root has fewer chains than before. -/
theorem leftFactor_progress {detect : Bool} (hg : g.Valid)
    (hfound : g.discover detect = .ok (some p))
    (h : leftFactor g tags p s = .ok (g', tags') s') :
    (∀ v, Defines g.rules v →
        g.chains v = .ok (g.chainsOf v) ∧ g'.chains v = .ok (g'.chainsOf v)) ∧
      (g'.chainsOpening p.root (some p.symbol)).length = 1 ∧
      (∀ x, x ≠ some p.symbol →
        (g'.chainsOpening p.root x).length ≤ (g.chainsOpening p.root x).length) ∧
      (∀ v, Defines g.rules v → v.id ≠ p.root.id → ∀ x,
        (g'.chainsOpening v x).length ≤ (g.chainsOpening v x).length) ∧
      (g'.chainsOf p.root).length < (g.chainsOf p.root).length := by
  have hmaximal := SharedPrefix.Maximal.of_discover hg hfound
  obtain ⟨lhs, alternatives, tag, bench, hrule, -, hstep, hof, -, -⟩ := leftFactor_eq_ok h
  obtain ⟨remaining, parts, rest, b₁, b₂, hrun⟩ := factorRoot_run hstep
  have hg' := Grammar.valid_of_ofRules hof
  have hfinished := hrun.finished (Workbench.sound_empty ⟨g, tags, p⟩ s)
  have hfactored := (hfinished.factored hrule).of_rules
    fun _ hr => (Grammar.mem_rules_of_ofRules hof).mpr hr
  have hgathers := hrun.gathers hg hrule hmaximal.gathers_root fun _ _ hv => nomatch hv
  have hid : p.root.id ∈ ruleIds g.rules := mem_ruleIds_of_rule? hrule
  have htwo := hmaximal.two_le
  rw [hmaximal.chains_eq, length_chainsOpening hg hid] at htwo
  -- By induction along the references, no rule has more chains of any opening than before.
  have hle : ∀ x, ∀ i ∈ ruleIds g.rules,
      g'.openings x i ≤ g.openings x i ∧ FullBelow ⟨g, tags, p⟩ g' bench.splits x i :=
    fun x => hfactored.openings_le hg hg' hmaximal.gathers_root (Nat.le_of_lt htwo) hgathers
  have hids : ∀ i ∈ ruleIds g.rules, i ∈ ruleIds g'.rules :=
    fun _ hi => hfinished.mem_ruleIds hof hi
  have hlengths : ∀ v, v.id ∈ ruleIds g.rules → ∀ x,
      (g'.chainsOpening v x).length ≤ (g.chainsOpening v x).length := by
    intro v hv x
    rw [length_chainsOpening hg hv, length_chainsOpening hg' (hids _ hv)]
    exact (hle x v.id hv).1
  -- What is left of the alternatives at the root opens with other symbols only, so the one chain
  -- through the prefix remains.
  have hone : (g'.chainsOpening p.root (some p.symbol)).length = 1 := by
    have hbelow := fun (u : Variable) (hu : u ∈ alternatives) =>
      hle (some p.symbol) u.id (mem_ruleIds_of_reference hg hrule hu)
    have hremaining := hfactored.remaining_le hg hmaximal.gathers_root
      (fun u hu => (hbelow u hu).1) fun u hu => (hbelow u hu).2
    have hroot := hfactored.rerooted.openings_eq (x := some p.symbol) hg'
    rw [FactorTask.otherOpenings, if_pos rfl] at hremaining
    rw [if_pos rfl] at hroot
    rw [length_chainsOpening hg' (hids _ hid)]
    exact hroot.trans (by omega)
  refine ⟨fun v hv => ?_, hone, fun x _ => hlengths p.root hid x, fun v hv _ => hlengths v
    (defines_iff_mem_ruleIds.mp hv), length_chainsOf_lt (x := some p.symbol)
      (hlengths p.root hid) ?_⟩
  · have hv := defines_iff_mem_ruleIds.mp hv
    exact ⟨chains_eq_ok hg hv, chains_eq_ok hg' (hids _ hv)⟩
  · rw [hone, length_chainsOpening hg hid]
    exact htwo

/-- What factoring makes of `sharedCall`. Nothing leads to the old alternatives any more. -/
def sharedCallOnce : Grammar :=
  ⟨⟨0, "S"⟩,
    [.derivation ⟨1, "A"⟩ [.term ⟨"x", [countParameter]⟩],
     .derivation ⟨2, "B"⟩ [.term ⟨"x", [countParameter]⟩, .var ⟨3, "C"⟩],
     .derivation ⟨3, "C"⟩ [.term ⟨"y", []⟩],
     .derivation ⟨4, "Partial_A"⟩ [],
     .derivation ⟨5, "Partial_B"⟩ [.var ⟨3, "C"⟩],
     .derivation ⟨0, "S"⟩ [.term ⟨"x", [countParameter]⟩, .var ⟨6, "S_x_K"⟩],
     .selection ⟨6, "S_x_K"⟩ [⟨4, "Partial_A"⟩, ⟨5, "Partial_B"⟩]]⟩

/-- Of the two chains that share a terminal, one is left. -/
theorem sharedCall_progress :
    sharedCall.Valid ∧ sharedCall.discover true = .ok (some sharedCallPrefix) ∧
      ∃ tags' s', leftFactor sharedCall (.full sharedCall) sharedCallPrefix
          (.ofGrammar sharedCall) = .ok (sharedCallOnce, tags') s' ∧
        (sharedCallOnce.chainsOpening ⟨0, "S"⟩ (some ⟨"x", [countParameter]⟩)).length = 1 ∧
          (sharedCallOnce.chainsOf ⟨0, "S"⟩).length < (sharedCall.chainsOf ⟨0, "S"⟩).length := by
  have hfound : sharedCall.discover true = .ok (some sharedCallPrefix) := by decide +kernel
  have hrun : ∃ tags' s', leftFactor sharedCall (.full sharedCall) sharedCallPrefix
      (.ofGrammar sharedCall) = .ok (sharedCallOnce, tags') s' := ⟨_, _, by cbv⟩
  obtain ⟨tags', s', hrun⟩ := hrun
  obtain ⟨-, hone, -, -, hlt⟩ := leftFactor_progress sharedCall_valid hfound hrun
  exact ⟨sharedCall_valid, hfound, tags', s', hrun, hone, hlt⟩

end Progress

end FluentGrammar
