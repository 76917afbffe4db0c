import FluentGrammar.Proofs.Chain.Separation
import FluentGrammar.Proofs.SharedPrefix.Runs

/-! # Where variables come from

    Every variable that splitting makes comes from one variable that it was split from. Its
    rule is what is left of the rule of that variable, either behind the shared terminal or
    off the chains, and its tag is made of the tag of that variable. A part of a variable need
    not have been made for it: a choice that is left with one alternative is that alternative.
    But then selections alone lead from the variable to the one that the part was made for.
-/

namespace FluentGrammar

/-! ## Made variables -/

/-- A variable that splitting has made: the variable it was split from, its rule and its
    tag. -/
structure Made where
  source : Variable
  rule : Rule
  tag : Tag

/-- The id of a made variable. -/
def Made.id (m : Made) : Nat :=
  m.rule.lhs.id

/-- What is made for a choice among variables: nothing, if there is but one of them. -/
inductive Made.ForChoice (v : Variable) (vars : List Variable) (tag : Tag) (y : Variable) :
    List Made → Prop where
  | alone (hvars : vars = [y]) : Made.ForChoice v vars tag y []
  | added (hvars : vars.length ≠ 1) : Made.ForChoice v vars tag y [⟨v, .selection y vars, tag⟩]

/-- Where a variable comes from: from the one that it was split from, or from itself if it
    has not been made. Variables are given by their ids. -/
def sourceOf (made : List Made) (i : Nat) : Nat :=
  ((made.find? (fun m => m.id == i)).map (·.source.id)).getD i

section Sources

variable {made more : List Made} {i : Nat}

theorem find?_made_eq_none (hi : i ∉ made.map Made.id) :
    made.find? (fun m => m.id == i) = none := by
  rw [List.find?_eq_none]
  intro m hm heq
  exact hi (List.mem_map.mpr ⟨m, hm, by simpa using heq⟩)

/-- No two made variables have the same id, so each is found by its own. -/
theorem find?_made_eq_some (hnodup : (made.map Made.id).Nodup) {m : Made} (hm : m ∈ made) :
    made.find? (fun q => q.id == m.id) = some m := by
  have hsome : (made.find? (fun q => q.id == m.id)).isSome = true :=
    List.find?_isSome.mpr ⟨m, hm, by simp⟩
  obtain ⟨q, hq⟩ := Option.isSome_iff_exists.mp hsome
  have hid : q.id = m.id := by simpa using List.find?_some hq
  obtain rfl := List.inj_on_of_nodup_map hnodup (List.mem_of_find?_eq_some hq) hm hid
  exact hq

theorem sourceOf_of_not_mem (hi : i ∉ made.map Made.id) : sourceOf made i = i := by
  unfold sourceOf
  rw [find?_made_eq_none hi]
  rfl

theorem sourceOf_append_of_not_mem (hi : i ∉ more.map Made.id) :
    sourceOf (made ++ more) i = sourceOf made i := by
  unfold sourceOf
  rw [List.find?_append, find?_made_eq_none hi, Option.or_none]

theorem sourceOf_append_of_mem (hi : i ∈ made.map Made.id) :
    sourceOf (made ++ more) i = sourceOf made i := by
  obtain ⟨m, hm, rfl⟩ := List.mem_map.mp hi
  have hsome : (made.find? (fun q => q.id == m.id)).isSome = true :=
    List.find?_isSome.mpr ⟨m, hm, by simp⟩
  obtain ⟨q, hq⟩ := Option.isSome_iff_exists.mp hsome
  unfold sourceOf
  rw [List.find?_append, hq, Option.some_or]

theorem sourceOf_of_mem (hnodup : (made.map Made.id).Nodup) {m : Made} (hm : m ∈ made) :
    sourceOf made m.id = m.source.id := by
  unfold sourceOf
  rw [find?_made_eq_some hnodup hm]
  rfl

end Sources

/-! ## What rules and tags are made of -/

/-- What is left of a rule behind the shared terminal. -/
inductive PartRule (task : FactorTask) (S : Variable → Split → Prop) : Rule → Rule → Prop where
  | reads {lhs part : Variable} {rest : List Symbol} :
      PartRule task S (.derivation lhs (.term task.target.symbol :: rest))
        (.derivation part rest)
  | leading {lhs w part : Variable} {rest : List Symbol} {s : Split} (hs : S w s) :
      PartRule task S (.derivation lhs (.var w :: rest))
        (.derivation part (.var s.part :: rest))
  | choice {lhs part : Variable} {alternatives fulls parts : List Variable}
      (hparted : Parted S (task.successors lhs) alternatives [] [] fulls parts)
      (htwo : 2 ≤ parts.length) :
      PartRule task S (.selection lhs alternatives) (.selection part parts)

/-- What is left of a rule off the chains. -/
inductive FullRule (task : FactorTask) (S : Variable → Split → Prop) : Rule → Rule → Prop where
  | leading {lhs w v full : Variable} {rest : List Symbol} {s : Split} (hs : S w s)
      (hfull : s.full = some full) :
      FullRule task S (.derivation lhs (.var w :: rest)) (.derivation v (.var full :: rest))
  | choice {lhs v : Variable} {alternatives fulls parts : List Variable}
      (hparted : Parted S (task.successors lhs) alternatives [] [] fulls parts)
      (htwo : 2 ≤ fulls.length) :
      FullRule task S (.selection lhs alternatives) (.selection v fulls)

/-- A made variable is the partial or the full part of the variable it was split from, and
    its rule and tag say so. -/
inductive Made.Explained (task : FactorTask) (S : Variable → Split → Prop) (m : Made) :
    Prop where
  | part {r : Rule} {tag : Tag} {s : Split} (hrule : task.grammar.rule? m.source = some r)
      (htag : task.tags.require m.source = .ok tag) (hs : S m.source s)
      (hlhs : s.part = m.rule.lhs)
      (hmade : tag.withComponents task.target.symbol.params r.shape = .ok m.tag)
      (hbody : PartRule task S r m.rule) : m.Explained task S
  | full {r : Rule} {s : Split} (hrule : task.grammar.rule? m.source = some r)
      (htag : task.tags.require m.source = .ok m.tag) (hs : S m.source s)
      (hlhs : s.full = some m.rule.lhs) (hbody : FullRule task S r m.rule) :
      m.Explained task S

section Mono

variable {task : FactorTask} {S S' : Variable → Split → Prop}

theorem PartRule.mono (hS : ∀ v s, S v s → S' v s) {r r' : Rule} (h : PartRule task S r r') :
    PartRule task S' r r' := by
  cases h with
  | reads => exact .reads
  | leading hs => exact .leading (hS _ _ hs)
  | choice hparted htwo => exact .choice (hparted.mono hS) htwo

theorem FullRule.mono (hS : ∀ v s, S v s → S' v s) {r r' : Rule} (h : FullRule task S r r') :
    FullRule task S' r r' := by
  cases h with
  | leading hs hfull => exact .leading (hS _ _ hs) hfull
  | choice hparted htwo => exact .choice (hparted.mono hS) htwo

theorem Made.Explained.mono (hS : ∀ v s, S v s → S' v s) {m : Made}
    (h : m.Explained task S) : m.Explained task S' := by
  cases h with
  | part hrule htag hs hlhs hmade hbody =>
    exact .part hrule htag (hS _ _ hs) hlhs hmade (hbody.mono hS)
  | full hrule htag hs hlhs hbody => exact .full hrule htag (hS _ _ hs) hlhs (hbody.mono hS)

end Mono

/-! ## What alternatives are parted into -/

section Parted

variable {S : Variable → Split → Prop}
variable {onChain alternatives fulls parts fulls' parts' : List Variable}

theorem mem_addUnique {vars : List Variable} {v y : Variable} (h : y ∈ addUnique vars v) :
    y ∈ vars ∨ y = v := by
  unfold addUnique at h
  split at h
  · exact Or.inl h
  · exact (List.mem_append.mp h).imp_right List.mem_singleton.mp

theorem distinct_addUnique {vars : List Variable} (h : Distinct vars) (v : Variable) :
    Distinct (addUnique vars v) := by
  unfold addUnique
  split
  · exact h
  · rename_i hv
    rw [contains_iff_mem_ids] at hv
    refine List.pairwise_append.mpr ⟨h, List.pairwise_singleton _ _, ?_⟩
    intro u hu w hw hid
    rw [List.mem_singleton.mp hw] at hid
    exact hv (List.mem_map.mpr ⟨u, hu, hid⟩)

/-- Every full part is given by an alternative. -/
theorem Parted.mem_fulls (h : Parted S onChain alternatives fulls parts fulls' parts')
    {y : Variable} (hy : y ∈ fulls') :
    y ∈ fulls ∨ ∃ u ∈ alternatives, GivesFull S onChain u y := by
  induction h with
  | nil => exact Or.inl hy
  | @aside v rest _ _ _ _ hv _ ih =>
    rcases ih hy with hy | ⟨u, hu, hgives⟩
    · rcases mem_addUnique hy with hy | rfl
      · exact Or.inl hy
      · exact Or.inr ⟨y, List.mem_cons_self .., Or.inl ⟨hv, rfl⟩⟩
    · exact Or.inr ⟨u, List.mem_cons_of_mem _ hu, hgives⟩
  | through hv hs _ ih =>
    rcases ih hy with hy | ⟨u, hu, hgives⟩
    · exact Or.inl hy
    · exact Or.inr ⟨u, List.mem_cons_of_mem _ hu, hgives⟩
  | @both v full part rest _ _ _ _ hv hs _ ih =>
    rcases ih hy with hy | ⟨u, hu, hgives⟩
    · rcases mem_addUnique hy with hy | rfl
      · exact Or.inl hy
      · exact Or.inr ⟨v, List.mem_cons_self .., Or.inr ⟨hv, part, hs⟩⟩
    · exact Or.inr ⟨u, List.mem_cons_of_mem _ hu, hgives⟩

/-- Every partial part is given by an alternative. -/
theorem Parted.mem_parts (h : Parted S onChain alternatives fulls parts fulls' parts')
    {y : Variable} (hy : y ∈ parts') :
    y ∈ parts ∨ ∃ u ∈ alternatives, GivesPart S onChain u y := by
  induction h with
  | nil => exact Or.inl hy
  | aside hv _ ih =>
    rcases ih hy with hy | ⟨u, hu, hgives⟩
    · exact Or.inl hy
    · exact Or.inr ⟨u, List.mem_cons_of_mem _ hu, hgives⟩
  | @through v part rest _ _ _ _ hv hs _ ih =>
    rcases ih hy with hy | ⟨u, hu, hgives⟩
    · rcases mem_addUnique hy with hy | rfl
      · exact Or.inl hy
      · exact Or.inr ⟨v, List.mem_cons_self .., hv, none, hs⟩
    · exact Or.inr ⟨u, List.mem_cons_of_mem _ hu, hgives⟩
  | @both v full part rest _ _ _ _ hv hs _ ih =>
    rcases ih hy with hy | ⟨u, hu, hgives⟩
    · rcases mem_addUnique hy with hy | rfl
      · exact Or.inl hy
      · exact Or.inr ⟨v, List.mem_cons_self .., hv, some full, hs⟩
    · exact Or.inr ⟨u, List.mem_cons_of_mem _ hu, hgives⟩

/-- No part is listed twice. -/
theorem Parted.distinct (h : Parted S onChain alternatives fulls parts fulls' parts')
    (hfulls : Distinct fulls) (hparts : Distinct parts) : Distinct fulls' ∧ Distinct parts' := by
  induction h with
  | nil => exact ⟨hfulls, hparts⟩
  | aside hv _ ih => exact ih (distinct_addUnique hfulls _) hparts
  | through hv hs _ ih => exact ih hfulls (distinct_addUnique hparts _)
  | both hv hs _ ih => exact ih (distinct_addUnique hfulls _) (distinct_addUnique hparts _)

end Parted

/-! ## Traced workbenches -/

/-- A part that is given for a variable: it has a rule, and selections alone lead from the
    variable to where the part comes from. -/
structure GivenFor (task : FactorTask) (made : List Made) (v y : Variable) : Prop where
  ruled : y.id ∈ ruleIds task.grammar.rules ∨ y.id ∈ made.map Made.id
  stem : task.grammar.Stem v.id (sourceOf made y.id)

/-- A recorded split: the variable is on the way down from the root, and both parts are given
    for it. -/
structure Placed (task : FactorTask) (made : List Made) (v : Variable) (s : Split) : Prop where
  below : Relation.TransGen task.grammar.Passes task.target.root.id v.id
  part : GivenFor task made v s.part
  part_made : s.part.id ∈ made.map Made.id
  full : ∀ full, s.full = some full → GivenFor task made v full

/-- The rules and tags of a workbench are those of made variables, whose ids have been taken
    one after the other. -/
structure Workbench.Lists (s : Session) (made : List Made) (b : Workbench) : Prop where
  rules_eq : b.rules = made.map (·.rule)
  tags_eq : b.tags = made.map (fun m => (m.rule.lhs, m.tag))
  ids_eq : made.map Made.id = List.range' s.ids.issued made.length
  issued_eq : b.session.ids.issued = s.ids.issued + made.length

/-- A workbench all variables of which are explained by its splits. -/
structure Workbench.Traced (task : FactorTask) (s : Session) (made : List Made)
    (b : Workbench) : Prop extends b.Lists s made where
  explained : ∀ m ∈ made, m.Explained task (Recorded b.splits)
  placed : ∀ v split, (v, split) ∈ b.splits → Placed task made v split

theorem Workbench.traced_empty (task : FactorTask) (s : Session) :
    Workbench.Traced task s [] ⟨s, [], [], []⟩ where
  rules_eq := rfl
  tags_eq := rfl
  ids_eq := rfl
  issued_eq := rfl
  explained := fun _ h => nomatch h
  placed := fun _ _ h => nomatch h

section Tracing

variable {task : FactorTask} {s : Session} {made more : List Made} {b b₁ b' : Workbench}

theorem Workbench.Lists.nodup (h : b.Lists s made) : (made.map Made.id).Nodup := by
  rw [h.ids_eq]
  exact List.nodup_range'

theorem Workbench.Lists.issued_le (h : b.Lists s made) {i : Nat} (hi : i ∈ made.map Made.id) :
    s.ids.issued ≤ i ∧ i < b.session.ids.issued := by
  rw [h.ids_eq, List.mem_range'_1] at hi
  rw [h.issued_eq]
  exact hi

theorem Workbench.Lists.add (h : b.Lists s made) {rule : Rule} {tag : Tag}
    (hadd : b.Adds rule tag b') (v : Variable) : b'.Lists s (made ++ [⟨v, rule, tag⟩]) where
  rules_eq := by rw [hadd.rules_eq, h.rules_eq, List.map_append]; rfl
  tags_eq := by rw [hadd.tags_eq, h.tags_eq, List.map_append]; rfl
  ids_eq := by
    have hid : Made.id ⟨v, rule, tag⟩ = s.ids.issued + made.length :=
      hadd.id_eq.trans h.issued_eq
    rw [List.map_append, h.ids_eq, List.length_append, List.length_singleton,
      List.range'_1_concat, List.map_singleton, hid]
  issued_eq := by
    rw [hadd.issued_eq, h.issued_eq, List.length_append, List.length_singleton, Nat.add_assoc]

theorem Workbench.Lists.choose (h : b.Lists s made) {vars : List Variable} {tag : Tag}
    {y : Variable} (hchoose : b.Chooses vars tag y b') (v : Variable) :
    b'.splits = b.splits ∧
      ∃ more, b'.Lists s (made ++ more) ∧ Made.ForChoice v vars tag y more := by
  cases hchoose with
  | alone hvars =>
    refine ⟨rfl, [], ?_, .alone hvars⟩
    rw [List.append_nil]
    exact h
  | added hvars hadd => exact ⟨hadd.splits_eq, _, h.add hadd v, .added hvars⟩

/-- All ids of the grammar have been taken before. -/
def FactorTask.Before (task : FactorTask) (s : Session) : Prop :=
  ∀ i ∈ ruleIds task.grammar.rules, i < s.ids.issued

theorem Workbench.Lists.not_mem (h : b.Lists s made) (hbefore : task.Before s) {i : Nat}
    (hi : i ∈ ruleIds task.grammar.rules) : i ∉ made.map Made.id := by
  intro hmem
  have hlt := hbefore i hi
  have hle := (h.issued_le hmem).1
  omega

theorem GivenFor.mono (h : b.Lists s (made ++ more)) (hbefore : task.Before s) {v y : Variable}
    (hy : GivenFor task made v y) : GivenFor task (made ++ more) v y := by
  obtain ⟨hruled, hstem⟩ := hy
  rcases hruled with hold | hmade
  · have hnot := h.not_mem hbefore hold
    rw [List.map_append, List.mem_append, not_or] at hnot
    refine ⟨Or.inl hold, ?_⟩
    rw [sourceOf_append_of_not_mem hnot.2]
    exact hstem
  · refine ⟨Or.inr ?_, ?_⟩
    · rw [List.map_append]
      exact List.mem_append_left _ hmade
    · rw [sourceOf_append_of_mem hmade]
      exact hstem

theorem Placed.mono (h : b.Lists s (made ++ more)) (hbefore : task.Before s) {v : Variable}
    {split : Split} (hv : Placed task made v split) : Placed task (made ++ more) v split where
  below := hv.below
  part := hv.part.mono h hbefore
  part_made := by
    rw [List.map_append]
    exact List.mem_append_left _ hv.part_made
  full := fun full hfull => (hv.full full hfull).mono h hbefore

/-- A part that has been made for a variable is given for it. -/
theorem Workbench.Lists.given (h : b.Lists s made) {m : Made} (hm : m ∈ made) {v y : Variable}
    (hy : y = m.rule.lhs) (hv : v.id = m.source.id) : GivenFor task made v y := by
  subst hy
  refine ⟨Or.inr (List.mem_map_of_mem hm), ?_⟩
  rw [show m.rule.lhs.id = m.id from rfl, sourceOf_of_mem h.nodup hm, hv]
  exact .refl

/-- What has been made for a split of a variable is explained when the split is recorded. -/
theorem Workbench.Traced.record (h : b.Traced task s made) (hbefore : task.Before s)
    (hlists : b'.Lists s (made ++ more)) (hsplits : b'.splits = b.splits) {v : Variable}
    {split : Split}
    (hmore : ∀ m ∈ more, m.Explained task (Recorded ((v, split) :: b.splits)))
    (hplaced : Placed task (made ++ more) v split) :
    Workbench.Traced task s (made ++ more)
      { b' with splits := (v, split) :: b'.splits } where
  rules_eq := hlists.rules_eq
  tags_eq := hlists.tags_eq
  ids_eq := hlists.ids_eq
  issued_eq := hlists.issued_eq
  explained := by
    intro m hm
    show m.Explained task (Recorded ((v, split) :: b'.splits))
    rw [hsplits]
    -- No record is ever dropped, so what has been explained stays explained.
    rcases List.mem_append.mp hm with hm | hm
    · exact (h.explained m hm).mono (Recorded.mono (List.subset_cons_self ..))
    · exact hmore m hm
  placed := by
    intro w other hw
    have hw : (w, other) ∈ (v, split) :: b.splits := hsplits ▸ hw
    rcases List.mem_cons.mp hw with heq | hw
    · cases heq
      exact hplaced
    · exact (h.placed w other hw).mono hlists hbefore

/-- With what was made for the runs below and for the variable itself, the split of the
    variable is recorded. -/
theorem Workbench.Traced.conclude {below : List Made} (hsub : b.splits ⊆ b₁.splits)
    (h : b₁.Traced task s (made ++ below)) (hbefore : task.Before s)
    (hlists : b'.Lists s (made ++ below ++ more)) (hsplits : b'.splits = b₁.splits)
    {v : Variable} {split : Split}
    (hmore : ∀ m ∈ more, m.Explained task (Recorded ((v, split) :: b₁.splits)))
    (hplaced : Placed task (made ++ below ++ more) v split) :
    ∃ added, Workbench.Traced task s (made ++ added)
      { b' with splits := (v, split) :: b'.splits } ∧
        b.splits ⊆ (v, split) :: b'.splits ∧ Recorded ((v, split) :: b'.splits) v split := by
  refine ⟨below ++ more, ?_, ?_, v, List.mem_cons_self .., rfl⟩
  · rw [← List.append_assoc]
    exact h.record hbefore hlists hsplits hmore hplaced
  · rw [hsplits]
    exact List.subset_cons_of_subset _ hsub

/-! ## What is given for an alternative -/

theorem Workbench.Lists.given_self (h : b.Lists s made) (hbefore : task.Before s) {u : Variable}
    (hu : u.id ∈ ruleIds task.grammar.rules) : GivenFor task made u u := by
  refine ⟨Or.inl hu, ?_⟩
  rw [sourceOf_of_not_mem (h.not_mem hbefore hu)]
  exact .refl

theorem Workbench.Traced.given_full (h : b.Traced task s made) (hbefore : task.Before s)
    {onChain : List Variable} {u y : Variable} (hu : u.id ∈ ruleIds task.grammar.rules)
    (hy : GivesFull (Recorded b.splits) onChain u y) : GivenFor task made u y := by
  rcases hy with ⟨-, rfl⟩ | ⟨-, part, w, hw, hid⟩
  · exact h.given_self hbefore hu
  · obtain ⟨hruled, hstem⟩ := (h.placed w _ hw).full y rfl
    rw [hid] at hstem
    exact ⟨hruled, hstem⟩

theorem Workbench.Traced.given_part (h : b.Traced task s made) {onChain : List Variable}
    {u y : Variable} (hy : GivesPart (Recorded b.splits) onChain u y) :
    GivenFor task made u y ∧ y.id ∈ made.map Made.id := by
  obtain ⟨-, full, w, hw, hid⟩ := hy
  have hplaced := h.placed w _ hw
  obtain ⟨hruled, hstem⟩ := hplaced.part
  rw [hid] at hstem
  exact ⟨⟨hruled, hstem⟩, hplaced.part_made⟩

/-- What is given for an alternative is given for the selection. -/
theorem GivenFor.offered {v lhs u y : Variable} {alternatives : List Variable}
    (hrule : task.grammar.rule? v = some (.selection lhs alternatives))
    (hu : u ∈ alternatives) (hy : GivenFor task made u y) : GivenFor task made v y := by
  have hlhs : lhs.id = v.id := Grammar.lhs_of_rule? hrule
  refine ⟨hy.ruled, .head ?_ hy.stem⟩
  exact ⟨lhs, alternatives, Grammar.mem_of_rule? hrule, hlhs, u, hu, rfl⟩

/-- A variable that has just been made is given for the variable it was split from. -/
theorem Workbench.Lists.given_new (h : b.Lists s (made ++ more)) (task : FactorTask)
    {v : Variable} {rule : Rule} {tag : Tag} (hm : ⟨v, rule, tag⟩ ∈ more) :
    GivenFor task (made ++ more) v rule.lhs ∧ rule.lhs.id ∈ (made ++ more).map Made.id := by
  have hmade : (⟨v, rule, tag⟩ : Made) ∈ made ++ more := List.mem_append_right _ hm
  exact ⟨h.given hmade rfl rfl, List.mem_map_of_mem hmade⟩

/-- The case of a variable off which nothing but its partial part is split. -/
theorem Workbench.Traced.conclude_part {below : List Made} (hsub : b.splits ⊆ b₁.splits)
    (h : b₁.Traced task s (made ++ below)) (hbefore : task.Before s) {rule : Rule} {tag : Tag}
    (hadd : b₁.Adds rule tag b') {v : Variable}
    (hbelow : Relation.TransGen task.grammar.Passes task.target.root.id v.id)
    (hexplained : Made.Explained task (Recorded ((v, ⟨none, rule.lhs⟩) :: b₁.splits))
      ⟨v, rule, tag⟩) :
    ∃ added, Workbench.Traced task s (made ++ added)
      { b' with splits := (v, ⟨none, rule.lhs⟩) :: b'.splits } ∧
        b.splits ⊆ (v, ⟨none, rule.lhs⟩) :: b'.splits ∧
          Recorded ((v, ⟨none, rule.lhs⟩) :: b'.splits) v ⟨none, rule.lhs⟩ := by
  have hlists := h.add hadd v
  have hnew := hlists.given_new task (List.mem_singleton.mpr rfl)
  exact h.conclude hsub hbefore hlists hadd.splits_eq (List.forall_mem_singleton.mpr hexplained)
    ⟨hbelow, hnew.1, hnew.2, fun _ hfull => nomatch hfull⟩

section Choices

variable {v y : Variable} {vars : List Variable} {tag : Tag}

/-- What stands for a choice is given for a variable if all that it chooses from is. -/
theorem Made.ForChoice.given (hmore : Made.ForChoice v vars tag y more)
    (h : b'.Lists s (made ++ more)) (hvars : ∀ u ∈ vars, GivenFor task made v u) :
    GivenFor task (made ++ more) v y := by
  cases hmore with
  | alone hy =>
    rw [List.append_nil]
    exact hvars y (hy ▸ List.mem_singleton.mpr rfl)
  | added => exact (h.given_new task (List.mem_singleton.mpr rfl)).1

theorem Made.ForChoice.mem_ids (hmore : Made.ForChoice v vars tag y more)
    (hvars : ∀ u ∈ vars, u.id ∈ made.map Made.id) : y.id ∈ (made ++ more).map Made.id := by
  rw [List.map_append, List.mem_append]
  cases hmore with
  | alone hy => exact Or.inl (hvars y (hy ▸ List.mem_singleton.mpr rfl))
  | added => exact Or.inr (List.mem_singleton.mpr rfl)

theorem two_le_length {α : Type} {xs : List α} (hne : xs ≠ []) (hone : xs.length ≠ 1) :
    2 ≤ xs.length := by
  have hpos := List.length_pos_iff.mpr hne
  omega

variable {S : Variable → Split → Prop} {lhs : Variable} {split : Split}
variable {alternatives fulls parts : List Variable}

/-- What is made for the partial parts that a selection gives is explained by its split. -/
theorem Made.ForChoice.explained_part {partTag : Tag}
    (hmore : Made.ForChoice v parts partTag split.part more)
    (hrule : task.grammar.rule? v = some (.selection lhs alternatives))
    (htag : task.tags.require v = .ok tag) (hsplit : S v split)
    (hpartTag : tag.withComponents task.target.symbol.params .selection = .ok partTag)
    (hparted : Parted S (task.successors lhs) alternatives [] [] fulls parts)
    (hne : parts ≠ []) : ∀ m ∈ more, m.Explained task S := by
  cases hmore with
  | alone => exact fun _ hm => nomatch hm
  | added hone =>
    refine List.forall_mem_singleton.mpr ?_
    exact .part hrule htag hsplit rfl hpartTag (.choice hparted (two_le_length hne hone))

/-- What is made for the full parts is explained by the split as well. -/
theorem Made.ForChoice.explained_full {full : Variable}
    (hmore : Made.ForChoice v fulls tag full more)
    (hrule : task.grammar.rule? v = some (.selection lhs alternatives))
    (htag : task.tags.require v = .ok tag) (hsplit : S v split) (hfull : split.full = some full)
    (hparted : Parted S (task.successors lhs) alternatives [] [] fulls parts)
    (hne : fulls ≠ []) : ∀ m ∈ more, m.Explained task S := by
  cases hmore with
  | alone => exact fun _ hm => nomatch hm
  | added hone =>
    refine List.forall_mem_singleton.mpr ?_
    exact .full hrule htag hsplit hfull (.choice hparted (two_le_length hne hone))

end Choices

/-! ## Runs of splitting -/

/-- The runs that keep a workbench traced, for variables on the way down from the root. -/
def Traces (task : FactorTask) (s : Session) : SplitRun := fun b v split b' =>
  Relation.TransGen task.grammar.Passes task.target.root.id v.id →
    ∀ made, b.Traced task s made → ∃ more, b'.Traced task s (made ++ more) ∧
      b.splits ⊆ b'.splits ∧ Recorded b'.splits v split

theorem PartsRun.traced {onChain alternatives fulls parts fulls' parts' : List Variable}
    (h : PartsRun (Traces task s) onChain alternatives fulls parts b fulls' parts' b')
    (hbelow : ∀ u ∈ alternatives,
      Relation.TransGen task.grammar.Passes task.target.root.id u.id)
    (hb : b.Traced task s made) :
    ∃ more, b'.Traced task s (made ++ more) ∧ b.splits ⊆ b'.splits ∧
      Parted (Recorded b'.splits) onChain alternatives fulls parts fulls' parts' := by
  have hrest : ∀ {v : Variable} {rest : List Variable},
      (∀ u ∈ v :: rest, Relation.TransGen task.grammar.Passes task.target.root.id u.id) →
        ∀ u ∈ rest, Relation.TransGen task.grammar.Passes task.target.root.id u.id :=
    fun hall u hu => hall u (List.mem_cons_of_mem _ hu)
  -- What is made for one alternative comes before what is made for the rest.
  induction h generalizing made with
  | nil => exact ⟨[], by rwa [List.append_nil], List.Subset.refl _, .nil⟩
  | aside hv _ ih =>
    obtain ⟨more, hb', hsub, hparted⟩ := ih (hrest hbelow) hb
    exact ⟨more, hb', hsub, .aside hv hparted⟩
  | through hv hs _ ih =>
    obtain ⟨more₁, hb₁, hsub₁, hrecorded⟩ := hs (hbelow _ (List.mem_cons_self ..)) _ hb
    obtain ⟨more₂, hb', hsub, hparted⟩ := ih (hrest hbelow) hb₁
    rw [List.append_assoc] at hb'
    exact ⟨more₁ ++ more₂, hb', List.Subset.trans hsub₁ hsub,
      .through hv (Recorded.mono hsub _ _ hrecorded) hparted⟩
  | both hv hs _ ih =>
    obtain ⟨more₁, hb₁, hsub₁, hrecorded⟩ := hs (hbelow _ (List.mem_cons_self ..)) _ hb
    obtain ⟨more₂, hb', hsub, hparted⟩ := ih (hrest hbelow) hb₁
    rw [List.append_assoc] at hb'
    exact ⟨more₁ ++ more₂, hb', List.Subset.trans hsub₁ hsub,
      .both hv (Recorded.mono hsub _ _ hrecorded) hparted⟩

/-- Each part that a selection gives is given for one of its alternatives. -/
theorem Workbench.Traced.exists_given (h : b.Traced task s made) (hg : task.grammar.Valid)
    (hbefore : task.Before s) {v lhs : Variable}
    {onChain alternatives fulls parts : List Variable}
    (hrule : task.grammar.rule? v = some (.selection lhs alternatives))
    (hparted : Parted (Recorded b.splits) onChain alternatives [] [] fulls parts) :
    (∀ y ∈ fulls, ∃ u ∈ alternatives, GivenFor task made u y) ∧
      ∀ y ∈ parts, ∃ u ∈ alternatives, GivenFor task made u y ∧ y.id ∈ made.map Made.id := by
  constructor
  · intro y hy
    obtain ⟨u, hu, hgives⟩ := (hparted.mem_fulls hy).resolve_left List.not_mem_nil
    exact ⟨u, hu, h.given_full hbefore (mem_ruleIds_of_reference hg hrule hu) hgives⟩
  · intro y hy
    obtain ⟨u, hu, hgives⟩ := (hparted.mem_parts hy).resolve_left List.not_mem_nil
    exact ⟨u, hu, h.given_part hgives⟩

/-- The parts that a selection on the way down gives are given for it. -/
theorem Workbench.Traced.given_parted (h : b.Traced task s made) (hg : task.grammar.Valid)
    (hbefore : task.Before s) {v lhs : Variable} {alternatives fulls parts : List Variable}
    (hrule : task.grammar.rule? v = some (.selection lhs alternatives))
    (hparted : Parted (Recorded b.splits) (task.successors lhs) alternatives [] [] fulls parts) :
    (∀ y ∈ fulls, GivenFor task made v y) ∧
      ∀ y ∈ parts, GivenFor task made v y ∧ y.id ∈ made.map Made.id := by
  obtain ⟨hfulls, hparts⟩ := h.exists_given hg hbefore hrule hparted
  constructor
  · intro y hy
    obtain ⟨u, hu, hgiven⟩ := hfulls y hy
    exact hgiven.offered hrule hu
  · intro y hy
    obtain ⟨u, hu, hgiven, hmade⟩ := hparts y hy
    exact ⟨hgiven.offered hrule hu, hmade⟩

/-- A variable whose split is made by runs that keep the workbench traced is split by such a
    run. -/
theorem SplitStep.traces (hg : task.grammar.Valid) (hbefore : task.Before s) {v : Variable}
    {split : Split} (h : SplitStep task (Traces task s) b v split b') :
    Traces task s b v split { b' with splits := (v, split) :: b'.splits } := by
  intro hbelow made hb
  -- The split at hand is recorded last, so that it explains what is made for it.
  have hself : ∀ {splits}, Recorded ((v, split) :: splits) v split :=
    ⟨v, List.mem_cons_self .., rfl⟩
  cases h with
  | @reads lhs part rest tag partTag b' htag hrule hpartTag hpart =>
    have hb : b.Traced task s (made ++ []) := by rwa [List.append_nil]
    exact hb.conclude_part (List.Subset.refl _) hbefore hpart hbelow
      (.part hrule htag hself rfl hpartTag .reads)
  | @through lhs w below part rest tag partTag b₁ b' htag hrule hpartTag hrun hpart =>
    obtain ⟨more, hb₁, hsub, hrecorded⟩ := hrun (hbelow.tail (.of_leading hrule)) _ hb
    have hlater := Recorded.mono (List.subset_cons_self (v, ⟨none, part⟩) _) _ _ hrecorded
    exact hb₁.conclude_part hsub hbefore hpart hbelow
      (.part hrule htag hself rfl hpartTag (.leading hlater))
  | @both lhs w belowFull below full part rest tag partTag b₁ b₂ b' htag hrule hpartTag hrun
      hpart hfull =>
    obtain ⟨more, hb₁, hsub, hrecorded⟩ := hrun (hbelow.tail (.of_leading hrule)) _ hb
    have hlists := (hb₁.add hpart v).add hfull v
    rw [List.append_assoc] at hlists
    have hnewPart := hlists.given_new task (List.mem_cons_self ..)
    have hnewFull := hlists.given_new task
      (List.mem_cons_of_mem _ (List.mem_singleton.mpr rfl))
    have hlater := Recorded.mono (List.subset_cons_self (v, ⟨some full, part⟩) _) _ _ hrecorded
    refine hb₁.conclude hsub hbefore hlists (hfull.splits_eq.trans hpart.splits_eq) ?_ ?_
    · refine List.forall_mem_append.mpr ⟨?_, ?_⟩ <;> refine List.forall_mem_singleton.mpr ?_
      · exact .part hrule htag hself rfl hpartTag (.leading hlater)
      · exact .full hrule htag hself rfl (.leading hlater rfl)
    · refine ⟨hbelow, hnewPart.1, hnewPart.2, ?_⟩
      intro y hy
      cases hy
      exact hnewFull.1
  | @choice lhs part alternatives parts tag partTag b₁ b' htag hrule hrun hne hpartTag hpart =>
    obtain ⟨more, hb₁, hsub, hparted⟩ := hrun.traced
      (fun u hu => hbelow.tail (.of_alternative hrule hu)) hb
    obtain ⟨hsplits, chosen, hlists, hchosen⟩ := hb₁.choose hpart v
    obtain ⟨-, hparts⟩ := hb₁.given_parted hg hbefore hrule hparted
    have hlater := hparted.mono (Recorded.mono (List.subset_cons_self (v, ⟨none, part⟩) _))
    refine hb₁.conclude hsub hbefore hlists hsplits
      (hchosen.explained_part hrule htag hself hpartTag hlater hne) ?_
    exact ⟨hbelow, hchosen.given hlists fun u hu => (hparts u hu).1,
      hchosen.mem_ids fun u hu => (hparts u hu).2, fun _ h => nomatch h⟩
  | @choices lhs full part alternatives fulls parts tag partTag b₁ b₂ b' htag hrule hrun hne
      hfulls hpartTag hpart hfull =>
    obtain ⟨more, hb₁, hsub, hparted⟩ := hrun.traced
      (fun u hu => hbelow.tail (.of_alternative hrule hu)) hb
    obtain ⟨hsplits, chosen, hlists, hchosen⟩ := hb₁.choose hpart v
    obtain ⟨hsplits', chosen', hlists', hchosen'⟩ := hlists.choose hfull v
    obtain ⟨hgivenFulls, hgivenParts⟩ := hb₁.given_parted hg hbefore hrule hparted
    have hpartGiven : GivenFor task (made ++ more ++ chosen) v part :=
      hchosen.given hlists fun u hu => (hgivenParts u hu).1
    have hpartMade : part.id ∈ (made ++ more ++ chosen).map Made.id :=
      hchosen.mem_ids fun u hu => (hgivenParts u hu).2
    have hfullGiven : GivenFor task (made ++ more ++ chosen ++ chosen') v full :=
      hchosen'.given hlists' fun u hu => (hgivenFulls u hu).mono hlists hbefore
    have hlater := hparted.mono (Recorded.mono (List.subset_cons_self (v, ⟨some full, part⟩) _))
    have hplaced : Placed task (made ++ more ++ chosen ++ chosen') v ⟨some full, part⟩ := by
      refine ⟨hbelow, hpartGiven.mono hlists' hbefore, ?_, ?_⟩
      · rw [List.map_append]
        exact List.mem_append_left _ hpartMade
      · intro y hy
        cases hy
        exact hfullGiven
    rw [List.append_assoc _ chosen] at hlists' hplaced
    refine hb₁.conclude hsub hbefore hlists' (hsplits'.trans hsplits) ?_ hplaced
    exact List.forall_mem_append.mpr
      ⟨hchosen.explained_part hrule htag hself hpartTag hlater hne,
        hchosen'.explained_full hrule htag hself rfl hlater hfulls⟩

/-- Splitting a variable on the way down from the root keeps a workbench traced. -/
theorem traces_splitVariable (hg : task.grammar.Valid) (hbefore : task.Before s) :
    ∀ b v split b', runsOf (splitVariable task) b v split b' → Traces task s b v split b' := by
  refine splitWithin_induction ?_ (fun b v split b' h => h.traces hg hbefore) _
  intro b v split hrecorded _ made hb
  exact ⟨[], by rwa [List.append_nil], List.Subset.refl _, hrecorded⟩

end Tracing

end FluentGrammar
