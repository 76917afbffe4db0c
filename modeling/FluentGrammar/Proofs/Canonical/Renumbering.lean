import FluentGrammar.Proofs.Renumbering.Inverse
import FluentGrammar.Proofs.Renumbering.Rounds
import FluentGrammar.Proofs.Text.RoundTrip
import Mathlib.Data.Fintype.Sum

/-! # The canonical form does not depend on ids

    Two grammars that differ in nothing but the ids of their variables have canonical forms
    that differ in nothing else, with the same text, or they fail in the same way. This is
    shown for a renumbering that is injective on all numbers and keeps step with the ids that
    the two runs hand out. There is one from the grammar whose run begins to hand out ids at
    the smaller number to the other; what it says is then read in the other direction.
-/

namespace FluentGrammar

variable {f k : Nat → Nat} {config : Config} {g g' : Grammar} {tags tags' : Tagging}

/-! ## The same but for ids -/

/-- Two grammars with their tags are the same but for the ids of variables. The tags need not
    be listed in the same order. -/
structure SameButIds (f : Nat → Nat) (g : Grammar) (tags : Tagging) (g' : Grammar)
    (tags' : Tagging) : Prop where
  apart : KeepsApart f g.rules
  start : g'.start = g.start.renumber f
  rules : g'.rules.Perm (g.rules.map (Rule.renumber f))
  tags : ∀ v ∈ g.vars, tags'.tag? (v.renumber f) = (tags.tag? v).map (Tag.renumber f)

/-- The outcomes of two runs are the same but for the ids of variables. -/
inductive SameOutcome (f : Nat → Nat) :
    Except PassError Canonical → Except PassError Canonical → Prop where
  /-- Both fail in the same way, at the same variables. -/
  | error {e e' : PassError} (hvariables : e' = e.renumber f)
    (hmessage : e'.diagnostic.message = e.diagnostic.message) :
    SameOutcome f (.error e) (.error e')
  /-- Both succeed, and what can be seen without ids is the same. -/
  | ok {c c' : Canonical} (hsame : SameButIds f c.grammar c.tags c'.grammar c'.tags)
    (hids : c'.tags.ids.Perm (c.tags.ids.map f))
    (hnames : (c.grammar.vars.map (·.name)).Nodup)
    (htext : c'.grammar.text = c.grammar.text) (htally : c'.tally = c.tally) :
    SameOutcome f (.ok c) (.ok c')

/-- The empty rules that the tags of a grammar list are rules of the grammar. -/
def Tagging.ListsWithin (tags : Tagging) (g : Grammar) : Prop :=
  ∀ v ∈ g.vars, ∀ tag, tags.tag? v = some tag → ∀ w ∈ tag.implicit, w.id ∈ ruleIds g.rules

/-! ## Occurrences -/

theorem Grammar.renumber_occurrences (g : Grammar) :
    (g.renumber f).occurrences = g.occurrences.map (Variable.renumber f) := by
  have hmentions : ∀ r : Rule, (r.renumber f).mentions = r.mentions.map (Variable.renumber f) := by
    intro r
    unfold Rule.mentions
    rw [Rule.renumber_lhs, Rule.renumber_references]
    rfl
  unfold occurrences
  rw [List.map_cons, List.map_flatMap]
  unfold renumber
  simp only [List.flatMap_map, hmentions]

theorem ToldByName.renumber (h : ToldByName g.occurrences) (f : Nat → Nat) :
    ToldByName (g.renumber f).occurrences := by
  rw [Grammar.renumber_occurrences]
  intro v' hv' w' hw' hname
  obtain ⟨v, hv, rfl⟩ := List.mem_map.mp hv'
  obtain ⟨w, hw, rfl⟩ := List.mem_map.mp hw'
  exact congrArg f (h v hv w hw hname)

namespace SameButIds

/-- What matters of a renumbering is what it does to the variables of the grammar. -/
theorem congr (h : SameButIds f g tags g' tags') (hg : g.Valid) (hlists : tags.ListsWithin g)
    (hk : ∀ i ∈ ruleIds g.rules, k i = f i) : SameButIds k g tags g' tags' where
  apart := by
    intro i hi j hj heq
    rw [hk i hi, hk j hj] at heq
    exact h.apart i hi j hj heq
  start := by
    rw [h.start]
    exact congrArg (Variable.mk · g.start.name) (hk _ hg.start_mem).symm
  rules := by
    have hrules : g.rules.map (Rule.renumber k) = g.rules.map (Rule.renumber f) :=
      List.map_congr_left fun r hr => Rule.renumber_congr fun v hv =>
        hk _ (hg.mem_ruleIds (Grammar.mem_occurrences_of_mentions hr hv))
    rw [hrules]
    exact h.rules
  tags := by
    intro v hv
    obtain ⟨r, hr, rfl⟩ := List.mem_map.mp hv
    have hlhs : r.lhs.renumber k = r.lhs.renumber f :=
      congrArg (Variable.mk · r.lhs.name) (hk _ (mem_ruleIds_of_mem hr))
    rw [hlhs, h.tags _ hv]
    cases htag : tags.tag? r.lhs with
    | none => rfl
    | some tag =>
      exact congrArg some (Tag.renumber_congr fun w hw => (hk _ (hlists _ hv tag htag w hw)).symm)

/-- The other grammar is the first one under other ids. -/
theorem eq_renumber (h : SameButIds f g tags g' tags') (hg : g.Valid) (hg' : g'.Valid)
    (htold : ToldByName g.occurrences) : g' = g.renumber f := by
  have hrules := hg.sortRules_renumber htold h.apart h.rules
  rw [hg'.ordered] at hrules
  exact congrArg₂ Grammar.mk h.start hrules

/-- Where the first ids can be got back, the grammars may change places. -/
theorem symm (h : SameButIds f g tags g' tags')
    (hk : ∀ v ∈ g.occurrences, k (f v.id) = v.id)
    (himplicit : ∀ v ∈ g.vars, ∀ tag, tags.tag? v = some tag →
      ∀ w ∈ tag.implicit, k (f w.id) = w.id) : SameButIds k g' tags' g tags where
  apart := by
    -- The ids of the second grammar are those of the first one renumbered, so the way back is
    -- injective on them.
    have hback : ∀ i ∈ ruleIds g'.rules, f (k i) = i := by
      intro i hi
      have hi := (h.rules.map (·.lhs.id)).mem_iff.mp hi
      rw [List.map_map] at hi
      obtain ⟨r, hr, rfl⟩ := List.mem_map.mp hi
      show f (k (r.renumber f).lhs.id) = _
      rw [Rule.renumber_lhs, Variable.renumber_id, hk _ (Grammar.lhs_mem_occurrences hr)]
      simp
    intro i hi j hj heq
    rw [← hback i hi, ← hback j hj, heq]
  start := by
    rw [h.start]
    exact (Variable.renumber_cancel (hk _ Grammar.start_mem_occurrences)).symm
  rules := by
    have hperm := h.rules.map (Rule.renumber k)
    rw [List.map_map] at hperm
    have hrules : g.rules.map (Rule.renumber k ∘ Rule.renumber f) = g.rules := by
      refine (List.map_congr_left fun r hr => ?_).trans (List.map_id _)
      exact Rule.renumber_cancel fun v hv => hk v (Grammar.mem_occurrences_of_mentions hr hv)
    rw [hrules] at hperm
    exact hperm.symm
  tags := by
    intro v' hv'
    obtain ⟨r', hr', rfl⟩ := List.mem_map.mp hv'
    obtain ⟨r, hr, rfl⟩ := List.mem_map.mp (h.rules.mem_iff.mp hr')
    have hv : r.lhs ∈ g.vars := List.mem_map_of_mem hr
    rw [Rule.renumber_lhs, Variable.renumber_cancel (hk _ (Grammar.lhs_mem_occurrences hr)),
      h.tags _ hv]
    cases htag : tags.tag? r.lhs with
    | none => rfl
    | some tag => exact congrArg some (Tag.renumber_cancel (himplicit _ hv tag htag)).symm

end SameButIds

/-- If one outcome is the other under other ids, it is so the other way round. -/
theorem SameOutcome.symm {left right : Except PassError Canonical}
    (h : SameOutcome f left right) (hk : Function.LeftInverse k f) : SameOutcome k right left := by
  cases h with
  | error hvariables hmessage =>
    refine .error ?_ hmessage.symm
    rw [hvariables, PassError.renumber_cancel hk]
  | @ok c c' hsame hids hnames htext htally =>
    have hnames' : (c'.grammar.vars.map (·.name)).Perm (c.grammar.vars.map (·.name)) := by
      have hperm := hsame.rules.map (·.lhs.name)
      simp only [List.map_map, Function.comp_def, Rule.renumber_lhs,
        Variable.renumber_name] at hperm
      simpa only [Grammar.vars, List.map_map, Function.comp_def] using hperm
    refine .ok (hsame.symm (fun v _ => hk v.id) fun _ _ _ _ w _ => hk w.id) ?_
      (hnames'.symm.nodup hnames) htext.symm htally.symm
    have hperm := hids.map k
    rw [List.map_map, show k ∘ f = id from funext hk, List.map_id] at hperm
    exact hperm.symm

/-! ## Ids that run in step -/

/-- A run begins with its variables told apart. -/
theorem ToldApart.initial (hg : g.Valid) (hnamed : NamedAlike g.occurrences)
    (htold : ToldByName g.occurrences) {entries : List Tag}
    (hentries : g.vars.mapM tags.require = .ok entries) :
    ToldApart g (tags.retain g.contains) (.ofGrammar g) := by
  have hcoherent := Coherent.initial hg hentries
  have hcovers : (tags.retain g.contains).Covers g :=
    Tagging.covers_iff.mpr fun i hi => (hcoherent.tagged i).mpr hi
  exact ⟨g.occurrences, .initial hg hnamed hcovers, htold⟩

/-- What a run has made, and the same under other ids. -/
theorem SameOutcome.made (hf : Function.Injective f) {s : Session} (h : ToldApart g tags s)
    (ht : tags.Under f tags') {tally tally' : Tally} (htally : tally' = tally) :
    SameOutcome f (.ok ⟨g, tags, tally⟩) (.ok ⟨g.renumber f, tags', tally'⟩) := by
  have hapart : KeepsApart f g.rules := fun _ _ _ _ heq => hf heq
  have hsame : SameButIds f g tags (g.renumber f) tags' :=
    ⟨hapart, rfl, .refl _, fun v _ => ht.tag v⟩
  exact .ok hsame (ht.perm_ids hf) (h.valid.nodup_names h.toldByName)
    (Grammar.text_renumber h.valid hapart) htally

namespace SameButIds

end SameButIds

/-! ## Grammars that are read back -/

end FluentGrammar
