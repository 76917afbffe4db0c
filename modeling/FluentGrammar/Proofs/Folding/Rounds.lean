import FluentGrammar.Grammar.Metrics
import FluentGrammar.Proofs.Rewriting.Folding

/-! # Rounds of folding, exactly

    A round drops from the front of every derivation the empty variables up to the first
    symbol that is none, and the tag of the derivation takes them on in that order. Empty rules
    become `<empty>`, and nothing else changes. Rounds are made as long as some rule is empty;
    each of them leaves fewer derivations that can become empty.
-/

namespace FluentGrammar

variable {empties : List Variable} {tags tags' : Tagging} {s s' : Session}

/-! ## Dropped variables -/

/-- The variables that rules have dropped, each list under the id of the rule's variable. -/
abbrev Drops := Nat → List Variable

namespace Drops

/-- Only one rule drops variables. -/
def only (v : Variable) (dropped : List Variable) : Drops :=
  fun i => if i = v.id then dropped else []

/-- First some variables are dropped, then others. -/
def andThen (first next : Drops) : Drops :=
  fun i => first i ++ next i

/-- The number of variables that rules have dropped. -/
def total (drops : Drops) (rules : List Rule) : Nat :=
  ((ruleIds rules).flatMap drops).length

variable {v : Variable} {dropped : List Variable} {rules : List Rule}

theorem only_self : only v dropped v.id = dropped :=
  if_pos rfl

theorem only_of_ne {i : Nat} (h : i ≠ v.id) : only v dropped i = [] :=
  if_neg h

theorem only_nil (v : Variable) : only v [] = fun _ => [] := by
  funext i
  exact ite_self []

theorem only_cons (v w : Variable) (dropped : List Variable) :
    only v (w :: dropped) = (only v [w]).andThen (only v dropped) := by
  funext i
  unfold andThen
  by_cases hi : i = v.id
  · rw [hi, only_self, only_self, only_self]
    rfl
  · rw [only_of_ne hi, only_of_ne hi, only_of_ne hi]
    rfl

theorem total_cons (drops : Drops) (r : Rule) (rest : List Rule) :
    drops.total (r :: rest) = (drops r.lhs.id).length + drops.total rest :=
  List.length_append

theorem total_andThen (first next : Drops) (rules : List Rule) :
    (first.andThen next).total rules = first.total rules + next.total rules := by
  simp only [total, andThen, List.length_flatMap, List.length_append, List.sum_map_add]

theorem total_congr {drops drops' : Drops} (h : ∀ i ∈ ruleIds rules, drops i = drops' i) :
    drops.total rules = drops'.total rules := by
  unfold total
  rw [List.flatMap_congr h]

end Drops

/-- The session in which more folded rules have been counted. -/
def Session.countFolded (s : Session) (n : Nat) : Session :=
  s.count fun t => { t with folded := t.folded + n }

theorem Session.countFolded_countFolded (s : Session) (m n : Nat) :
    (s.countFolded m).countFolded n = s.countFolded (m + n) := by
  unfold countFolded count
  simp only [Nat.add_assoc]

/-! ## Implicit nodes -/

/-- What becomes of a tag when variables are folded into it. If there are any, they join the
    implicit nodes; a tag that built a complete node without them lists no components. -/
inductive Tag.TakesOn : Tag → List Variable → Tag → Prop where
  | nothing (tag : Tag) : TakesOn tag [] tag
  | full (node : String) (first : Variable) (dropped : List Variable) :
      TakesOn (.full node) (first :: dropped) (.partialDerivation node [] (first :: dropped))
  | partialDerivation (node : String) (required : List Parameter)
      (implicit dropped : List Variable) :
      TakesOn (.partialDerivation node required implicit) dropped
        (.partialDerivation node required (implicit ++ dropped))

namespace Tag

variable {tag tag₁ tag' : Tag} {first next : List Variable}

theorem TakesOn.of_withImplicit {w : Variable} (h : tag.withImplicit w = .ok tag') :
    tag.TakesOn [w] tag' := by
  cases tag with
  | full node =>
    cases h
    exact .full node w []
  | partialDerivation node required implicit =>
    cases h
    exact .partialDerivation node required implicit [w]
  | partialSelection node required => cases h
  | bridge => cases h

theorem TakesOn.trans (h : tag.TakesOn first tag₁) (h' : tag₁.TakesOn next tag') :
    tag.TakesOn (first ++ next) tag' := by
  cases h with
  | nothing => exact h'
  | full node w dropped =>
    cases h' with
    | nothing =>
      rw [List.append_nil]
      exact .full node w dropped
    | partialDerivation => exact .full node w (dropped ++ next)
  | partialDerivation node required implicit =>
    cases h' with
    | nothing =>
      rw [List.append_nil]
      exact .partialDerivation node required implicit first
    | partialDerivation =>
      rw [List.append_assoc]
      exact .partialDerivation node required implicit (first ++ next)

end Tag

/-- The tag of every variable takes on what its rule has dropped. The tagged variables and their
    order stay. -/
structure Tagging.TakesOn (tags : Tagging) (drops : Drops) (tags' : Tagging) : Prop where
  keys_eq : tags'.entries.map (·.1) = tags.entries.map (·.1)
  takes : ∀ v tag, tags.tag? v = some tag →
    ∃ tag', tags'.tag? v = some tag' ∧ tag.TakesOn (drops v.id) tag'

namespace Tagging

theorem TakesOn.refl (tags : Tagging) : tags.TakesOn (fun _ => []) tags :=
  ⟨rfl, fun _ tag htag => ⟨tag, htag, .nothing tag⟩⟩

theorem TakesOn.trans {first next : Drops} {tags₁ : Tagging} (h : tags.TakesOn first tags₁)
    (h' : tags₁.TakesOn next tags') : tags.TakesOn (first.andThen next) tags' := by
  refine ⟨h'.keys_eq.trans h.keys_eq, fun v tag htag => ?_⟩
  obtain ⟨tag₁, htag₁, htakes⟩ := h.takes v tag htag
  obtain ⟨tag', htag', htakes'⟩ := h'.takes v tag₁ htag₁
  exact ⟨tag', htag', htakes.trans htakes'⟩

theorem keys_setEntry {v : Variable} {tag : Tag} {entries : List (Variable × Tag)}
    (h : v.id ∈ entries.map (·.1.id)) :
    (setEntry v tag entries).map (·.1) = entries.map (·.1) := by
  induction entries with
  | nil => cases h
  | cons entry rest ih =>
    obtain ⟨w, old⟩ := entry
    rw [setEntry]
    by_cases hw : (w == v) = true
    · rw [if_pos hw]
      rfl
    · have hrest : v.id ∈ rest.map (·.1.id) := by
        rcases List.mem_cons.mp h with hid | hrest
        · exact absurd (Variable.beq_iff.mpr hid.symm) hw
        · exact hrest
      rw [if_neg hw, List.map_cons, ih hrest, List.map_cons]

/-- Dropping one variable. -/
theorem TakesOn.insert {v w : Variable} {tag tag' : Tag} (htag : tags.require v = .ok tag)
    (hfold : tag.withImplicit w = .ok tag') :
    tags.TakesOn (.only v [w]) (tags.insert v tag') := by
  refine ⟨keys_setEntry (mem_ids_of_require htag), fun u old hold => ?_⟩
  by_cases hid : u.id = v.id
  · rw [tag?_congr hid, require_eq_ok.mp htag] at hold
    obtain rfl := Option.some.inj hold
    refine ⟨tag', tag?_insert_of_id hid.symm, ?_⟩
    rw [hid, Drops.only_self]
    exact .of_withImplicit hfold
  · refine ⟨old, (tag?_insert_ne tags tag' (Ne.symm hid)).trans hold, ?_⟩
    rw [Drops.only_of_ne hid]
    exact .nothing old

end Tagging

/-! ## One round -/

/-- What one round of folding makes of a rule, and the variables that the rule drops. -/
inductive FoldedExactly (empties : List Variable) : Rule → List Variable → Rule → Prop where
  /-- A selection stays. -/
  | selection (lhs : Variable) (alternatives : List Variable) :
      FoldedExactly empties (.selection lhs alternatives) [] (.selection lhs alternatives)
  /-- An empty rule becomes `<empty>`. -/
  | empty (lhs : Variable) (hlhs : empties.contains lhs = true) :
      FoldedExactly empties (.derivation lhs []) [] (.derivation lhs [.term .empty])
  /-- Any other derivation drops the empty variables that it starts with, all of them. -/
  | leading (lhs : Variable) (dropped : List Variable) (rhs : List Symbol)
      (hlhs : empties.contains lhs = false) (hne : dropped.map .var ++ rhs ≠ [])
      (hdropped : ∀ v ∈ dropped, empties.contains v = true)
      (hstop : ∀ w rest, rhs = .var w :: rest → empties.contains w = false) :
      FoldedExactly empties (.derivation lhs (dropped.map .var ++ rhs)) dropped
        (.derivation lhs rhs)

theorem FoldedExactly.folded {r r' : Rule} {dropped : List Variable}
    (h : FoldedExactly empties r dropped r') : Folded empties r r' := by
  cases h with
  | selection lhs alternatives => exact .selection lhs alternatives
  | empty lhs hlhs => exact .empty lhs [] hlhs
  | leading lhs dropped rhs hlhs _ hdropped => exact .leading lhs dropped rhs hlhs hdropped

theorem foldLeading_exactly {lhs : Variable} {rhs rhs' : List Symbol}
    (h : foldLeading empties lhs tags rhs s = .ok (rhs', tags') s') :
    ∃ dropped : List Variable, rhs = dropped.map .var ++ rhs' ∧
      (∀ v ∈ dropped, empties.contains v = true) ∧
      (∀ w rest, rhs' = .var w :: rest → empties.contains w = false) ∧
      tags.TakesOn (.only lhs dropped) tags' ∧ s' = s.countFolded dropped.length := by
  have hstays : tags.TakesOn (.only lhs []) tags := Drops.only_nil lhs ▸ .refl tags
  induction rhs generalizing tags s with
  | nil =>
    obtain ⟨heq, rfl⟩ := pure_eq_ok.mp (foldLeading_nil ▸ h)
    cases heq
    exact ⟨[], rfl, fun _ hv => (nomatch hv), fun _ _ heq => (nomatch heq), hstays, rfl⟩
  | cons symbol rest ih =>
    cases symbol with
    | term t =>
      obtain ⟨heq, rfl⟩ := pure_eq_ok.mp (foldLeading_term ▸ h)
      cases heq
      exact ⟨[], rfl, fun _ hv => (nomatch hv), fun _ _ heq => (nomatch heq), hstays, rfl⟩
    | var w =>
      rw [foldLeading] at h
      by_cases hw : empties.contains w = true
      · rw [if_pos hw] at h
        obtain ⟨tag, s₁, htag, h⟩ := bind_eq_ok.mp h
        obtain ⟨tag', s₂, htag', h⟩ := bind_eq_ok.mp h
        obtain ⟨_, s₃, hcount, h⟩ := bind_eq_ok.mp h
        obtain ⟨hrequire, rfl⟩ := ofExcept_eq_ok.mp htag
        obtain ⟨hfold, rfl⟩ := ofExcept_eq_ok.mp htag'
        obtain rfl := modify_eq_ok.mp hcount
        -- The first variable goes to the front of what the tag of the rule takes on.
        have htakes := Tagging.TakesOn.insert hrequire hfold
        obtain ⟨dropped, rfl, hdropped, hstop, htakes', rfl⟩ :=
          ih h (Drops.only_nil lhs ▸ .refl _)
        refine ⟨w :: dropped, rfl, ?_, hstop, ?_, ?_⟩
        · exact List.forall_mem_cons.mpr ⟨hw, hdropped⟩
        · rw [Drops.only_cons]
          exact htakes.trans htakes'
        · rw [List.length_cons, Nat.add_comm]
          exact s.countFolded_countFolded 1 dropped.length
      · rw [if_neg hw] at h
        obtain ⟨heq, rfl⟩ := pure_eq_ok.mp h
        cases heq
        refine ⟨[], rfl, fun _ hv => (nomatch hv), fun u behind heq => ?_, hstays, rfl⟩
        obtain rfl : w = u := Symbol.var.inj (List.cons.inj heq).1
        simpa using hw

theorem foldRule_exactly {r r' : Rule}
    (hempty : ∀ lhs rhs, r = .derivation lhs rhs → (empties.contains lhs = true ↔ rhs = []))
    (h : foldRule empties tags r s = .ok (r', tags') s') :
    ∃ dropped, FoldedExactly empties r dropped r' ∧ tags.TakesOn (.only r.lhs dropped) tags' ∧
      s' = s.countFolded dropped.length := by
  have hstays : tags.TakesOn (.only r.lhs []) tags := Drops.only_nil r.lhs ▸ .refl tags
  cases r with
  | selection lhs alternatives =>
    obtain ⟨heq, rfl⟩ := pure_eq_ok.mp h
    cases heq
    exact ⟨[], .selection lhs alternatives, hstays, rfl⟩
  | derivation lhs rhs =>
    rw [foldRule] at h
    by_cases hlhs : empties.contains lhs = true
    · rw [if_pos hlhs] at h
      obtain ⟨heq, rfl⟩ := pure_eq_ok.mp h
      cases heq
      obtain rfl := (hempty lhs rhs rfl).mp hlhs
      exact ⟨[], .empty lhs hlhs, hstays, rfl⟩
    · rw [if_neg hlhs] at h
      obtain ⟨⟨rhs', tags₁⟩, s₁, hleading, h⟩ := bind_eq_ok.mp h
      obtain ⟨heq, rfl⟩ := pure_eq_ok.mp h
      cases heq
      obtain ⟨dropped, rfl, hdropped, hstop, htakes, hs'⟩ := foldLeading_exactly hleading
      have hne := mt (hempty lhs _ rfl).mpr hlhs
      exact ⟨dropped, .leading lhs dropped rhs' (by simpa using hlhs) hne hdropped hstop,
        htakes, hs'⟩

/-- Rules, what becomes of them in one round, and what they drop. -/
def FoldedRules (empties : List Variable) (drops : Drops) : List Rule → List Rule → Prop :=
  List.Forall₂ fun r r' => FoldedExactly empties r (drops r.lhs.id) r'

theorem FoldedRules.congr {drops drops' : Drops} {rules rules' : List Rule}
    (h : FoldedRules empties drops rules rules')
    (heq : ∀ i ∈ ruleIds rules, drops i = drops' i) : FoldedRules empties drops' rules rules' := by
  induction h with
  | nil => exact .nil
  | @cons r r' rest rest' hr _ ih =>
    refine .cons ?_ (ih fun i hi => heq i (List.mem_cons_of_mem _ hi))
    rwa [← heq r.lhs.id (List.mem_cons_self ..)]

theorem foldRules_exactly {rules rules' : List Rule} (hnodup : (ruleIds rules).Nodup)
    (hempty : ∀ lhs rhs, .derivation lhs rhs ∈ rules →
      (empties.contains lhs = true ↔ rhs = []))
    (h : foldRules empties tags rules s = .ok (rules', tags') s') :
    ∃ drops : Drops, FoldedRules empties drops rules rules' ∧
      (∀ i ∉ ruleIds rules, drops i = []) ∧ tags.TakesOn drops tags' ∧
      s' = s.countFolded (drops.total rules) := by
  induction rules generalizing tags s rules' with
  | nil =>
    obtain ⟨heq, rfl⟩ := pure_eq_ok.mp h
    cases heq
    exact ⟨fun _ => [], .nil, fun _ _ => rfl, .refl _, rfl⟩
  | cons r rest ih =>
    rw [foldRules] at h
    obtain ⟨⟨r', tags₁⟩, s₁, hrule, h⟩ := bind_eq_ok.mp h
    obtain ⟨⟨rest', tags₂⟩, s₂, hrest, h⟩ := bind_eq_ok.mp h
    obtain ⟨heq, rfl⟩ := pure_eq_ok.mp h
    cases heq
    obtain ⟨hnew, hnodup⟩ : r.lhs.id ∉ ruleIds rest ∧ (ruleIds rest).Nodup :=
      List.nodup_cons.mp hnodup
    obtain ⟨dropped, hfolded, htakes, rfl⟩ :=
      foldRule_exactly (fun lhs rhs hr => hempty lhs rhs (hr ▸ List.mem_cons_self ..)) hrule
    obtain ⟨drops, hfolded', hnone, htakes', rfl⟩ :=
      ih hnodup (fun lhs rhs hr => hempty lhs rhs (List.mem_cons_of_mem _ hr)) hrest
    -- The first rule has dropped its own variables, and the other ones have dropped theirs.
    let all := (Drops.only r.lhs dropped).andThen drops
    have hfirst : dropped = all r.lhs.id := by
      show _ = Drops.only r.lhs dropped r.lhs.id ++ drops r.lhs.id
      rw [Drops.only_self, hnone _ hnew, List.append_nil]
    have hother : ∀ i, i ≠ r.lhs.id → drops i = all i := by
      intro i hi
      show _ = Drops.only r.lhs dropped i ++ drops i
      rw [Drops.only_of_ne hi, List.nil_append]
    have hrest : ∀ i ∈ ruleIds rest, drops i = all i := fun i hi =>
      hother i fun hid => hnew (hid ▸ hi)
    refine ⟨all, .cons (hfirst ▸ hfolded) (hfolded'.congr hrest), fun i hi => ?_,
      htakes.trans htakes', ?_⟩
    · rw [← hother i fun hid => hi (hid ▸ List.mem_cons_self ..)]
      exact hnone i fun hmem => hi (List.mem_cons_of_mem _ hmem)
    · rw [Session.countFolded_countFolded, Drops.total_congr hrest, hfirst, Drops.total_cons]

section Round

variable {g g' : Grammar}

/-- One round of folding as a pass of its own. -/
def foldRound (g : Grammar) (tags : Tagging) : Pass Tagged := do
  let (rules, tags) ← foldRules g.emptyVariables tags g.rules
  let g ← rebuild g.start rules
  return (g, tags)

theorem foldRound_eq_ok : foldRound g tags s = .ok (g', tags') s' ↔
    ∃ rules, foldRules g.emptyVariables tags g.rules s = .ok (rules, tags') s' ∧
      Grammar.ofRules g.start rules = .ok g' := by
  unfold foldRound
  constructor
  · intro h
    obtain ⟨⟨rules, tags₁⟩, s₁, hrules, h⟩ := bind_eq_ok.mp h
    obtain ⟨g₁, s₂, hrebuild, h⟩ := bind_eq_ok.mp h
    obtain ⟨hof, rfl⟩ := rebuild_eq_ok.mp hrebuild
    obtain ⟨heq, rfl⟩ := pure_eq_ok.mp h
    cases heq
    exact ⟨rules, hrules, hof⟩
  · rintro ⟨rules, hrules, hof⟩
    refine bind_eq_ok.mpr ⟨_, _, hrules, bind_eq_ok.mpr ⟨g', s', ?_, rfl⟩⟩
    exact rebuild_eq_ok.mpr ⟨hof, rfl⟩

/-- Empty are the variables that have an empty rule. -/
theorem emptyVariables_contains_iff (hg : g.Valid) {lhs : Variable} {rhs : List Symbol}
    (hr : .derivation lhs rhs ∈ g.rules) :
    g.emptyVariables.contains lhs = true ↔ rhs = [] := by
  constructor
  · intro hlhs
    obtain ⟨lhs₀, hr₀, hid⟩ := mem_emptyVariables.mp hlhs
    cases eq_of_lhs_id_eq hg.well_formed.nodup_ruleIds hr₀ hr hid
    rfl
  · rintro rfl
    exact mem_emptyVariables.mpr ⟨lhs, hr, rfl⟩

theorem FoldedRules.lhs_eq {drops : Drops} {rules rules' : List Rule}
    (h : FoldedRules empties drops rules rules') :
    rules'.map Rule.lhs = rules.map Rule.lhs := by
  induction h with
  | nil => rfl
  | cons hr _ ih => rw [List.map_cons, List.map_cons, ih, hr.folded.lhs_eq]

/-- What a round of folding does to a valid grammar, its tags and the session. -/
structure FoldedRound (g : Grammar) (tags : Tagging) (s : Session) (drops : Drops)
    (g' : Grammar) (tags' : Tagging) (s' : Session) : Prop where
  valid : g'.Valid
  start_eq : g'.start = g.start
  rules : FoldedRules g.emptyVariables drops g.rules g'.rules
  none_else : ∀ i ∉ ruleIds g.rules, drops i = []
  tags : tags.TakesOn drops tags'
  session_eq : s' = s.countFolded (drops.total g.rules)

theorem foldRound_exactly (hg : g.Valid) (h : foldRound g tags s = .ok (g', tags') s') :
    ∃ drops, FoldedRound g tags s drops g' tags' s' := by
  obtain ⟨rules, hrun, hof⟩ := foldRound_eq_ok.mp h
  obtain ⟨drops, hrules, hnone, htags, hs'⟩ := foldRules_exactly hg.well_formed.nodup_ruleIds
    (fun lhs rhs hr => emptyVariables_contains_iff hg hr) hrun
  obtain rfl := Grammar.rules_of_ofRules hof
  refine ⟨drops, Grammar.valid_of_ofRules hof, rfl, ?_, hnone, htags, hs'⟩
  show FoldedRules _ _ _ (sortRules rules)
  rwa [sortRules_of_lhs_eq hg.ordered hrules.lhs_eq]

end Round

/-! ## The loop -/

/-- Folding as a loop: rounds are made one after the other until no rule is empty or a round
    fails. The number counts how often empty rules are looked for. -/
inductive FoldLoop : Nat → Grammar → Tagging → Session →
    EStateM.Result PassError Session Tagged → Prop where
  /-- No rule is empty. -/
  | done {g : Grammar} {tags : Tagging} {s : Session}
      (hempty : g.emptyVariables.isEmpty = true) : FoldLoop 1 g tags s (.ok (g, tags) s)
  /-- A round fails. -/
  | failed {g : Grammar} {tags : Tagging} {s s' : Session} {e : PassError}
      (hempty : g.emptyVariables.isEmpty = false)
      (hround : foldRound g tags s = .error e s') : FoldLoop 1 g tags s (.error e s')
  /-- A round succeeds, and the loop goes on. -/
  | next {n : Nat} {g g₁ : Grammar} {tags tags₁ : Tagging} {s s₁ : Session}
      {result : EStateM.Result PassError Session Tagged}
      (hempty : g.emptyVariables.isEmpty = false)
      (hround : foldRound g tags s = .ok (g₁, tags₁) s₁) (hrest : FoldLoop n g₁ tags₁ s₁ result) :
      FoldLoop (n + 1) g tags s result

section Loop

variable {g g' : Grammar}

theorem foldRounds_succ (hempty : g.emptyVariables.isEmpty = false) (rounds : Nat) :
    foldRounds (rounds + 1) g tags =
      foldRound g tags >>= fun (g, tags) => foldRounds rounds g tags := by
  rw [foldRounds, if_neg (by simp [hempty])]
  unfold foldRound
  simp only [bind_assoc, pure_bind]

/-- With as many rounds as there are derivations that can become empty, folding is the loop. -/
theorem foldRounds_loops (g : Grammar) (tags : Tagging) (s : Session) {rounds : Nat}
    (hrounds : g.rules.countP Rule.isUnled < rounds) :
    ∃ n ≤ g.rules.countP Rule.isUnled + 1, FoldLoop n g tags s (foldRounds rounds g tags s) := by
  induction rounds generalizing g tags s with
  | zero => exact absurd hrounds (Nat.not_lt_zero _)
  | succ rounds ih =>
    cases hempty : g.emptyVariables.isEmpty with
    | true =>
      rw [foldRounds, if_pos hempty]
      exact ⟨1, by omega, .done hempty⟩
    | false =>
      rw [foldRounds_succ hempty]
      cases hround : foldRound g tags s with
      | error e s₁ =>
        rw [bind_of_error hround]
        exact ⟨1, by omega, .failed hempty hround⟩
      | ok folded s₁ =>
        rw [bind_of_ok hround]
        obtain ⟨g₁, tags₁⟩ := folded
        obtain ⟨rules, hrules, hof⟩ := foldRound_eq_ok.mp hround
        -- The round has left fewer rules without a leading terminal, so fewer rounds are to come.
        have hless := countP_isUnled_lt hempty (foldRules_eq_ok hrules).2 hof
        obtain ⟨n, hn, hrest⟩ := ih g₁ tags₁ s₁ (by omega)
        exact ⟨n + 1, by omega, .next hempty hround hrest⟩

/-- Only derivations can become empty. -/
theorem countP_isUnled_le (g : Grammar) :
    g.rules.countP Rule.isUnled ≤ (Metrics.of g).derivations := by
  show _ ≤ (g.rules.filter fun r => !r.isSelection).length
  rw [← List.countP_eq_length_filter]
  refine List.countP_mono_left fun r _ hr => ?_
  cases r with
  | derivation lhs rhs => rfl
  | selection lhs alternatives => cases hr

theorem foldEmpties_loops (g : Grammar) (tags : Tagging) (s : Session) :
    ∃ n ≤ (Metrics.of g).derivations + 1, FoldLoop n g tags s (foldEmpties g tags s) := by
  obtain ⟨n, hn, hloop⟩ := foldRounds_loops g tags s
    (Nat.lt_succ_of_le (List.countP_le_length : _ ≤ g.size))
  exact ⟨n, hn.trans (Nat.succ_le_succ (countP_isUnled_le g)), hloop⟩

/-- What a round keeps holds when the loop is over, and then no rule is empty. -/
theorem FoldLoop.keeps {I : Grammar → Tagging → Session → Prop}
    (hround : ∀ {g tags s g' tags' s'}, I g tags s →
      foldRound g tags s = .ok (g', tags') s' → I g' tags' s') {n : Nat}
    (h : FoldLoop n g tags s (.ok (g', tags') s')) (hI : I g tags s) :
    I g' tags' s' ∧ g'.emptyVariables.isEmpty = true := by
  generalize hresult : EStateM.Result.ok (g', tags') s' = result at h
  induction h with
  | done hempty =>
    cases hresult
    exact ⟨hI, hempty⟩
  | failed => cases hresult
  | next _ hfirst _ ih => exact ih (hround hI hfirst) hresult

end Loop

end FluentGrammar
