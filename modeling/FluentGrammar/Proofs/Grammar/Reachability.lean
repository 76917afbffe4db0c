import FluentGrammar.Grammar.Reachability
import FluentGrammar.Proofs.Grammar.Validation

/-! # Reachability and pruning

    The work list collects exactly the variables that references and extra edges lead to:
    every visit takes one variable off the list, and what a variable leads to is put on it
    once, so the visits that are counted beforehand suffice. Pruning keeps a valid grammar
    valid, and what it keeps is reachable in what is left.
-/

namespace FluentGrammar

/-- The first variable leads to the second one, by a reference or by an extra edge. Variables
    are given by their ids. -/
def Leads (g : Grammar) (extra : List Edge) (i j : Nat) : Prop :=
  RefersTo g.rules i j ∨ ∃ e ∈ extra, e.1.id = i ∧ e.2.id = j

/-- A path of references and extra edges leads from the start variable to the variable. -/
def Grammar.Reaches (g : Grammar) (extra : List Edge) (i : Nat) : Prop :=
  Relation.ReflTransGen (Leads g extra) g.start.id i

/-- What a reachable variable leads to by references is reachable. -/
theorem Grammar.Reaches.of_refersTo {g : Grammar} {extra : List Edge} {i j : Nat}
    (h : g.Reaches extra i) (hpath : Relation.ReflTransGen (RefersTo g.rules) i j) :
    g.Reaches extra j :=
  Relation.ReflTransGen.trans h
    (Relation.ReflTransGen.mono (fun _ _ hrefers => Or.inl hrefers) _ _ hpath)

/-- More edges reach no less. -/
theorem Grammar.Reaches.mono {g : Grammar} {extra : List Edge} {i : Nat} (h : g.Reaches [] i) :
    g.Reaches extra i := by
  unfold Grammar.Reaches at h ⊢
  refine Relation.ReflTransGen.mono (fun i j hleads => ?_) _ _ h
  rcases hleads with href | ⟨e, he, -⟩
  · exact Or.inl href
  · cases he

/-! ## The work list -/

section WorkList

variable {next : Variable → List Variable}

/-- What is collected was collected before or is led to from a pending variable. -/
theorem collectReachable_sound {R : Nat → Nat → Prop}
    (hnext : ∀ v, ∀ w ∈ next v, R v.id w.id) (fuel : Nat) (pending seen : List Variable) :
    ∀ v ∈ Grammar.collectReachable next fuel pending seen,
      v ∈ seen ∨ ∃ u ∈ pending, Relation.ReflTransGen R u.id v.id := by
  -- The successors of a visited variable go in front of the pending ones, and a path from one of
  -- them is a path from the variable.
  induction fuel generalizing pending seen with
  | zero =>
    intro v hv
    exact Or.inl (by simpa [Grammar.collectReachable] using hv)
  | succ fuel ih =>
    intro v hv
    cases pending with
    | nil => exact Or.inl (by simpa [Grammar.collectReachable] using hv)
    | cons u pending =>
      rw [Grammar.collectReachable] at hv
      split at hv
      · rcases ih pending seen v hv with hseen | ⟨t, ht, htv⟩
        · exact Or.inl hseen
        · exact Or.inr ⟨t, List.mem_cons_of_mem _ ht, htv⟩
      · rcases ih _ _ v hv with hseen | ⟨t, ht, htv⟩
        · rcases List.mem_cons.mp hseen with rfl | hseen
          · exact Or.inr ⟨v, List.mem_cons_self .., .refl⟩
          · exact Or.inl hseen
        · rcases List.mem_append.mp ht with ht | ht
          · exact Or.inr ⟨u, List.mem_cons_self ..,
              .head (hnext u t (List.mem_reverse.mp ht)) htv⟩
          · exact Or.inr ⟨t, List.mem_cons_of_mem _ ht, htv⟩

/-- What the seen variables lead to is seen as well, or still pending. -/
def ClosedUpTo (next : Variable → List Variable) (pending seen : List Variable) : Prop :=
  ∀ v ∈ seen, ∀ w ∈ next v, w.id ∈ seen.map (·.id) ∨ w.id ∈ pending.map (·.id)

theorem ClosedUpTo.closed {seen : List Variable} (h : ClosedUpTo next [] seen) :
    ∀ v ∈ seen, ∀ w ∈ next v, w.id ∈ seen.map (·.id) := by
  intro v hv w hw
  rcases h v hv w hw with hseen | hpending
  · exact hseen
  · cases hpending

/-- A variable that is seen already need not be pending. -/
theorem ClosedUpTo.skip {u : Variable} {pending seen : List Variable}
    (h : ClosedUpTo next (u :: pending) seen) (hu : u.id ∈ seen.map (·.id)) :
    ClosedUpTo next pending seen := by
  intro v hv w hw
  rcases h v hv w hw with hseen | hpending
  · exact Or.inl hseen
  · rw [List.map_cons, List.mem_cons] at hpending
    rcases hpending with heq | hpending
    · exact Or.inl (heq ▸ hu)
    · exact Or.inr hpending

/-- A variable is seen when what it leads to is pending. -/
theorem ClosedUpTo.visit {u : Variable} {pending seen : List Variable}
    (h : ClosedUpTo next (u :: pending) seen) :
    ClosedUpTo next ((next u).reverse ++ pending) (u :: seen) := by
  intro v hv w hw
  rw [List.map_append, List.mem_append]
  rcases List.mem_cons.mp hv with rfl | hv
  · exact Or.inr (Or.inl (List.mem_map_of_mem (List.mem_reverse.mpr hw)))
  · rcases h v hv w hw with hseen | hpending
    · exact Or.inl (List.mem_cons_of_mem _ hseen)
    · rw [List.map_cons, List.mem_cons] at hpending
      rcases hpending with heq | hpending
      · exact Or.inl (heq ▸ List.mem_cons_self ..)
      · exact Or.inr (Or.inr hpending)

/-- With enough fuel, all pending variables are collected, and all that they lead to. The
    cost of what is not seen yet pays for the variables that are put on the list. -/
theorem collectReachable_complete {cost : List Variable → Nat}
    (hcost : ∀ v seen, seen.contains v = false →
      cost (v :: seen) + (next v).length ≤ cost seen)
    (fuel : Nat) (pending seen : List Variable) (hfuel : pending.length + cost seen ≤ fuel)
    (hseen : ClosedUpTo next pending seen) :
    let reached := Grammar.collectReachable next fuel pending seen
    seen.map (·.id) ⊆ reached.map (·.id) ∧ pending.map (·.id) ⊆ reached.map (·.id) ∧
      ∀ v ∈ reached, ∀ w ∈ next v, w.id ∈ reached.map (·.id) := by
  induction fuel generalizing pending seen with
  | zero =>
    have hnil : pending = [] := List.length_eq_zero_iff.mp (by omega)
    subst hnil
    exact ⟨List.Subset.refl _, List.nil_subset _, hseen.closed⟩
  | succ fuel ih =>
    cases pending with
    | nil => exact ⟨List.Subset.refl _, List.nil_subset _, hseen.closed⟩
    | cons u pending =>
      rw [List.length_cons] at hfuel
      rw [Grammar.collectReachable]
      by_cases hu : seen.contains u = true
      · -- The variable comes off the list, and nothing is put on it.
        rw [if_pos hu]
        have huseen := contains_iff_mem_ids.mp hu
        obtain ⟨h₁, h₂, h₃⟩ := ih pending seen (by omega) (hseen.skip huseen)
        refine ⟨h₁, ?_, h₃⟩
        rw [List.map_cons, List.cons_subset]
        exact ⟨h₁ huseen, h₂⟩
      · rw [if_neg hu]
        -- The cost that is saved is at least the number of variables that are put on the list.
        have hpay := hcost u seen (by simpa using hu)
        have hlength : ((next u).reverse ++ pending).length =
            (next u).length + pending.length := by
          rw [List.length_append, List.length_reverse]
        obtain ⟨h₁, h₂, h₃⟩ := ih _ _ (by omega) hseen.visit
        rw [List.map_cons, List.cons_subset] at h₁
        rw [List.map_append, List.append_subset] at h₂
        refine ⟨h₁.2, ?_, h₃⟩
        rw [List.map_cons, List.cons_subset]
        exact ⟨h₁.1, h₂.2⟩

end WorkList

/-! ## The reachable variables of a grammar -/

namespace Grammar

variable {g : Grammar} {extra : List Edge}

theorem leads_of_mem_successors {v w : Variable} (hw : w ∈ g.successors extra v) :
    Leads g extra v.id w.id := by
  rcases List.mem_append.mp hw with hw | hw
  · exact Or.inl (refersTo_of_mem_referencesOf hw)
  · simp only [targetsFrom, List.mem_map, List.mem_filter, Variable.beq_iff] at hw
    obtain ⟨e, ⟨he, hev⟩, rfl⟩ := hw
    exact Or.inr ⟨e, he, hev, rfl⟩

theorem exists_successor_of_leads (hnodup : (ruleIds g.rules).Nodup) {v : Variable} {j : Nat}
    (h : Leads g extra v.id j) : ∃ w ∈ g.successors extra v, w.id = j := by
  rcases h with ⟨r, hr, hrv, w, hw, rfl⟩ | ⟨e, he, hev, rfl⟩
  · refine ⟨w, List.mem_append_left _ ?_, rfl⟩
    rw [rule?_of_mem hnodup hr hrv]
    exact hw
  · refine ⟨e.2, List.mem_append_right _ ?_, rfl⟩
    simp only [targetsFrom, List.mem_map, List.mem_filter, Variable.beq_iff]
    exact ⟨e, ⟨he, hev⟩, rfl⟩

/-- References and edges that leave variables that are not seen yet. -/
def pendingCost (rules : List Rule) (extra : List Edge) (seen : List Variable) : Nat :=
  ((rules.filter (fun r => !seen.contains r.lhs)).flatMap Rule.references).length +
    (extra.filter (fun e => !seen.contains e.1)).length

theorem contains_congr {seen : List Variable} {v w : Variable} (h : v.id = w.id) :
    seen.contains v = seen.contains w := by
  rw [Bool.eq_iff_iff, contains_iff_mem_ids, contains_iff_mem_ids, h]

theorem contains_cons_of_ne {seen : List Variable} {v w : Variable} (h : w.id ≠ v.id) :
    (v :: seen).contains w = seen.contains w := by
  rw [Bool.eq_iff_iff, contains_iff_mem_ids, contains_iff_mem_ids, List.map_cons,
    List.mem_cons]
  simp [h]

/-- The references of a rule are paid for when its variable is seen. -/
theorem length_references_le (rules : List Rule) (v : Variable) (seen : List Variable)
    (hv : seen.contains v = false) :
    ((rules.filter (fun r => !(v :: seen).contains r.lhs)).flatMap Rule.references).length +
        (referencesOf rules v).length ≤
      ((rules.filter (fun r => !seen.contains r.lhs)).flatMap Rule.references).length := by
  unfold referencesOf
  induction rules with
  | nil => simp
  | cons r rules ih =>
    by_cases hr : r.lhs.id = v.id
    · -- This is the rule whose references are wanted; it is pending no longer.
      have hin : (v :: seen).contains r.lhs = true :=
        contains_iff_mem_ids.mpr (by simp [hr])
      have hout : seen.contains r.lhs = false := by rw [contains_congr hr, hv]
      have hfind : (r :: rules).find? (fun s => s.lhs == v) = some r := by
        rw [List.find?_cons_of_pos (by simpa using hr)]
      rw [hfind, List.filter_cons_of_neg (by simp only [hin]; decide),
        List.filter_cons_of_pos (by simp only [hout]; decide)]
      rw [List.flatMap_cons, List.length_append]
      simp only [Option.map_some, Option.getD_some]
      omega
    · -- Any other rule is pending with the variable seen just as without it.
      have hsame := @contains_cons_of_ne seen _ _ hr
      have hfind : (r :: rules).find? (fun s => s.lhs == v) =
          rules.find? (fun s => s.lhs == v) := by
        rw [List.find?_cons_of_neg (by simpa using hr)]
      rw [hfind]
      by_cases hseen : seen.contains r.lhs = true
      · rw [List.filter_cons_of_neg (by simp only [hsame, hseen]; decide),
          List.filter_cons_of_neg (by simp only [hseen]; decide)]
        exact ih
      · have hseen' : seen.contains r.lhs = false := by simpa using hseen
        rw [List.filter_cons_of_pos (by simp only [hsame, hseen']; decide),
          List.filter_cons_of_pos (by simp only [hseen']; decide)]
        simp only [List.flatMap_cons, List.length_append]
        omega

/-- The edges from a variable are paid for when it is seen. -/
theorem length_targetsFrom_le (v : Variable) (seen : List Variable)
    (hv : seen.contains v = false) :
    (extra.filter (fun e => !(v :: seen).contains e.1)).length +
        (targetsFrom extra v).length ≤
      (extra.filter (fun e => !seen.contains e.1)).length := by
  unfold targetsFrom
  rw [List.length_map]
  induction extra with
  | nil => simp
  | cons e extra ih =>
    by_cases he : e.1.id = v.id
    · have hin : (v :: seen).contains e.1 = true := contains_iff_mem_ids.mpr (by simp [he])
      have hout : seen.contains e.1 = false := by rw [contains_congr he, hv]
      rw [List.filter_cons_of_neg (by simp only [hin]; decide),
        List.filter_cons_of_pos (by simpa using he),
        List.filter_cons_of_pos (by simp only [hout]; decide)]
      simp only [List.length_cons]
      omega
    · -- Seeing the variable does not matter to an edge from another one.
      have hsame := @contains_cons_of_ne seen _ _ he
      rw [List.filter_cons_of_neg (p := fun e : Edge => e.1 == v) (by simpa using he)]
      by_cases hseen : seen.contains e.1 = true
      · rw [List.filter_cons_of_neg (by simp only [hsame, hseen]; decide),
          List.filter_cons_of_neg (by simp only [hseen]; decide)]
        exact ih
      · have hseen' : seen.contains e.1 = false := by simpa using hseen
        rw [List.filter_cons_of_pos (by simp only [hsame, hseen']; decide),
          List.filter_cons_of_pos (by simp only [hseen']; decide)]
        simp only [List.length_cons]
        omega

/-- What a variable leads to is paid for when it is seen. -/
theorem pendingCost_cons_le (g : Grammar) (extra : List Edge) (v : Variable)
    (seen : List Variable) (hv : seen.contains v = false) :
    pendingCost g.rules extra (v :: seen) + (g.successors extra v).length ≤
      pendingCost g.rules extra seen := by
  have href := length_references_le g.rules v seen hv
  have hedge := @length_targetsFrom_le extra v seen hv
  have hlength : (g.successors extra v).length =
      (referencesOf g.rules v).length + (targetsFrom extra v).length :=
    List.length_append
  simp only [pendingCost]
  omega

/-- The visits that are counted beforehand suffice. -/
theorem start_cost_le (g : Grammar) (extra : List Edge) :
    [g.start].length + pendingCost g.rules extra [] ≤
      1 + (g.rules.flatMap Rule.references).length + extra.length := by
  simp [pendingCost]
  omega

/-- The reachable variables are those that a path from the start variable leads to. -/
theorem mem_reachable_iff (hnodup : (ruleIds g.rules).Nodup) {v : Variable} :
    (g.reachable extra).contains v = true ↔ g.Reaches extra v.id := by
  rw [contains_iff_mem_ids]
  constructor
  · intro hv
    obtain ⟨u, hu, huv⟩ := List.mem_map.mp hv
    have hsound := collectReachable_sound (R := Leads g extra)
      (fun v w hw => leads_of_mem_successors hw) _ _ _ u hu
    rcases hsound with hnil | ⟨s, hs, hsu⟩
    · cases hnil
    · rw [List.mem_singleton.mp hs] at hsu
      exact huv ▸ hsu
  · intro hreach
    obtain ⟨-, hstart, hclosed⟩ := collectReachable_complete (pendingCost_cons_le g extra) _
      [g.start] [] (start_cost_le g extra) (fun _ hv => absurd hv List.not_mem_nil)
    unfold Reaches at hreach
    generalize v.id = i at hreach ⊢
    -- What is collected holds the start variable and is closed under every step of a path.
    induction hreach with
    | refl => exact hstart (List.mem_singleton.mpr rfl)
    | tail _ hstep ih =>
      obtain ⟨u, hu, hui⟩ := List.mem_map.mp ih
      obtain ⟨w, hw, rfl⟩ := exists_successor_of_leads hnodup (hui ▸ hstep)
      exact hclosed u hu w hw

/-! ## Pruning -/

/-- The rules of the pruned grammar are those of the reachable variables. -/
theorem mem_rules_prune (hnodup : (ruleIds g.rules).Nodup) {r : Rule} :
    r ∈ (g.prune extra).1.rules ↔ r ∈ g.rules ∧ g.Reaches extra r.lhs.id := by
  simp only [prune, List.partition_eq_filter_filter, List.mem_filter,
    mem_reachable_iff hnodup]

@[simp] theorem start_prune : (g.prune extra).1.start = g.start := rfl

theorem rules_prune_sublist : (g.prune extra).1.rules.Sublist g.rules := by
  simp only [prune, List.partition_eq_filter_filter]
  exact List.filter_sublist

/-- What is reachable is reachable in the pruned grammar, if all edges from what is reachable
    are left. -/
theorem reaches_prune (hnodup : (ruleIds g.rules).Nodup) {left : List Edge}
    (hleft : ∀ e ∈ extra, g.Reaches extra e.1.id → e ∈ left) {i : Nat}
    (h : g.Reaches extra i) : (g.prune extra).1.Reaches left i := by
  unfold Reaches at h hleft ⊢
  induction h with
  | refl => exact .refl
  | @tail j k hpath hstep ih =>
    refine .tail ih ?_
    rcases hstep with ⟨r, hr, hrj, hv⟩ | ⟨e, he, hej, hek⟩
    · exact Or.inl ⟨r, (mem_rules_prune hnodup).mpr ⟨hr, hrj ▸ hpath⟩, hrj, hv⟩
    · exact Or.inr ⟨e, hleft e he (hej ▸ hpath), hej, hek⟩

end Grammar

/-- A part of well-formed rules that holds the rule of the start variable and the rules of
    all variables that it refers to is well formed. -/
theorem WellFormed.restrict {start : Variable} {rules part : List Rule}
    (h : WellFormed start rules) (hpart : part.Sublist rules) (hstart : Defines part start)
    (hclosed : ∀ r ∈ part, ∀ v ∈ r.references, Defines part v) : WellFormed start part := by
  constructor
  · exact distinct_iff_nodup.mpr ((hpart.map _).nodup h.nodup_ruleIds)
  · exact hstart
  · intro lhs alternatives hr
    exact h.selections lhs alternatives (hpart.subset hr)
  · exact hclosed
  · intro i hi
    have hsub : RefersTo part ≤ RefersTo rules := by
      intro j k hex
      obtain ⟨r, hr, hj, hk⟩ := hex
      exact ⟨r, hpart.subset hr, hj, hk⟩
    exact h.acyclic i (Relation.TransGen.mono hsub i i hi)

namespace Grammar

variable {g : Grammar} {extra : List Edge}

/-- Pruning keeps a grammar valid, although it does not validate what it makes. -/
theorem Valid.prune (h : g.Valid) (extra : List Edge) : (g.prune extra).1.Valid := by
  have hnodup := h.well_formed.nodup_ruleIds
  have hkept : ∀ v, Defines g.rules v → g.Reaches extra v.id →
      Defines (g.prune extra).1.rules v := by
    rintro v ⟨r, hr, hrv⟩ hreach
    exact ⟨r, (mem_rules_prune hnodup).mpr ⟨hr, hrv ▸ hreach⟩, hrv⟩
  refine ⟨h.well_formed.restrict rules_prune_sublist ?_ ?_, ?_⟩
  · exact hkept g.start h.well_formed.start_defined .refl
  · intro r hr v hv
    obtain ⟨hr, hreach⟩ := (mem_rules_prune hnodup).mp hr
    exact hkept v (h.well_formed.closed r hr v hv)
      (.tail hreach (Or.inl (refersTo_of_mem hr hv)))
  · exact sortRules_of_sublist h.ordered rules_prune_sublist

/-- A rule that is kept by pruning is found as before. -/
theorem rule?_prune (h : g.Valid) {v : Variable}
    (hv : v.id ∈ ruleIds (g.prune extra).1.rules) :
    (g.prune extra).1.rule? v = g.rule? v := by
  obtain ⟨r, hr, hrv⟩ := mem_ruleIds.mp hv
  rw [rule?_of_mem (h.prune extra).well_formed.nodup_ruleIds hr hrv,
    rule?_of_mem h.well_formed.nodup_ruleIds (rules_prune_sublist.subset hr) hrv]

end Grammar

end FluentGrammar
