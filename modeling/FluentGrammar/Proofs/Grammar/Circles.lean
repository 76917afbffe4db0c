import FluentGrammar.Proofs.Grammar.Validation
import Mathlib.Data.List.Chain

/-! # Circles of references

    What the search for circles does is said here without a bound on its depth. The search
    ends for all rules, because the variables on a path are different; it ends in one way;
    and a circle that it ends with leads along references back to where it began. The bounded
    search is this search, so validation accepts exactly the well-formed rules and reports a
    circle exactly when nothing else is at fault.
-/

namespace FluentGrammar

/-! ## Circles -/

/-- The rule of the first variable refers to the second one, as it is written there. -/
def Mentions (rules : List Rule) (u v : Variable) : Prop :=
  ∃ r ∈ rules, r.lhs.id = u.id ∧ v ∈ r.references

/-- Different variables and the first of them once more, each mentioned by the rule of the one
    before it. -/
def IsCircle (rules : List Rule) (c : List Variable) : Prop :=
  ∃ first rest back, c = first :: rest ++ [back] ∧ back.id = first.id ∧
    Distinct (first :: rest) ∧ c.IsChain (Mentions rules)

theorem mentions_of_mem_referencesOf {rules : List Rule} {v w : Variable}
    (hw : w ∈ referencesOf rules v) : Mentions rules v w := by
  unfold referencesOf at hw
  cases hfind : rules.find? (fun r => r.lhs == v) with
  | none => simp [hfind] at hw
  | some r =>
    have hrv : r.lhs.id = v.id := by simpa using List.find?_some hfind
    exact ⟨r, List.mem_of_find?_eq_some hfind, hrv, by simpa [hfind] using hw⟩

theorem distinct_append_singleton {path : List Variable} {w : Variable} (h : Distinct path)
    (hw : path.contains w = false) : Distinct (path ++ [w]) := by
  refine List.pairwise_append.mpr ⟨h, List.pairwise_singleton .., ?_⟩
  intro u hu v hv heq
  rw [List.mem_singleton.mp hv] at heq
  exact contains_eq_false_iff.mp hw (heq ▸ List.mem_map_of_mem hu)

/-- The part of a path from a variable on leads to that variable, if it is on the path. -/
theorem exists_cons_dropWhile {path : List Variable} {w : Variable}
    (hw : path.contains w = true) :
    ∃ first rest, path.dropWhile (fun u => u != w) = first :: rest ∧ w.id = first.id := by
  induction path with
  | nil => cases hw
  | cons u path ih =>
    rw [List.dropWhile_cons]
    by_cases hu : u.id = w.id
    · exact ⟨u, path, by simp [bne, hu], hu.symm⟩
    · have hrest : path.contains w = true := by
        rw [contains_iff_mem_ids] at hw ⊢
        exact (List.mem_cons.mp hw).resolve_left fun heq => hu heq.symm
      rw [if_pos (by simp [bne, Bool.eq_false_iff, hu])]
      exact ih hrest

/-- A variable on the path that leads to it closes a circle. -/
theorem isCircle_of_back {rules : List Rule} {path : List Variable} {w : Variable}
    (hdistinct : Distinct path) (hchain : (path ++ [w]).IsChain (Mentions rules))
    (hw : path.contains w = true) :
    IsCircle rules (path.dropWhile (fun u => u != w) ++ [w]) := by
  obtain ⟨first, rest, hdrop, hid⟩ := exists_cons_dropWhile hw
  obtain ⟨before, hbefore⟩ : first :: rest <:+ path := hdrop ▸ List.dropWhile_suffix _
  rw [← hbefore] at hdistinct hchain
  rw [List.append_assoc] at hchain
  rw [hdrop]
  exact ⟨first, rest, w, rfl, hid, (List.pairwise_append.mp hdistinct).2.1,
    hchain.right_of_append⟩

/-! ## The search -/

/-- The search for circles, with no bound on its depth. The pending variables are followed one
    after the other; `path` leads to each of them, and the variables in `done` lead to no
    circle. -/
inductive Explores (references : Variable → List Variable) :
    (path done pending : List Variable) → Except (List Variable) (List Variable) → Prop where
  /-- All variables have been followed. -/
  | nil {path done : List Variable} : Explores references path done [] (.ok done)
  /-- A variable is on the path that leads to it. -/
  | back {path done pending : List Variable} {w : Variable} (hpath : path.contains w = true) :
      Explores references path done (w :: pending)
        (.error (path.dropWhile (fun u => u != w) ++ [w]))
  /-- The search is done with a variable already. -/
  | skip {path done pending : List Variable} {w : Variable}
      {result : Except (List Variable) (List Variable)} (hpath : path.contains w = false)
      (hdone : done.contains w = true) (hrest : Explores references path done pending result) :
      Explores references path done (w :: pending) result
  /-- There is a circle below a variable. -/
  | broken {path done pending : List Variable} {w : Variable} {c : List Variable}
      (hpath : path.contains w = false) (hdone : done.contains w = false)
      (hbelow : Explores references (path ++ [w]) done (references w) (.error c)) :
      Explores references path done (w :: pending) (.error c)
  /-- There is none, and the search is done with the variable. -/
  | settled {path done done' pending : List Variable} {w : Variable}
      {result : Except (List Variable) (List Variable)} (hpath : path.contains w = false)
      (hdone : done.contains w = false)
      (hbelow : Explores references (path ++ [w]) done (references w) (.ok done'))
      (hrest : Explores references path (w :: done') pending result) :
      Explores references path done (w :: pending) result

/-- The search ends in one way. -/
theorem Explores.unique {references : Variable → List Variable}
    {path done pending : List Variable} {result : Except (List Variable) (List Variable)}
    (h : Explores references path done pending result)
    {result' : Except (List Variable) (List Variable)}
    (h' : Explores references path done pending result') : result' = result := by
  -- What the path and the finished variables hold tells the rules apart.
  induction h generalizing result' with
  | nil => cases h'; rfl
  | back hpath =>
    cases h' with
    | back => rfl
    | skip hpath' | broken hpath' | settled hpath' => simp [hpath] at hpath'
  | skip hpath hdone _ ih =>
    cases h' with
    | back hpath' => simp [hpath] at hpath'
    | skip _ _ hrest' => exact ih hrest'
    | broken _ hdone' | settled _ hdone' => simp [hdone] at hdone'
  | broken hpath hdone _ ih =>
    cases h' with
    | back hpath' => simp [hpath] at hpath'
    | skip _ hdone' => simp [hdone] at hdone'
    | broken _ _ hbelow' => exact ih hbelow'
    | settled _ _ hbelow' => cases ih hbelow'
  | settled hpath hdone _ _ ihbelow ihrest =>
    cases h' with
    | back hpath' => simp [hpath] at hpath'
    | skip _ hdone' => simp [hdone] at hdone'
    | broken _ _ hbelow' => cases ihbelow hbelow'
    | settled _ _ hbelow' hrest' =>
      cases ihbelow hbelow'
      exact ihrest hrest'

/-- A circle that the search ends with is one, when references lead along the path to all
    pending variables. -/
theorem Explores.isCircle {rules : List Rule} {path done pending c : List Variable}
    (h : Explores (referencesOf rules) path done pending (.error c)) (hdistinct : Distinct path)
    (hchain : ∀ w ∈ pending, (path ++ [w]).IsChain (Mentions rules)) : IsCircle rules c := by
  generalize hresult : Except.error c = result at h
  -- One variable further on, the path leads to everything that the variable refers to.
  have hbelow : ∀ (path : List Variable) (w : Variable),
      (path ++ [w]).IsChain (Mentions rules) →
      ∀ u ∈ referencesOf rules w, ((path ++ [w]) ++ [u]).IsChain (Mentions rules) := by
    intro path w hw u hu
    refine List.isChain_append.mpr ⟨hw, .singleton u, ?_⟩
    intro x hx y hy
    rw [List.getLast?_concat, Option.mem_def, Option.some.injEq] at hx
    rw [List.head?_cons, Option.mem_def, Option.some.injEq] at hy
    exact hx ▸ hy ▸ mentions_of_mem_referencesOf hu
  induction h with
  | nil => cases hresult
  | back hpath =>
    cases hresult
    exact isCircle_of_back hdistinct (hchain _ (List.mem_cons_self ..)) hpath
  | skip _ _ _ ih =>
    exact ih hdistinct (fun w hw => hchain w (List.mem_cons_of_mem _ hw)) hresult
  | broken hpath _ _ ih =>
    exact ih (distinct_append_singleton hdistinct hpath)
      (hbelow _ _ (hchain _ (List.mem_cons_self ..))) hresult
  | settled _ _ _ _ _ ih =>
    exact ih hdistinct (fun w hw => hchain w (List.mem_cons_of_mem _ hw)) hresult

/-! ## The bounded search -/

/-- The bounded search goes through the pending variables as it should when it does so below
    each of them. -/
theorem explores_foldlM {rules : List Rule} {fuel : Nat} {path pending : List Variable}
    (hbelow : ∀ done, ∀ w ∈ pending, path.contains w = false →
      ∃ result, Explores (referencesOf rules) (path ++ [w]) done (referencesOf rules w) result ∧
        searchCircle (referencesOf rules) fuel path done w = result.map (w :: ·)) :
    ∀ done, Explores (referencesOf rules) path done pending
      (pending.foldlM (circleStep rules fuel path) done) := by
  induction pending with
  | nil =>
    intro done
    exact .nil
  | cons w pending ih =>
    intro done
    have hrest := ih fun d u hu => hbelow d u (List.mem_cons_of_mem _ hu)
    rw [List.foldlM_cons]
    unfold circleStep
    -- The three tests of a step are the rules of the account: on the path, done already, or new.
    by_cases hpath : path.contains w = true
    · rw [if_pos hpath]
      exact .back hpath
    · rw [if_neg hpath]
      have hpath' : path.contains w = false := by simpa using hpath
      by_cases hdone : done.contains w = true
      · rw [if_pos hdone]
        exact .skip hpath' hdone (hrest done)
      · rw [if_neg hdone]
        have hdone' : done.contains w = false := by simpa using hdone
        obtain ⟨result, hexplores, hrun⟩ := hbelow done w (List.mem_cons_self ..) hpath'
        rw [hrun]
        cases result with
        | error c => exact .broken hpath' hdone' hexplores
        | ok done' => exact .settled hpath' hdone' hexplores (hrest (w :: done'))

/-- With as much fuel as there are variables off the path, the bounded search is the search. -/
theorem explores_of_fuel {rules : List Rule} (ids : List Nat)
    (hids : ∀ v, ∀ w ∈ referencesOf rules v, w.id ∈ ids) :
    ∀ (fuel : Nat) (path done pending : List Variable),
      (path.map (·.id)).Nodup → path.map (·.id) ⊆ ids → (∀ w ∈ pending, w.id ∈ ids) →
      ids.length ≤ fuel + path.length →
      Explores (referencesOf rules) path done pending
        (pending.foldlM (circleStep rules fuel path) done) := by
  intro fuel
  induction fuel with
  | zero =>
    intro path done pending hnodup hsub hpending hfuel
    apply explores_foldlM
    intro done w hw hfresh
    -- The path would hold all variables, and `w` besides.
    have hcons : (w.id :: path.map (·.id)).Subperm ids :=
      (List.nodup_cons.mpr ⟨contains_eq_false_iff.mp hfresh, hnodup⟩).subperm
        (List.cons_subset.mpr ⟨hpending w hw, hsub⟩)
    have hle := hcons.length_le
    rw [List.length_cons, List.length_map] at hle
    omega
  | succ fuel ih =>
    intro path done pending hnodup hsub hpending hfuel
    apply explores_foldlM
    intro done w hw hfresh
    refine ⟨_, ?_, searchCircle_succ⟩
    apply ih
    · rw [List.map_append, List.nodup_append]
      refine ⟨hnodup, List.nodup_singleton _, ?_⟩
      intro i hi j hj hij
      rw [List.map_singleton, List.mem_singleton] at hj
      exact contains_eq_false_iff.mp hfresh (hj ▸ hij ▸ hi)
    · rw [List.map_append]
      exact List.append_subset.mpr ⟨hsub, by simpa using hpending w hw⟩
    · exact hids w
    · rw [List.length_append, List.length_singleton]
      omega

/-- The search for circles among rules, from all left-hand sides in order. -/
def Searched (rules : List Rule) (result : Except (List Variable) (List Variable)) : Prop :=
  Explores (referencesOf rules) [] [] (rules.map Rule.lhs) result

/-- The search ends, whatever the rules are. -/
theorem exists_searched (rules : List Rule) : ∃ result, Searched rules result := by
  let ids := (rules.map Rule.lhs ++ rules.flatMap Rule.references).map (·.id)
  refine ⟨_, explores_of_fuel ids ?_ ids.length [] [] _ List.nodup_nil
    (List.nil_subset _) ?_ (Nat.le_refl _)⟩
  · intro v w hw
    obtain ⟨r, hr, -, hmem⟩ := mentions_of_mem_referencesOf hw
    exact List.mem_map_of_mem (List.mem_append_right _ (List.mem_flatMap.mpr ⟨r, hr, hmem⟩))
  · intro w hw
    exact List.mem_map_of_mem (List.mem_append_left _ hw)

theorem Searched.isCircle {rules : List Rule} {c : List Variable}
    (h : Searched rules (.error c)) : IsCircle rules c :=
  Explores.isCircle h List.Pairwise.nil fun w _ => .singleton w

/-- A circle is found exactly when the search ends with it. -/
theorem findCircle_eq_some_iff_searched {rules : List Rule}
    (hclosed : ∀ r ∈ rules, ∀ v ∈ r.references, Defines rules v) {c : List Variable} :
    findCircle rules = some c ↔ Searched rules (.error c) := by
  have hrun : Searched rules
      ((rules.map Rule.lhs).foldlM (circleStep rules rules.length []) []) := by
    refine explores_of_fuel (ruleIds rules) ?_ rules.length [] [] _ List.nodup_nil
      (List.nil_subset _) ?_ (length_ruleIds rules).le
    · intro v w hw
      obtain ⟨r, hr, -, hmem⟩ := mentions_of_mem_referencesOf hw
      exact defines_iff_mem_ruleIds.mp (hclosed r hr w hmem)
    · intro w hw
      obtain ⟨r, hr, rfl⟩ := List.mem_map.mp hw
      exact mem_ruleIds_of_mem hr
  rw [findCircle_eq_some]
  constructor
  · intro h
    exact h ▸ hrun
  · intro h
    exact Explores.unique h hrun

/-! ## Validation -/

/-- Rules with no fault, unless references among them run in a circle. -/
structure CirclesAside (start : Variable) (rules : List Rule) : Prop where
  distinct : Distinct (rules.map Rule.lhs)
  start_defined : Defines rules start
  selections : ∀ lhs alternatives, Rule.selection lhs alternatives ∈ rules →
    2 ≤ alternatives.length ∧ Distinct alternatives
  closed : ∀ r ∈ rules, ∀ v ∈ r.references, Defines rules v

/-- A circle is the first fault exactly when it is found and there is no fault before it. -/
theorem firstFault_eq_recursive {start : Variable} {rules : List Rule} {c : List Variable} :
    firstFault start rules = some (.recursive c) ↔
      CirclesAside start rules ∧ findCircle rules = some c := by
  have hstart : ((if rules.any (fun r => r.lhs == start) then none
      else some (GrammarError.missingStartRule start)) = none) ↔ Defines rules start := by
    rw [defines_iff_mem_ruleIds, ← any_lhs_iff]
    split <;> simp_all
  have hother : (if rules.any (fun r => r.lhs == start) then none
      else some (GrammarError.missingStartRule start)) ≠ some (.recursive c) := by
    split <;> simp
  -- No other fault is a circle, so there is none of those that are looked for before.
  unfold firstFault
  simp only [Option.or_eq_some_iff, Option.map_eq_some_iff, Option.map_eq_none_iff, reduceCtorEq,
    and_false, exists_false, false_or, hother, hstart, firstRepeated_eq_none, malformed_eq_none,
    dangling_eq_none, GrammarError.recursive.injEq, exists_eq_right]
  constructor
  · rintro ⟨hdistinct, hdefined, hselections, hclosed, hfound⟩
    exact ⟨⟨hdistinct, hdefined, hselections, hclosed⟩, hfound⟩
  · rintro ⟨h, hfound⟩
    exact ⟨h.distinct, h.start_defined, h.selections, h.closed, hfound⟩

theorem CirclesAside.perm {start : Variable} {rules rules' : List Rule}
    (h : CirclesAside start rules) (hperm : rules.Perm rules') : CirclesAside start rules' where
  distinct := distinct_iff_nodup.mpr
    ((hperm.map _).nodup_iff.mp (distinct_iff_nodup.mp h.distinct))
  start_defined := (defines_perm hperm).mp h.start_defined
  selections := fun lhs alternatives hr => h.selections lhs alternatives (hperm.mem_iff.mpr hr)
  closed := fun r hr v hv => (defines_perm hperm).mp (h.closed r (hperm.mem_iff.mpr hr) v hv)

theorem IsCircle.of_subset {rules rules' : List Rule} (hsub : rules ⊆ rules')
    {c : List Variable} (h : IsCircle rules c) : IsCircle rules' c := by
  obtain ⟨first, rest, back, hc, hback, hdistinct, hchain⟩ := h
  refine ⟨first, rest, back, hc, hback, hdistinct, hchain.imp ?_⟩
  rintro u v ⟨r, hr, hru, hv⟩
  exact ⟨r, hsub hr, hru, hv⟩

namespace Grammar

/-- Rules make a grammar exactly when they are well formed. The search for circles always ends,
    and in one way. A circle is reported exactly when there is no fault before it and the search
    ends with it, and then it is one. -/
theorem ofRules_exact (start : Variable) (rules : List Rule) :
    ((∃ g, Grammar.ofRules start rules = .ok g) ↔ WellFormed start rules) ∧
    (∃! result, Searched (sortRules rules) result) ∧
    ∀ c, Grammar.ofRules start rules = .error (.recursive c) ↔
      CirclesAside start rules ∧ Searched (sortRules rules) (.error c) ∧ IsCircle rules c := by
  have hperm : (sortRules rules).Perm rules := sortOn_perm Rule.lhs rules
  refine ⟨?_, ?_, fun c => ?_⟩
  · simp only [ofRules_eq_ok, exists_and_left, exists_eq, and_true]
  · obtain ⟨result, hresult⟩ := exists_searched (sortRules rules)
    exact ⟨result, hresult, fun _ h => Explores.unique hresult h⟩
  · rw [ofRules_eq_error_iff, firstFault_eq_recursive]
    constructor
    · rintro ⟨haside, hfound⟩
      have hsearched := (findCircle_eq_some_iff_searched haside.closed).mp hfound
      exact ⟨haside.perm hperm, hsearched, hsearched.isCircle.of_subset hperm.subset⟩
    · rintro ⟨haside, hsearched, -⟩
      have haside' := haside.perm hperm.symm
      exact ⟨haside', (findCircle_eq_some_iff_searched haside'.closed).mpr hsearched⟩

/-- The circle begins and ends with one variable, under the name that it has at either place. -/
example : Grammar.ofRules ⟨0, "A"⟩
    [.derivation ⟨1, "B"⟩ [.term ⟨"x", []⟩, .var ⟨2, "C"⟩],
     .derivation ⟨2, "C"⟩ [.var ⟨1, "D"⟩],
     .derivation ⟨0, "A"⟩ [.var ⟨1, "B"⟩]] =
      .error (.recursive [⟨1, "B"⟩, ⟨2, "C"⟩, ⟨1, "D"⟩]) := by
  cbv

end Grammar

end FluentGrammar
