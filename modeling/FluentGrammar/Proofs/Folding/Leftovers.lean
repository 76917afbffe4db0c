import FluentGrammar.Proofs.Folding.Lossless

/-! # What folding leaves over

    A round drops only variables that are empty when it begins. So a variable is dropped from a
    derivation in one round only: the one that begins when its rule is empty. If it comes to the
    front of a derivation later than that, because a variable in front of it becomes empty more
    slowly, it stays there, although its rule is `<empty>` by then. In every other case nothing
    that reads nothing is left in front.
-/

namespace FluentGrammar

variable {g g₁ g' : Grammar} {tags tags' : Tagging} {s s' : Session}

/-! ## When symbols are gone -/

/-- Symbols that stand in front from round `n` on have all been dropped by round `k`. A variable
    is dropped in the round that begins when all of its own symbols are gone. -/
inductive Grammar.FoldsAway (g : Grammar) : Nat → List Symbol → Nat → Prop where
  /-- Nothing is left to be dropped. -/
  | nil (n : Nat) : FoldsAway g n [] n
  /-- The first variable is dropped, if it has not come to the front too late. -/
  | cons {n m k : Nat} {v lhs : Variable} {rhs rest : List Symbol}
      (rule : g.rule? v = some (.derivation lhs rhs)) (below : FoldsAway g 0 rhs m)
      (waits : n ≤ m + 1) (behind : FoldsAway g (m + 1) rest k) : FoldsAway g n (.var v :: rest) k

/-- The rule of a variable is empty after some rounds. -/
def Grammar.EmptyAfter (g : Grammar) (n : Nat) (v : Variable) : Prop :=
  ∃ lhs rhs, g.rule? v = some (.derivation lhs rhs) ∧ g.FoldsAway 0 rhs n

/-- Nothing that stands in front from round `n` on is dropped any more. -/
def Grammar.Stuck (g : Grammar) (n : Nat) (symbols : List Symbol) : Prop :=
  ∀ w rest, symbols = .var w :: rest → ∀ k, ¬ g.FoldsAway n [.var w] k

section FoldsAway

variable {n m k : Nat} {v w : Variable} {front rest extra : List Symbol}

theorem foldsAway_var :
    g.FoldsAway n [.var v] k ↔ ∃ m, g.EmptyAfter m v ∧ n ≤ m + 1 ∧ k = m + 1 := by
  constructor
  · intro h
    cases h with
    | cons rule below waits behind =>
      cases behind
      exact ⟨_, ⟨_, _, rule, below⟩, waits, rfl⟩
  · rintro ⟨m, ⟨lhs, rhs, rule, below⟩, waits, rfl⟩
    exact .cons rule below waits (.nil _)

theorem foldsAway_append :
    g.FoldsAway n (front ++ rest) k ↔ ∃ m, g.FoldsAway n front m ∧ g.FoldsAway m rest k := by
  constructor
  · intro h
    induction front generalizing n with
    | nil => exact ⟨n, .nil n, h⟩
    | cons x front ih =>
      cases h with
      | cons rule below waits behind =>
        obtain ⟨m, hfront, hrest⟩ := ih behind
        exact ⟨m, .cons rule below waits hfront, hrest⟩
  · rintro ⟨m, hfront, hrest⟩
    induction hfront with
    | nil => exact hrest
    | cons rule below waits _ _ ih => exact .cons rule below waits (ih hrest)

theorem Grammar.FoldsAway.le (h : g.FoldsAway n front k) : n ≤ k := by
  induction h with
  | nil => exact Nat.le_refl _
  | cons _ _ waits _ _ ih => exact waits.trans ih

/-- Symbols are gone by one round only. -/
theorem Grammar.FoldsAway.unique (h : g.FoldsAway n front k) (h' : g.FoldsAway n front m) :
    k = m := by
  induction h generalizing m with
  | nil =>
    cases h'
    rfl
  | cons rule _ _ _ ihbelow ihbehind =>
    cases h' with
    | cons rule' below' _ behind' =>
      cases rule.symm.trans rule'
      obtain rfl := ihbelow below'
      exact ihbehind behind'

theorem Grammar.Stuck.nil (g : Grammar) (n : Nat) : g.Stuck n [] :=
  fun _ _ h => nomatch h

theorem Grammar.Stuck.eq_nil (h : g.Stuck n (extra ++ rest)) (haway : g.FoldsAway n extra k) :
    extra = [] := by
  cases haway with
  | nil => rfl
  | cons rule below waits behind =>
    exact absurd (.cons rule below waits (.nil _)) (h _ _ rfl _)

/-- Of the symbols of a derivation, as many are dropped as possible, so it is clear which. -/
theorem Grammar.Stuck.unique {front' rest' : List Symbol} {n' : Nat} (h : g.Stuck n rest)
    (haway : g.FoldsAway 0 front n) (h' : g.Stuck n' rest') (haway' : g.FoldsAway 0 front' n')
    (heq : front ++ rest = front' ++ rest') : rest = rest' := by
  rcases List.append_eq_append_iff.mp heq with ⟨extra, rfl, rfl⟩ | ⟨extra, rfl, rfl⟩
  · obtain ⟨m, hfront, hextra⟩ := foldsAway_append.mp haway'
    obtain rfl := hfront.unique haway
    rw [h.eq_nil hextra, List.nil_append]
  · obtain ⟨m, hfront, hextra⟩ := foldsAway_append.mp haway
    obtain rfl := hfront.unique haway'
    rw [h'.eq_nil hextra, List.nil_append]

/-- What is empty when a round begins is gone when it is over. -/
theorem foldsAway_map {dropped : List Variable} (h : ∀ v ∈ dropped, g.EmptyAfter k v)
    (hne : dropped ≠ []) (hn : n ≤ k + 1) : g.FoldsAway n (dropped.map .var) (k + 1) := by
  induction dropped generalizing n with
  | nil => exact absurd rfl hne
  | cons v rest ih =>
    obtain ⟨lhs, rhs, rule, below⟩ := h v (List.mem_cons_self ..)
    refine .cons rule below hn ?_
    cases rest with
    | nil => exact .nil _
    | cons w rest =>
      exact ih (fun u hu => h u (List.mem_cons_of_mem _ hu)) (List.cons_ne_nil _ _) (Nat.le_refl _)

end FoldsAway

/-! ## Round by round -/

/-- What `k` rounds have made of a rule. -/
inductive Grammar.Stage (g : Grammar) (k : Nat) : Rule → Rule → Prop where
  /-- A selection stays. -/
  | selection (lhs : Variable) (alternatives : List Variable) :
      Stage g k (.selection lhs alternatives) (.selection lhs alternatives)
  /-- A derivation that was empty before is `<empty>`. -/
  | gone {n : Nat} (lhs : Variable) (rhs : List Symbol) (haway : g.FoldsAway 0 rhs n)
      (hn : n < k) : Stage g k (.derivation lhs rhs) (.derivation lhs [.term .empty])
  /-- Any other derivation has lost its front. What it starts with now has not been empty since
      it came to the front. -/
  | left {n : Nat} (lhs : Variable) (front rest : List Symbol) (haway : g.FoldsAway 0 front n)
      (hn : n ≤ k)
      (hnext : ∀ w behind, rest = .var w :: behind →
        ∀ m, g.EmptyAfter m w → n ≤ m + 1 → k ≤ m)
      (hwhole : rest = [] → n = k) :
      Stage g k (.derivation lhs (front ++ rest)) (.derivation lhs rest)

section Stages

variable {k m : Nat} {empties dropped : List Variable} {r r₁ r' : Rule}

theorem Grammar.Stage.zero (g : Grammar) (r : Rule) : g.Stage 0 r r := by
  cases r with
  | selection lhs alternatives => exact .selection lhs alternatives
  | derivation lhs rhs =>
    exact .left lhs [] rhs (.nil 0) (Nat.le_refl 0) (fun _ _ _ m _ _ => Nat.zero_le m)
      fun _ => rfl

/-- One round leads from one stage to the next. -/
theorem Grammar.Stage.succ (h : g.Stage k r r₁) (hround : FoldedExactly empties r₁ dropped r')
    (hempties : ∀ v, empties.contains v = true ↔ g.EmptyAfter k v) : g.Stage (k + 1) r r' := by
  cases h with
  | selection lhs alternatives =>
    cases hround
    exact .selection lhs alternatives
  | gone lhs rhs haway hn =>
    obtain ⟨-, rfl⟩ := hround.dropsLeading.eq_of_consumed
    exact .gone lhs rhs haway (hn.trans (Nat.lt_succ_self k))
  | @left n lhs front rest haway hn hnext hwhole =>
    cases hround with
    | empty =>
      obtain rfl := hwhole rfl
      rw [List.append_nil]
      exact .gone lhs front haway (Nat.lt_succ_self _)
    | leading _ _ rhs hlhs hne hdropped hstop =>
      -- What is in front now was not empty when the round began.
      have hlater : ∀ w behind, rhs = .var w :: behind →
          ∀ m, g.EmptyAfter m w → k ≤ m → k + 1 ≤ m := by
        intro w behind hrhs m hempty hle
        refine Nat.lt_of_le_of_ne hle fun hkm => ?_
        rw [← hkm, ← hempties, hstop w behind hrhs] at hempty
        cases hempty
      cases dropped with
      | nil =>
        refine .left lhs front rhs haway (by omega) ?_ fun hrhs => absurd hrhs hne
        intro w behind hrhs m hempty hle
        exact hlater w behind hrhs m hempty (hnext w behind hrhs m hempty hle)
      | cons v dropped =>
        have hgone : g.FoldsAway n ((v :: dropped).map .var) (k + 1) :=
          foldsAway_map (fun w hw => (hempties w).mp (hdropped w hw)) (List.cons_ne_nil _ _)
            (by omega)
        rw [← List.append_assoc]
        refine .left lhs (front ++ (v :: dropped).map .var) rhs
          (foldsAway_append.mpr ⟨n, haway, hgone⟩) (Nat.le_refl _) ?_ fun _ => rfl
        intro w behind hrhs m hempty hle
        exact hlater w behind hrhs m hempty (by omega)

/-- Where a derivation folds away altogether, it has done so before, does so now, or starts with
    a variable that is still to be dropped. -/
theorem Grammar.Stage.of_foldsAway {lhs : Variable} {rhs : List Symbol}
    (h : g.Stage k (.derivation lhs rhs) r') (haway : g.FoldsAway 0 rhs m) :
    m < k ∨ m = k ∧ r' = .derivation lhs [] ∨ ∃ w n, g.EmptyAfter n w ∧ k ≤ n ∧ n < m := by
  generalize hr : Rule.derivation lhs rhs = r at h
  cases h with
  | selection => cases hr
  | gone _ _ haway' hn =>
    cases hr
    rw [haway'.unique haway] at hn
    exact Or.inl hn
  | left _ front rest haway' hn hnext hwhole =>
    cases hr
    obtain ⟨n, hfront, hrest⟩ := foldsAway_append.mp haway
    obtain rfl := hfront.unique haway'
    cases hrest with
    | nil => exact Or.inr (Or.inl ⟨hwhole rfl, rfl⟩)
    | cons rule below waits behind =>
      have hempty : g.EmptyAfter _ _ := ⟨_, _, rule, below⟩
      exact Or.inr (Or.inr ⟨_, _, hempty, hnext _ _ rfl _ hempty waits, behind.le⟩)

/-- The rules of a grammar after `k` rounds. -/
def Grammar.AtStage (g : Grammar) (k : Nat) (g' : Grammar) : Prop :=
  List.Forall₂ (g.Stage k) g.rules g'.rules

/-- Empty variables are those whose symbols are all gone by now. -/
theorem Grammar.AtStage.empty_iff (h : g.AtStage k g') (hg : g.Valid) (v : Variable) :
    g'.emptyVariables.contains v = true ↔ g.EmptyAfter k v := by
  rw [mem_emptyVariables]
  constructor
  · rintro ⟨lhs, hr', hid⟩
    obtain ⟨r, hr, hstage⟩ := exists_matched_left h hr'
    cases hstage with
    | left _ front _ haway _ _ hwhole =>
      obtain rfl := hwhole rfl
      rw [List.append_nil] at hr
      exact ⟨lhs, front, Grammar.rule?_of_mem hg.well_formed.nodup_ruleIds hr hid, haway⟩
  · rintro ⟨lhs, rhs, hrule, haway⟩
    obtain ⟨r', hr', hstage⟩ := exists_matched_right h (Grammar.mem_of_rule? hrule)
    rcases hstage.of_foldsAway haway with hlt | ⟨-, rfl⟩ | ⟨w, n, -, hle, hlt⟩
    · omega
    · exact ⟨lhs, hr', Grammar.lhs_of_rule? hrule⟩
    · omega

theorem Grammar.AtStage.succ (h : g.AtStage k g₁) (hg : g.Valid) {drops : Drops}
    (hround : FoldedRules g₁.emptyVariables drops g₁.rules g'.rules) : g.AtStage (k + 1) g' :=
  forall₂_trans h hround fun _ _ _ hstage hr => hstage.succ hr (h.empty_iff hg)

end Stages

/-! ## When folding is over -/

/-- What all rounds have made of a rule. -/
inductive Grammar.FoldedOut (g : Grammar) : Rule → Rule → Prop where
  /-- A selection stays. -/
  | selection (lhs : Variable) (alternatives : List Variable) :
      FoldedOut g (.selection lhs alternatives) (.selection lhs alternatives)
  /-- A derivation is `<empty>` when all of its symbols are gone. -/
  | gone {n : Nat} (lhs : Variable) (rhs : List Symbol) (haway : g.FoldsAway 0 rhs n) :
      FoldedOut g (.derivation lhs rhs) (.derivation lhs [.term .empty])
  /-- Any other derivation has lost its front up to the first symbol that stays. -/
  | left {n : Nat} (lhs : Variable) (front rest : List Symbol) (haway : g.FoldsAway 0 front n)
      (hstuck : g.Stuck n rest) (hne : rest ≠ []) :
      FoldedOut g (.derivation lhs (front ++ rest)) (.derivation lhs rest)

section End

variable {k : Nat}

/-- When no rule is empty any more, none will be. -/
theorem Grammar.AtStage.lt_of_emptyAfter (h : g.AtStage k g') (hnone : NoneEmpty g'.rules)
    {m : Nat} {v : Variable} (hv : g.EmptyAfter m v) : m < k := by
  induction m using Nat.strong_induction_on generalizing v with
  | _ m ih =>
    obtain ⟨lhs, rhs, hrule, haway⟩ := hv
    obtain ⟨r', hr', hstage⟩ := exists_matched_right h (Grammar.mem_of_rule? hrule)
    rcases hstage.of_foldsAway haway with hlt | ⟨-, rfl⟩ | ⟨w, n, hw, hle, hlt⟩
    · exact hlt
    · cases hnone _ hr'
    · exact absurd (ih n hlt hw) (Nat.not_lt.mpr hle)

theorem Grammar.AtStage.foldedOut (h : g.AtStage k g') (hnone : NoneEmpty g'.rules) :
    List.Forall₂ g.FoldedOut g.rules g'.rules := by
  refine List.forall₂_iff_get.mpr ⟨h.length_eq, fun i hi hi' => ?_⟩
  have hstage := (List.forall₂_iff_get.mp h).2 i hi hi'
  have hr' := hnone _ (List.get_mem g'.rules ⟨i, hi'⟩)
  generalize g.rules.get ⟨i, hi⟩ = r at hstage
  generalize g'.rules.get ⟨i, hi'⟩ = r' at hstage hr'
  cases hstage with
  | selection lhs alternatives => exact .selection lhs alternatives
  | gone lhs rhs haway => exact .gone lhs rhs haway
  | left lhs front rest haway hn hnext hwhole =>
    refine .left lhs front rest haway ?_ fun hrest => ?_
    · intro w behind hrest j hw
      obtain ⟨m, hempty, hle, -⟩ := foldsAway_var.mp hw
      have hge := hnext w behind hrest m hempty hle
      have hlt := h.lt_of_emptyAfter hnone hempty
      omega
    · rw [hrest] at hr'
      cases hr'

/-- What has become of a derivation that has lost all that it could. -/
theorem Grammar.FoldedOut.of_stuck {lhs : Variable} {front rest : List Symbol} {r' : Rule}
    {n : Nat} (h : g.FoldedOut (.derivation lhs (front ++ rest)) r')
    (haway : g.FoldsAway 0 front n) (hstuck : g.Stuck n rest) :
    rest = [] ∧ r' = .derivation lhs [.term .empty] ∨ rest ≠ [] ∧ r' = .derivation lhs rest := by
  generalize hr : Rule.derivation lhs (front ++ rest) = r at h
  cases h with
  | selection => cases hr
  | gone _ rhs haway' =>
    obtain ⟨rfl, heq⟩ := Rule.derivation.inj hr
    refine Or.inl ⟨?_, rfl⟩
    exact hstuck.unique haway (.nil g _) haway' (heq.trans (List.append_nil rhs).symm)
  | left _ front' rest' haway' hstuck' hne =>
    obtain ⟨rfl, heq⟩ := Rule.derivation.inj hr
    obtain rfl := hstuck.unique haway hstuck' haway' heq
    exact Or.inr ⟨hne, rfl⟩

/-- What folding makes of the rules of a valid grammar. -/
theorem foldEmpties_foldedOut (hg : g.Valid)
    (h : foldEmpties g tags s = .ok (g', tags') s') :
    g'.Valid ∧ NoneEmpty g'.rules ∧ List.Forall₂ g.FoldedOut g.rules g'.rules := by
  obtain ⟨n, -, hloop⟩ := foldEmpties_loops g tags s
  rw [h] at hloop
  have hstart : g.Valid ∧ ∃ k, g.AtStage k g :=
    ⟨hg, 0, List.forall₂_same.mpr fun r _ => .zero g r⟩
  obtain ⟨⟨hg', k, hstage⟩, hempty⟩ :=
    hloop.keeps (I := fun g₁ _ _ => g₁.Valid ∧ ∃ k, g.AtStage k g₁) (fun hI hround => by
      obtain ⟨hg₁, k, hstage⟩ := hI
      obtain ⟨drops, hexact⟩ := foldRound_exactly hg₁ hround
      exact ⟨hexact.valid, k + 1, hstage.succ hg hexact.rules⟩) hstart
  have hnone := noneEmpty_of_isEmpty hempty
  exact ⟨hg', hnone, hstage.foldedOut hnone⟩

end End

/-! ## Leftovers -/

/-- The rule of a variable has become `<empty>`. -/
def TurnsEmpty (g g' : Grammar) (w : Variable) : Prop :=
  ¬ g.ReadsNothing w ∧ g'.ReadsNothing w

/-- All that the rule of a variable reads is dropped, or all but `<empty>`. -/
def Grammar.Dwindles (g : Grammar) (w : Variable) : Prop :=
  (∃ n, g.EmptyAfter n w) ∨
    ∃ lhs front n, g.rule? w = some (.derivation lhs (front ++ [.term .empty])) ∧ front ≠ [] ∧
      g.FoldsAway 0 front n

/-- Whatever turns into `<empty>` has come to the front of every derivation, if it does so at
    all, by the time its rule is empty. -/
def Grammar.FoldsInOrder (g : Grammar) : Prop :=
  ∀ lhs front w rest n, .derivation lhs (front ++ .var w :: rest) ∈ g.rules →
    g.FoldsAway 0 front n → g.Dwindles w → ∃ k, g.FoldsAway n [.var w] k

/-- No derivation starts with a variable that has become `<empty>`. -/
def NothingLeftOver (g g' : Grammar) : Prop :=
  ∀ lhs w rest, .derivation lhs (.var w :: rest) ∈ g'.rules → ¬ TurnsEmpty g g' w

section Leftovers

variable {w : Variable}

/-- What folds away altogether holds no terminal. -/
theorem Grammar.FoldsAway.term_not_mem {n k : Nat} {symbols : List Symbol}
    (h : g.FoldsAway n symbols k) (t : Terminal) : .term t ∉ symbols := by
  induction h with
  | nil => exact List.not_mem_nil
  | cons _ _ _ _ _ ih =>
    rw [List.mem_cons, not_or]
    exact ⟨fun h => (nomatch h), ih⟩

theorem TurnsEmpty.dwindles (hg : g.Valid) (hg' : g'.Valid)
    (h : List.Forall₂ g.FoldedOut g.rules g'.rules) (hw : TurnsEmpty g g' w) : g.Dwindles w := by
  obtain ⟨hnot, hempty⟩ := hw
  obtain ⟨lhs, hr', hid⟩ := (readsNothing_iff hg').mp hempty
  obtain ⟨r, hr, hout⟩ := exists_matched_left h hr'
  have hrule : ∀ {lhs rhs}, r = .derivation lhs rhs → lhs.id = w.id →
      g.rule? w = some (.derivation lhs rhs) := by
    rintro lhs rhs rfl hid
    exact Grammar.rule?_of_mem hg.well_formed.nodup_ruleIds hr hid
  generalize hq : Rule.derivation lhs [.term .empty] = r' at hout
  cases hout with
  | selection => cases hq
  | gone lhs rhs haway =>
    cases hq
    exact Or.inl ⟨_, lhs, rhs, hrule rfl hid, haway⟩
  | left lhs front rest haway =>
    cases hq
    refine Or.inr ⟨lhs, front, _, hrule rfl hid, ?_, haway⟩
    rintro rfl
    exact hnot ⟨lhs, hrule rfl hid⟩

theorem Grammar.Dwindles.turnsEmpty (hg' : g'.Valid)
    (h : List.Forall₂ g.FoldedOut g.rules g'.rules) (hw : g.Dwindles w) : TurnsEmpty g g' w := by
  rcases hw with ⟨n, lhs, rhs, hrule, haway⟩ | ⟨lhs, front, n, hrule, hne, haway⟩
  · constructor
    · rintro ⟨lhs', hrule'⟩
      cases hrule.symm.trans hrule'
      exact haway.term_not_mem .empty (List.mem_singleton_self _)
    · obtain ⟨r', hr', hout⟩ := exists_matched_right h (Grammar.mem_of_rule? hrule)
      rw [← List.append_nil rhs] at hout
      rcases hout.of_stuck haway (.nil g n) with ⟨-, rfl⟩ | ⟨hne, -⟩
      · exact (readsNothing_iff hg').mpr ⟨lhs, hr', Grammar.lhs_of_rule? hrule⟩
      · exact absurd rfl hne
  · constructor
    · rintro ⟨lhs', hrule'⟩
      obtain ⟨-, heq⟩ := Rule.derivation.inj (Option.some.inj (hrule.symm.trans hrule'))
      exact hne (by simpa using heq)
    · obtain ⟨r', hr', hout⟩ := exists_matched_right h (Grammar.mem_of_rule? hrule)
      have hstuck : g.Stuck n [.term .empty] := fun _ _ h => nomatch h
      rcases hout.of_stuck haway hstuck with ⟨hnil, -⟩ | ⟨-, rfl⟩
      · cases hnil
      · exact (readsNothing_iff hg').mpr ⟨lhs, hr', Grammar.lhs_of_rule? hrule⟩

theorem turnsEmpty_iff (hg : g.Valid) (hg' : g'.Valid)
    (h : List.Forall₂ g.FoldedOut g.rules g'.rules) : TurnsEmpty g g' w ↔ g.Dwindles w :=
  ⟨TurnsEmpty.dwindles hg hg' h, Grammar.Dwindles.turnsEmpty hg' h⟩

/-- Folding leaves nothing over exactly when every derivation loses its front in order. -/
theorem foldEmpties_complete_iff (hg : g.Valid)
    (h : foldEmpties g tags s = .ok (g', tags') s') :
    NothingLeftOver g g' ↔ g.FoldsInOrder := by
  obtain ⟨hg', hnone, hout⟩ := foldEmpties_foldedOut hg h
  unfold NothingLeftOver
  simp only [turnsEmpty_iff hg hg' hout]
  constructor
  · intro hover lhs front w rest n hr haway hw
    by_contra hstays
    -- If the next variable never turned empty in time, the derivation would be left with it in
    -- front.
    have hstuck : g.Stuck n (.var w :: rest) := by
      rintro u behind heq k hk
      cases heq
      exact hstays ⟨k, hk⟩
    obtain ⟨r', hr', hrr'⟩ := exists_matched_right hout hr
    rcases hrr'.of_stuck haway hstuck with ⟨hnil, -⟩ | ⟨-, rfl⟩
    · cases hnil
    · exact hover lhs w rest hr' hw
  · intro hall lhs w rest hr' hw
    obtain ⟨r, hr, hrr'⟩ := exists_matched_left hout hr'
    -- A rule that still starts with the variable got stuck there.
    generalize hq : Rule.derivation lhs (.var w :: rest) = r' at hrr'
    cases hrr' with
    | selection => cases hq
    | gone => cases hq
    | left lhs front rest haway hstuck =>
      cases hq
      obtain ⟨k, hk⟩ := hall _ front w _ _ hr haway hw
      exact hstuck w _ rfl k hk

end Leftovers

/-- A cascade leaves nothing over: what becomes empty later is in front all the time. -/
theorem emptyCascade_complete :
    emptyCascade.Valid ∧
      (∃ tags' s', foldEmpties emptyCascade (.full emptyCascade) (.ofGrammar emptyCascade) =
        .ok (emptyCascadeFolded.1, tags') s') ∧
      emptyCascade.FoldsInOrder := by
  have hrun : ∃ tags' s', foldEmpties emptyCascade (.full emptyCascade)
      (.ofGrammar emptyCascade) = .ok (emptyCascadeFolded.1, tags') s' := ⟨_, _, by cbv⟩
  obtain ⟨tags', s', hok⟩ := hrun
  have hnone : NothingLeftOver emptyCascade emptyCascadeFolded.1 := by
    intro lhs w rest hr
    simp [emptyCascadeFolded] at hr
  exact ⟨emptyCascade_valid, ⟨tags', s', hok⟩,
    (foldEmpties_complete_iff emptyCascade_valid hok).mp hnone⟩

/-- A rule that starts with two variables, of which the first one becomes empty later. -/
def lateEmpty : Grammar :=
  ⟨⟨0, "A"⟩,
    [.derivation ⟨0, "A"⟩ [.var ⟨1, "D"⟩, .var ⟨2, "E"⟩, .term ⟨"x", []⟩],
     .derivation ⟨3, "C"⟩ [],
     .derivation ⟨1, "D"⟩ [.var ⟨3, "C"⟩],
     .derivation ⟨2, "E"⟩ []]⟩

/-- The second one is left over. -/
def lateEmptyFolded : Grammar :=
  ⟨⟨0, "A"⟩,
    [.derivation ⟨0, "A"⟩ [.var ⟨2, "E"⟩, .term ⟨"x", []⟩],
     .derivation ⟨3, "C"⟩ [.term .empty],
     .derivation ⟨1, "D"⟩ [.term .empty],
     .derivation ⟨2, "E"⟩ [.term .empty]]⟩

theorem lateEmpty_valid : lateEmpty.Valid :=
  Grammar.valid_of_pairwise (by decide +kernel) (by decide +kernel)

/-- Folding succeeds, and a derivation still starts with a variable that has become `<empty>`. -/
theorem lateEmpty_leftOver :
    lateEmpty.Valid ∧
      (∃ tags' s', foldEmpties lateEmpty (.full lateEmpty) (.ofGrammar lateEmpty) =
        .ok (lateEmptyFolded, tags') s') ∧
      ¬ NothingLeftOver lateEmpty lateEmptyFolded := by
  refine ⟨lateEmpty_valid, ⟨_, _, by cbv⟩, fun h => ?_⟩
  refine h ⟨0, "A"⟩ ⟨2, "E"⟩ [.term ⟨"x", []⟩] (List.mem_cons_self ..) ⟨?_, ⟨2, "E"⟩, rfl⟩
  rintro ⟨lhs, hrule⟩
  cases hrule

end FluentGrammar
