import FluentGrammar.Grammar.Reader
import FluentGrammar.Proofs.Text.Spelling

/-! # Steps of reading

    While a text is read, the scope tells names and variables apart: every known name belongs
    to one variable, every known variable has one name, and what is known stays known. What a
    step gives is said in terms of the tokens that it was given and the scope that it leaves
    behind, so nothing has to be carried over when the scope grows later.
-/

namespace FluentGrammar

/-! ## Scopes -/

namespace Scope

/-- The scope knows the variable under its name. -/
def Knows (s : Scope) (v : Variable) : Prop :=
  s.known.lookup v.name = some v

/-- Names and variables belong together one to one, and later variables will be new. -/
structure Sound (s : Scope) : Prop where
  named : ∀ name v, s.known.lookup name = some v → v.name = name
  legal : ∀ v, s.Knows v → isVariableName v.name = true
  apart : ∀ v w, s.Knows v → s.Knows w → v.id = w.id → v = w
  below : ∀ v, s.Knows v → v.id < s.supply.issued

/-- What a step of reading makes of a scope. -/
structure Grows (s s' : Scope) : Prop where
  sound : s'.Sound
  keeps : ∀ v, s.Knows v → s'.Knows v

variable {s s' s'' : Scope} {v w : Variable} {name : String}

theorem Sound.grows (h : s.Sound) : s.Grows s :=
  ⟨h, fun _ hv => hv⟩

theorem Grows.trans (h : s.Grows s') (h' : s'.Grows s'') : s.Grows s'' :=
  ⟨h'.sound, fun v hv => h'.keeps v (h.keeps v hv)⟩

/-- A known variable is the only one of its name. -/
theorem Knows.eq_of_name (hv : s.Knows v) (hw : s.Knows w) (h : v.name = w.name) : v = w := by
  unfold Knows at hv hw
  rw [h, hw] at hv
  exact (Option.some.inj hv).symm

theorem Sound.knows (h : s.Sound) (hname : s.known.lookup name = some v) :
    s.Knows v ∧ v.name = name := by
  have hv := h.named name v hname
  refine ⟨?_, hv⟩
  unfold Knows
  rw [hv]
  exact hname

theorem sound_fresh (supply : VariableSupply) : Sound ⟨supply, []⟩ where
  named _ _ h := nomatch h
  legal _ h := nomatch h
  apart _ _ h := nomatch h
  below _ h := nomatch h

/-- A name that is not known takes the next variable. -/
theorem Sound.grows_take (h : s.Sound) (hlegal : isVariableName name = true)
    (hnew : s.known.lookup name = none) :
    s.Grows ⟨(s.supply.take name).2, (name, (s.supply.take name).1) :: s.known⟩ := by
  -- A variable that is known afterwards is the new one, or was known before.
  have hcases : ∀ v, Knows ⟨(s.supply.take name).2,
      (name, (s.supply.take name).1) :: s.known⟩ v →
      v = ⟨s.supply.issued, name⟩ ∨ s.Knows v := by
    intro v hv
    simp only [Knows, List.lookup_cons] at hv
    split at hv
    · exact Or.inl (Option.some.inj hv).symm
    · exact Or.inr hv
  refine ⟨⟨?_, ?_, ?_, ?_⟩, ?_⟩
  · intro other v hv
    rw [List.lookup_cons] at hv
    split at hv
    · rename_i heq
      rw [← Option.some.inj hv]
      exact (beq_iff_eq.mp heq).symm
    · exact h.named other v hv
  · intro v hv
    rcases hcases v hv with rfl | hv
    · exact hlegal
    · exact h.legal v hv
  · intro v w hv hw hid
    rcases hcases v hv with rfl | hv
    · rcases hcases w hw with rfl | hw
      · rfl
      · exact absurd hid (Nat.ne_of_gt (h.below w hw))
    · rcases hcases w hw with rfl | hw
      · exact absurd hid (Nat.ne_of_lt (h.below v hv))
      · exact h.apart v w hv hw hid
  · intro v hv
    rcases hcases v hv with rfl | hv
    · exact Nat.lt_succ_self _
    · exact Nat.lt_succ_of_lt (h.below v hv)
  · intro v hv
    have hne : (v.name == name) = false := by
      rw [beq_eq_false_iff_ne]
      intro heq
      unfold Knows at hv
      rw [heq, hnew] at hv
      cases hv
    simp only [Knows, List.lookup_cons, hne]
    exact hv

end Scope

variable {s s' : Scope} {line : Nat}

/-! ## Names -/

theorem atLine_eq_ok {α : Type} {x : Except LineFault α} {a : α} :
    atLine line x s = .ok a s' ↔ x = .ok a ∧ s = s' := by
  cases x with
  | ok value => exact pure_eq_ok.trans (by simp)
  | error fault => exact throw_eq_ok.trans (by simp)

theorem failAt_eq_ok {α : Type} {fault : LineFault} {a : α} :
    failAt line fault s = .ok a s' ↔ False :=
  throw_eq_ok

/-- A name that is read is a known variable afterwards. -/
theorem variableNamed_ok {name : String} {v : Variable} (hs : s.Sound)
    (h : variableNamed line name s = .ok v s') : s.Grows s' ∧ s'.Knows v ∧ v.name = name := by
  unfold variableNamed at h
  by_cases hlegal : isVariableName name = true
  · simp only [hlegal, Bool.not_true, Bool.false_eq_true, if_false] at h
    obtain ⟨scope, s₁, hget, h⟩ := bind_eq_ok.mp h
    obtain ⟨hscope, hs₁⟩ := get_eq_ok.mp hget
    rw [hscope, hs₁] at h
    cases hlookup : s.known.lookup name with
    | some w =>
      simp only [hlookup] at h
      obtain ⟨rfl, rfl⟩ := pure_eq_ok.mp h
      exact ⟨hs.grows, hs.knows hlookup⟩
    | none =>
      simp only [hlookup] at h
      obtain ⟨_, s₁, hset, h⟩ := bind_eq_ok.mp h
      obtain rfl := set_eq_ok.mp hset
      obtain ⟨rfl, rfl⟩ := pure_eq_ok.mp h
      refine ⟨hs.grows_take hlegal hlookup, ?_, rfl⟩
      simp [Scope.Knows, VariableSupply.take]
  · simp only [hlegal, Bool.not_false, if_true] at h
    obtain ⟨_, _, hfail, -⟩ := bind_eq_ok.mp h
    exact (failAt_eq_ok.mp hfail).elim

theorem variableNamed_succeeds {name : String} (h : isVariableName name = true) (s : Scope) :
    Succeeds (variableNamed line name) s := by
  unfold variableNamed
  simp only [h, Bool.not_true, Bool.false_eq_true, if_false]
  cases hlookup : s.known.lookup name with
  | some v =>
    refine Succeeds.get_bind ?_
    simp only [hlookup]
    exact Succeeds.pure _ _
  | none =>
    refine Succeeds.get_bind ?_
    simp only [hlookup]
    exact (Succeeds.set _ _).bind fun _ _ _ => Succeeds.pure _ _

/-! ## What tokens mean -/

namespace Scope

/-- A token means a symbol, given what names stand for. -/
def Means (s : Scope) : Token → Symbol → Prop
  | .name text params, .term t => beginsWithCapital text = false ∧ t = ⟨text, params.getD []⟩
  | .name text params, .var v => params = none ∧ v.name = text ∧ s.Knows v
  | _, _ => False

/-- The tokens between two bars mean a variable. -/
def Offers (s : Scope) (ts : List Token) (v : Variable) : Prop :=
  ts = [.name v.name none] ∧ s.Knows v

/-- The tokens of a body mean a rule of the given variable. -/
inductive MeansRule (s : Scope) (lhs : Variable) (ts : List Token) : Rule → Prop where
  | selection {alternatives : List Variable} (hbar : ts.any Token.isBar = true)
      (h : List.Forall₂ s.Offers (Text.splitBy Token.isBar ts) alternatives) :
      MeansRule s lhs ts (.selection lhs alternatives)
  | empty (h : ts = [.epsilon]) : MeansRule s lhs ts (.derivation lhs [])
  | derivation {rhs : List Symbol} (hbar : ts.any Token.isBar = false)
      (hepsilon : .epsilon ∉ ts) (h : List.Forall₂ s.Means ts rhs) :
      MeansRule s lhs ts (.derivation lhs rhs)

variable {s s' : Scope}

theorem Grows.means (h : s.Grows s') {t : Token} {x : Symbol} (hx : s.Means t x) :
    s'.Means t x := by
  cases t with
  | bar => exact hx
  | epsilon => exact hx
  | name text params =>
    cases x with
    | term t => exact hx
    | var v =>
      obtain ⟨hparams, hname, hv⟩ := hx
      exact ⟨hparams, hname, h.keeps v hv⟩

theorem Grows.offers (h : s.Grows s') {ts : List Token} {v : Variable} (hv : s.Offers ts v) :
    s'.Offers ts v :=
  ⟨hv.1, h.keeps v hv.2⟩

theorem Grows.meansRule (h : s.Grows s') {lhs : Variable} {ts : List Token} {r : Rule}
    (hr : s.MeansRule lhs ts r) : s'.MeansRule lhs ts r := by
  cases hr with
  | selection hbar hoffers => exact .selection hbar (hoffers.imp fun _ _ => h.offers)
  | empty hts => exact .empty hts
  | derivation hbar hepsilon hmeans =>
    exact .derivation hbar hepsilon (hmeans.imp fun _ _ => h.means)

end Scope

/-! ## Reading one after the other -/

section Sequence

variable {α β : Type} {f : α → Reading β} {R : Scope → α → β → Prop}

/-- A step that is taken for every element of a list gives for each what it gives for it. -/
theorem mapM_ok (hkeeps : ∀ {s s' : Scope} {a b}, s.Grows s' → R s a b → R s' a b)
    (hf : ∀ {a b} {s s' : Scope}, s.Sound → f a s = .ok b s' → s.Grows s' ∧ R s' a b)
    {xs : List α} {ys : List β} {s s' : Scope} (hs : s.Sound) (h : xs.mapM f s = .ok ys s') :
    s.Grows s' ∧ List.Forall₂ (R s') xs ys := by
  induction xs generalizing ys s with
  | nil =>
    rw [List.mapM_nil] at h
    obtain ⟨rfl, rfl⟩ := pure_eq_ok.mp h
    exact ⟨hs.grows, .nil⟩
  | cons x xs ih =>
    rw [List.mapM_cons] at h
    obtain ⟨y, s₁, hy, h⟩ := bind_eq_ok.mp h
    obtain ⟨ys', s₂, hys, h⟩ := bind_eq_ok.mp h
    obtain ⟨rfl, rfl⟩ := pure_eq_ok.mp h
    obtain ⟨hgrows, hxy⟩ := hf hs hy
    obtain ⟨hgrows', hrest⟩ := ih hgrows.sound hys
    exact ⟨hgrows.trans hgrows', .cons (hkeeps hgrows' hxy) hrest⟩

theorem mapM_succeeds {xs : List α} (h : ∀ x ∈ xs, ∀ s, Succeeds (f x) s) (s : Scope) :
    Succeeds (xs.mapM f) s := by
  induction xs generalizing s with
  | nil =>
    rw [List.mapM_nil]
    exact Succeeds.pure _ _
  | cons x xs ih =>
    rw [List.mapM_cons]
    refine (h x (List.mem_cons_self ..) s).bind fun _ s₁ _ => ?_
    exact (ih (fun y hy => h y (List.mem_cons_of_mem _ hy)) s₁).bind fun _ s₂ _ =>
      Succeeds.pure _ _

end Sequence

/-! ## Rules -/

theorem readAlternative_ok {ts : List Token} {v : Variable} (hs : s.Sound)
    (h : readAlternative line ts s = .ok v s') : s.Grows s' ∧ s'.Offers ts v := by
  unfold readAlternative at h
  split at h
  · rename_i name params
    split at h
    · exact (throw_eq_ok.mp h).elim
    · split at h
      · exact (failAt_eq_ok.mp h).elim
      · rename_i hparams
        obtain ⟨hgrows, hv, rfl⟩ := variableNamed_ok hs h
        rw [Bool.not_eq_true, Option.isSome_eq_false_iff, Option.isNone_iff_eq_none] at hparams
        exact ⟨hgrows, by rw [hparams], hv⟩
  · exact (failAt_eq_ok.mp h).elim

theorem readAlternative_succeeds {v : Variable} (h : isVariableName v.name = true) (s : Scope) :
    Succeeds (readAlternative line [.name v.name none]) s := by
  have hcapital := beginsWithCapital_of_isVariableName h
  simp only [readAlternative, hcapital, Bool.not_true, Bool.false_eq_true, if_false,
    Option.isSome_none]
  exact variableNamed_succeeds h s

theorem readSymbol_ok {t : Token} {x : Symbol} (hs : s.Sound)
    (h : readSymbol line t s = .ok x s') : s.Grows s' ∧ s'.Means t x := by
  cases t with
  | bar => exact (failAt_eq_ok.mp h).elim
  | epsilon => exact (failAt_eq_ok.mp h).elim
  | name text params =>
    simp only [readSymbol] at h
    by_cases hcapital : beginsWithCapital text = true
    · simp only [hcapital, Bool.not_true, Bool.false_eq_true, if_false] at h
      cases params with
      | some ps =>
        simp only [Option.isSome_some, if_true] at h
        obtain ⟨_, _, hfail, -⟩ := bind_eq_ok.mp h
        exact (failAt_eq_ok.mp hfail).elim
      | none =>
        simp only [Option.isSome_none, Bool.false_eq_true, if_false] at h
        obtain ⟨v, s₁, hv, h⟩ := bind_eq_ok.mp h
        obtain ⟨rfl, rfl⟩ := pure_eq_ok.mp h
        obtain ⟨hgrows, hknows, hname⟩ := variableNamed_ok hs hv
        exact ⟨hgrows, rfl, hname, hknows⟩
    · rw [Bool.not_eq_true] at hcapital
      simp only [hcapital, Bool.not_false, if_true] at h
      obtain ⟨rfl, rfl⟩ := pure_eq_ok.mp h
      exact ⟨hs.grows, hcapital, rfl⟩

theorem readSymbol_succeeds {x : Symbol} (h : x.isWritable = true) (s : Scope) :
    Succeeds (readSymbol line x.token) s := by
  cases x with
  | var v =>
    have hname : isVariableName v.name = true := h
    have hcapital := beginsWithCapital_of_isVariableName hname
    simp only [Symbol.token, readSymbol, hcapital, Bool.not_true, Bool.false_eq_true, if_false,
      Option.isSome_none]
    exact (variableNamed_succeeds hname s).bind fun _ _ _ => Succeeds.pure _ _
  | term t =>
    have hcapital : beginsWithCapital t.name = false := by
      rcases Terminal.isWritable_iff.mp h with rfl | ⟨-, hcapital, -⟩
      · decide
      · exact hcapital
    simp only [Symbol.token, readSymbol, hcapital, Bool.not_false, if_true]
    exact Succeeds.pure _ _

/-- The rule with the given left-hand side and tokens. -/
def ruleOfTokens (line : Nat) (lhs : Variable) (tokens : List Token) : Reading Rule := do
  if tokens.any Token.isBar then
    return .selection lhs (← (Text.splitBy Token.isBar tokens).mapM (readAlternative line))
  if tokens == [.epsilon] then return .derivation lhs []
  if tokens.contains .epsilon then failAt line .epsilonNotAlone
  return .derivation lhs (← tokens.mapM (readSymbol line))

/-- A rule is read from its tokens. -/
theorem readRule_eq (line : Nat) (lhs : Variable) (body : List Char) :
    readRule line lhs body = atLine line (tokens body) >>= ruleOfTokens line lhs :=
  rfl

theorem ruleOfTokens_ok {lhs : Variable} {ts : List Token} {r : Rule} (hs : s.Sound)
    (h : ruleOfTokens line lhs ts s = .ok r s') : s.Grows s' ∧ s'.MeansRule lhs ts r := by
  unfold ruleOfTokens at h
  -- A bar makes it a selection, and an epsilon may only stand alone.
  by_cases hbar : ts.any Token.isBar = true
  · simp only [hbar, if_true] at h
    obtain ⟨alternatives, s₁, hread, h⟩ := bind_eq_ok.mp h
    obtain ⟨rfl, rfl⟩ := pure_eq_ok.mp h
    obtain ⟨hgrows, hoffers⟩ := mapM_ok (f := readAlternative line) (R := Scope.Offers)
      (fun hgrows h => hgrows.offers h) readAlternative_ok hs hread
    exact ⟨hgrows, .selection hbar hoffers⟩
  · rw [Bool.not_eq_true] at hbar
    simp only [hbar, Bool.false_eq_true, if_false] at h
    by_cases hempty : ts = [.epsilon]
    · simp only [hempty, beq_self_eq_true, if_true] at h
      obtain ⟨rfl, rfl⟩ := pure_eq_ok.mp h
      exact ⟨hs.grows, .empty hempty⟩
    · simp only [beq_eq_false_iff_ne.mpr hempty, Bool.false_eq_true, if_false] at h
      by_cases hepsilon : ts.contains .epsilon = true
      · simp only [hepsilon, if_true] at h
        obtain ⟨_, _, hfail, -⟩ := bind_eq_ok.mp h
        exact (failAt_eq_ok.mp hfail).elim
      · simp only [hepsilon, Bool.false_eq_true, if_false] at h
        obtain ⟨rhs, s₁, hread, h⟩ := bind_eq_ok.mp h
        obtain ⟨rfl, rfl⟩ := pure_eq_ok.mp h
        obtain ⟨hgrows, hmeans⟩ := mapM_ok (f := readSymbol line) (R := Scope.Means)
          (fun hgrows h => hgrows.means h) readSymbol_ok hs hread
        exact ⟨hgrows, .derivation hbar (by simpa using hepsilon) hmeans⟩

theorem readRule_ok {lhs : Variable} {body : List Char} {r : Rule} (hs : s.Sound)
    (h : readRule line lhs body s = .ok r s') :
    s.Grows s' ∧ ∃ ts, tokens body = .ok ts ∧ s'.MeansRule lhs ts r := by
  rw [readRule_eq] at h
  obtain ⟨ts, s₁, hline, h⟩ := bind_eq_ok.mp h
  obtain ⟨hts, rfl⟩ := atLine_eq_ok.mp hline
  obtain ⟨hgrows, hmeans⟩ := ruleOfTokens_ok hs h
  exact ⟨hgrows, ts, hts, hmeans⟩

/-! ## Lines -/

/-- Everything in the draft is known to the scope and can be written. -/
structure Draft.Known (draft : Draft) (s : Scope) : Prop where
  start : ∀ v ∈ draft.start, s.Knows v
  mentions : ∀ r ∈ draft.rules, ∀ v ∈ r.mentions, s.Knows v
  terminals : ∀ r ∈ draft.rules, ∀ t ∈ r.terminals, t.isWritable = true

theorem Draft.known_empty (s : Scope) : Draft.Known ⟨none, []⟩ s where
  start _ h := nomatch h
  mentions _ h := nomatch h
  terminals _ h := nomatch h

theorem Draft.Known.grows {draft : Draft} (h : draft.Known s) (hgrows : s.Grows s') :
    draft.Known s' :=
  ⟨fun v hv => hgrows.keeps v (h.start v hv),
    fun r hr v hv => hgrows.keeps v (h.mentions r hr v hv), h.terminals⟩

/-- A line declares nothing, a start variable or a rule. -/
inductive Declares (s : Scope) (draft : Draft) (content : List Char) : Draft → Prop where
  | nothing (h : content = []) : Declares s draft content draft
  | start {name : List Char} {v : Variable} (h : startName? content = some name)
      (hnone : draft.start = none) (hname : v.name = String.ofList name) (hv : s.Knows v) :
      Declares s draft content ⟨some v, draft.rules⟩
  | rule {name body : List Char} {lhs : Variable} {ts : List Token} {r : Rule}
      (h : startName? content = none)
      (hcut : Text.cutAt? "::=".toList content = some (name, body))
      (hname : lhs.name = String.ofList (Text.trim name)) (hlhs : s.Knows lhs)
      (hts : tokens body = .ok ts) (hr : s.MeansRule lhs ts r) :
      Declares s draft content ⟨draft.start, draft.rules ++ [r]⟩

theorem readLine_ok {draft draft' : Draft} {text : List Char} (hs : s.Sound)
    (h : readLine draft line text s = .ok draft' s') :
    s.Grows s' ∧ Declares s' draft (lineContent text) draft' := by
  unfold readLine at h
  simp only at h
  -- The cases are those of the reader: an empty line, a start line and a rule.
  by_cases hempty : (lineContent text).isEmpty = true
  · simp only [hempty, if_true] at h
    obtain ⟨rfl, rfl⟩ := pure_eq_ok.mp h
    exact ⟨hs.grows, .nothing (List.isEmpty_iff.mp hempty)⟩
  · simp only [hempty, Bool.false_eq_true, if_false] at h
    cases hstart : startName? (lineContent text) with
    | some name =>
      simp only [hstart] at h
      by_cases hsome : draft.start.isSome = true
      · simp only [hsome, if_true] at h
        obtain ⟨_, _, hfail, -⟩ := bind_eq_ok.mp h
        exact (throw_eq_ok.mp hfail).elim
      · simp only [hsome, Bool.false_eq_true, if_false] at h
        obtain ⟨v, s₁, hv, h⟩ := bind_eq_ok.mp h
        obtain ⟨rfl, rfl⟩ := pure_eq_ok.mp h
        obtain ⟨hgrows, hknows, hname⟩ := variableNamed_ok hs hv
        rw [Bool.not_eq_true, Option.isSome_eq_false_iff, Option.isNone_iff_eq_none] at hsome
        exact ⟨hgrows, .start hstart hsome hname hknows⟩
    | none =>
      simp only [hstart] at h
      cases hcut : Text.cutAt? "::=".toList (lineContent text) with
      | none =>
        simp only [hcut] at h
        exact (failAt_eq_ok.mp h).elim
      | some pieces =>
        obtain ⟨name, body⟩ := pieces
        simp only [hcut] at h
        obtain ⟨lhs, s₁, hlhs, h⟩ := bind_eq_ok.mp h
        obtain ⟨r, s₂, hr, h⟩ := bind_eq_ok.mp h
        obtain ⟨rfl, rfl⟩ := pure_eq_ok.mp h
        obtain ⟨hgrows, hknows, hname⟩ := variableNamed_ok hs hlhs
        obtain ⟨hgrows', ts, hts, hmeans⟩ := readRule_ok hgrows.sound hr
        exact ⟨hgrows.trans hgrows', .rule hstart hcut hname (hgrows'.keeps _ hknows) hts hmeans⟩

end FluentGrammar
