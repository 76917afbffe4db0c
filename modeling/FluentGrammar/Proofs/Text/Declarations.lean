import FluentGrammar.Grammar.Layout
import FluentGrammar.Proofs.Text.Reread

/-! # What lines declare

    A line is read in two steps. What it declares depends on its content alone: a name and the
    tokens of a body, or the name of the start variable, or nothing. What becomes of a
    declaration depends on the declarations before it. The number of a line matters only for
    reporting a fault, and blank lines not at all, so a text that can be read gives what the
    list of its declarations gives.
-/

namespace FluentGrammar

variable {s s' : Scope} {draft draft' : Draft} {line line' : Nat}

/-- What a line that is not blank declares, by name. -/
inductive Declaration where
  /-- The start variable. -/
  | start (name : String)
  /-- A rule, with the tokens of its body. -/
  | rule (name : String) (body : List Token)

/-- The name that is declared. -/
def Declaration.name : Declaration → String
  | .start name => name
  | .rule name _ => name

/-! ## From contents to declarations -/

/-- The content of a line says what the line declares. -/
inductive ContentDeclares (content : List Char) : Declaration → Prop where
  | start {name : List Char} (h : startName? content = some name) :
      ContentDeclares content (.start (String.ofList name))
  | rule {name body : List Char} {ts : List Token} (h : startName? content = none)
      (hcut : Text.cutAt? "::=".toList content = some (name, body)) (hts : tokens body = .ok ts) :
      ContentDeclares content (.rule (String.ofList (Text.trim name)) ts)

/-- The contents of lines say what the lines declare, one after the other. -/
inductive ContentsDeclare : List (List Char) → List Declaration → Prop where
  | nil : ContentsDeclare [] []
  | blank {contents : List (List Char)} {ds : List Declaration}
      (h : ContentsDeclare contents ds) : ContentsDeclare ([] :: contents) ds
  | cons {content : List Char} {contents : List (List Char)} {d : Declaration}
      {ds : List Declaration} (hd : ContentDeclares content d) (h : ContentsDeclare contents ds) :
      ContentsDeclare (content :: contents) (d :: ds)

theorem ContentDeclares.ne_nil {content : List Char} {d : Declaration}
    (h : ContentDeclares content d) : content ≠ [] := by
  rintro rfl
  cases h with
  | start h => cases h
  | rule h hcut hts => cases hcut

/-! ## From declarations to drafts -/

/-- Add a declaration. -/
def Draft.declare (draft : Draft) (line : Nat) : Declaration → Reading Draft
  | .start name => do
    if draft.start.isSome then throw (.duplicateStart line)
    return { draft with start := some (← variableNamed line name) }
  | .rule name body => do
    let lhs ← variableNamed line name
    return { draft with rules := draft.rules ++ [← ruleOfTokens line lhs body] }

/-- Add declarations, one after the other. They have no numbers. -/
def Draft.declareAll (draft : Draft) : List Declaration → Reading Draft
  | [] => return draft
  | d :: rest => do (← draft.declare 0 d).declareAll rest

theorem readRule_of_tokens {lhs : Variable} {body : List Char} {ts : List Token}
    (h : tokens body = .ok ts) : readRule line lhs body = ruleOfTokens line lhs ts := by
  unfold readRule
  rw [h]
  rfl

theorem readLine_of_declares {text : List Char} {d : Declaration}
    (h : ContentDeclares (lineContent text) d) :
    readLine draft line text = draft.declare line d := by
  have hnonempty : (lineContent text).isEmpty = false := by simpa using h.ne_nil
  unfold readLine
  cases h with
  | start h =>
    simp only [hnonempty, h, Bool.false_eq_true, if_false]
    rfl
  | rule h hcut hts =>
    simp only [hnonempty, h, hcut, Bool.false_eq_true, if_false, readRule_of_tokens hts]
    rfl

theorem readLine_of_blank {text : List Char} (h : lineContent text = []) :
    readLine draft line text = pure draft := by
  unfold readLine
  rw [h]
  rfl

/-! ## Numbers of lines -/

/-- What one step succeeds with, another one succeeds with. -/
def SucceedsAs {α : Type} (x y : Reading α) : Prop :=
  ∀ s a s', x s = .ok a s' → y s = .ok a s'

namespace SucceedsAs

variable {α β : Type}

theorem refl (x : Reading α) : SucceedsAs x x :=
  fun _ _ _ h => h

theorem throw (e : ReadError) (y : Reading α) : SucceedsAs (throw e) y :=
  fun _ _ _ h => (throw_eq_ok.mp h).elim

theorem bind {x y : Reading α} {f g : α → Reading β} (hxy : SucceedsAs x y)
    (hfg : ∀ a, SucceedsAs (f a) (g a)) : SucceedsAs (x >>= f) (y >>= g) := by
  intro s b s' h
  obtain ⟨a, s₁, hx, hf⟩ := bind_eq_ok.mp h
  exact bind_eq_ok.mpr ⟨a, s₁, hxy _ _ _ hx, hfg a _ _ _ hf⟩

theorem mapM {f g : α → Reading β} (hfg : ∀ a, SucceedsAs (f a) (g a)) (xs : List α) :
    SucceedsAs (xs.mapM f) (xs.mapM g) := by
  induction xs with
  | nil => exact refl _
  | cons x xs ih =>
    rw [List.mapM_cons, List.mapM_cons]
    exact (hfg x).bind fun _ => ih.bind fun _ => refl _

end SucceedsAs

theorem succeedsAs_variableNamed (line line' : Nat) (name : String) :
    SucceedsAs (variableNamed line name) (variableNamed line' name) := by
  unfold variableNamed
  split
  · exact (SucceedsAs.throw _ _).bind fun _ => .refl _
  · exact .refl _

theorem succeedsAs_readAlternative (line line' : Nat) (ts : List Token) :
    SucceedsAs (readAlternative line ts) (readAlternative line' ts) := by
  unfold readAlternative
  split
  · split
    · exact .throw _ _
    · split
      · exact .throw _ _
      · exact succeedsAs_variableNamed line line' _
  · exact .throw _ _

theorem succeedsAs_readSymbol (line line' : Nat) (t : Token) :
    SucceedsAs (readSymbol line t) (readSymbol line' t) := by
  unfold readSymbol
  split
  · split
    · exact .refl _
    · split
      · exact (SucceedsAs.throw _ _).bind fun _ =>
          (succeedsAs_variableNamed line line' _).bind fun _ => .refl _
      · exact (succeedsAs_variableNamed line line' _).bind fun _ => .refl _
  · exact .throw _ _

theorem succeedsAs_ruleOfTokens (line line' : Nat) (lhs : Variable) (ts : List Token) :
    SucceedsAs (ruleOfTokens line lhs ts) (ruleOfTokens line' lhs ts) := by
  have hrhs : SucceedsAs (ts.mapM (readSymbol line)) (ts.mapM (readSymbol line')) :=
    .mapM (succeedsAs_readSymbol line line') ts
  unfold ruleOfTokens
  split
  · exact (SucceedsAs.mapM (succeedsAs_readAlternative line line') _).bind fun _ => .refl _
  · split
    · exact .refl _
    · split
      · exact (SucceedsAs.throw _ _).bind fun _ => hrhs.bind fun _ => .refl _
      · exact hrhs.bind fun _ => .refl _

/-- The number of a line matters only for failing. -/
theorem succeedsAs_declare (draft : Draft) (line line' : Nat) (d : Declaration) :
    SucceedsAs (draft.declare line d) (draft.declare line' d) := by
  cases d with
  | start name =>
    have hname := succeedsAs_variableNamed line line' name
    unfold Draft.declare
    simp only
    split
    · exact (SucceedsAs.throw _ _).bind fun _ => hname.bind fun _ => .refl _
    · exact hname.bind fun _ => .refl _
  | rule name body =>
    exact (succeedsAs_variableNamed line line' name).bind fun lhs =>
      (succeedsAs_ruleOfTokens line line' lhs body).bind fun _ => .refl _

/-! ## Texts -/

/-- Lines are read as their declarations are. -/
theorem readLines_eq_ok_iff {texts : List (List Char)} {ds : List Declaration}
    (h : ContentsDeclare (texts.map lineContent) ds) :
    readLines draft line texts s = .ok draft' s' ↔ draft.declareAll ds s = .ok draft' s' := by
  induction texts generalizing draft line s ds with
  | nil =>
    cases h
    exact Iff.rfl
  | cons text texts ih =>
    rw [readLines]
    generalize hcontent : lineContent text = content at h
    rw [List.map_cons, hcontent] at h
    cases h with
    | blank h =>
      rw [readLine_of_blank hcontent, pure_bind]
      exact ih h
    | cons hd h =>
      rw [readLine_of_declares (hcontent ▸ hd), Draft.declareAll, bind_eq_ok, bind_eq_ok]
      constructor
      · rintro ⟨draft₁, s₁, hfirst, hrest⟩
        exact ⟨draft₁, s₁, succeedsAs_declare _ _ _ _ _ _ _ hfirst, (ih h).mp hrest⟩
      · rintro ⟨draft₁, s₁, hfirst, hrest⟩
        exact ⟨draft₁, s₁, succeedsAs_declare _ _ _ _ _ _ _ hfirst, (ih h).mpr hrest⟩

/-- Lines that are read declare something. -/
theorem exists_contentsDeclare {texts : List (List Char)} (hs : s.Sound)
    (h : readLines draft line texts s = .ok draft' s') :
    ∃ ds, ContentsDeclare (texts.map lineContent) ds := by
  induction texts generalizing draft line s with
  | nil => exact ⟨[], .nil⟩
  | cons text texts ih =>
    obtain ⟨draft₁, s₁, hline, hrest⟩ := bind_eq_ok.mp h
    obtain ⟨hgrows, hdeclares⟩ := readLine_ok hs hline
    obtain ⟨ds, hds⟩ := ih hgrows.sound hrest
    rw [List.map_cons]
    cases hdeclares with
    | nothing hempty => exact ⟨ds, hempty ▸ .blank hds⟩
    | start hstart => exact ⟨_, .cons (.start hstart) hds⟩
    | rule hstart hcut _ _ hts => exact ⟨_, .cons (.rule hstart hcut hts) hds⟩

section Texts

variable {g : Grammar} {text text' : String} {ds : List Declaration}

/-- A text is read as its declarations are. -/
theorem Grammar.read_eq_ok_iff (h : ContentsDeclare (lineContents text) ds) :
    Grammar.read text = .ok g ↔ ∃ draft scope,
      Draft.declareAll ⟨none, []⟩ ds ⟨.fresh, []⟩ = .ok draft scope ∧ draft.grammar = .ok g := by
  unfold Grammar.read Grammar.readWith
  constructor
  · intro hread
    split at hread
    · rename_i draft scope hrun
      exact ⟨draft, scope, (readLines_eq_ok_iff h).mp hrun, hread⟩
    · cases hread
  · rintro ⟨draft, scope, hrun, hdraft⟩
    have hread : readLines ⟨none, []⟩ 1 (Text.lines text.toList) ⟨.fresh, []⟩ =
        .ok draft scope := (readLines_eq_ok_iff h).mpr hrun
    simp only [EStateM.run, hread, hdraft]

theorem Grammar.exists_declares_of_read (h : Grammar.read text = .ok g) :
    ∃ ds, ContentsDeclare (lineContents text) ds := by
  unfold Grammar.read Grammar.readWith at h
  split at h
  · rename_i draft scope hrun
    exact exists_contentsDeclare (Scope.sound_fresh .fresh) hrun
  · cases h

/-- Texts that declare the same are read alike. -/
theorem Grammar.read_of_declares_alike (h : Grammar.read text = .ok g)
    (halike : ∀ ds, ContentsDeclare (lineContents text) ds →
      ContentsDeclare (lineContents text') ds) : Grammar.read text' = .ok g := by
  obtain ⟨ds, hds⟩ := Grammar.exists_declares_of_read h
  exact (Grammar.read_eq_ok_iff (halike ds hds)).mpr ((Grammar.read_eq_ok_iff hds).mp h)

end Texts

end FluentGrammar
