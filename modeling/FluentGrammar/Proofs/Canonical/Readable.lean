import FluentGrammar.Proofs.Rewriting.Invariants
import FluentGrammar.Proofs.SharedPrefix.Material
import FluentGrammar.Proofs.Text.Capitals
import FluentGrammar.Proofs.Text.RoundTrip

/-! # Canonical forms that can be read back

    The canonical form of a grammar that was read from a text can be written down, if every
    name that was made on the way is the name of a variable. Factoring makes such names of such
    names. Bridging does so only where the terminal can be written in capitals without a
    combining mark, and that is what decides the matter.
-/

namespace FluentGrammar

variable {config : Config} {g g' : Grammar} {tags tags' : Tagging} {s s' : Session}

/-! ## What is to be shown -/

/-- The text of the grammar is read, and the grammar that was read has that text again. -/
def Grammar.ReadsBack (g : Grammar) : Prop :=
  ∃ g', Grammar.read g.text = .ok g' ∧ g'.text = g.text

/-- Every terminal that is to be bridged can be written in capitals. -/
def Grammar.Capitalizes (g : Grammar) : Prop :=
  ∀ r ∈ g.rules, ∀ t, .term t ∈ r.behindLeading → t.capitalizes = true

/-- All names in use are names of variables. -/
def Session.NamesLegal (s : Session) : Prop :=
  ∀ name ∈ s.names.taken, isVariableName name = true

/-! ## Sessions -/

/-- Legal names stay legal. -/
def Session.KeepsLegal (s s' : Session) : Prop :=
  s.NamesLegal → s'.NamesLegal

instance : IsPreorder Session Session.KeepsLegal where
  refl _ h := h
  trans _ _ _ h₁ h₂ h := h₂ (h₁ h)

/-- Under seeds that are names of variables, a session hands out such names only. -/
theorem Session.along_keepsLegal {seeds : String → Prop}
    (hseeds : ∀ seed, seeds seed → isVariableName seed = true) :
    Session.Along Session.KeepsLegal seeds where
  count := fun _ _ h => h
  take := by
    intro s seed hseed h name hname
    have hlegal := hseeds seed hseed
    have htaken : name ∈ (s.names.take seed).2.taken := hname
    rw [NameSupply.take_taken] at htaken
    rcases List.mem_cons.mp htaken with rfl | hname
    · rw [isVariableName_of_namedAfter (beginsWithCapital_of_isVariableName hlegal)
        (s.names.take_namedAfter seed)]
      exact hlegal
    · exact h name hname

/-- A session that hands out nothing keeps legal names. -/
theorem Session.Issues.keepsLegal (h : s.Issues [] s') : s.KeepsLegal s' :=
  fun hs name hname => hs name (((h.taken name).mp hname).resolve_left (by simp))

/-- What is known and legal makes a grammar that can be written, as long as its terminals
    can. -/
theorem Grammar.Over.writable {voc : Vocabulary} (h : g.Over voc) (hknows : s.Knows voc.vars)
    (htold : ToldByName voc.vars) (hlegal : s.NamesLegal)
    (hterminals : ∀ t, voc.terminals t → t.isWritable = true) : g.Writable where
  named_alike := (hknows.of_subset h.occurrences).named_alike
  told_by_name := htold.of_subset h.occurrences
  names := fun v hv => hlegal _ (hknows.reserved v (h.occurrences hv))
  terminals := fun r hr t ht => hterminals t ((h.rules r hr).terminals t ht)

theorem Grammar.Writable.readsBack (hw : g.Writable) (hg : g.Valid) : g.ReadsBack := by
  obtain ⟨f, hf, hread⟩ := hw.read_text hg
  exact ⟨_, hread, Grammar.text_renumber hg hf⟩

/-! ## What every pass keeps -/

/-- The terminals that can be written stand anywhere, those that can be written in capitals
    also behind the first symbol. -/
def spellings (pool : List Variable) : Vocabulary :=
  ⟨pool, fun t => t.isWritable = true, fun t => t.capitalizes = true⟩

/-- A state that can be written down: names belong together with ids, all of them are legal,
    and terminals can be written, in capitals where bridging will have to do so. -/
structure Spellable (pool : List Variable) (g : Grammar) (tags : Tagging) (s : Session) :
    Prop where
  coherent : Coherent g tags s
  legal : s.NamesLegal
  knows : s.Knows pool
  told_by_name : ToldByName pool
  spelled : g.Over (spellings pool)

namespace Spellable

variable {pool fresh : List Variable}

theorem writable (h : Spellable pool g tags s) : g.Writable :=
  h.spelled.writable h.knows h.told_by_name h.legal fun _ ht => ht

/-- A pass that hands out variables under legal names leads to a state that can be written. -/
theorem step (h : Spellable pool g tags s) (hstep : Rewritten g s g' tags' s')
    (hlegal : s.KeepsLegal s') (hissues : s.Issues fresh s')
    (hover : g'.Over ((spellings pool).extend fresh)) :
    Spellable (pool ++ fresh) g' tags' s' where
  coherent := hstep.coherent
  legal := hlegal h.legal
  knows := h.knows.issues hissues
  told_by_name := h.told_by_name.issues h.knows hissues
  spelled := hover

theorem isVariableName_lhs (h : Spellable pool g tags s) {r : Rule} (hr : r ∈ g.rules) :
    isVariableName r.lhs.name = true :=
  h.writable.names _ (Grammar.lhs_mem_occurrences hr)

/-- The names that bridging wants are names of variables. -/
theorem bridgeSeeds (h : Spellable pool g tags s) {seed : String} (hseed : g.BridgeSeeds seed) :
    isVariableName seed = true := by
  obtain ⟨r, hr, t, ht, rfl⟩ := hseed
  rw [isVariableName_bridgeSeed]
  exact (h.spelled.rules r hr).behind ht

/-- The names that factoring wants are names of variables. -/
theorem factorSeeds (h : Spellable pool g tags s) {target : SharedPrefix}
    (hforks : target.Forks g) {seed : String} (hseed : FactorTask.Seeds ⟨g, tags, target⟩ seed) :
    isVariableName seed = true := by
  have hroot := h.writable.names _ hforks.occurs
  have hsymbol : target.symbol.name.toList.all continuesIdentifier = true := by
    obtain ⟨r, hr, ht⟩ := hforks.symbol_read
    have hname := (Terminal.isWritable_iff.mp (h.writable.terminals r hr _ ht)).resolve_left
      hforks.symbol_ne
    exact List.all_eq_true.mpr (continuesIdentifier_of_mem hname.1)
  have hmark : isVariableName (target.root.name ++ "_") = true :=
    isVariableName_extended hroot (by decide)
  have hlead := isVariableName_extended hmark hsymbol
  cases hseed with
  | part hr =>
    have hname := all_continuesIdentifier_of_isVariableName (h.isVariableName_lhs hr)
    exact isVariableName_extended (by decide) hname
  | full hr =>
    have hname := all_continuesIdentifier_of_isVariableName (h.isVariableName_lhs hr)
    exact isVariableName_extended (by decide) hname
  | lead => exact hlead
  | rest => exact isVariableName_extended hlead (by decide)

end Spellable

/-- Every pass keeps a state such that it can be written down. -/
theorem passInvariant_spellable :
    PassInvariant config (fun g tags s => ∃ pool, Spellable pool g tags s) where
  count := by
    intro g tags s f hex
    obtain ⟨pool, h⟩ := hex
    exact ⟨pool, h.coherent.count f, h.legal, h.knows.mono ⟨Nat.le_refl _, List.Subset.refl _⟩,
      h.told_by_name, h.spelled⟩
  bridge := by
    intro g tags s g' tags' s' hex hrun
    obtain ⟨pool, h⟩ := hex
    -- The seeds of the bridges are spelled out of terminals, so this is where an unlawful name
    -- may come from.
    obtain ⟨fresh, hissues, hover⟩ := h.spelled.bridgeTerminals hrun
    have hconfined := confined_bridgeTerminals g tags
      (Session.along_keepsLegal fun _ hseed => h.bridgeSeeds hseed)
    exact ⟨_, h.step (h.coherent.bridgeTerminals hrun).1 (hconfined.of_ok hrun) hissues hover⟩
  fold := by
    intro g tags s rules g' tags' s' hex hrun hof
    obtain ⟨pool, h⟩ := hex
    have hempty : (spellings pool).terminals .empty := by
      show Terminal.empty.isWritable = true
      decide
    obtain ⟨hissues, hover⟩ := h.spelled.foldRules hempty hrun hof
    refine ⟨_, h.step (h.coherent.foldRound hrun hof) hissues.keepsLegal hissues ?_⟩
    rwa [Vocabulary.extend_nil]
  drop := by
    intro g tags s g' tags' s' hex hrun
    obtain ⟨pool, h⟩ := hex
    obtain ⟨hissues, hover⟩ := h.spelled.dropUnreachable hrun
    refine ⟨_, h.step (h.coherent.dropUnreachable hrun) hissues.keepsLegal hissues ?_⟩
    rwa [Vocabulary.extend_nil]
  factor := by
    intro g tags s target g' tags' s' hex hfound hrun
    obtain ⟨pool, h⟩ := hex
    -- The prefix has to be spelled as well: its symbol and its root occur in the grammar.
    have hforks := SharedPrefix.Forks.of_discover h.coherent.valid hfound
    obtain ⟨r, hr, ht⟩ := hforks.symbol_read
    obtain ⟨fresh, hissues, hover⟩ := h.spelled.leftFactor (h.spelled.occurrences hforks.occurs)
      ((h.spelled.rules r hr).terminals _ ht) hrun
    have hconfined := confined_leftFactor g tags target
      (Session.along_keepsLegal fun _ hseed => h.factorSeeds hforks hseed)
    exact ⟨_, h.step (h.coherent.leftFactor hrun).1 (hconfined.of_ok hrun) hissues hover⟩

/-- A grammar that can be written makes a state that can be written, if what is to be bridged
    can be written in capitals. -/
theorem Grammar.Writable.spellable (hw : g.Writable) (hg : Coherent g tags (.ofGrammar g))
    (hcapitalizes : g.Capitalizes) : Spellable g.occurrences g tags (.ofGrammar g) where
  coherent := hg
  legal := by
    intro name hname
    obtain ⟨v, hv, rfl⟩ := List.mem_map.mp (NameSupply.mem_reserving.mp hname)
    obtain ⟨r, hr, rfl⟩ := List.mem_map.mp hv
    exact hw.names _ (Grammar.lhs_mem_occurrences hr)
  knows := Session.knows_ofGrammar hg.valid hw.named_alike
  told_by_name := hw.told_by_name
  spelled := by
    refine ⟨Grammar.start_mem_occurrences, fun r hr => ?_⟩
    exact Rule.over_of_mentions (fun v hv => Grammar.mem_occurrences_of_mentions hr hv)
      (hw.terminals r hr) (hcapitalizes r hr)

/-! ## What bridging leaves behind -/

/-- Every bridged terminal has had a variable named after it. -/
theorem exists_taken_of_behind (hrun : bridgeTerminals g tags s = .ok (g', tags') s') {r : Rule}
    (hr : r ∈ g.rules) {t : Terminal} (ht : .term t ∈ r.behindLeading) :
    ∃ name ∈ s'.names.taken, NameSupply.NamedAfter (bridgeSeed t) name := by
  obtain ⟨rules, bridges, s₁, htaken, hbridged, hdone⟩ := bridgeTerminals_eq_ok hrun
  obtain ⟨r', -, hrr'⟩ := exists_matched_right hbridged hr
  obtain ⟨b, hb, rfl⟩ := hrr'.exists_bridge ht
  have hname : b.holder.name ∈ s₁.names.taken :=
    (htaken.issues.taken _).mpr
      (Or.inl (List.mem_map_of_mem (List.mem_map_of_mem hb)))
  refine ⟨b.holder.name, ?_, htaken.named b hb⟩
  rcases hdone with ⟨-, -, -, rfl⟩ | ⟨-, -, rfl⟩
  · exact hname
  · exact hname

/-- No pass gives back what was in use. -/
theorem passInvariant_spends (s₀ : Session) :
    PassInvariant config (fun _ _ s => s₀.Spends s) where
  count := fun _ h => ⟨h.issued_le, h.taken⟩
  bridge := fun h hrun => trans_of Session.Spends h
    ((confined_bridgeTerminals _ _ (Session.along_spends _)).of_ok hrun)
  fold := fun h hrun _ => trans_of Session.Spends h
    ((confined_foldRules (P := Internal) (Session.along_spends fun _ => False) internal_mismatch _
      fun r _ => Or.inr (internal_missingTag r.lhs)).of_ok hrun)
  drop := fun h hrun => trans_of Session.Spends h
    ((confined_dropUnreachable (P := Internal) (Session.along_spends fun _ => False) _ _).of_ok
      hrun)
  factor := fun h _ hrun => trans_of Session.Spends h
    ((confined_leftFactor _ _ _ (Session.along_spends _)).of_ok hrun)

/-- If all names are legal in the end, every bridged terminal can be written in capitals. -/
theorem capitalizes_of_namesLegal
    (h : canonicalPass config g tags s = .ok (g', tags') s') (hlegal : s'.NamesLegal) :
    g.Capitalizes := by
  intro r hr t ht
  have hused : ∃ name ∈ s'.names.taken, NameSupply.NamedAfter (bridgeSeed t) name := by
    obtain ⟨⟨g₁, tags₁⟩, s₁, hbridge, -⟩ := bind_eq_ok.mp h
    obtain ⟨name, hname, hafter⟩ := exists_taken_of_behind hbridge hr ht
    have hspends : s₁.Spends s' :=
      (passInvariant_spends s₁).of_bridged (fun g₂ tags₂ s₂ hrun => by
        rw [hbridge] at hrun
        cases hrun
        exact refl_of Session.Spends s₁) h
    exact ⟨name, hspends.taken hname, hafter⟩
  obtain ⟨name, hname, hafter⟩ := hused
  rw [← isVariableName_bridgeSeed,
    ← isVariableName_of_namedAfter (beginsWithCapital_bridgeSeed t) hafter]
  exact hlegal name hname

/-! ## The whole pipeline -/

/-- A text has been read, and its grammar has a canonical form. That form can be read back,
    under the same text, and all names made on the way are names of variables, exactly if every
    terminal behind the first symbol of a rule can be written in capitals without a combining
    mark. -/
theorem canonical_readsBack_iff {text : String} {c : Canonical} (hread : Grammar.read text = .ok g)
    (h : canonicalize config g (.full g) = .ok c) :
    ∃ s', canonicalPass config g ((Tagging.full g).retain g.contains) (.ofGrammar g) =
        .ok (c.grammar, c.tags) s' ∧
      ((c.grammar.ReadsBack ∧ s'.NamesLegal) ↔ g.Capitalizes) := by
  obtain ⟨hg, hw⟩ := Grammar.writable_of_read hread
  obtain ⟨⟨entries, hentries⟩, g', tags', s', hrun, rfl⟩ := canonicalize_eq_ok.mp h
  refine ⟨s', hrun, fun hback => capitalizes_of_namesLegal hrun hback.2, fun hcapitalizes => ?_⟩
  have hinitial := hw.spellable (.initial hg hentries) hcapitalizes
  obtain ⟨pool, hspellable⟩ := passInvariant_spellable.canonicalPass ⟨_, hinitial⟩ hrun
  exact ⟨hspellable.writable.readsBack hspellable.coherent.valid, hspellable.legal⟩

/-! ## Two letters -/

/-- A call of `x` and, behind it, of a terminal of the given name. -/
def callBehind (name : String) : Grammar :=
  ⟨⟨0, "A"⟩, [.derivation ⟨0, "A"⟩ [.term ⟨"x", []⟩, .term ⟨name, []⟩]]⟩

/-- The canonical form of such calls, with a bridge of the given name. -/
def callBridged (name bridge : String) : Canonical where
  grammar := ⟨⟨0, "A"⟩,
    [.derivation ⟨0, "A"⟩ [.term ⟨"x", []⟩, .var ⟨1, bridge⟩],
     .derivation ⟨1, bridge⟩ [.term ⟨name, []⟩]]⟩
  tags := ⟨[(⟨0, "A"⟩, .full "A"), (⟨1, bridge⟩, .bridge)]⟩
  tally := ⟨0, 1, 0, 0, 0⟩

theorem read_sharpCall : Grammar.read "A ::= x ß\n" = .ok (callBehind "ß") :=
  Grammar.read_of_declared (Grammar.valid_of_pairwise (by decide) (by decide))
    (by decide +kernel)

theorem canonical_sharpCall :
    canonicalize .default (callBehind "ß") (.full (callBehind "ß")) =
      .ok (callBridged "ß" "SS") := by
  cbv

/-- A letter whose upper case is two letters makes a name that is read back. -/
theorem sharpCall_readsBack :
    Grammar.read "A ::= x ß\n" = .ok (callBehind "ß") ∧
      canonicalize .default (callBehind "ß") (.full (callBehind "ß")) =
        .ok (callBridged "ß" "SS") ∧
      (callBridged "ß" "SS").grammar.ReadsBack := by
  obtain ⟨s', -, hiff⟩ := canonical_readsBack_iff read_sharpCall canonical_sharpCall
  have hcapitalizes : (callBehind "ß").Capitalizes := by
    intro r hr t ht
    obtain rfl := List.mem_singleton.mp hr
    obtain rfl : t = ⟨"ß", []⟩ := by simpa [Rule.behindLeading] using ht
    decide
  exact ⟨read_sharpCall, canonical_sharpCall, (hiff.mpr hcapitalizes).1⟩

/-- A letter whose upper case takes a combining mark makes a name that is no identifier. The
    mark is not read. -/
theorem caronCall_not_readsBack :
    ∃ g c, Grammar.read "A ::= x ǰ\n" = .ok g ∧ canonicalize .default g (.full g) = .ok c ∧
      ¬ c.grammar.ReadsBack := by
  have hread : Grammar.read "A ::= x ǰ\n" = .ok (callBehind "ǰ") :=
    Grammar.read_of_declared (Grammar.valid_of_pairwise (by decide) (by decide))
      (by decide +kernel)
  have hcanonical : canonicalize .default (callBehind "ǰ") (.full (callBehind "ǰ")) =
      .ok (callBridged "ǰ" "J\u030C") := by
    cbv
  have hfails : Grammar.read (callBridged "ǰ" "J\u030C").grammar.text =
      .error (.malformed 2 (.unexpectedCharacter '\u030C')) := by
    decide +kernel
  refine ⟨_, _, hread, hcanonical, fun hback => ?_⟩
  obtain ⟨g', hread', -⟩ := hback
  rw [hfails] at hread'
  cases hread'

end FluentGrammar
