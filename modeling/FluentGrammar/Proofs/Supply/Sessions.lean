import FluentGrammar.Grammar.Naming
import FluentGrammar.Proofs.Grammar.Acyclicity
import FluentGrammar.Proofs.Supply.Names
import FluentGrammar.Rewriting.Session
import Mathlib.Order.RelClasses

/-! # What a session has handed out

    The variables that a session hands out are new in two ways: their ids lie above those of
    all variables in use, and their names are none of the names in use. A pool is a list of
    occurrences of variables that a session knows, so that nothing it hands out afterwards is
    mistaken for one of them.
-/

namespace FluentGrammar

variable {s s₁ s' : Session} {vars more pool : List Variable}

/-- A session has handed out the given variables and has become another one. At most something
    has been counted besides. -/
structure Session.Issues (s : Session) (vars : List Variable) (s' : Session) : Prop where
  issued_le : s.ids.issued ≤ s'.ids.issued
  ids : ∀ v ∈ vars, s.ids.issued ≤ v.id ∧ v.id < s'.ids.issued
  nodup_ids : (vars.map (·.id)).Nodup
  names : ∀ v ∈ vars, v.name ∉ s.names.taken
  nodup_names : (vars.map (·.name)).Nodup
  taken : ∀ name, name ∈ s'.names.taken ↔ name ∈ vars.map (·.name) ∨ name ∈ s.names.taken

namespace Session.Issues

theorem refl (s : Session) : s.Issues [] s :=
  ⟨Nat.le_refl _, by simp, List.nodup_nil, by simp, List.nodup_nil, by simp⟩

theorem take (s : Session) (seed : String) : s.Issues [(s.take seed).1] (s.take seed).2 where
  issued_le := Nat.le_succ _
  ids := List.forall_mem_singleton.mpr ⟨Nat.le_refl _, Nat.lt_succ_self _⟩
  nodup_ids := List.nodup_singleton _
  names := List.forall_mem_singleton.mpr (NameSupply.take_not_mem s.names seed)
  nodup_names := List.nodup_singleton _
  taken := by
    intro name
    show name ∈ (s.names.take seed).2.taken ↔ name ∈ [(s.names.take seed).1] ∨ _
    rw [NameSupply.take_taken, List.mem_cons, List.mem_singleton]

theorem count (h : s.Issues vars s') (f : Tally → Tally) : s.Issues vars (s'.count f) :=
  ⟨h.issued_le, h.ids, h.nodup_ids, h.names, h.nodup_names, h.taken⟩

/-- What is handed out later differs from what was handed out before. -/
theorem trans (h₁ : s.Issues vars s₁) (h₂ : s₁.Issues more s') :
    s.Issues (vars ++ more) s' where
  issued_le := h₁.issued_le.trans h₂.issued_le
  ids := by
    -- Ids count up, so the later ones lie above the number at which the first request stopped.
    have hle₁ := h₁.issued_le
    have hle₂ := h₂.issued_le
    refine List.forall_mem_append.mpr ⟨fun v hv => ?_, fun v hv => ?_⟩
    · have := h₁.ids v hv
      omega
    · have := h₂.ids v hv
      omega
  nodup_ids := by
    rw [List.map_append]
    refine List.nodup_append.mpr ⟨h₁.nodup_ids, h₂.nodup_ids, ?_⟩
    intro i hi j hj heq
    obtain ⟨v, hv, rfl⟩ := List.mem_map.mp hi
    obtain ⟨w, hw, rfl⟩ := List.mem_map.mp hj
    have hlt := (h₁.ids v hv).2
    have hle := (h₂.ids w hw).1
    omega
  names := by
    refine List.forall_mem_append.mpr ⟨h₁.names, fun v hv hmem => ?_⟩
    exact h₂.names v hv ((h₁.taken _).mpr (Or.inr hmem))
  nodup_names := by
    rw [List.map_append]
    refine List.nodup_append.mpr ⟨h₁.nodup_names, h₂.nodup_names, ?_⟩
    intro n hn m hm heq
    obtain ⟨w, hw, rfl⟩ := List.mem_map.mp hm
    exact h₂.names w hw ((h₁.taken _).mpr (Or.inl (heq ▸ hn)))
  taken := by
    intro name
    rw [h₂.taken, h₁.taken, List.map_append, List.mem_append, or_left_comm, or_assoc]

end Session.Issues

/-- A session that has used up more than another one. Nothing that was in use is given back. -/
structure Session.Spends (s s' : Session) : Prop where
  issued_le : s.ids.issued ≤ s'.ids.issued
  taken : s.names.taken ⊆ s'.names.taken

instance : IsPreorder Session Session.Spends where
  refl _ := ⟨Nat.le_refl _, List.Subset.refl _⟩
  trans _ _ _ h₁ h₂ :=
    ⟨h₁.issued_le.trans h₂.issued_le, List.Subset.trans h₁.taken h₂.taken⟩

theorem Session.Issues.spends (h : s.Issues vars s') : s.Spends s' :=
  ⟨h.issued_le, fun name hname => (h.taken name).mpr (Or.inr hname)⟩

/-! ## Pools -/

/-- The session knows the occurrences of a pool: their ids and names are in use, and an id has
    one name. -/
structure Session.Knows (s : Session) (pool : List Variable) : Prop where
  named_alike : NamedAlike pool
  below : ∀ v ∈ pool, v.id < s.ids.issued
  reserved : ∀ v ∈ pool, v.name ∈ s.names.taken

/-- A session that has used up more knows the same occurrences. -/
theorem Session.Knows.mono (h : s.Knows pool) (hspends : s.Spends s') : s'.Knows pool where
  named_alike := h.named_alike
  below := fun v hv => (h.below v hv).trans_le hspends.issued_le
  reserved := fun v hv => hspends.taken (h.reserved v hv)

theorem Session.Knows.of_subset (h : s.Knows pool) (hsub : vars ⊆ pool) : s.Knows vars where
  named_alike := fun v hv w hw => h.named_alike v (hsub hv) w (hsub hw)
  below := fun v hv => h.below v (hsub hv)
  reserved := fun v hv => h.reserved v (hsub hv)

theorem ToldByName.of_subset (h : ToldByName pool) (hsub : vars ⊆ pool) : ToldByName vars :=
  fun v hv w hw => h v (hsub hv) w (hsub hw)

/-- What a session hands out joins the pool that it knows. -/
theorem Session.Knows.issues (h : s.Knows pool) (hissues : s.Issues vars s') :
    s'.Knows (pool ++ vars) where
  named_alike := by
    intro v hv w hw hid
    rcases List.mem_append.mp hv with hv | hv <;> rcases List.mem_append.mp hw with hw | hw
    · exact h.named_alike v hv w hw hid
    · have hlt := h.below v hv
      have hle := (hissues.ids w hw).1
      omega
    · have hlt := h.below w hw
      have hle := (hissues.ids v hv).1
      omega
    · rw [List.inj_on_of_nodup_map hissues.nodup_ids hv hw hid]
  below := List.forall_mem_append.mpr
    ⟨fun v hv => (h.below v hv).trans_le hissues.issued_le, fun v hv => (hissues.ids v hv).2⟩
  reserved := List.forall_mem_append.mpr
    ⟨fun v hv => (hissues.taken _).mpr (Or.inr (h.reserved v hv)),
      fun v hv => (hissues.taken _).mpr (Or.inl (List.mem_map_of_mem hv))⟩

/-- Where names told the variables apart, they still do. -/
theorem ToldByName.issues (htold : ToldByName pool) (h : s.Knows pool)
    (hissues : s.Issues vars s') : ToldByName (pool ++ vars) := by
  intro v hv w hw hname
  rcases List.mem_append.mp hv with hv | hv <;> rcases List.mem_append.mp hw with hw | hw
  · exact htold v hv w hw hname
  · exact absurd (hname ▸ h.reserved v hv) (hissues.names w hw)
  · exact absurd (hname ▸ h.reserved w hw) (hissues.names v hv)
  · rw [List.inj_on_of_nodup_map hissues.nodup_names hv hw hname]

/-! ## The session of a grammar -/

variable {g : Grammar}

/-- Everything that a valid grammar mentions has a rule. -/
theorem Grammar.Valid.mem_ruleIds (hg : g.Valid) {v : Variable} (hv : v ∈ g.occurrences) :
    v.id ∈ ruleIds g.rules := by
  rcases List.mem_cons.mp hv with rfl | hv
  · exact hg.start_mem
  · obtain ⟨r, hr, hv⟩ := List.mem_flatMap.mp hv
    rcases Rule.mem_mentions.mp hv with rfl | hv
    · exact mem_ruleIds_of_mem hr
    · exact defines_iff_mem_ruleIds.mp (hg.well_formed.closed r hr v hv)

/-- What a valid grammar mentions is mentioned in front of a rule under the same name. -/
theorem Grammar.Valid.exists_lhs (hg : g.Valid) (hnamed : NamedAlike g.occurrences) {v : Variable}
    (hv : v ∈ g.occurrences) : ∃ r ∈ g.rules, r.lhs.id = v.id ∧ r.lhs.name = v.name := by
  obtain ⟨r, hr, hid⟩ := FluentGrammar.mem_ruleIds.mp (hg.mem_ruleIds hv)
  exact ⟨r, hr, hid, hnamed _ (Grammar.lhs_mem_occurrences hr) v hv hid⟩

/-- If no two rules stand under one name, names tell all variables apart. -/
theorem Grammar.Valid.toldByName (hg : g.Valid) (hnamed : NamedAlike g.occurrences)
    (hnodup : (g.vars.map (·.name)).Nodup) : ToldByName g.occurrences := by
  intro v hv w hw hname
  obtain ⟨r, hr, hrid, hrname⟩ := hg.exists_lhs hnamed hv
  obtain ⟨q, hq, hqid, hqname⟩ := hg.exists_lhs hnamed hw
  have heq : r.lhs = q.lhs := List.inj_on_of_nodup_map hnodup (List.mem_map_of_mem hr)
    (List.mem_map_of_mem hq) (by rw [hrname, hqname, hname])
  rw [← hrid, ← hqid, heq]

/-- A new session of a grammar knows everything that the grammar mentions. -/
theorem Session.knows_ofGrammar (hg : g.Valid) (hnamed : NamedAlike g.occurrences) :
    (Session.ofGrammar g).Knows g.occurrences := by
  refine ⟨hnamed, fun v hv => ?_, fun v hv => ?_⟩
  · obtain ⟨r, hr, hid, -⟩ := hg.exists_lhs hnamed hv
    rw [← hid]
    exact VariableSupply.id_lt_after (List.mem_map_of_mem hr)
  · obtain ⟨r, hr, -, hname⟩ := hg.exists_lhs hnamed hv
    rw [← hname]
    exact NameSupply.mem_reserving.mpr (List.mem_map_of_mem (List.mem_map_of_mem hr))

end FluentGrammar
