import FluentGrammar.Proofs.Rewriting.Coherence

/-! # Looking up tags

    What is found under a variable after tags have been set or left out. A variable is looked
    up by its id, whatever name it was entered under.
-/

namespace FluentGrammar.Tagging

variable {t : Tagging} {v w : Variable} {tag : Tag}

theorem require_eq_ok : t.require v = .ok tag ↔ t.tag? v = some tag := by
  unfold require
  cases t.tag? v <;> simp

theorem tag?_congr (h : v.id = w.id) : t.tag? v = t.tag? w := by
  have hsame : (fun entry : Variable × Tag => entry.1 == v) = fun entry => entry.1 == w := by
    funext entry
    change (entry.1.id == v.id) = (entry.1.id == w.id)
    rw [h]
  unfold tag?
  rw [hsame]

theorem tag?_insert_of_id (h : v.id = w.id) : (t.insert v tag).tag? w = some tag := by
  rw [← tag?_congr h]
  exact tag?_insert_self t v tag

/-- Setting the tags of other variables leaves a tag as it is. -/
theorem tag?_extend_of_not_mem {entries : List (Variable × Tag)}
    (h : v.id ∉ entries.map (·.1.id)) : (t.extend entries).tag? v = t.tag? v := by
  unfold extend
  induction entries generalizing t with
  | nil => rfl
  | cons entry rest ih =>
    rw [List.map_cons, List.mem_cons, not_or] at h
    rw [List.foldl_cons, ih h.2]
    exact tag?_insert_ne t entry.2 fun hid => h.1 hid.symm

/-- If no variable is set twice, each has the tag that it is set to. -/
theorem tag?_extend_of_mem {entries : List (Variable × Tag)}
    (hnodup : (entries.map (·.1.id)).Nodup) (h : (w, tag) ∈ entries) (hid : w.id = v.id) :
    (t.extend entries).tag? v = some tag := by
  unfold extend
  induction entries generalizing t with
  | nil => cases h
  | cons entry rest ih =>
    rw [List.map_cons, List.nodup_cons] at hnodup
    rw [List.foldl_cons]
    rcases List.mem_cons.mp h with rfl | h
    · -- The entries behind it set other variables.
      have hrest := tag?_extend_of_not_mem (t := t.insert w tag) (hid ▸ hnodup.1)
      unfold extend at hrest
      rw [hrest]
      exact tag?_insert_of_id hid
    · exact ih hnodup.2 h

theorem tag?_retain {g : Grammar} (h : v.id ∈ ruleIds g.rules) :
    (t.retain g.contains).tag? v = t.tag? v := by
  have hfound : ∀ entry : Variable × Tag, (entry.1 == v) = true →
      g.contains entry.1 = true := by
    intro entry hentry
    rw [Grammar.contains_iff_mem_ruleIds, Variable.beq_iff.mp hentry]
    exact h
  unfold retain tag?
  congr 1
  rw [List.find?_filter]
  congr 1
  funext entry
  rw [Bool.eq_iff_iff]
  simp only [decide_eq_true_eq]
  exact ⟨And.right, fun hentry => ⟨hfound entry hentry, hentry⟩⟩

theorem tag?_retain_eq_none {g : Grammar} (h : v.id ∉ ruleIds g.rules) :
    (t.retain g.contains).tag? v = none := by
  rw [← Option.not_isSome_iff_eq_none, tag?_isSome, mem_ids_retain]
  exact fun hand => h hand.2

theorem nodup_ids_retain (h : t.ids.Nodup) (keep : Variable → Bool) :
    (t.retain keep).ids.Nodup :=
  h.sublist (List.filter_sublist.map _)

/-- In the full tagging every variable builds a node of its own name. -/
theorem tag?_full {g : Grammar} (hg : g.Valid) {r : Rule} (hr : r ∈ g.rules) :
    (full g).tag? r.lhs = some (.full r.lhs.name) := by
  have hids : ((g.vars.map (fun v => (v, Tag.full v.name))).map (·.1.id)) = ruleIds g.rules := by
    unfold Grammar.vars ruleIds
    simp only [List.map_map]
    rfl
  have hnodup := hg.well_formed.nodup_ruleIds
  rw [← hids] at hnodup
  exact tag?_extend_of_mem hnodup
    (List.mem_map_of_mem (List.mem_map_of_mem hr)) rfl

/-! ## Entries -/

/-- What is found under a variable stands in an entry. -/
theorem mem_of_tag? (h : t.tag? v = some tag) : ∃ w, (w, tag) ∈ t.entries ∧ w.id = v.id := by
  unfold tag? at h
  obtain ⟨entry, hfound, rfl⟩ := Option.map_eq_some_iff.mp h
  have hid : (entry.1 == v) = true :=
    List.find?_some (p := fun entry : Variable × Tag => entry.1 == v) hfound
  exact ⟨entry.1, List.mem_of_find?_eq_some hfound, Variable.beq_iff.mp hid⟩

/-- Setting a tag adds its variable behind the others, unless that stands there already. -/
theorem ids_insert (t : Tagging) (v : Variable) (tag : Tag) :
    (t.insert v tag).ids = if v.id ∈ t.ids then t.ids else t.ids ++ [v.id] := by
  unfold insert ids
  show (setEntry v tag t.entries).map (·.1.id) = _
  induction t.entries with
  | nil => rfl
  | cons entry rest ih =>
    obtain ⟨w, old⟩ := entry
    rw [setEntry]
    by_cases hid : w.id = v.id
    · rw [if_pos (Variable.beq_iff.mpr hid)]
      simp [hid]
    · have hmem : v.id ∈ w.id :: rest.map (·.1.id) ↔ v.id ∈ rest.map (·.1.id) := by
        rw [List.mem_cons, or_iff_right (Ne.symm hid)]
      rw [if_neg (mt Variable.beq_iff.mp hid), List.map_cons, List.map_cons, ih]
      simp only [hmem]
      split <;> rfl

theorem nodup_ids_insert (h : t.ids.Nodup) (v : Variable) (tag : Tag) :
    (t.insert v tag).ids.Nodup := by
  rw [ids_insert]
  by_cases hv : v.id ∈ t.ids
  · rwa [if_pos hv]
  · rw [if_neg hv, ← List.concat_eq_append]
    exact h.concat hv

theorem nodup_ids_extend (h : t.ids.Nodup) (entries : List (Variable × Tag)) :
    (t.extend entries).ids.Nodup := by
  unfold extend
  induction entries generalizing t with
  | nil => exact h
  | cons entry rest ih => exact ih (nodup_ids_insert h entry.1 entry.2)

theorem nodup_ids_full (g : Grammar) : (full g).ids.Nodup := by
  have hempty : empty.ids.Nodup := List.nodup_nil
  exact nodup_ids_extend hempty _

/-- Where no variable stands twice, what an entry says is found under its variable. -/
theorem tag?_of_mem (h : t.ids.Nodup) (hmem : (v, tag) ∈ t.entries) : t.tag? v = some tag := by
  have hsome : (t.tag? v).isSome = true := tag?_isSome.mpr (List.mem_map_of_mem hmem)
  obtain ⟨tag', htag'⟩ := Option.isSome_iff_exists.mp hsome
  obtain ⟨w, hentry, hid⟩ := mem_of_tag? htag'
  cases List.inj_on_of_nodup_map h hentry hmem hid
  exact htag'

/-- An implicit edge leads from a variable to an empty rule that its tag lists. -/
theorem exists_implicitEdge_iff (h : t.ids.Nodup) {i j : Nat} :
    (∃ e ∈ t.implicitEdges, e.1.id = i ∧ e.2.id = j) ↔
      ∃ v tag, v.id = i ∧ t.tag? v = some tag ∧ ∃ w ∈ tag.implicit, w.id = j := by
  unfold implicitEdges
  constructor
  · rintro ⟨e, he, rfl, rfl⟩
    obtain ⟨⟨v, tag⟩, hentry, he⟩ := List.mem_flatMap.mp he
    obtain ⟨w, hw, rfl⟩ := List.mem_map.mp he
    exact ⟨v, tag, rfl, tag?_of_mem h hentry, w, hw, rfl⟩
  · rintro ⟨v, tag, rfl, htag, w, hw, rfl⟩
    obtain ⟨u, hentry, hid⟩ := mem_of_tag? htag
    exact ⟨(u, w), List.mem_flatMap.mpr ⟨_, hentry, List.mem_map_of_mem hw⟩, hid, rfl⟩

end FluentGrammar.Tagging
