import FluentGrammar.Proofs.Renumbering.Discovery
import FluentGrammar.Proofs.Rewriting.History

/-! # Two runs of a pass

    A pass is run twice, on a grammar and on the same grammar under other ids, each time with
    its own session. The sessions hand out ids in step and the same names, so the two runs do
    the same: both fail alike, or both make the same grammar up to ids, with tags that
    correspond and with the same tally. Tags are entries of a map, and the two maps need not
    list them in the same order.
-/

namespace FluentGrammar

variable {f : Nat → Nat}

/-! ## Outcomes of two runs -/

section Alike

variable {σ τ α β γ δ : Type} {S : σ → τ → Prop} {R : α → β → Prop} {R' : γ → δ → Prop}
variable {s : σ} {t : τ}

/-- Two runs fail with one failure up to ids, or they succeed with related states and values.
    The states in which they fail are not compared. -/
inductive Alike (f : Nat → Nat) (S : σ → τ → Prop) (R : α → β → Prop) :
    EStateM.Result PassError σ α → EStateM.Result PassError τ β → Prop where
  | ok {a : α} {b : β} {s : σ} {t : τ} (hstates : S s t) (hvalues : R a b) :
    Alike f S R (.ok a s) (.ok b t)
  | error (e : PassError) (s : σ) (t : τ) : Alike f S R (.error e s) (.error (e.renumber f) t)

/-- Runs that are alike stay so if what follows them does, wherever the first run has led. -/
theorem Alike.bind {x : EStateM PassError σ α} {y : EStateM PassError τ β}
    {next : α → EStateM PassError σ γ} {next' : β → EStateM PassError τ δ}
    (h : Alike f S R (x s) (y t))
    (hnext : ∀ a b s' t', x s = .ok a s' → S s' t' → R a b →
      Alike f S R' (next a s') (next' b t')) :
    Alike f S R' ((x >>= next) s) ((y >>= next') t) := by
  generalize hx : x s = left at h
  generalize hy : y t = right at h
  cases h with
  | ok hstates hvalues =>
    rw [bind_of_ok hx, bind_of_ok hy]
    exact hnext _ _ _ _ hx hstates hvalues
  | error e s' t' =>
    rw [bind_of_error hx, bind_of_error hy]
    exact .error e s' t'

theorem Alike.get_bind {next : σ → EStateM PassError σ γ} {next' : τ → EStateM PassError τ δ}
    (h : Alike f S R' (next s s) (next' t t)) :
    Alike f S R' ((get >>= next) s) ((get >>= next') t) :=
  h

/-- What does not touch the state is alike when its outcomes are. -/
theorem Alike.ofExcept_bind {φ : α → β} {x : Except PassError α} {y : Except PassError β}
    {next : α → EStateM PassError σ γ} {next' : β → EStateM PassError τ δ}
    (hx : y = underIds f φ x)
    (hnext : ∀ a, x = .ok a → Alike f S R' (next a s) (next' (φ a) t)) :
    Alike f S R' ((ofExcept x >>= next) s) ((ofExcept y >>= next') t) := by
  subst hx
  cases x with
  | ok a => exact hnext a rfl
  | error e => exact .error e s t

end Alike

/-! ## Two sessions -/

/-- Two sessions hand out the same names, under ids that run in step. -/
structure Session.Under (f : Nat → Nat) (s s' : Session) : Prop where
  issued : ∀ k, s'.ids.issued + k = f (s.ids.issued + k)
  names : s'.names = s.names
  tally : s'.tally = s.tally

namespace Session.Under

variable {s s' : Session}

theorem count (h : s.Under f s') (change : Tally → Tally) :
    (s.count change).Under f (s'.count change) where
  issued := h.issued
  names := h.names
  tally := congrArg change h.tally

theorem take (h : s.Under f s') (seed : String) :
    (s'.take seed).1 = (s.take seed).1.renumber f ∧ (s.take seed).2.Under f (s'.take seed).2 := by
  have hnames : s'.names.take seed = s.names.take seed := by rw [h.names]
  refine ⟨?_, fun k => ?_, ?_, h.tally⟩
  · show (⟨s'.ids.issued, (s'.names.take seed).1⟩ : Variable) = _
    rw [hnames]
    exact congrArg (Variable.mk · _) (h.issued 0)
  · have hnext := h.issued (1 + k)
    rw [← Nat.add_assoc, ← Nat.add_assoc] at hnext
    exact hnext
  · exact congrArg Prod.snd hnames

end Session.Under

/-! ## Two taggings -/

namespace Tagging

variable {t t' : Tagging}

theorem require_renumber {v : Variable}
    (h : t'.tag? (v.renumber f) = (t.tag? v).map (Tag.renumber f)) :
    t'.require (v.renumber f) = underIds f (Tag.renumber f) (t.require v) := by
  unfold require
  rw [h]
  cases t.tag? v <;> rfl

/-- Two taggings give corresponding tags to variables that correspond, and to no others. -/
structure Under (f : Nat → Nat) (t t' : Tagging) : Prop where
  tag : ∀ v, t'.tag? (v.renumber f) = (t.tag? v).map (Tag.renumber f)
  ids : t'.ids ⊆ t.ids.map f
  nodup : t.ids.Nodup
  nodup' : t'.ids.Nodup

namespace Under

theorem require (h : t.Under f t') (v : Variable) :
    t'.require (v.renumber f) = underIds f (Tag.renumber f) (t.require v) :=
  require_renumber (h.tag v)

variable (hf : Function.Injective f)

include hf

/-- The variables with tags correspond. -/
theorem perm_ids (h : t.Under f t') : t'.ids.Perm (t.ids.map f) := by
  refine (List.perm_ext_iff_of_nodup h.nodup' (h.nodup.map hf)).mpr fun i =>
    ⟨fun hi => h.ids hi, ?_⟩
  intro hi
  obtain ⟨j, hj, rfl⟩ := List.mem_map.mp hi
  obtain ⟨entry, hentry, rfl⟩ := List.mem_map.mp hj
  have hsome : (t'.tag? (entry.1.renumber f)).isSome = true := by
    rw [h.tag, Option.isSome_map, tag?_isSome]
    exact hj
  exact tag?_isSome.mp hsome

theorem insert (h : t.Under f t') (v : Variable) (tag : Tag) :
    (t.insert v tag).Under f (t'.insert (v.renumber f) (tag.renumber f)) where
  tag := by
    intro w
    by_cases hid : v.id = w.id
    · rw [tag?_insert_of_id hid, tag?_insert_of_id (congrArg f hid)]
      rfl
    · rw [tag?_insert_ne t tag hid, tag?_insert_ne t' _ fun hid' => hid (hf hid'), h.tag]
  ids := by
    intro i hi
    rcases mem_ids_insert.mp hi with rfl | hi
    · exact List.mem_map_of_mem (mem_ids_insert.mpr (Or.inl rfl))
    · obtain ⟨j, hj, rfl⟩ := List.mem_map.mp (h.ids hi)
      exact List.mem_map_of_mem (mem_ids_insert.mpr (Or.inr hj))
  nodup := nodup_ids_insert h.nodup v tag
  nodup' := nodup_ids_insert h.nodup' _ _

theorem extend (h : t.Under f t') (entries : List (Variable × Tag)) :
    (t.extend entries).Under f
      (t'.extend (entries.map (Prod.map (Variable.renumber f) (Tag.renumber f)))) := by
  unfold Tagging.extend
  induction entries generalizing t t' with
  | nil => exact h
  | cons entry rest ih => exact ih (h.insert hf entry.1 entry.2)

theorem retain (h : t.Under f t') (g : Grammar) :
    (t.retain g.contains).Under f (t'.retain (g.renumber f).contains) where
  tag := by
    intro v
    by_cases hv : v.id ∈ ruleIds g.rules
    · rw [tag?_retain hv, tag?_retain (Grammar.renumber_mem_ruleIds hv), h.tag]
    · -- What has no rule loses its tag on both sides.
      rw [tag?_retain_eq_none hv, tag?_retain_eq_none (Grammar.renumber_not_mem_ruleIds hf hv)]
      rfl
  ids := by
    intro i hi
    obtain ⟨hi, hrule⟩ := mem_ids_retain.mp hi
    obtain ⟨j, hj, rfl⟩ := List.mem_map.mp (h.ids hi)
    obtain ⟨i, hi, heq⟩ := Grammar.exists_of_mem_ruleIds_renumber hrule
    exact List.mem_map_of_mem (mem_ids_retain.mpr ⟨hj, hf heq ▸ hi⟩)
  nodup := nodup_ids_retain h.nodup _
  nodup' := nodup_ids_retain h.nodup' _

end Under

end Tagging

end FluentGrammar
