import FluentGrammar.Proofs.Grammar.Renumbering
import FluentGrammar.Rewriting.Renumbering

/-! # Exchanging ids twice, or in another way

    Ids that have been exchanged are got back by exchanging them once more the other way. And
    two renumberings do the same to whatever mentions only variables on which they agree.
-/

namespace FluentGrammar

variable {f k : Nat → Nat}

/-! ## Back to the first ids -/

section Cancel

theorem Variable.renumber_cancel {v : Variable} (h : k (f v.id) = v.id) :
    (v.renumber f).renumber k = v :=
  congrArg (Variable.mk · v.name) h

theorem variables_renumber_cancel {vars : List Variable} (h : ∀ v ∈ vars, k (f v.id) = v.id) :
    (vars.map (Variable.renumber f)).map (Variable.renumber k) = vars := by
  rw [List.map_map]
  exact (List.map_congr_left fun v hv => Variable.renumber_cancel (h v hv)).trans (List.map_id _)

theorem Rule.renumber_cancel {r : Rule} (h : ∀ v ∈ r.mentions, k (f v.id) = v.id) :
    (r.renumber f).renumber k = r := by
  have hlhs : (r.lhs.renumber f).renumber k = r.lhs :=
    Variable.renumber_cancel (h _ (List.mem_cons_self ..))
  cases r with
  | selection lhs alternatives =>
    exact congrArg₂ Rule.selection hlhs
      (variables_renumber_cancel fun v hv => h v (List.mem_cons_of_mem _ hv))
  | derivation lhs rhs =>
    refine congrArg₂ Rule.derivation hlhs ?_
    rw [List.map_map]
    refine (List.map_congr_left fun x hx => ?_).trans (List.map_id _)
    cases x with
    | term t => rfl
    | var v =>
      have hv := h v (List.mem_cons_of_mem _ (Rule.mem_references_derivation.mpr hx))
      exact congrArg Symbol.var (Variable.renumber_cancel hv)

theorem Tag.renumber_cancel {tag : Tag} (h : ∀ v ∈ tag.implicit, k (f v.id) = v.id) :
    (tag.renumber f).renumber k = tag := by
  cases tag with
  | partialDerivation node required implicit =>
    exact congrArg (Tag.partialDerivation node required) (variables_renumber_cancel h)
  | _ => rfl

variable (hk : Function.LeftInverse k f)

include hk

theorem Chain.renumber_cancel (c : Chain) : (c.renumber f).renumber k = c :=
  congrArg₂ Chain.mk (Variable.renumber_cancel (hk c.root.id))
    (variables_renumber_cancel fun v _ => hk v.id)

theorem GrammarError.renumber_cancel (e : GrammarError) : (e.renumber f).renumber k = e := by
  cases e with
  | missingStart => rfl
  | recursive cycle =>
    exact congrArg GrammarError.recursive (variables_renumber_cancel fun v _ => hk v.id)
  | _ v => exact congrArg _ (Variable.renumber_cancel (hk v.id))

theorem AmbiguousShape.renumber_cancel (shape : AmbiguousShape) :
    (shape.renumber f).renumber k = shape := by
  have hvars : ∀ vars : List Variable,
      (vars.map (Variable.renumber f)).map (Variable.renumber k) = vars :=
    fun vars => variables_renumber_cancel fun v _ => hk v.id
  have hvar : ∀ v : Variable, (v.renumber f).renumber k = v :=
    fun v => Variable.renumber_cancel (hk v.id)
  cases shape with
  | identicalAlternatives selection first second =>
    simp only [renumber, hvars, hvar]
  | convergingEmpty selection terminus => simp only [renumber, hvar]

theorem Mismatch.renumber_cancel (m : Mismatch) : (m.renumber f).renumber k = m := by
  have hvar : ∀ v : Variable, (v.renumber f).renumber k = v :=
    fun v => Variable.renumber_cancel (hk v.id)
  have htag : ∀ tag : Tag, (tag.renumber f).renumber k = tag :=
    fun tag => Tag.renumber_cancel fun v _ => hk v.id
  cases m <;> simp only [renumber, hvar, htag, Chain.renumber_cancel hk]

theorem PassError.renumber_cancel (e : PassError) : (e.renumber f).renumber k = e := by
  cases e with
  | grammar fault => exact congrArg PassError.grammar (fault.renumber_cancel hk)
  | missingTag v => exact congrArg PassError.missingTag (Variable.renumber_cancel (hk v.id))
  | unsupported shape => exact congrArg PassError.unsupported (shape.renumber_cancel hk)
  | mismatch m => exact congrArg PassError.mismatch (m.renumber_cancel hk)
  | iterationLimit limit => rfl

end Cancel

/-! ## Other ids for the same variables -/

section Congr

theorem variables_renumber_congr {vars : List Variable} (h : ∀ v ∈ vars, f v.id = k v.id) :
    vars.map (Variable.renumber f) = vars.map (Variable.renumber k) :=
  List.map_congr_left fun v hv => congrArg (Variable.mk · v.name) (h v hv)

theorem Rule.renumber_congr {r : Rule} (h : ∀ v ∈ r.mentions, f v.id = k v.id) :
    r.renumber f = r.renumber k := by
  have hlhs : r.lhs.renumber f = r.lhs.renumber k :=
    congrArg (Variable.mk · r.lhs.name) (h _ (List.mem_cons_self ..))
  cases r with
  | selection lhs alternatives =>
    exact congrArg₂ Rule.selection hlhs
      (variables_renumber_congr fun v hv => h v (List.mem_cons_of_mem _ hv))
  | derivation lhs rhs =>
    refine congrArg₂ Rule.derivation hlhs (List.map_congr_left fun x hx => ?_)
    cases x with
    | term t => rfl
    | var v =>
      have hv := h v (List.mem_cons_of_mem _ (Rule.mem_references_derivation.mpr hx))
      exact congrArg (fun i => Symbol.var ⟨i, v.name⟩) hv

theorem Tag.renumber_congr {tag : Tag} (h : ∀ v ∈ tag.implicit, f v.id = k v.id) :
    tag.renumber f = tag.renumber k := by
  cases tag with
  | partialDerivation node required implicit =>
    exact congrArg (Tag.partialDerivation node required) (variables_renumber_congr h)
  | _ => rfl

end Congr

end FluentGrammar
