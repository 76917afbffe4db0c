import FluentGrammar.Proofs.SharedPrefix.Factoring
import FluentGrammar.Proofs.SharedPrefix.Discovery

/-! # Counting reads

    Besides its derivation trees, a variable has reads: for every leftmost derivation from it,
    the last step of which reads a terminal, one read. Behind a symbol the reads of the next
    one count once for each tree of the first, so trees and reads are values together.
    Factoring makes several reads of the shared terminal into one; everything else that is
    done to a grammar adds none.
-/

namespace FluentGrammar

/-! ## Trees and reads as values -/

/-- A number of derivation trees and a number of reads. -/
@[ext]
structure Reads where
  trees : Nat
  reads : Nat

namespace Reads

instance : Zero Reads := ⟨⟨0, 0⟩⟩
instance : One Reads := ⟨⟨1, 0⟩⟩
instance : Add Reads := ⟨fun a b => ⟨a.trees + b.trees, a.reads + b.reads⟩⟩
instance : Mul Reads := ⟨fun a b => ⟨a.trees * b.trees, a.reads + a.trees * b.reads⟩⟩

@[simp] theorem trees_zero : (0 : Reads).trees = 0 := rfl
@[simp] theorem reads_zero : (0 : Reads).reads = 0 := rfl
@[simp] theorem trees_one : (1 : Reads).trees = 1 := rfl
@[simp] theorem reads_one : (1 : Reads).reads = 0 := rfl
@[simp] theorem trees_add (a b : Reads) : (a + b).trees = a.trees + b.trees := rfl
@[simp] theorem reads_add (a b : Reads) : (a + b).reads = a.reads + b.reads := rfl
@[simp] theorem trees_mul (a b : Reads) : (a * b).trees = a.trees * b.trees := rfl
@[simp] theorem reads_mul (a b : Reads) : (a * b).reads = a.reads + a.trees * b.reads := rfl

instance : AddCommMonoid Reads where
  add_assoc := fun a b c => by ext <;> simp [Nat.add_assoc]
  zero_add := fun a => by ext <;> simp
  add_zero := fun a => by ext <;> simp
  add_comm := fun a b => by ext <;> simp [Nat.add_comm]
  nsmul := nsmulRec

instance : Monoid Reads where
  mul_assoc := fun a b c => by
    ext
    · simp [Nat.mul_assoc]
    · simp only [reads_mul, trees_mul, Nat.mul_add, Nat.mul_assoc]
      omega
  one_mul := fun a => by ext <;> simp
  mul_one := fun a => by ext <;> simp

/-- Neither more trees nor more reads. -/
def Below (a b : Reads) : Prop :=
  a.trees ≤ b.trees ∧ a.reads ≤ b.reads

theorem comparison : Comparison Below where
  refl := fun _ => ⟨Nat.le_refl _, Nat.le_refl _⟩
  trans := fun hab hbc => ⟨hab.1.trans hbc.1, hab.2.trans hbc.2⟩
  add_le_add := fun hab hcd => ⟨Nat.add_le_add hab.1 hcd.1, Nat.add_le_add hab.2 hcd.2⟩
  mul_le_mul := fun hab hcd =>
    ⟨Nat.mul_le_mul hab.1 hcd.1, Nat.add_le_add hab.2 (Nat.mul_le_mul hab.1 hcd.2)⟩
  zero_mul := fun a => by ext <;> simp
  add_mul := fun a b c => by
    ext
    · simp [Nat.add_mul]
    · simp only [reads_mul, reads_add, trees_add, Nat.add_mul]
      omega
  mul_add_le := fun a b c => by
    constructor
    · simp [Nat.mul_add]
    · simp only [reads_mul, reads_add, Nat.mul_add]
      omega
  add_repeat := fun a b => by
    constructor
    · simp only [trees_add]
      omega
    · simp only [reads_add]
      omega

end Reads

/-- A terminal has one tree and one read; the empty terminal is not read. -/
def Terminal.readsOf (t : Terminal) : Reads :=
  if t.isEmpty then 1 else ⟨1, 1⟩

theorem Terminal.readsOf_empty : Terminal.empty.readsOf = 1 := rfl

theorem Terminal.readsOf_of_ne_empty {t : Terminal} (h : t ≠ .empty) : t.readsOf = ⟨1, 1⟩ := by
  unfold readsOf
  rw [if_neg (by simpa [isEmpty] using h)]

theorem Terminal.trees_readsOf (t : Terminal) : t.readsOf.trees = 1 := by
  unfold readsOf
  split <;> rfl

/-- The number of trees and reads of every variable. -/
abbrev CountsReads (rules : List Rule) (a : Nat → Reads) : Prop :=
  IsValuation Terminal.readsOf rules a

/-! ## Every variable has a tree -/

section Trees

variable {a : Nat → Reads}

theorem trees_sequenceValue_pos {symbols : List Symbol}
    (h : ∀ v, Symbol.var v ∈ symbols → 0 < (a v.id).trees) :
    0 < (sequenceValue Terminal.readsOf a symbols).trees := by
  induction symbols with
  | nil => exact Nat.one_pos
  | cons x rest ih =>
    rw [sequenceValue_cons, Reads.trees_mul]
    refine Nat.mul_pos ?_ (ih fun v hv => h v (List.mem_cons_of_mem _ hv))
    cases x with
    | term t =>
      show 0 < t.readsOf.trees
      rw [Terminal.trees_readsOf]
      exact Nat.one_pos
    | var v => exact h v (List.mem_cons_self ..)

theorem trees_choiceValue_pos {vars : List Variable} (hne : vars ≠ [])
    (h : ∀ v ∈ vars, 0 < (a v.id).trees) : 0 < (choiceValue a vars).trees := by
  cases vars with
  | nil => exact absurd rfl hne
  | cons v rest =>
    have hv := h v (List.mem_cons_self ..)
    rw [choiceValue_cons, Reads.trees_add]
    omega

theorem CountsReads.trees_pos {start : Variable} {rules : List Rule}
    (ha : CountsReads rules a) (h : WellFormed start rules) :
    ∀ i ∈ ruleIds rules, 0 < (a i).trees := by
  refine h.reference_induction (P := fun i => 0 < (a i).trees) ?_
  intro r hr ih
  rw [ha r hr]
  cases r with
  | derivation lhs rhs =>
    exact trees_sequenceValue_pos fun v hv => ih v (Rule.mem_references_derivation.mpr hv)
  | selection lhs alternatives =>
    apply trees_choiceValue_pos _ ih
    have htwo := (h.selections lhs alternatives hr).1
    intro hnil
    rw [show alternatives = [] from hnil] at htwo
    exact absurd htwo (by simp)

end Trees

/-! ## Fewer reads below mean fewer reads above -/

section Decrease

variable {a a' : Nat → Reads}

theorem reads_sequenceValue_lt {symbols : List Symbol}
    (hle : ∀ v, Symbol.var v ∈ symbols → Reads.Below (a' v.id) (a v.id))
    (hpos : ∀ v, Symbol.var v ∈ symbols → 0 < (a v.id).trees)
    (hlt : ∃ v, Symbol.var v ∈ symbols ∧ (a' v.id).reads < (a v.id).reads) :
    (sequenceValue Terminal.readsOf a' symbols).reads <
      (sequenceValue Terminal.readsOf a symbols).reads := by
  -- What follows a symbol is read once for each of its trees, and there is a tree, so fewer
  -- reads further behind are fewer reads here.
  induction symbols with
  | nil =>
    obtain ⟨v, hv, -⟩ := hlt
    cases hv
  | cons x rest ih =>
    rw [sequenceValue_cons, sequenceValue_cons, Reads.reads_mul, Reads.reads_mul]
    have hrest := Reads.comparison.sequenceValue_le Terminal.readsOf
      fun v hv => hle v (List.mem_cons_of_mem _ hv)
    cases x with
    | term t =>
      have hlater : ∃ v, Symbol.var v ∈ rest ∧ (a' v.id).reads < (a v.id).reads := by
        obtain ⟨v, hv, hlt⟩ := hlt
        exact ⟨v, by simpa using hv, hlt⟩
      have := ih (fun v hv => hle v (List.mem_cons_of_mem _ hv))
        (fun v hv => hpos v (List.mem_cons_of_mem _ hv)) hlater
      show t.readsOf.reads + t.readsOf.trees * _ < t.readsOf.reads + t.readsOf.trees * _
      rw [Terminal.trees_readsOf]
      omega
    | var w =>
      show (a' w.id).reads + (a' w.id).trees * _ < (a w.id).reads + (a w.id).trees * _
      have hw := hle w (List.mem_cons_self ..)
      have hmul : (a' w.id).trees * (sequenceValue Terminal.readsOf a' rest).reads ≤
          (a w.id).trees * (sequenceValue Terminal.readsOf a rest).reads :=
        Nat.mul_le_mul hw.1 hrest.2
      by_cases hfirst : (a' w.id).reads < (a w.id).reads
      · omega
      · -- The first variable has as many reads as before, so a later one has fewer.
        have hlater : ∃ v, Symbol.var v ∈ rest ∧ (a' v.id).reads < (a v.id).reads := by
          obtain ⟨v, hv, hlt⟩ := hlt
          rcases List.mem_cons.mp hv with heq | hv
          · cases heq
            exact absurd hlt hfirst
          · exact ⟨v, hv, hlt⟩
        have hless := ih (fun v hv => hle v (List.mem_cons_of_mem _ hv))
          (fun v hv => hpos v (List.mem_cons_of_mem _ hv)) hlater
        have hstrict : (a' w.id).trees * (sequenceValue Terminal.readsOf a' rest).reads <
            (a w.id).trees * (sequenceValue Terminal.readsOf a rest).reads :=
          calc (a' w.id).trees * (sequenceValue Terminal.readsOf a' rest).reads
              ≤ (a w.id).trees * (sequenceValue Terminal.readsOf a' rest).reads :=
                Nat.mul_le_mul_right _ hw.1
            _ < (a w.id).trees * (sequenceValue Terminal.readsOf a rest).reads :=
                Nat.mul_lt_mul_of_pos_left hless (hpos w (List.mem_cons_self ..))
        have := hw.2
        omega

theorem reads_choiceValue_lt {vars : List Variable}
    (hle : ∀ v ∈ vars, Reads.Below (a' v.id) (a v.id))
    (hlt : ∃ v ∈ vars, (a' v.id).reads < (a v.id).reads) :
    (choiceValue a' vars).reads < (choiceValue a vars).reads := by
  induction vars with
  | nil =>
    obtain ⟨v, hv, -⟩ := hlt
    cases hv
  | cons w rest ih =>
    rw [choiceValue_cons, choiceValue_cons, Reads.reads_add, Reads.reads_add]
    have hw := (hle w (List.mem_cons_self ..)).2
    have hrest := (Reads.comparison.choiceValue_le
      fun v hv => hle v (List.mem_cons_of_mem _ hv)).2
    obtain ⟨v, hv, hlt⟩ := hlt
    rcases List.mem_cons.mp hv with rfl | hv
    · omega
    · have := ih (fun v hv => hle v (List.mem_cons_of_mem _ hv)) ⟨v, hv, hlt⟩
      omega

/-- A rule has fewer reads when one of its references has fewer and none has more. -/
theorem Rule.reads_value_lt {r : Rule}
    (hle : ∀ v ∈ r.references, Reads.Below (a' v.id) (a v.id))
    (hpos : ∀ v ∈ r.references, 0 < (a v.id).trees)
    (hlt : ∃ v ∈ r.references, (a' v.id).reads < (a v.id).reads) :
    (r.value Terminal.readsOf a').reads < (r.value Terminal.readsOf a).reads := by
  cases r with
  | derivation lhs rhs =>
    obtain ⟨v, hv, hlt⟩ := hlt
    exact reads_sequenceValue_lt
      (fun v hv => hle v (Rule.mem_references_derivation.mpr hv))
      (fun v hv => hpos v (Rule.mem_references_derivation.mpr hv))
      ⟨v, Rule.mem_references_derivation.mp hv, hlt⟩
  | selection lhs alternatives => exact reads_choiceValue_lt hle hlt

end Decrease

/-! ## Factoring lowers the number of reads -/

section Factoring

variable {a a' : Nat → Reads} {t : Terminal} {S : Variable → Split → Prop}

theorem reads_choiceValue_addUnique_le (b : Nat → Reads) (vars : List Variable)
    (v : Variable) :
    (choiceValue b (addUnique vars v)).reads ≤ (choiceValue b vars).reads + (b v.id).reads :=
  (choiceValue_addUnique_le Reads.comparison.toCompatible Reads.comparison.add_repeat vars v).2

/-- A part that is collected either is a new one or saves at least one read. -/
theorem reads_addUnique_part_le (b : Nat → Reads) (parts : List Variable) (v : Variable)
    (hpos : 0 < (b v.id).reads) :
    (choiceValue b (addUnique parts v)).reads + 1 + parts.length ≤
      (choiceValue b parts).reads + (b v.id).reads + (addUnique parts v).length := by
  unfold addUnique
  split
  · omega
  · rw [choiceValue_append, choiceValue_cons, choiceValue_nil, add_zero, Reads.reads_add,
      List.length_append, List.length_singleton]
    omega

theorem reads_mul_of_ne_empty (ht : t ≠ .empty) (x : Reads) :
    (t.readsOf * x).reads = 1 + x.reads := by
  rw [Terminal.readsOf_of_ne_empty ht, Reads.reads_mul]
  show 1 + 1 * x.reads = 1 + x.reads
  omega

/-- Every alternative on a chain saves a read, but for one read of each part. -/
theorem Parted.reads_le (ht : t ≠ .empty)
    {onChain alternatives fulls parts fulls' parts' : List Variable}
    (h : Parted S onChain alternatives fulls parts fulls' parts')
    (hvars : ∀ v ∈ alternatives, Reads.Below (a' v.id) (a v.id))
    (hS : ∀ v ∈ alternatives, ∀ s, S v s →
      Reads.Below (s.value Terminal.readsOf a' t) (a v.id)) :
    (choiceValue a' fulls').reads +
        (choiceValue (fun i => t.readsOf * a' i) parts').reads +
          alternatives.countP onChain.contains + parts.length ≤
      (choiceValue a' fulls).reads + (choiceValue (fun i => t.readsOf * a' i) parts).reads +
        (choiceValue a alternatives).reads + parts'.length := by
  -- An alternative on the chain that adds a part is paid for by the longer list of parts, and
  -- one that shares a part saves a read of its own.
  induction h with
  | nil => simp
  | @aside v rest fulls parts fulls' parts' hv _ ih =>
    have hrest := ih (fun u hu => hvars u (List.mem_cons_of_mem _ hu))
      (fun u hu => hS u (List.mem_cons_of_mem _ hu))
    have hfull := reads_choiceValue_addUnique_le a' fulls v
    have hvalue := (hvars v (List.mem_cons_self ..)).2
    rw [List.countP_cons_of_neg (by simp [hv]), choiceValue_cons, Reads.reads_add]
    omega
  | @through v part rest fulls parts fulls' parts' hv hs _ ih =>
    have hrest := ih (fun u hu => hvars u (List.mem_cons_of_mem _ hu))
      (fun u hu => hS u (List.mem_cons_of_mem _ hu))
    have hpos : 0 < (t.readsOf * a' part.id).reads := by
      rw [reads_mul_of_ne_empty ht]
      omega
    have hpart := reads_addUnique_part_le (fun i => t.readsOf * a' i) parts part hpos
    have hvalue := (hS v (List.mem_cons_self ..) _ hs).2
    rw [Split.value_none] at hvalue
    rw [List.countP_cons_of_pos hv, choiceValue_cons, Reads.reads_add]
    omega
  | @both v full part rest fulls parts fulls' parts' hv hs _ ih =>
    have hrest := ih (fun u hu => hvars u (List.mem_cons_of_mem _ hu))
      (fun u hu => hS u (List.mem_cons_of_mem _ hu))
    have hpos : 0 < (t.readsOf * a' part.id).reads := by
      rw [reads_mul_of_ne_empty ht]
      omega
    have hpart := reads_addUnique_part_le (fun i => t.readsOf * a' i) parts part hpos
    have hfull := reads_choiceValue_addUnique_le a' fulls full
    have hvalue := (hS v (List.mem_cons_self ..) _ hs).2
    rw [Split.value_some, Reads.reads_add] at hvalue
    rw [List.countP_cons_of_pos hv, choiceValue_cons, Reads.reads_add]
    omega

theorem reads_choiceValue_mul (ht : t ≠ .empty) (parts : List Variable) :
    (choiceValue (fun i => t.readsOf * a' i) parts).reads =
      (choiceValue a' parts).reads + parts.length := by
  induction parts with
  | nil => rfl
  | cons v rest ih =>
    rw [choiceValue_cons, choiceValue_cons, Reads.reads_add, Reads.reads_add, ih,
      reads_mul_of_ne_empty ht, List.length_cons]
    omega

/-- Two different members of a list that satisfy a condition make a count of two. -/
theorem two_le_countP {vars : List Variable} {p : Variable → Bool} {u w : Variable}
    (hu : u ∈ vars) (hw : w ∈ vars) (hne : u ≠ w) (hpu : p u = true) (hpw : p w = true) :
    2 ≤ vars.countP p := by
  rw [List.countP_eq_length_filter]
  have hnodup : [u, w].Nodup := by simp [hne]
  have hsub : [u, w] ⊆ vars.filter p := by
    intro x hx
    rcases List.mem_cons.mp hx with rfl | hx
    · exact List.mem_filter.mpr ⟨hu, hpu⟩
    · rw [List.mem_singleton] at hx
      exact List.mem_filter.mpr ⟨hx ▸ hw, hx ▸ hpw⟩
  exact (List.subperm_of_subset hnodup hsub).length_le

variable {task : FactorTask} {rules : List Rule} {start rest : Variable}
variable {alternatives remaining parts : List Variable} {splits : List (Variable × Split)}

/-- The root has fewer reads when the prefix that it shares is factored out. -/
theorem Factored.reads_root_lt
    (h : Factored task rules alternatives remaining parts splits rest)
    (hforks : task.target.Forks task.grammar) (hgrammar : task.grammar.Valid)
    (hrules : WellFormed start rules) (ha : CountsReads task.grammar.rules a)
    (ha' : CountsReads rules a') :
    (a' task.target.root.id).reads < (a task.target.root.id).reads := by
  obtain ⟨lhs, hlhs, hid⟩ := h.root
  have hbelow := h.values_le Reads.comparison.toCompatible
    (Or.inl Reads.comparison.add_repeat) hgrammar hrules ha ha'
  have hrefers : ∀ v ∈ alternatives, v.id ∈ ruleIds task.grammar.rules :=
    fun v hv => defines_iff_mem_ruleIds.mp (hgrammar.well_formed.closed _ hlhs v hv)
  have hparted := h.parted.reads_le hforks.symbol_ne
    (fun v hv => (hbelow v.id (hrefers v hv)).1)
    (fun v hv s hs => (hbelow v.id (hrefers v hv)).2 v s rfl hs)
  -- The chains leave the root through at least two of its alternatives.
  have htwo : 2 ≤ alternatives.countP (task.successors task.target.root).contains := by
    obtain ⟨lhs', choices, u, w, hrule, hu, hw, hne, hu', hw'⟩ := hforks.fork
    have hsame := eq_of_lhs_id_eq hgrammar.well_formed.nodup_ruleIds hlhs
      (Grammar.mem_of_rule? hrule) (hid.trans (Grammar.lhs_of_rule? hrule).symm)
    cases hsame
    refine two_le_countP hu hw (fun heq => hne (congrArg _ heq)) ?_ ?_
    · exact contains_iff_mem_ids.mpr (List.mem_map_of_mem hu')
    · exact contains_iff_mem_ids.mpr (List.mem_map_of_mem hw')
  rw [← hid, ha.selection_eq hlhs, hid, h.rerooted.value_eq h.selects ha', Reads.reads_add,
    reads_mul_of_ne_empty hforks.symbol_ne]
  rw [reads_choiceValue_mul hforks.symbol_ne, choiceValue_nil, choiceValue_nil,
    Reads.reads_zero, List.length_nil] at hparted
  omega

/-- So has everything that leads to the root, and the start variable in particular. -/
theorem Factored.reads_start_lt
    (h : Factored task rules alternatives remaining parts splits rest)
    (hforks : task.target.Forks task.grammar) (hgrammar : task.grammar.Valid)
    (hrules : WellFormed start rules) (ha : CountsReads task.grammar.rules a)
    (ha' : CountsReads rules a') :
    (a' task.grammar.start.id).reads < (a task.grammar.start.id).reads := by
  have hwell := hgrammar.well_formed
  have hroot := h.reads_root_lt hforks hgrammar hrules ha ha'
  have hbelow := h.values_le Reads.comparison.toCompatible
    (Or.inl Reads.comparison.add_repeat) hgrammar hrules ha ha'
  have hpath := hforks.reached
  unfold Grammar.Reaches at hpath
  generalize task.grammar.start.id = i at hpath ⊢
  -- Backwards along a path to the root, each rule refers to a variable with fewer reads.
  induction hpath using Relation.ReflTransGen.head_induction_on with
  | refl => exact hroot
  | @head i j hstep _ ih =>
    rcases hstep with ⟨r, hr, rfl, v, hv, rfl⟩ | ⟨e, he, -⟩
    · by_cases hid : r.lhs.id = task.target.root.id
      · rw [hid]
        exact hroot
      · rw [ha r hr, ha' r (h.kept r hr hid)]
        have hrefers : ∀ u ∈ r.references, u.id ∈ ruleIds task.grammar.rules :=
          fun u hu => defines_iff_mem_ruleIds.mp (hwell.closed r hr u hu)
        exact Rule.reads_value_lt (fun u hu => (hbelow u.id (hrefers u hu)).1)
          (fun u hu => ha.trees_pos hwell u.id (hrefers u hu)) ⟨v, hv, ih⟩
    · cases he

end Factoring

end FluentGrammar
