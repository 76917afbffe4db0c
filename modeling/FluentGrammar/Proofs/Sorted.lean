import FluentGrammar.Proofs.Grammar.Order
import Mathlib.Data.List.Permutation

/-! # Sorted lists and sorted sets

    Where only equal elements compare as equal, a sorted list hangs on its members alone: lists
    of the same elements are sorted to the same list. A sorted set holds its members in
    ascending order, each once.
-/

namespace FluentGrammar

variable {α : Type} [Ord α] {xs ys : List α}

/-- Each element comes before those behind it. -/
def Ascending (xs : List α) : Prop :=
  xs.Pairwise (fun a b => compare a b = .lt)

theorem dropRepeats_sublist (xs : List α) : (dropRepeats xs).Sublist xs := by
  induction xs using dropRepeats.induct with
  | case1 => exact .slnil
  | case2 x => exact List.Sublist.refl [x]
  | case3 x y rest heq ih =>
    rw [dropRepeats, if_pos heq]
    exact ih.cons x
  | case4 x y rest hne ih =>
    rw [dropRepeats, if_neg hne]
    exact ih.cons_cons x

theorem length_sortedSet_le (xs : List α) : (sortedSet xs).length ≤ xs.length :=
  (dropRepeats_sublist _).length_le.trans (length_sortOn id xs).le

/-! ## Members -/

section Members

variable [Std.LawfulEqOrd α]

theorem mem_dropRepeats {x : α} : x ∈ dropRepeats xs ↔ x ∈ xs := by
  induction xs using dropRepeats.induct with
  | case1 => rfl
  | case2 y => rfl
  | case3 y z rest heq ih =>
    have hyz : y = z := Std.LawfulEqOrd.eq_of_compare (beq_iff_eq.mp heq)
    rw [dropRepeats, if_pos heq, ih, hyz]
    simp
  | case4 y z rest hne ih =>
    rw [dropRepeats, if_neg hne, List.mem_cons, ih, List.mem_cons (a := x) (b := y)]

@[simp] theorem mem_sortedSet {x : α} : x ∈ sortedSet xs ↔ x ∈ xs :=
  mem_dropRepeats.trans mem_sortOn

end Members

/-! ## Order -/

section Order

variable [Std.TransOrd α] [Std.LawfulEqOrd α]

/-- Lists of the same elements are sorted to the same list. -/
theorem sortOn_eq_of_perm (h : xs.Perm ys) : sortOn id xs = sortOn id ys := by
  refine List.Perm.eq_of_pairwise ?_ (pairwise_sortOn id xs) (pairwise_sortOn id ys)
    (((sortOn_perm id xs).trans h).trans (sortOn_perm id ys).symm)
  intro a b _ _ hab hba
  exact Std.LawfulEqOrd.eq_of_compare (Std.OrientedCmp.isLE_antisymm hab hba)

theorem ascending_dropRepeats (h : xs.Pairwise (fun a b => keyLe id a b = true)) :
    Ascending (dropRepeats xs) := by
  induction xs using dropRepeats.induct with
  | case1 => exact .nil
  | case2 x => exact List.pairwise_singleton ..
  | case3 x y rest heq ih =>
    rw [dropRepeats, if_pos heq]
    exact ih h.of_cons
  | case4 x y rest hne ih =>
    rw [dropRepeats, if_neg hne]
    refine List.pairwise_cons.mpr ⟨fun z hz => ?_, ih h.of_cons⟩
    have hxy : compare x y = .lt := by
      have hle : keyLe id x y = true := (List.pairwise_cons.mp h).1 y (List.mem_cons_self ..)
      unfold keyLe at hle
      cases hcmp : compare x y <;> simp_all
    -- What is behind `y` is not below it.
    rcases List.mem_cons.mp (mem_dropRepeats.mp hz) with rfl | hz
    · exact hxy
    · exact Std.TransCmp.lt_of_lt_of_isLE hxy ((List.pairwise_cons.mp h.of_cons).1 z hz)

theorem ascending_sortedSet (xs : List α) : Ascending (sortedSet xs) :=
  ascending_dropRepeats (pairwise_sortOn id xs)

omit [Std.LawfulEqOrd α] in
theorem Ascending.nodup (h : Ascending xs) : xs.Nodup := by
  refine List.Pairwise.imp (fun {a b} hlt heq => ?_) h
  have hself : compare b b = .eq := Std.ReflCmp.compare_self
  rw [heq, hself] at hlt
  cases hlt

omit [Std.LawfulEqOrd α] in
/-- Lists in ascending order that have the same members are equal. -/
theorem Ascending.ext (hxs : Ascending xs) (hys : Ascending ys) (h : ∀ x, x ∈ xs ↔ x ∈ ys) :
    xs = ys := by
  refine List.Perm.eq_of_pairwise ?_ hxs hys
    ((List.perm_ext_iff_of_nodup hxs.nodup hys.nodup).mpr h)
  intro a b _ _ hab hba
  have hswap : compare b a = (compare a b).swap := Std.OrientedCmp.eq_swap
  rw [hswap, hab] at hba
  cases hba

end Order

end FluentGrammar
