/-! # Sorted lists

    Stable sorting by a key, and sorting with repeated elements dropped. Everything that is
    shown in an order is sorted through here.
-/

namespace FluentGrammar

/-- Whether the key of the first element is not above the key of the second. -/
def keyLe {α β : Type} [Ord β] (key : α → β) (a b : α) : Bool :=
  (compare (key a) (key b)).isLE

/-- The elements in increasing order of their keys; equal keys keep their order. -/
def sortOn {α β : Type} [Ord β] (key : α → β) (xs : List α) : List α :=
  xs.mergeSort (keyLe key)

/-- A sorted list without its repetitions. -/
def dropRepeats {α : Type} [Ord α] : List α → List α
  | [] => []
  | [x] => [x]
  | x :: y :: rest =>
    if compare x y == .eq then dropRepeats (y :: rest) else x :: dropRepeats (y :: rest)

/-- The elements of a list in increasing order, each once. -/
def sortedSet {α : Type} [Ord α] (xs : List α) : List α :=
  dropRepeats (sortOn id xs)

/-! ## What sorting keeps -/

theorem sortOn_perm {α β : Type} [Ord β] (key : α → β) (xs : List α) :
    (sortOn key xs).Perm xs :=
  List.mergeSort_perm xs (keyLe key)

@[simp] theorem mem_sortOn {α β : Type} [Ord β] {key : α → β} {xs : List α} {x : α} :
    x ∈ sortOn key xs ↔ x ∈ xs :=
  (sortOn_perm key xs).mem_iff

@[simp] theorem length_sortOn {α β : Type} [Ord β] (key : α → β) (xs : List α) :
    (sortOn key xs).length = xs.length :=
  (sortOn_perm key xs).length_eq

end FluentGrammar
