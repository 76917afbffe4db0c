/-! # Pseudo-random draws

    Words come from a shift register of 64 bits: three times the register is combined with a
    shifted copy of itself. Zero is mapped to zero, so a seed of zero is replaced. The same
    seed always gives the same draws.
-/

namespace FluentGrammar

/-- A shift register. -/
structure Xorshift where
  register : UInt64

namespace Xorshift

/-- The register without a seed. -/
def unseeded : Xorshift :=
  ⟨0x853c49e6748fea9b⟩

/-- The register of a seed. -/
def ofSeed (seed : UInt64) : Xorshift :=
  if seed = 0 then unseeded else ⟨seed⟩

/-- The next word, which is also the next state of the register. -/
def next (s : Xorshift) : Xorshift :=
  let x := s.register
  let x := x ^^^ (x <<< 13)
  let x := x ^^^ (x >>> 7)
  let x := x ^^^ (x <<< 17)
  ⟨x⟩

end Xorshift

/-! ## Draws -/

/-- A computation that draws words. -/
abbrev Draw := StateM Xorshift

namespace Draw

/-- A word. -/
def word : Draw UInt64 := do
  modify Xorshift.next
  return (← get).register

/-- A number below `bound`, or zero if there is none. -/
def below (bound : Nat) : Draw Nat := do
  return (← word).toNat % max bound 1

/-- A number between zero and one: the word as a fraction of `2 ^ 64`. -/
def fraction : Draw Float := do
  return (← word).toFloat / 18446744073709551616.0

/-- An event of the given probability. -/
def chance (probability : Float) : Draw Bool := do
  return (← fraction) < probability

/-- The elements without the one at `k`; the last one takes its place. -/
def swapRemove {α : Type} (pool : List α) (k : Nat) : List α :=
  match pool.getLast? with
  | none => []
  | some last => (pool.set k last).dropLast

/-- Up to `wanted` different elements of a pool. -/
def among {α : Type} : (wanted : Nat) → (pool : List α) → Draw (List α)
  | 0, _ => return []
  | _, [] => return []
  | wanted + 1, pool => do
    let k ← below pool.length
    match pool[k]? with
    | none => return []
    | some x => return x :: (← among wanted (swapRemove pool k))

/-- As many draws of the same kind as wanted. -/
def times {α : Type} (draw : Draw α) : (count : Nat) → Draw (List α)
  | 0 => return []
  | count + 1 => do
    let x ← draw
    return x :: (← times draw count)

/-! ## Ranges -/

theorem below_lt (bound : Nat) (hbound : 0 < bound) (s : Xorshift) :
    ((below bound).run s).1 < bound := by
  have hmax : max bound 1 = bound := Nat.max_eq_left hbound
  change (s.next.register).toNat % max bound 1 < bound
  rw [hmax]
  exact Nat.mod_lt _ hbound

theorem length_swapRemove {α : Type} (pool : List α) (k : Nat) :
    (swapRemove pool k).length = pool.length - 1 := by
  unfold swapRemove
  cases h : pool.getLast? with
  | none => rw [List.getLast?_eq_none_iff.mp h]; rfl
  | some last => simp

end Draw

end FluentGrammar
