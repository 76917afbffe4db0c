import FluentGrammar.Sample.Xorshift
import Mathlib.Data.List.Perm.Subperm
import Mathlib.Logic.Function.Iterate

/-! # What draws give

    Zero is the only state of the register that leads to zero, so a register that begins at
    another state never gets there. Of a computation that draws words it is said what it gives
    for every register; this carries over from the single draws to all that is made of them.
-/

namespace FluentGrammar

/-! ## The register -/

/-- A bit that is equal to a lower one is zero, if this is so all the way down. -/
theorem eq_zero_of_eq_shiftLeft {w k : Nat} {x : BitVec w} (hk : 0 < k)
    (h : x = x <<< k) : x = 0#w := by
  have hbit : ∀ i, x.getLsbD i = false := by
    intro i
    induction i using Nat.strongRecOn with
    | ind i ih =>
      rw [h, BitVec.getLsbD_shiftLeft]
      by_cases hi : i < k
      · simp [hi]
      · rw [ih (i - k) (by omega), Bool.and_false]
  exact BitVec.eq_of_getLsbD_eq fun i _ => by rw [hbit, BitVec.getLsbD_zero]

/-- A bit that is equal to a higher one is zero, if this is so all the way up. -/
theorem eq_zero_of_eq_shiftRight {w k : Nat} {x : BitVec w} (hk : 0 < k)
    (h : x = x >>> k) : x = 0#w := by
  -- The induction is on the distance to the highest bit.
  have hbit : ∀ n i, w ≤ i + n → x.getLsbD i = false := by
    intro n
    induction n with
    | zero => exact fun i hi => BitVec.getLsbD_of_ge x i hi
    | succ n ih =>
      intro i hi
      rw [h, BitVec.getLsbD_ushiftRight]
      exact ih (k + i) (by omega)
  exact BitVec.eq_of_getLsbD_eq fun i _ => by rw [hbit w i (by omega), BitVec.getLsbD_zero]

namespace Xorshift

theorem xor_shiftLeft_ne_zero {x : UInt64} (k : UInt64) (hk : 0 < (k.toBitVec % 64).toNat)
    (hx : x ≠ 0) : x ^^^ (x <<< k) ≠ 0 := by
  intro h
  have hshift := congrArg UInt64.toBitVec (UInt64.xor_eq_zero_iff.mp h)
  rw [UInt64.toBitVec_shiftLeft] at hshift
  exact hx (UInt64.toBitVec_inj.mp (eq_zero_of_eq_shiftLeft hk hshift))

theorem xor_shiftRight_ne_zero {x : UInt64} (k : UInt64) (hk : 0 < (k.toBitVec % 64).toNat)
    (hx : x ≠ 0) : x ^^^ (x >>> k) ≠ 0 := by
  intro h
  have hshift := congrArg UInt64.toBitVec (UInt64.xor_eq_zero_iff.mp h)
  rw [UInt64.toBitVec_shiftRight] at hshift
  exact hx (UInt64.toBitVec_inj.mp (eq_zero_of_eq_shiftRight hk hshift))

/-- A register that is not zero does not become zero. -/
theorem next_register_ne_zero {s : Xorshift} (hs : s.register ≠ 0) : s.next.register ≠ 0 :=
  xor_shiftLeft_ne_zero 17 (by decide)
    (xor_shiftRight_ne_zero 7 (by decide) (xor_shiftLeft_ne_zero 13 (by decide) hs))

theorem iterate_next_register_ne_zero {s : Xorshift} (hs : s.register ≠ 0) (n : Nat) :
    (next^[n] s).register ≠ 0 := by
  induction n with
  | zero => exact hs
  | succ n ih =>
    rw [Function.iterate_succ_apply']
    exact next_register_ne_zero ih

theorem ofSeed_register_ne_zero (seed : UInt64) : (ofSeed seed).register ≠ 0 := by
  unfold ofSeed
  split
  · decide
  · assumption

end Xorshift

/-! ## Computations that draw words -/

namespace Draw

open scoped List

variable {α β : Type} {P : α → Prop} {d : Draw α}

/-- Whatever the register is, the computation gives something with the property, and it moves
    the register on by some number of words. -/
def Gives (d : Draw α) (P : α → Prop) : Prop :=
  ∀ s : Xorshift, P (d.run s).1 ∧ ∃ n, (d.run s).2 = Xorshift.next^[n] s

theorem Gives.pure {a : α} (h : P a) : Gives (pure a : Draw α) P :=
  fun _ => ⟨h, 0, rfl⟩

theorem Gives.bind {R : β → Prop} {f : α → Draw β} (hd : d.Gives P)
    (hf : ∀ a, P a → (f a).Gives R) : (d >>= f).Gives R := by
  intro s
  obtain ⟨ha, n, hn⟩ := hd s
  obtain ⟨hb, m, hm⟩ := hf _ ha (d.run s).2
  refine ⟨hb, m + n, ?_⟩
  rw [Function.iterate_add_apply, ← hn]
  exact hm

theorem below_gives {bound : Nat} (h : 0 < bound) : (below bound).Gives (· < bound) :=
  fun s => ⟨below_lt bound h s, 1, rfl⟩

/-- An event may or may not happen, whatever its probability is. -/
theorem chance_gives (probability : Float) : (chance probability).Gives fun _ => True :=
  fun _ => ⟨trivial, 1, rfl⟩

/-- As many draws as wanted give that many results. -/
theorem times_gives (hd : d.Gives P) (count : Nat) :
    (times d count).Gives fun xs => xs.length = count ∧ ∀ x ∈ xs, P x := by
  induction count with
  | zero => exact .pure ⟨rfl, by simp⟩
  | succ count ih =>
    refine hd.bind fun x hx => ih.bind fun xs hxs => .pure ?_
    exact ⟨congrArg (· + 1) hxs.1, List.forall_mem_cons.mpr ⟨hx, hxs.2⟩⟩

/-! ## Different elements of a pool -/

/-- What is taken out of a pool and what is left make up the pool. -/
theorem cons_swapRemove_perm {pool : List α} {k : Nat} {x : α} (h : pool[k]? = some x) :
    (x :: swapRemove pool k).Perm pool := by
  obtain ⟨hk, hx⟩ := List.getElem?_eq_some_iff.mp h
  rcases List.eq_nil_or_concat' pool with rfl | ⟨front, last, rfl⟩
  · exact absurd hk (Nat.not_lt_zero _)
  rw [swapRemove, List.getLast?_concat]
  show (x :: ((front ++ [last]).set k last).dropLast).Perm _
  by_cases hlast : k < front.length
  · -- The last element moves to where `x` stood.
    rw [List.getElem_append_left hlast] at hx
    rw [List.set_append_left _ _ hlast, List.dropLast_concat, ← hx]
    calc front[k] :: front.set k last
        _ ~ front[k] :: last :: front.eraseIdx k :=
          (List.set_perm_cons_eraseIdx hlast last).cons _
        _ ~ last :: front[k] :: front.eraseIdx k := List.Perm.swap ..
        _ ~ last :: front := (List.getElem_cons_eraseIdx_perm hlast).cons _
        _ ~ front ++ [last] := (List.perm_append_singleton last front).symm
  · rw [List.length_append, List.length_singleton] at hk
    obtain rfl : k = front.length := by omega
    rw [List.getElem_concat_length rfl] at hx
    rw [List.set_append_right _ _ (Nat.le_refl _), Nat.sub_self, List.set_cons_zero,
      List.dropLast_concat, ← hx]
    exact (List.perm_append_singleton last front).symm

/-- As many different elements of a pool as wanted are given, if there are so many. -/
theorem among_gives (wanted : Nat) (pool : List α) :
    (among wanted pool).Gives fun xs => xs.length = min wanted pool.length ∧ xs.Subperm pool := by
  induction wanted generalizing pool with
  | zero => exact .pure ⟨(Nat.zero_min _).symm, List.nil_subperm⟩
  | succ wanted ih =>
    cases pool with
    | nil => exact .pure ⟨(Nat.min_zero _).symm, List.nil_subperm⟩
    | cons y pool =>
      refine (below_gives (Nat.succ_pos pool.length)).bind fun k hk => ?_
      have hget : (y :: pool)[k]? = some (y :: pool)[k] := List.getElem?_eq_getElem hk
      rw [hget]
      refine (ih (swapRemove (y :: pool) k)).bind fun xs ⟨hlength, hsub⟩ => .pure ⟨?_, ?_⟩
      · rw [List.length_cons, hlength, length_swapRemove, List.length_cons, Nat.add_sub_cancel,
          Nat.succ_min_succ]
      · exact ((List.subperm_cons _).mpr hsub).trans (cons_swapRemove_perm hget).subperm

end Draw

end FluentGrammar
