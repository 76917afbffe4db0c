import FluentGrammar.Grammar.Evaluation

/-! # Counting down

    The number of rounds that factoring needs is bounded by a number that is easy to define
    and can be far too large to be written down: it doubles with every level of a grammar
    that doubles its strings. A countdown is such a number taken apart only as far as it is
    counted down. Addition and multiplication build it without computing it.
-/

namespace FluentGrammar

/-- A number of steps, each known only when the one before it is taken. -/
inductive Countdown where
  /-- No step is left. -/
  | done
  /-- One step, and the ones behind it. -/
  | more (rest : Unit → Countdown)

namespace Countdown

/-- The number of steps. -/
def toNat : Countdown → Nat
  | .done => 0
  | .more rest => (rest ()).toNat + 1

/-- A countdown of one step. -/
def one : Countdown :=
  .more (fun _ => .done)

/-- The steps of one countdown, and those of another behind them. -/
def add : Countdown → (Unit → Countdown) → Countdown
  | .done, later => later ()
  | .more rest, later => .more (fun _ => (rest ()).add later)

/-- The steps of one countdown for each step of another. -/
def mul : Countdown → Countdown → Countdown
  | .done, _ => .done
  | .more rest, c => c.add (fun _ => (rest ()).mul c)

/-! ## Countdowns as numbers -/

@[simp] theorem toNat_one : one.toNat = 1 := rfl

@[simp] theorem toNat_add (c : Countdown) (later : Unit → Countdown) :
    (c.add later).toNat = c.toNat + (later ()).toNat := by
  induction c with
  | done => simp [add, toNat]
  | more rest ih => simp only [add, toNat, ih]; omega

@[simp] theorem toNat_mul (c d : Countdown) : (c.mul d).toNat = c.toNat * d.toNat := by
  induction c with
  | done => simp [mul, toNat]
  | more rest ih =>
    simp only [mul, toNat_add, toNat, ih]
    rw [Nat.succ_mul, Nat.add_comm]

/-- The sum of several countdowns. -/
def sum : List Countdown → Countdown
  | [] => .done
  | c :: rest => c.add (fun _ => sum rest)

/-- The product of several countdowns. -/
def product : List Countdown → Countdown
  | [] => one
  | c :: rest => c.mul (product rest)

end Countdown

/-! ## A bound on the rounds of factoring -/

/-- The weight of a symbol: two for a terminal, and one for the empty terminal. -/
def symbolWeight (weight : Variable → Option Countdown) : Symbol → Option Countdown
  | .term t => some (if t.isEmpty then .one else Countdown.one.add (fun _ => .one))
  | .var v => weight v

/-- The weight of a rule: that of its symbols multiplied along a derivation, and that of its
    alternatives added over a selection. -/
def ruleWeight (weight : Variable → Option Countdown) : Rule → Option Countdown
  | .derivation _ rhs => (rhs.mapM (symbolWeight weight)).map Countdown.product
  | .selection _ alternatives => (alternatives.mapM weight).map Countdown.sum

/-- A bound on the rounds of factoring: the sum, over all derivation trees, of two to the
    power of the length of the string. It exceeds the number of places at which a leftmost
    derivation reads a terminal, counted once for each way of getting there, and every round
    makes one such place out of several. -/
def Grammar.roundBound (g : Grammar) : Countdown :=
  (g.evaluate ruleWeight).getD .done

end FluentGrammar
