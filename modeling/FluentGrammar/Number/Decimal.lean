/-! # Decimal numbers

    Digits are read as a number, and quotients are written with a fixed number of decimal
    places. An average is first rounded to the nearest number with 53 binary digits, and that number
    is then written with a fixed number of places. Both roundings are exact and send a tie to
    the even neighbour. The first one shows: 43/20 lies on a tie, but the binary number
    nearest to it lies below, so one place of it is `2.1`.
-/

namespace FluentGrammar.Number

/-! ## Digits -/

/-- The number that decimal digits stand for, the most significant first. -/
def ofDigits (digits : List Char) : Nat :=
  digits.foldl (fun n c => 10 * n + (c.toNat - '0'.toNat)) 0

example : ofDigits "0420".toList = 420 := by decide +kernel

/-! ## Quotients -/

/-- The natural number nearest to a quotient; a tie goes to the even one. -/
def roundHalfEven (num den : Nat) : Nat :=
  let quotient := num / den
  let remainder := num % den
  if 2 * remainder < den then quotient
  else if den < 2 * remainder then quotient + 1
  else quotient + quotient % 2

/-- Rounding moves by at most half a unit. -/
theorem roundHalfEven_near (num : Nat) {den : Nat} (hden : 0 < den) :
    2 * (roundHalfEven num den * den) ≤ 2 * num + den ∧
      2 * num ≤ 2 * (roundHalfEven num den * den) + den := by
  have hdiv := Nat.div_add_mod num den
  have hcomm : den * (num / den) = num / den * den := Nat.mul_comm _ _
  have hsucc : (num / den + 1) * den = num / den * den + den := Nat.succ_mul _ _
  simp only [roundHalfEven]
  split
  · omega
  · split
    · rename_i h1 h2
      have hlt : num % den < den := Nat.mod_lt _ hden
      omega
    · rcases Nat.mod_two_eq_zero_or_one (num / den) with h | h
      · rw [h, Nat.add_zero]; omega
      · rw [h]; omega

/-- The exponent `e` with `2 ^ e ≤ num / den < 2 ^ (e + 1)`, for positive arguments. -/
def binaryExponent (num den : Nat) : Int :=
  let guess : Int := (Nat.log2 num : Int) - (Nat.log2 den : Int)
  let tooBig := if 0 ≤ guess then num < den <<< guess.toNat else num <<< (-guess).toNat < den
  if tooBig then guess - 1 else guess

/-- The number with 53 binary digits nearest to a quotient, as a numerator and denominator. -/
def nearestBinary (num den : Nat) : Nat × Nat :=
  if num = 0 ∨ den = 0 then (0, 1)
  else
    let shift : Int := 52 - binaryExponent num den
    if 0 ≤ shift then (roundHalfEven (num <<< shift.toNat) den, 1 <<< shift.toNat)
    else
      let unit := 1 <<< (-shift).toNat
      (roundHalfEven num (den * unit) * unit, 1)

/-- A natural number in decimal digits, filled up with zeros on the left. -/
def zeroPadded (width n : Nat) : String :=
  let digits := toString n
  "".pushn '0' (width - digits.length) ++ digits

/-- A quotient with `places` digits after the point. -/
def fixed (places num den : Nat) : String :=
  let unit := Nat.pow 10 places
  let scaled := roundHalfEven (num * unit) den
  toString (scaled / unit) ++
    (if places = 0 then "" else "." ++ zeroPadded places (scaled % unit))

/-- An average with `places` digits after the point; the average of nothing is zero. -/
def average (places total count : Nat) : String :=
  let (num, den) := nearestBinary total count
  fixed places num den

example : average 1 43 20 = "2.1" ∧ average 1 9 4 = "2.2" ∧ average 6 7 3 = "2.333333" := by
  decide +kernel

end FluentGrammar.Number
