import FluentGrammar.Text.Unicode.Naming
import FluentGrammar.Text.Unicode.Visibility
import FluentGrammar.Text.Unicode.UpperMapping

/-! # Character classes of the text format

    Identifiers, blanks and capitals are meant in the sense of the Unicode standard, not of
    ASCII: `Éa` names a variable, `漢` a terminal, and a no-break space separates words.
-/

namespace FluentGrammar.Text

/-- White space: separates words, and is trimmed. -/
def isWhiteSpace (c : Char) : Bool :=
  CodeRun.anyContains Unicode.whiteSpace c.toNat

/-- Capital letters and the other characters of property Uppercase. -/
def isUppercase (c : Char) : Bool :=
  CodeRun.anyContains Unicode.uppercase c.toNat

/-- Letters, and the numbers and marks that act as letters. -/
def isAlphabetic (c : Char) : Bool :=
  CodeRun.anyContains Unicode.alphabetic c.toNat

/-- Digits and other numbers. -/
def isNumeric (c : Char) : Bool :=
  CodeRun.anyContains Unicode.numeric c.toNat

/-- Letters and numbers. -/
def isAlphanumeric (c : Char) : Bool :=
  isAlphabetic c || isNumeric c

/-! ## Visible characters -/

/-- The halfwidth voicing marks of Katakana. They have the property Grapheme_Extend, but they
    are letters and stand in a cell of their own. -/
def isVoicingLetter (c : Char) : Bool :=
  c == '\uFF9E' || c == '\uFF9F'

/-- Marks that attach to the character before them. -/
def isAttachedMark (c : Char) : Bool :=
  CodeRun.anyContains Unicode.graphemeExtend c.toNat && !isVoicingLetter c

/-- Characters that are not displayed by default. -/
def isIgnorable (c : Char) : Bool :=
  CodeRun.anyContains Unicode.defaultIgnorable c.toNat

/-- Letters, marks, numbers, punctuation and symbols, and the space. -/
def isPrintable (c : Char) : Bool :=
  !CodeRun.anyContains Unicode.unprintable c.toNat

/-- Characters that can be seen where they stand, and the space. -/
def isVisible (c : Char) : Bool :=
  isPrintable c && !isIgnorable c && !isAttachedMark c

/-! ## Upper case -/

/-- The image of a code point that has an upper case of one character. -/
def upperShift? (n : Nat) : Option Nat :=
  (Unicode.upperShifts.find? (fun s => s.run.contains n)).map
    (fun s => s.target + (n - s.run.first))

/-- The upper case of a character: usually one character, up to three for ligatures and
    some accented letters, and the character itself where it has no upper case. -/
def toUpper (c : Char) : List Char :=
  match Unicode.upperExpansions.lookup c.toNat with
  | some images => images.map Char.ofNat
  | none =>
    match upperShift? c.toNat with
    | some image => [Char.ofNat image]
    | none => [c]

/-! ## ASCII members -/

/-- Every ASCII letter is alphabetic, every ASCII capital is uppercase, every ASCII digit is
    numeric, and the ASCII blanks are white space. -/
theorem ascii_classes : ∀ n < 128,
    isUppercase (Char.ofNat n) = (Char.ofNat n).isUpper ∧
    isAlphabetic (Char.ofNat n) = (Char.ofNat n).isAlpha ∧
    isNumeric (Char.ofNat n) = (Char.ofNat n).isDigit ∧
    isWhiteSpace (Char.ofNat n) =
      ((Char.ofNat n).isWhitespace || n == 0x0B || n == 0x0C) := by
  decide +kernel

example : isVisible 'é' = true ∧ isVisible '\uFF9E' = true ∧ isVisible '\u0301' = false ∧
    isVisible '\u115F' = false ∧ isVisible '\u00A0' = false := by
  decide +kernel

example : toUpper 'a' = ['A'] ∧ toUpper 'ß' = ['S', 'S'] ∧ toUpper '漢' = ['漢'] := by
  decide +kernel

end FluentGrammar.Text
