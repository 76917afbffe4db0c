import FluentGrammar.Proofs.Supply.Names
import FluentGrammar.Proofs.Text.Tokens
import FluentGrammar.Rewriting.Bridging

/-! # Names made of other names

    New variables are named after terminals in capitals, and after variables with something in
    front or behind. A name in capitals is the name of a variable unless the upper case of one
    of its letters needs a combining mark, for which identifiers have no place.
-/

namespace FluentGrammar

/-! ## Upper case -/

namespace Text

/-- The code points of the letters whose upper case takes a combining mark, `ǰ` the first of
    them. Each has a mark that no capital is composed with. -/
def markedUppers : List Nat := [
  0x1F0, 0x390, 0x3B0, 0x1E96, 0x1E97, 0x1E98, 0x1E99, 0x1F50, 0x1F52, 0x1F54, 0x1F56, 0x1FB6,
  0x1FB7, 0x1FC6, 0x1FC7, 0x1FD2, 0x1FD3, 0x1FD6, 0x1FD7, 0x1FE2, 0x1FE3, 0x1FE4, 0x1FE6,
  0x1FE7, 0x1FF6, 0x1FF7]

/-- The images of a shifted run. -/
def Unicode.ShiftedRun.images (s : Unicode.ShiftedRun) : CodeRun :=
  ⟨s.target, s.target + (s.run.last - s.run.first), s.run.step⟩

theorem contains_images {s : Unicode.ShiftedRun} {n : Nat} (h : s.run.contains n = true) :
    s.images.contains (s.target + (n - s.run.first)) = true := by
  obtain ⟨hfirst, hlast⟩ := CodeRun.contains_le h
  have hbelow : n - s.run.first ≤ s.run.last - s.run.first := by omega
  simp only [CodeRun.contains, Bool.and_eq_true] at h
  simp [CodeRun.contains, Unicode.ShiftedRun.images, hbelow, beq_iff_eq.mp h.2]

/-- Code points of letters are code points of characters. -/
theorem isAlphabetic_ofNat {n : Nat} (h : CodeRun.anyContains Unicode.alphabetic n = true) :
    isAlphabetic (Char.ofNat n) = true := by
  have hall : Unicode.alphabetic.all
      (fun r => r.last < 0xD800 || (0xDFFF < r.first && r.last < 0x110000)) = true := by
    decide +kernel
  obtain ⟨r, hr, hn⟩ := (CodeRun.anyContains_iff Unicode.alphabetic_ordered).mp h
  obtain ⟨hfirst, hlast⟩ := CodeRun.contains_le hn
  have hrange := List.all_eq_true.mp hall r hr
  simp only [Bool.or_eq_true, Bool.and_eq_true, decide_eq_true_eq] at hrange
  have hvalid : n.isValidChar := by
    unfold Nat.isValidChar
    omega
  unfold Char.ofNat
  rw [dif_pos hvalid]
  exact h

/-- Where the upper case is one character in place of another one, it is a letter. -/
theorem isAlphabetic_of_upperShift? {n image : Nat} (h : upperShift? n = some image) :
    isAlphabetic (Char.ofNat image) = true := by
  have hall : Unicode.upperShifts.all (fun s => CodeRun.ordered [s.images] &&
      CodeRun.coverAll Unicode.alphabetic [s.images]) = true := by
    decide +kernel
  obtain ⟨s, hs, rfl⟩ := Option.map_eq_some_iff.mp h
  have hn : s.run.contains n = true :=
    List.find?_some (p := fun s : Unicode.ShiftedRun => s.run.contains n) hs
  have hcover := List.all_eq_true.mp hall s (List.mem_of_find?_eq_some hs)
  rw [Bool.and_eq_true] at hcover
  refine isAlphabetic_ofNat (CodeRun.anyContains_of_coverAll hcover.1 Unicode.alphabetic_ordered
    hcover.2 ?_)
  rw [CodeRun.anyContains_iff hcover.1]
  exact ⟨_, List.mem_singleton.mpr rfl, contains_images hn⟩

end Text

/-- The upper case of an identifier's character is made of such characters again, unless it
    takes a combining mark. -/
theorem all_continuesIdentifier_toUpper {c : Char} (h : continuesIdentifier c = true) :
    (Text.toUpper c).all continuesIdentifier = !Text.markedUppers.contains c.toNat := by
  -- The table of longer expansions is gone through once; every other upper case is a single
  -- letter.
  have hexpansions : Text.Unicode.upperExpansions.all (fun e =>
      (e.2.map Char.ofNat).all continuesIdentifier == !Text.markedUppers.contains e.1) =
        true := by
    decide +kernel
  have hmarked : Text.markedUppers.all
      (fun n => (Text.Unicode.upperExpansions.lookup n).isSome) = true := by
    decide +kernel
  unfold Text.toUpper
  cases hlookup : Text.Unicode.upperExpansions.lookup c.toNat with
  | some images =>
    obtain ⟨front, back, htable, -⟩ := List.lookup_eq_some_iff.mp hlookup
    have hmem : (c.toNat, images) ∈ Text.Unicode.upperExpansions := by
      rw [htable]
      exact List.mem_append_right _ (List.mem_cons_self ..)
    exact beq_iff_eq.mp (List.all_eq_true.mp hexpansions _ hmem)
  | none =>
    have hnot : Text.markedUppers.contains c.toNat = false := by
      rw [← Bool.not_eq_true, List.contains_iff_mem]
      intro hmem
      have hsome := List.all_eq_true.mp hmarked _ hmem
      rw [hlookup] at hsome
      cases hsome
    rw [hnot]
    cases hshift : Text.upperShift? c.toNat with
    | none => simpa using h
    | some image =>
      simp [continuesIdentifier, Text.isAlphanumeric, Text.isAlphabetic_of_upperShift? hshift]

/-! ## Longer names -/

section Names

variable {name seed suffix : String}

theorem all_continuesIdentifier_of_isVariableName (h : isVariableName name = true) :
    name.toList.all continuesIdentifier = true :=
  (Bool.and_eq_true_iff.mp h).2

/-- Behind a capital it does not matter whether what follows begins with one. -/
theorem isVariableName_append (h : beginsWithCapital name = true) :
    isVariableName (name ++ suffix) =
      (isVariableName name && suffix.toList.all continuesIdentifier) := by
  have hfirst : beginsWithCapital (name ++ suffix) = true := by
    obtain ⟨c, rest, hname, hc⟩ := beginsWithCapital_iff.mp h
    refine beginsWithCapital_iff.mpr ⟨c, rest ++ suffix.toList, ?_, hc⟩
    rw [String.toList_append, hname, List.cons_append]
  unfold isVariableName
  rw [h, hfirst, String.toList_append, List.all_append]
  rfl

theorem isVariableName_extended (h : isVariableName name = true)
    (hsuffix : suffix.toList.all continuesIdentifier = true) :
    isVariableName (name ++ suffix) = true := by
  rw [isVariableName_append (beginsWithCapital_of_isVariableName h), h, hsuffix, Bool.and_true]

/-- Identifiers go on with digits. -/
theorem continuesIdentifier_of_isDigit {c : Char} (h : c.isDigit = true) :
    continuesIdentifier c = true := by
  have hlt : c.toNat < 128 := by
    simp only [Char.isDigit, Bool.and_eq_true, decide_eq_true_eq, UInt32.le_iff_toNat_le] at h
    have hle : c.toNat ≤ 57 := h.2
    omega
  have hnumeric := (Text.ascii_classes c.toNat hlt).2.2.1
  rw [Char.ofNat_toNat, h] at hnumeric
  simp [continuesIdentifier, Text.isAlphanumeric, hnumeric]

theorem all_continuesIdentifier_toString (k : Nat) :
    (toString k).toList.all continuesIdentifier = true := by
  rw [List.all_eq_true]
  intro c hc
  rw [Nat.toString_eq_ofList_toDigits, String.toList_ofList] at hc
  exact continuesIdentifier_of_isDigit (Nat.isDigit_of_mem_toDigits (by omega) (by omega) hc)

/-- A name with a number behind it is as good as the name. -/
theorem isVariableName_of_namedAfter (hseed : beginsWithCapital seed = true)
    (h : NameSupply.NamedAfter seed name) : isVariableName name = isVariableName seed := by
  rcases h with rfl | ⟨k, rfl⟩
  · rfl
  · rw [NameSupply.numbered, isVariableName_append hseed, all_continuesIdentifier_toString,
      Bool.and_true]

end Names

/-! ## Names of bridges -/

/-- The terminal's name can be written in capitals without combining marks. -/
def Terminal.capitalizes (t : Terminal) : Bool :=
  t.name.toList.all (fun c => !Text.markedUppers.contains c.toNat)

theorem beginsWithCapital_bridgeSeed (t : Terminal) : beginsWithCapital (bridgeSeed t) = true := by
  unfold beginsWithCapital bridgeSeed
  rw [String.toList_ofList]
  split
  · assumption
  · show Text.isUppercase 'T' = true
    decide

/-- The letters whose upper case takes a combining mark are letters of identifiers. -/
theorem continuesIdentifier_of_mem_markedUppers {c : Char}
    (h : Text.markedUppers.contains c.toNat = true) : continuesIdentifier c = true := by
  have hall : Text.markedUppers.all
      (fun n => Text.CodeRun.anyContains Text.Unicode.alphabetic n) = true := by
    decide +kernel
  have hletter : Text.isAlphabetic c = true :=
    List.all_eq_true.mp hall _ (List.contains_iff_mem.mp h)
  simp [continuesIdentifier, Text.isAlphanumeric, hletter]

/-- What a bridge is named after is the name of a variable unless a combining mark is needed
    to write it in capitals. -/
theorem isVariableName_bridgeSeed (t : Terminal) :
    isVariableName (bridgeSeed t) = t.capitalizes := by
  -- The characters that are dropped first need no mark, so the test may look at all of the name.
  have hkept : ((t.name.toList.filter continuesIdentifier).flatMap Text.toUpper).all
      continuesIdentifier = t.capitalizes := by
    unfold Terminal.capitalizes
    induction t.name.toList with
    | nil => rfl
    | cons c rest ih =>
      cases hc : continuesIdentifier c with
      | true =>
        rw [List.filter_cons_of_pos hc, List.flatMap_cons, List.all_append, ih, List.all_cons,
          all_continuesIdentifier_toUpper hc]
      | false =>
        have hunmarked : Text.markedUppers.contains c.toNat = false := by
          rw [← Bool.not_eq_true]
          intro hmarked
          rw [continuesIdentifier_of_mem_markedUppers hmarked] at hc
          cases hc
        rw [List.filter_cons_of_neg (by simp [hc]), ih, List.all_cons, hunmarked]
        rfl
  unfold isVariableName
  rw [beginsWithCapital_bridgeSeed, Bool.true_and, ← hkept]
  unfold bridgeSeed
  rw [String.toList_ofList]
  split
  · rfl
  · have hfirst : continuesIdentifier 'T' = true := by decide
    rw [List.all_cons, hfirst]
    rfl

end FluentGrammar
