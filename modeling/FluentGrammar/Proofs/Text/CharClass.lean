import FluentGrammar.Grammar.Token

/-! # How the character classes lie to one another

    The classes are tables of runs, so a fact about two classes is a fact about every pair of
    runs: runs of two classes that never meet, or every run of one class inside a block of the
    other. These are the facts that keep the tokens of the text format apart.
-/

namespace FluentGrammar.Text

namespace CodeRun

/-! ## From runs to their members -/

/-- Whether one run ends before the other begins. -/
def apart (r s : CodeRun) : Bool :=
  r.last < s.first || s.last < r.first

/-- Whether a run lies inside another one that leaves nothing out. -/
def within (r s : CodeRun) : Bool :=
  s.step == 1 && s.first ≤ r.first && r.last ≤ s.last

theorem anyContains_iff {runs : List CodeRun} (h : ordered runs = true) {n : Nat} :
    anyContains runs n = true ↔ ∃ r ∈ runs, r.contains n = true := by
  rw [anyContains_eq_any h, List.any_eq_true]

theorem contains_of_within {r s : CodeRun} (h : r.within s = true) {n : Nat}
    (hn : r.contains n = true) : s.contains n = true := by
  have hr := contains_le hn
  simp only [within, Bool.and_eq_true, beq_iff_eq, decide_eq_true_eq] at h
  obtain ⟨⟨hstep, hfirst⟩, hlast⟩ := h
  simp only [contains, hstep, Nat.mod_one, Bool.and_eq_true, beq_self_eq_true, and_true,
    decide_eq_true_eq]
  omega

/-- The members of a run. -/
def members (r : CodeRun) : List Nat :=
  List.range' r.first ((r.last - r.first) / r.step + 1) r.step

theorem mem_members {r : CodeRun} {n : Nat} (h : r.contains n = true) : n ∈ r.members := by
  have hr := contains_le h
  simp only [contains, Bool.and_eq_true, beq_iff_eq] at h
  have hdiv := Nat.div_add_mod (n - r.first) r.step
  have hle : (n - r.first) / r.step ≤ (r.last - r.first) / r.step :=
    Nat.div_le_div_right (by omega)
  rw [members, List.mem_range']
  exact ⟨(n - r.first) / r.step, by omega, by omega⟩

/-- Classes whose runs never meet have no member in common. -/
theorem anyContains_eq_false_of_apart {xs ys : List CodeRun} (hxs : ordered xs = true)
    (hys : ordered ys = true) (h : xs.all (fun r => ys.all r.apart) = true) {n : Nat}
    (hn : anyContains xs n = true) : anyContains ys n = false := by
  obtain ⟨r, hr, hrn⟩ := (anyContains_iff hxs).mp hn
  rw [← Bool.not_eq_true]
  intro hy
  obtain ⟨s, hs, hsn⟩ := (anyContains_iff hys).mp hy
  have hapart := List.all_eq_true.mp (List.all_eq_true.mp h r hr) s hs
  have hr' := contains_le hrn
  have hs' := contains_le hsn
  simp only [apart, Bool.or_eq_true, decide_eq_true_eq] at hapart
  omega

/-- Whether every run of the second list is held by the first, by the block that it begins in
    or member by member. Both lists are walked through once, in order. -/
def coverAll (ys : List CodeRun) : List CodeRun → Bool
  | [] => true
  | r :: xs =>
    let ahead := ys.dropWhile (fun s => s.last < r.first)
    ((ahead.take 1).any r.within || r.members.all (fun n => ahead.any (·.contains n))) &&
      coverAll ahead xs

theorem contains_of_coverAll {ys xs : List CodeRun} (h : coverAll ys xs = true) :
    ∀ r ∈ xs, ∀ n, r.contains n = true → ∃ s ∈ ys, s.contains n = true := by
  induction xs generalizing ys with
  | nil => simp
  | cons r xs ih =>
    simp only [coverAll, Bool.and_eq_true, Bool.or_eq_true] at h
    obtain ⟨hr, hxs⟩ := h
    have hahead := List.dropWhile_sublist (fun s : CodeRun => decide (s.last < r.first)) (l := ys)
    intro q hq n hn
    rcases List.mem_cons.mp hq with rfl | hq
    · rcases hr with hblock | hmembers
      · obtain ⟨s, hs, hwithin⟩ := List.any_eq_true.mp hblock
        exact ⟨s, hahead.subset (List.mem_of_mem_take hs), contains_of_within hwithin hn⟩
      · obtain ⟨s, hs, hsn⟩ :=
          List.any_eq_true.mp (List.all_eq_true.mp hmembers n (mem_members hn))
        exact ⟨s, hahead.subset hs, hsn⟩
    · obtain ⟨s, hs, hsn⟩ := ih hxs q hq n hn
      exact ⟨s, hahead.subset hs, hsn⟩

/-- A class whose runs are all held by another class is a part of it. -/
theorem anyContains_of_coverAll {xs ys : List CodeRun} (hxs : ordered xs = true)
    (hys : ordered ys = true) (h : coverAll ys xs = true) {n : Nat}
    (hn : anyContains xs n = true) : anyContains ys n = true := by
  obtain ⟨r, hr, hrn⟩ := (anyContains_iff hxs).mp hn
  exact (anyContains_iff hys).mpr (contains_of_coverAll h r hr n hrn)

end CodeRun

/-! ## Letters, numbers and blanks -/

/-- Capitals are letters. -/
theorem isAlphabetic_of_isUppercase {c : Char} (h : isUppercase c = true) :
    isAlphabetic c = true :=
  CodeRun.anyContains_of_coverAll Unicode.uppercase_ordered Unicode.alphabetic_ordered
    (by decide +kernel) h

/-- Blanks are no letters. -/
theorem isAlphabetic_of_isWhiteSpace {c : Char} (h : isWhiteSpace c = true) :
    isAlphabetic c = false :=
  CodeRun.anyContains_eq_false_of_apart Unicode.whiteSpace_ordered Unicode.alphabetic_ordered
    (by decide +kernel) h

/-- Blanks are no numbers. -/
theorem isNumeric_of_isWhiteSpace {c : Char} (h : isWhiteSpace c = true) :
    isNumeric c = false :=
  CodeRun.anyContains_eq_false_of_apart Unicode.whiteSpace_ordered Unicode.numeric_ordered
    (by decide +kernel) h

end FluentGrammar.Text

namespace FluentGrammar

/-! ## Identifiers -/

theorem startsIdentifier_of_isUppercase {c : Char} (h : Text.isUppercase c = true) :
    startsIdentifier c = true := by
  simp [startsIdentifier, Text.isAlphabetic_of_isUppercase h]

theorem continuesIdentifier_of_startsIdentifier {c : Char} (h : startsIdentifier c = true) :
    continuesIdentifier c = true := by
  simp only [startsIdentifier, Bool.or_eq_true] at h
  rcases h with h | h
  · simp [continuesIdentifier, Text.isAlphanumeric, h]
  · simp [continuesIdentifier, h]

/-- No identifier has a blank in it. -/
theorem isWhiteSpace_of_continuesIdentifier {c : Char} (h : continuesIdentifier c = true) :
    Text.isWhiteSpace c = false := by
  cases hblank : Text.isWhiteSpace c with
  | false => rfl
  | true =>
    have hunderscore : c ≠ '_' := by
      intro hc
      rw [hc] at hblank
      exact absurd hblank (by decide)
    simp [continuesIdentifier, Text.isAlphanumeric, Text.isAlphabetic_of_isWhiteSpace hblank,
      Text.isNumeric_of_isWhiteSpace hblank, hunderscore] at h

/-- The characters that the text format takes apart by. -/
def marks : List Char :=
  ['(', ')', ',', '|', ':', '=', '#', '<', '>']

/-- No identifier has a mark in it. -/
theorem continuesIdentifier_of_mem_marks {c : Char} (h : c ∈ marks) :
    continuesIdentifier c = false := by
  have hall : marks.all (!continuesIdentifier ·) = true := by decide
  simpa using List.all_eq_true.mp hall c h

theorem not_mem_marks_of_continuesIdentifier {c : Char} (h : continuesIdentifier c = true) :
    c ∉ marks := by
  intro hc
  rw [continuesIdentifier_of_mem_marks hc] at h
  cases h

/-- No mark is a blank. -/
theorem isWhiteSpace_of_mem_marks {c : Char} (h : c ∈ marks) : Text.isWhiteSpace c = false := by
  have hall : marks.all (!Text.isWhiteSpace ·) = true := by decide
  simpa using List.all_eq_true.mp hall c h

end FluentGrammar
