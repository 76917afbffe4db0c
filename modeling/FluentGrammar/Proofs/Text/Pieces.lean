import FluentGrammar.Text.Pieces
import Mathlib.Data.List.Basic

/-! # Pieces put together and taken apart

    What trimming, splitting and cutting give for a text that was put together out of pieces,
    and where the characters of a piece come from.
-/

namespace FluentGrammar.Text

variable {α : Type} {cs : List Char}

/-! ## Ends without blanks -/

/-- The text neither begins nor ends with a blank. -/
structure Trimmed (cs : List Char) : Prop where
  first : ∀ c ∈ cs.head?, isWhiteSpace c = false
  last : ∀ c ∈ cs.getLast?, isWhiteSpace c = false

theorem trimmed_of_forall (h : ∀ c ∈ cs, isWhiteSpace c = false) : Trimmed cs :=
  ⟨fun c hc => h c (List.mem_of_mem_head? hc), fun c hc => h c (List.mem_of_mem_getLast? hc)⟩

/-- The same as a check, for texts that are given. -/
theorem trimmed_of_all (h : cs.all (!isWhiteSpace ·) = true) : Trimmed cs :=
  trimmed_of_forall fun c hc => by simpa using List.all_eq_true.mp h c hc

theorem Trimmed.append {front back : List Char} (hfront : Trimmed front) (hback : Trimmed back)
    (hne : front ≠ []) (hne' : back ≠ []) (middle : List Char) :
    Trimmed (front ++ (middle ++ back)) := by
  constructor
  · rw [List.head?_append_of_ne_nil _ hne]
    exact hfront.first
  · rw [← List.append_assoc, List.getLast?_append_of_ne_nil _ hne']
    exact hback.last

/-- Pieces without blanks at their ends, and a separator in front of every one but the
    first. -/
theorem trimmed_flatMap {separator piece : List Char} {pieces : List (List Char)}
    (h : ∀ p ∈ piece :: pieces, Trimmed p ∧ p ≠ []) :
    Trimmed (piece ++ pieces.flatMap (separator ++ ·)) := by
  induction pieces generalizing piece with
  | nil =>
    rw [List.flatMap_nil, List.append_nil]
    exact (h piece (List.mem_cons_self ..)).1
  | cons next pieces ih =>
    have hpiece := h piece (List.mem_cons_self ..)
    have hnext := h next (List.mem_cons_of_mem _ (List.mem_cons_self ..))
    have hrest := ih fun p hp => h p (List.mem_cons_of_mem _ hp)
    rw [List.flatMap_cons, List.append_assoc]
    exact hpiece.1.append hrest hpiece.2 (by simp [hnext.2]) separator

theorem dropWhile_of_head? {p : α → Bool} {xs : List α} (h : ∀ x ∈ xs.head?, p x = false) :
    xs.dropWhile p = xs := by
  cases xs with
  | nil => rfl
  | cons x xs => rw [List.dropWhile_cons_of_neg (by simp [h x rfl])]

theorem dropWhile_append_of_forall {p : α → Bool} {xs ys : List α}
    (h : ∀ x ∈ xs, p x = true) : (xs ++ ys).dropWhile p = ys.dropWhile p :=
  List.dropWhile_append_of_pos h

theorem Trimmed.trimStart_eq (h : Trimmed cs) : trimStart cs = cs :=
  dropWhile_of_head? h.first

theorem Trimmed.trimEnd_eq (h : Trimmed cs) : trimEnd cs = cs := by
  unfold trimEnd
  rw [dropWhile_of_head? (by rw [List.head?_reverse]; exact h.last), List.reverse_reverse]

theorem Trimmed.trim_eq (h : Trimmed cs) : trim cs = cs := by
  rw [trim, h.trimStart_eq, h.trimEnd_eq]

/-- Blanks in front are trimmed. -/
theorem trim_append_left {blanks : List Char} (h : ∀ c ∈ blanks, isWhiteSpace c = true)
    (cs : List Char) : trim (blanks ++ cs) = trim cs := by
  rw [trim, trim, trimStart, trimStart, dropWhile_append_of_forall h]

theorem trimEnd_append_right {blanks : List Char} (h : ∀ c ∈ blanks, isWhiteSpace c = true)
    (cs : List Char) : trimEnd (cs ++ blanks) = trimEnd cs := by
  unfold trimEnd
  rw [List.reverse_append, dropWhile_append_of_forall (by simpa using h)]

/-- Blanks behind are trimmed. -/
theorem trim_append_right {blanks : List Char} (h : ∀ c ∈ blanks, isWhiteSpace c = true)
    (hcs : Trimmed cs) : trim (cs ++ blanks) = cs := by
  cases cs with
  | nil =>
    have hnone := trim_append_left h []
    rw [List.append_nil] at hnone
    rw [List.nil_append, hnone]
    rfl
  | cons c cs =>
    have hstart : trimStart (c :: cs ++ blanks) = c :: cs ++ blanks :=
      dropWhile_of_head? (by simpa using hcs.first)
    rw [trim, hstart, trimEnd_append_right h, hcs.trimEnd_eq]

theorem trim_subset (cs : List Char) : trim cs ⊆ cs := by
  unfold trim trimEnd trimStart
  intro c hc
  rw [List.mem_reverse] at hc
  have hc := (List.dropWhile_sublist _).subset hc
  rw [List.mem_reverse] at hc
  exact (List.dropWhile_sublist _).subset hc

/-! ## Marks -/

/-- What stands behind a mark, together with the mark, is the text. -/
theorem behind?_eq_some_iff [BEq α] [LawfulBEq α] {mark text rest : List α} :
    behind? mark text = some rest ↔ text = mark ++ rest := by
  induction mark generalizing text with
  | nil => simp [behind?, eq_comm]
  | cons m mark ih =>
    cases text with
    | nil => simp [behind?]
    | cons c text =>
      by_cases hmc : m = c
      · subst hmc
        simp [behind?, ih]
      · simp [behind?, hmc, Ne.symm hmc]

theorem behind?_append [BEq α] [LawfulBEq α] (mark rest : List α) :
    behind? mark (mark ++ rest) = some rest :=
  behind?_eq_some_iff.mpr rfl

theorem behind?_of_ne [BEq α] [LawfulBEq α] {m c : α} (mark rest : List α) (h : m ≠ c) :
    behind? (m :: mark) (c :: rest) = none := by
  simp [behind?, h]

/-- The text is cut at a mark that nothing in front of it begins like. -/
theorem cutAt?_append {m : Char} {mark before : List Char} (h : m ∉ before)
    (after : List Char) :
    cutAt? (m :: mark) (before ++ (m :: mark ++ after)) = some (before, after) := by
  induction before with
  | nil =>
    have hhere := behind?_append (m :: mark) after
    rw [List.nil_append, List.cons_append, cutAt?, ← List.cons_append, hhere]
  | cons c before ih =>
    have hne : m ≠ c := fun hc => h (hc ▸ List.mem_cons_self ..)
    rw [List.cons_append, cutAt?, behind?_of_ne _ _ hne]
    simp only [ih fun hm => h (List.mem_cons_of_mem _ hm), Option.map_some]

/-- The text is what it was cut into, with the mark between. -/
theorem eq_append_of_cutAt? {mark before after : List Char}
    (h : cutAt? mark cs = some (before, after)) : cs = before ++ mark ++ after := by
  induction cs generalizing before with
  | nil =>
    rw [cutAt?] at h
    split at h
    · rename_i hempty
      cases h
      simp [List.isEmpty_iff.mp hempty]
    · cases h
  | cons c cs ih =>
    rw [cutAt?] at h
    cases hhere : behind? mark (c :: cs) with
    | some rest =>
      rw [hhere] at h
      cases h
      simpa using behind?_eq_some_iff.mp hhere
    | none =>
      rw [hhere] at h
      obtain ⟨⟨before', after'⟩, hcut, hpair⟩ := Option.map_eq_some_iff.mp h
      cases hpair
      rw [ih hcut]
      rfl

/-! ## Separators -/

variable {isSeparator : α → Bool}

theorem splitBy_of_none {piece : List α} (h : ∀ c ∈ piece, isSeparator c = false) :
    splitBy isSeparator piece = [piece] := by
  induction piece with
  | nil => rfl
  | cons c piece ih =>
    rw [splitBy, if_neg (by simp [h c (List.mem_cons_self ..)]),
      ih fun d hd => h d (List.mem_cons_of_mem _ hd)]

theorem splitBy_append_cons {piece : List α} {s : α} (h : ∀ c ∈ piece, isSeparator c = false)
    (hs : isSeparator s = true) (rest : List α) :
    splitBy isSeparator (piece ++ s :: rest) = piece :: splitBy isSeparator rest := by
  induction piece with
  | nil => rw [List.nil_append, splitBy, if_pos hs]
  | cons c piece ih =>
    rw [List.cons_append, splitBy, if_neg (by simp [h c (List.mem_cons_self ..)]),
      ih fun d hd => h d (List.mem_cons_of_mem _ hd)]

/-- Pieces with a separator in front of every piece but the first. -/
theorem splitBy_flatMap {s : α} (hs : isSeparator s = true) {piece : List α}
    {pieces : List (List α)} (h : ∀ p ∈ piece :: pieces, ∀ c ∈ p, isSeparator c = false) :
    splitBy isSeparator (piece ++ pieces.flatMap (s :: ·)) = piece :: pieces := by
  induction pieces generalizing piece with
  | nil =>
    rw [List.flatMap_nil, List.append_nil]
    exact splitBy_of_none (h piece (List.mem_cons_self ..))
  | cons next pieces ih =>
    rw [List.flatMap_cons, List.cons_append,
      splitBy_append_cons (h piece (List.mem_cons_self ..)) hs,
      ih fun p hp => h p (List.mem_cons_of_mem _ hp)]

/-- The characters of a piece come from the text, and none is a separator. -/
theorem mem_splitBy {xs piece : List α} (h : piece ∈ splitBy isSeparator xs) :
    ∀ c ∈ piece, c ∈ xs ∧ isSeparator c = false := by
  induction xs generalizing piece with
  | nil =>
    rw [splitBy, List.mem_singleton] at h
    simp [h]
  | cons x xs ih =>
    rw [splitBy] at h
    split at h
    · rcases List.mem_cons.mp h with rfl | h
      · simp
      · intro c hc
        exact ⟨List.mem_cons_of_mem _ (ih h c hc).1, (ih h c hc).2⟩
    · rename_i hx
      cases hsplit : splitBy isSeparator xs with
      | nil => exact absurd hsplit (splitBy_ne_nil _ _)
      -- The character goes to the front of the first piece, and the other pieces stay.
      | cons first pieces =>
        rw [hsplit] at h ih
        intro c hc
        rcases List.mem_cons.mp h with rfl | h
        · rcases List.mem_cons.mp hc with rfl | hc
          · exact ⟨List.mem_cons_self .., by simpa using hx⟩
          · have hfirst := ih (List.mem_cons_self ..) c hc
            exact ⟨List.mem_cons_of_mem _ hfirst.1, hfirst.2⟩
        · have hpiece := ih (List.mem_cons_of_mem _ h) c hc
          exact ⟨List.mem_cons_of_mem _ hpiece.1, hpiece.2⟩

/-- A word has characters, all of them from the text and none of them a blank. -/
theorem mem_words {word : List Char} (h : word ∈ words cs) :
    word ≠ [] ∧ ∀ c ∈ word, c ∈ cs ∧ isWhiteSpace c = false := by
  obtain ⟨hpiece, hnonempty⟩ := List.mem_filter.mp h
  exact ⟨by simpa using hnonempty, mem_splitBy hpiece⟩

/-- Two words with a blank between them. -/
theorem words_pair {first second : List Char} {blank : Char} (hblank : isWhiteSpace blank = true)
    (hfirst : ∀ c ∈ first, isWhiteSpace c = false) (hne : first ≠ [])
    (hsecond : ∀ c ∈ second, isWhiteSpace c = false) (hne' : second ≠ []) :
    words (first ++ blank :: second) = [first, second] := by
  rw [words, splitBy_append_cons hfirst hblank, splitBy_of_none hsecond]
  simp [hne, hne']

/-- A blank in front makes no word. -/
theorem words_cons_blank {blank : Char} (hblank : isWhiteSpace blank = true)
    (cs : List Char) : words (blank :: cs) = words cs := by
  rw [words, splitBy, if_pos hblank]
  simp [words]

/-! ## Lines -/

theorem dropReturn_of_ne {line : List Char} (h : line.getLast? ≠ some '\r') :
    dropReturn line = line := by
  rw [dropReturn, if_neg (by simpa using h)]

/-- Lines that a line feed ends each, with or without a carriage return before it. -/
theorem lines_flatMap_feed {texts : List (List Char)} (hfeed : ∀ t ∈ texts, '\n' ∉ t) :
    lines (texts.flatMap (· ++ ['\n'])) = texts.map dropReturn := by
  -- Behind the last line feed stands an empty piece, which is no line.
  have hsplit : splitBy (· == '\n') (texts.flatMap (· ++ ['\n'])) = texts ++ [[]] := by
    induction texts with
    | nil => rfl
    | cons t texts ih =>
      have ht : ∀ c ∈ t, (c == '\n') = false := fun c hc =>
        beq_eq_false_iff_ne.mpr fun heq => hfeed t (List.mem_cons_self ..) (heq ▸ hc)
      rw [List.flatMap_cons, List.append_assoc, List.singleton_append,
        splitBy_append_cons ht (by rfl),
        ih fun u hu => hfeed u (List.mem_cons_of_mem _ hu)]
      rfl
  rw [lines, hsplit]
  clear hsplit hfeed
  induction texts with
  | nil => rfl
  | cons t texts ih =>
    cases texts with
    | nil => simp [closeLines]
    | cons u texts =>
      rw [List.cons_append, List.cons_append, closeLines, ← List.cons_append, ih]
      rfl

/-- Lines that a line feed ends each are read as they are. -/
theorem lines_flatMap {texts : List (List Char)} (hfeed : ∀ t ∈ texts, '\n' ∉ t)
    (hreturn : ∀ t ∈ texts, t.getLast? ≠ some '\r') :
    lines (texts.flatMap (· ++ ['\n'])) = texts := by
  rw [lines_flatMap_feed hfeed]
  exact (List.map_congr_left fun t ht => dropReturn_of_ne (hreturn t ht)).trans (List.map_id _)

end FluentGrammar.Text
