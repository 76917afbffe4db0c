import FluentGrammar.Proofs.Text.Tokens

/-! # Tokens that are read can be written

    Whatever text tokens are read from, the names in them are identifiers, or the name of the
    empty terminal, and every parameter consists of two words. So nothing that was read is
    lost when it is written down.
-/

namespace FluentGrammar

variable {cs : List Char} {ts : List Token}

/-! ## Parameter lists -/

theorem subset_of_closeParenthesis {inside after : List Char}
    (h : closeParenthesis cs = .ok (inside, after)) :
    (∀ c ∈ inside, c ∈ cs ∧ c ≠ '(' ∧ c ≠ ')') ∧ after ⊆ cs := by
  induction cs generalizing inside with
  | nil => cases h
  | cons c cs ih =>
    rw [closeParenthesis] at h
    split at h
    · cases h
      exact ⟨by simp, List.subset_cons_self ..⟩
    · rename_i hclose
      split at h
      · cases h
      · rename_i hopen
        obtain ⟨⟨inside', after'⟩, hrest, hpair⟩ := except_map_eq_ok.mp h
        cases hpair
        obtain ⟨hinside, hafter⟩ := ih hrest
        refine ⟨List.forall_mem_cons.mpr ⟨⟨List.mem_cons_self .., by simpa using hopen,
          by simpa using hclose⟩, ?_⟩, List.subset_cons_of_subset _ hafter⟩
        intro d hd
        obtain ⟨hmem, hd⟩ := hinside d hd
        exact ⟨List.mem_cons_of_mem _ hmem, hd⟩

/-- A parameter that is read can be written, if its text has no character in it that ends a
    word otherwise. -/
theorem isWritable_of_readParameter {p : Parameter} (h : readParameter cs = .ok p)
    (hcs : ∀ c ∈ cs, c ≠ '(' ∧ c ≠ ')' ∧ c ≠ ',' ∧ c ≠ '#') : p.isWritable = true := by
  have hword : ∀ word ∈ Text.words cs, isParameterWord (String.ofList word) = true := by
    intro word hmem
    obtain ⟨hne, hall⟩ := Text.mem_words hmem
    rw [isParameterWord_iff, String.toList_ofList]
    refine ⟨hne, fun c hc => endsWord_eq_false.mpr ⟨(hall c hc).2, hcs c (hall c hc).1⟩⟩
  unfold readParameter at h
  split at h
  · rename_i type name hwords
    cases h
    rw [hwords] at hword
    simp only [Parameter.isWritable, hword type (by simp), hword name (by simp), Bool.and_self]
  · cases h

theorem isWritable_of_readParameters {params : List Parameter}
    (h : readParameters cs = .ok params) (hcs : ∀ c ∈ cs, c ≠ '(' ∧ c ≠ ')' ∧ c ≠ '#') :
    ∀ p ∈ params, p.isWritable = true := by
  unfold readParameters at h
  simp only at h
  split at h
  · cases h
    simp
  · intro p hp
    obtain ⟨piece, hpiece, hread⟩ := exists_matched_left (except_mapM_eq_ok.mp h) hp
    refine isWritable_of_readParameter hread fun c hc => ?_
    obtain ⟨hmem, hcomma⟩ := Text.mem_splitBy hpiece c hc
    obtain ⟨hopen, hclose, hcomment⟩ := hcs c (Text.trim_subset cs hmem)
    exact ⟨hopen, hclose, by simpa using hcomma, hcomment⟩

/-- The parameters of a list can be written, and the rest comes from the same text. -/
theorem isWritable_of_readParameterList {params : Option (List Parameter)} {after : List Char}
    (h : readParameterList cs = .ok (params, after)) (hcs : '#' ∉ cs) :
    (∀ ps, params = some ps → ∀ p ∈ ps, p.isWritable = true) ∧ after ⊆ cs := by
  unfold readParameterList at h
  split at h
  · rename_i rest
    obtain ⟨⟨inside, after'⟩, hclose, h⟩ := except_bind_eq_ok.mp h
    obtain ⟨ps, hread, h⟩ := except_bind_eq_ok.mp h
    cases h
    obtain ⟨hinside, hafter⟩ := subset_of_closeParenthesis hclose
    refine ⟨?_, List.subset_cons_of_subset _ hafter⟩
    rintro _ ⟨⟩
    refine isWritable_of_readParameters hread fun c hc => ?_
    obtain ⟨hmem, hopen, hclose⟩ := hinside c hc
    exact ⟨hopen, hclose, fun hcomment => hcs (hcomment ▸ List.mem_cons_of_mem _ hmem)⟩
  · cases h
    exact ⟨by simp, List.Subset.refl _⟩

/-! ## Tokens -/

/-- The name in the token can be written, and so can its parameters. -/
def Token.Spelled : Token → Prop
  | .name text params =>
    text = Terminal.empty.name ∧ params = none ∨
      isIdentifier text = true ∧ ∀ ps, params = some ps → ∀ p ∈ ps, p.isWritable = true
  | .bar => True
  | .epsilon => True

/-- The name in every token that is read can be written. -/
theorem spelled_of_tokens (h : tokens cs = .ok ts) (hcs : '#' ∉ cs) :
    ∀ t ∈ ts, t.Spelled := by
  -- Induction on the length, since one token may take many characters.
  induction hlen : cs.length using Nat.strongRecOn generalizing cs ts with
  | ind n ih =>
    subst hlen
    have hstep : ∀ {rest : List Char} {t : Token} {ts : List Token},
        (do return t :: (← tokens rest) : Except LineFault (List Token)) = .ok ts →
        rest.length < cs.length → rest ⊆ cs → t.Spelled → ∀ t ∈ ts, t.Spelled := by
      intro rest t ts hrun hlt hsub ht
      obtain ⟨ts', hts', hrun⟩ := except_bind_eq_ok.mp hrun
      cases hrun
      exact List.forall_mem_cons.mpr
        ⟨ht, ih rest.length hlt hts' (fun hmem => hcs (hsub hmem)) rfl⟩
    cases cs with
    | nil =>
      rw [tokens_nil] at h
      cases h
      simp
    | cons c rest =>
      have hrest : rest ⊆ c :: rest := List.subset_cons_self ..
      have hlt : rest.length < (c :: rest).length := Nat.lt_succ_self _
      rw [tokens] at h
      split at h
      · exact ih _ hlt h (fun hmem => hcs (hrest hmem)) rfl
      · split at h
        · exact hstep h hlt hrest trivial
        · split at h
          · exact hstep h hlt hrest trivial
          · rename_i hε
            split at h
            · rename_i after hafter
              have hlength := Text.length_of_behind? hafter
              have hpos : 0 < Terminal.empty.name.toList.length := by decide
              refine hstep h (by omega) ?_ (Or.inl ⟨rfl, rfl⟩)
              rw [Text.behind?_eq_some_iff.mp hafter]
              exact List.subset_append_right ..
            · split at h
              · rename_i hstart
                simp only at h
                split at h
                · cases h
                · rename_i params after hparams
                  have hle := length_readParameterList hparams
                  have hblank := length_dropWhile_le Text.isWhiteSpace
                    (rest.dropWhile continuesIdentifier)
                  have hname := length_dropWhile_le continuesIdentifier rest
                  have hbehind : (rest.dropWhile continuesIdentifier).dropWhile
                      Text.isWhiteSpace ⊆ c :: rest :=
                    List.Subset.trans ((List.dropWhile_sublist _).trans
                      (List.dropWhile_sublist _)).subset hrest
                  obtain ⟨hwritable, hafter⟩ := isWritable_of_readParameterList hparams
                    (fun hmem => hcs (hbehind hmem))
                  refine hstep h (by simp only [List.length_cons]; omega)
                    (List.Subset.trans hafter hbehind) (Or.inr ⟨?_, hwritable⟩)
                  refine isIdentifier_iff.mpr ⟨c, rest.takeWhile continuesIdentifier,
                    String.toList_ofList, hstart, by simpa using hε, ?_⟩
                  exact List.all_eq_true.mp List.all_takeWhile
              · cases h

end FluentGrammar
