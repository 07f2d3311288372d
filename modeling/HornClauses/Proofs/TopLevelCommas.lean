import HornClauses.Proofs.Acceptance

/-!
# Terms between commas

Two parts of the reader look for the commas outside brackets. Goals are cut there by a scan that
counts brackets, and arguments are read there by the grammar. A text that the grammar reads as
expressions is cut by the scan between the tokens of any two of them, and pieces that are read as
expressions are read in one text, so both find the same terms.

* `Expression.exists_pieces`: the commas between expressions are the ones outside brackets.
* `Expression.tokenised_joinWith`: expressions with commas put between them.
* `Settings.readTerms_splitGoals`: terms are read from a text as from its pieces.
-/

namespace HornClauses

/-! ## Pieces and expressions -/

namespace Expression

/-- The pieces of a text between its commas outside brackets are written with the tokens of the
expressions that the whole text is written with. -/
theorem exists_pieces {es : List Expression} (hne : es ≠ []) (hes : ∀ e ∈ es, e.WellFormed)
    {s : List Char} (h : Tokenised s (tokensOfList es)) (offset : Nat) :
    ∃ pieces, Bracket.splitFrom (· = ',') [] offset s = .ok pieces ∧
      List.Forall₂ (fun piece e => Tokenised piece e.tokens) pieces es := by
  induction es generalizing s offset with
  | nil => exact absurd rfl hne
  | cons e es ih =>
    rw [List.forall_mem_cons] at hes
    have hmoves : ∀ {piece}, Tokenised piece e.tokens → Bracket.Moves (· = ',') piece [] [] := by
      intro piece hpiece
      obtain ⟨e', he', -⟩ := Grammar.readTerm_of_tokenised hpiece hes.1
      exact Grammar.moves_of_readTerm he'
    by_cases hmore : es = []
    · subst hmore
      rw [tokensOfList] at h
      exact ⟨[s], (hmoves h).splitFrom_eq offset, .cons h .nil⟩
    · rw [tokensOfList_cons hmore] at h
      obtain ⟨piece, rest, rfl, hpiece, hrest⟩ := h.exists_comma
      have hcomma : Bracket.isOpener ',' = false ∧ Bracket.isCloser ',' = false := by decide
      obtain ⟨offset', hsplit⟩ := (hmoves hpiece).splitFrom_separator hcomma rfl offset rest
      obtain ⟨pieces, hpieces, hall⟩ := ih hmore hes.2 hrest offset'
      exact ⟨piece :: pieces, by rw [hsplit, hpieces]; rfl, .cons hpiece hall⟩

/-- Texts of expressions with commas between them make up a text of all of them. -/
theorem tokenised_joinWith {pieces : List (List Char)} {es : List Expression} (hne : es ≠ [])
    (h : List.Forall₂ (fun piece e => Tokenised piece e.tokens) pieces es) :
    Tokenised (Bracket.joinWith ',' pieces) (tokensOfList es) := by
  induction h with
  | nil => exact absurd rfl hne
  | @cons piece e pieces es hpiece hpieces ih =>
    cases hpieces with
    | nil =>
      rw [tokensOfList]
      exact hpiece
    | cons hnext hrest =>
      rw [tokensOfList_cons (List.cons_ne_nil _ _)]
      exact hpiece.comma (ih (List.cons_ne_nil _ _))

end Expression

theorem Bracket.mem_joinWith {separator c : Char} {pieces : List (List Char)} {piece : List Char}
    (hpiece : piece ∈ pieces) (hc : c ∈ piece) : c ∈ joinWith separator pieces := by
  induction pieces with
  | nil => cases hpiece
  | cons first rest ih =>
    cases rest with
    | nil =>
      rw [List.mem_singleton] at hpiece
      exact hpiece ▸ hc
    | cons next rest =>
      have hjoin : joinWith separator (first :: next :: rest) =
          first ++ separator :: joinWith separator (next :: rest) := rfl
      rw [hjoin, List.mem_append, List.mem_cons]
      rcases List.mem_cons.1 hpiece with rfl | hpiece
      · exact Or.inl hc
      · exact Or.inr (Or.inr (ih hpiece))

namespace Settings

variable {settings : Settings} {s : List Char}

/-- Pieces are read as the terms of the expressions that they are written with. -/
theorem forall₂_readTerm_iff {pieces : List (List Char)} {ts : List Term} (source : String) :
    List.Forall₂ (fun piece t => settings.readTerm piece = .ok t) pieces ts ↔
      ∃ es, (∀ e ∈ es, Expression.WellFormed e) ∧
        List.Forall₂ (fun piece e => Tokenised piece (Expression.tokens e)) pieces es ∧
          Expression.toTerms settings source es = .ok ts := by
  constructor
  · intro h
    induction h with
    | nil => exact ⟨[], by simp, .nil, Expression.toTerms_nil.2 rfl⟩
    | @cons piece t pieces ts hread _ ih =>
      obtain ⟨e, hwell, htext, ht⟩ := (readTerm_iff_tokenised source).1 hread
      obtain ⟨es, hall, htexts, hts⟩ := ih
      exact ⟨e :: es, List.forall_mem_cons.2 ⟨hwell, hall⟩, .cons htext htexts,
        Expression.toTerms_cons.2 ⟨t, ht, ts, hts, rfl⟩⟩
  · rintro ⟨es, hall, htexts, hts⟩
    induction htexts generalizing ts with
    | nil =>
      rw [Expression.toTerms_nil.1 hts]
      exact .nil
    | cons htext _ ih =>
      rw [List.forall_mem_cons] at hall
      obtain ⟨t, ht, us, hus, rfl⟩ := Expression.toTerms_cons.1 hts
      exact .cons ((readTerm_iff_tokenised source).2 ⟨_, hall.1, htext, ht⟩) (ih hall.2 hus)

/-! ## Both ways of reading -/

/-- A text that is not blank is read as certain terms if and only if its pieces between the commas
outside brackets are read as them, one by one. Pieces are trimmed of white space that the grammar
refuses, so for the way back the text must hold none. -/
theorem readTerms_splitGoals (hs : ∃ c ∈ s, Text.isSpace c = false) :
    (∀ ts, settings.readTerms s = .ok ts → ∃ ps, splitGoals s = .ok ps ∧
      List.Forall₂ (fun p t => settings.readTerm p = .ok t) ps ts) ∧
    ((∀ c ∈ s, Text.isSpace c = true → Text.isBlank c = true) → ∀ ps ts, splitGoals s = .ok ps →
      List.Forall₂ (fun p t => settings.readTerm p = .ok t) ps ts →
        settings.readTerms s = .ok ts) := by
  have hne : Text.trim s ≠ [] := by
    rw [Ne, Text.trim_eq_nil_iff]
    obtain ⟨c, hc, hspace⟩ := hs
    intro hall
    rw [hall c hc] at hspace
    cases hspace
  constructor
  · intro ts hts
    obtain ⟨es, hes, hwell, htext, hterms⟩ := (readTerms_iff_tokenised hne "").1 hts
    obtain ⟨pieces, hsplit, hall⟩ := Expression.exists_pieces hes hwell htext 0
    refine ⟨pieces.map Text.trim, mapError_eq_ok.2 (map_eq_ok.2 ⟨pieces, hsplit, rfl⟩), ?_⟩
    refine (forall₂_readTerm_iff "").2 ⟨es, hwell, ?_, hterms⟩
    exact List.forall₂_map_left_iff.2 (hall.imp fun _ _ => Tokenised.trim)
  · intro hblank ps ts hps hread
    obtain ⟨pieces, hsplit, rfl⟩ := map_eq_ok.1 (mapError_eq_ok.1 hps)
    obtain ⟨es, hwell, htexts, hterms⟩ := (forall₂_readTerm_iff "").1 hread
    have hjoin : Bracket.joinWith ',' pieces = s := Bracket.joinWith_splitFrom hsplit
    have hpieces : ∀ piece ∈ pieces, ∀ c ∈ piece,
        Text.isSpace c = true → Text.isBlank c = true := fun piece hpiece c hc =>
      hblank c (hjoin ▸ Bracket.mem_joinWith hpiece hc)
    have hall : List.Forall₂ (fun piece e => Tokenised piece (Expression.tokens e)) pieces es := by
      have hboth := (List.forall₂_and_left _ _ ).2 ⟨hpieces, List.forall₂_map_left_iff.1 htexts⟩
      exact hboth.imp fun _ _ h => Tokenised.of_trim h.1 h.2
    have hes : es ≠ [] := by
      rintro rfl
      cases hall
      exact Bracket.splitFrom_ne_nil hsplit rfl
    exact (readTerms_iff_tokenised hne "").2
      ⟨es, hes, hwell, hjoin ▸ Expression.tokenised_joinWith hes hall, hterms⟩

/-- A compound and a list, whose commas stand inside brackets. -/
theorem readTerms_splitGoals_brackets :
    (∃ c ∈ "f(a, b)\t, [c | X]\n".toList, Text.isSpace c = false) ∧
      Settings.standard.readTerms "f(a, b)\t, [c | X]\n".toList =
        .ok [.compound "f" [.atom "a", .atom "b"], .compound "." [.atom "c", .var "X"]] ∧
      ∃ ps, splitGoals "f(a, b)\t, [c | X]\n".toList = .ok ps ∧
        List.Forall₂ (fun p t => Settings.standard.readTerm p = .ok t) ps
          [.compound "f" [.atom "a", .atom "b"], .compound "." [.atom "c", .var "X"]] := by
  have hs : ∃ c ∈ "f(a, b)\t, [c | X]\n".toList, Text.isSpace c = false :=
    ⟨'f', by decide, rfl⟩
  have hblank : ∀ c ∈ "f(a, b)\t, [c | X]\n".toList,
      Text.isSpace c = true → Text.isBlank c = true := List.all_iff_forall_prop.1 rfl
  obtain ⟨hforward, hbackward⟩ := @readTerms_splitGoals .standard _ hs
  have hread : Settings.standard.readTerms "f(a, b)\t, [c | X]\n".toList =
      .ok [.compound "f" [.atom "a", .atom "b"], .compound "." [.atom "c", .var "X"]] := by
    refine hbackward hblank ["f(a, b)".toList, "[c | X]".toList] _ (by decide +kernel) ?_
    exact .cons (by decide +kernel) (.cons (by decide +kernel) .nil)
  exact ⟨hs, hread, hforward _ hread⟩

/-- A piece is trimmed of a no-break space, which the grammar refuses in the whole text. -/
example : splitGoals "a\u00A0".toList = .ok ["a".toList] ∧
    Settings.standard.readTerm "a".toList = .ok (.atom "a") ∧
      (Settings.standard.readTerms "a\u00A0".toList).isOk = false := by
  decide +kernel

end Settings

end HornClauses
