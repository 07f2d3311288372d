import HornClauses.Proofs.Rereading
import HornClauses.Proofs.Spelling
import HornClauses.Proofs.Trimming

/-!
# Reading the surface forms of predicates and clauses

The surface form of a clause that can be read is divided into its head and its goals again: the only
neck is the one that was written, and the commas between goals are the only ones outside brackets.
So it is read as the clause with the end of every list in the way of the list style, unless it holds
a disordered operation.

* `Settings.readTerm_surface`: what the surface form of a term is read as.
* `Predicate.Readable.readBack`: the same of a predicate, and what its text looks like.
* `Settings.readClause_surface`: the same of a clause.
-/

namespace HornClauses

variable {style : ListStyle}

/-! ## Terms -/

/-- What a surface form writes is what is read of it. -/
theorem Term.Spelling.readTerm {t : Term} {e : Expression} (he : t.Spelling style e) (u : Term) :
    Settings.readTerm ⟨style, .standard⟩ t.surface.toList = .ok u ↔
      t.IsOrdered ∧ u = t.reread style := by
  obtain ⟨e', hread, herase⟩ := Grammar.readTerm_of_layout he.layout he.wellFormed
  rw [Settings.readTerm_eq_ok, hread]
  simp only [Except.ok.injEq, exists_eq_left']
  rw [← he.toTerm "" u, Expression.toTerm_congr herase]

/-- A readable term is read back from its surface form up to the ends of its lists, unless an
operation in it is disordered. -/
theorem Settings.readTerm_surface {t : Term} (h : t.Readable style) (u : Term) :
    Settings.readTerm ⟨style, .standard⟩ t.surface.toList = .ok u ↔
      t.IsOrdered ∧ u = t.reread style := by
  obtain ⟨e, he⟩ := (Term.spellable_of_readable h).1
  exact he.readTerm u

/-! ## Predicates -/

/-- The surface form of a predicate is one goal and is read as the predicate. -/
structure Predicate.ReadBack (style : ListStyle) (p : Predicate) : Prop where
  layout : ∃ ts, Layout p.surface.toList ts
  moves : Bracket.Moves (· = ',') p.surface.toList [] []
  read : ∀ q, Settings.readPredicate ⟨style, .standard⟩ p.surface.toList = .ok q ↔
    p.toTerm.IsOrdered ∧ q = p.reread style

theorem Term.Spelling.moves {t : Term} {e : Expression} (he : t.Spelling style e) :
    Bracket.Moves (· = ',') t.surface.toList [] [] := by
  obtain ⟨e', hread, -⟩ := Grammar.readTerm_of_layout he.layout he.wellFormed
  exact Grammar.moves_of_readTerm hread

theorem Predicate.readBack_compound {p : Predicate} (h : p.toTerm.Readable style) :
    p.ReadBack style := by
  obtain ⟨e, he⟩ := (Term.spellable_of_readable h).1
  refine ⟨⟨_, he.layout⟩, he.moves, fun q => ?_⟩
  have hcore : predicateCore p.surface.toList = p.surface.toList := he.layout.predicateCore_eq
  have hne : p.surface.toList ≠ [] := he.layout.chars_ne_nil
  rw [Settings.readPredicate_eq_ok, hcore, eq_reread_iff]
  simp only [surface, he.readTerm]
  constructor
  · rintro ⟨-, t, ⟨hordered, rfl⟩, hq | ⟨hatom, -⟩⟩
    · exact ⟨hordered, hq.symm⟩
    · obtain ⟨name, args, hcompound⟩ := Term.reread_eq_compound style p.name p.args
      rw [toTerm, hcompound] at hatom
      cases hatom
  · rintro ⟨hordered, hq⟩
    exact ⟨hne, _, ⟨hordered, rfl⟩, Or.inl hq.symm⟩

theorem Token.IsAtom.ne_cellName {name : String} (h : IsAtom name) : name ≠ cellName := by
  rintro rfl
  rcases h with h | ⟨c, w, fraction, ht, hc, -⟩ | ⟨c, w, ht, hc, -⟩
  · exact h.ne_cellName rfl
  · have hhead : '.' = c := by simpa [cellName] using congrArg List.head? ht
    rw [← hhead] at hc
    cases hc
  · have hhead : '.' = c := by simpa [cellName] using congrArg List.head? ht
    rw [← hhead] at hc
    cases hc

/-- An atom that stands as a goal is written as the atom. -/
theorem Predicate.readBack_atom {name : String} (h : Token.IsAtom name) :
    (Predicate.mk name []).ReadBack style := by
  have hspell : Term.Spellable style (.atom name) := Term.spelling_atom h
  obtain ⟨e, he⟩ := hspell
  have hsurface : (Predicate.mk name []).surface = (Term.atom name).surface := by
    rw [surface, toTerm, Term.surface_of_name_ne_cell h.ne_cellName]
    rfl
  have hordered : (Predicate.mk name []).toTerm.IsOrdered :=
    Term.isOrdered_compound.2 ⟨rfl, by simp⟩
  have hreread : (Predicate.mk name []).reread style = ⟨name, []⟩ :=
    reread_eq_self_iff.2 (Term.reread_compound rfl)
  have hcore : predicateCore (Term.atom name).surface.toList = (Term.atom name).surface.toList :=
    he.layout.predicateCore_eq
  have hne : (Term.atom name).surface.toList ≠ [] := he.layout.chars_ne_nil
  rw [← hsurface] at hcore hne
  refine ⟨⟨_, hsurface ▸ he.layout⟩, hsurface ▸ he.moves, fun q => ?_⟩
  rw [Settings.readPredicate_eq_ok, hcore, hreread, and_iff_right hne, and_iff_right hordered,
    hsurface]
  simp only [he.readTerm, Term.reread_atom]
  constructor
  · rintro ⟨t, ⟨-, rfl⟩, hq | ⟨hatom, hargs⟩⟩
    · rw [toTerm] at hq
      cases hq
    · obtain ⟨name', args'⟩ := q
      cases hatom
      cases hargs
      rfl
  · rintro rfl
    exact ⟨_, ⟨Term.isOrdered_atom name, rfl⟩, Or.inr ⟨rfl, rfl⟩⟩

theorem Predicate.Readable.readBack {p : Predicate} (h : p.Readable style) : p.ReadBack style := by
  rcases h with ⟨hargs, hatom⟩ | h
  · obtain ⟨name, args⟩ := p
    cases hargs
    exact readBack_atom hatom
  · exact readBack_compound h

/-! ## The parts of a clause -/

namespace Layout

variable {h b : List Char} {ts us : List Token}

theorem trim_blank_cons (hl : Layout h ts) : Text.trim (' ' :: h) = h :=
  (Text.trim_space_append (w := [' ']) (List.forall_mem_singleton.2 rfl) h).trans hl.trim_eq

theorem trim_concat_period (hl : Layout h ts) (rest : List Char) :
    Text.trim (h ++ rest ++ ['.']) = h ++ rest ++ ['.'] := by
  have hperiod : Text.isSpace '.' = false := rfl
  rw [Text.trim, List.append_assoc, hl.trimStart_append, ← List.append_assoc,
    Text.trimEnd_eq_self hperiod]

theorem divide_fact (hl : Layout h ts) : ClauseText.divide (h ++ ['.']) = ⟨h, none⟩ := by
  have htrim := hl.trim_concat_period []
  rw [List.append_nil] at htrim
  simp only [ClauseText.divide, htrim, Text.dropPeriod_concat, hl.divideNeck_eq_none, hl.trim_eq]

theorem divide_rule (hl : Layout h ts) :
    ClauseText.divide (h ++ (' ' :: ':' :: '-' :: ' ' :: b) ++ ['.']) = ⟨h, some (' ' :: b)⟩ := by
  have hneck : divideNeck (' ' :: ':' :: '-' :: ' ' :: b) = some ([' '], ' ' :: b) :=
    divideNeck_cons (Or.inl (by decide))
  have hdivide : divideNeck (h ++ (' ' :: ':' :: '-' :: ' ' :: b)) =
      some (h ++ [' '], ' ' :: b) := by
    rw [hl.divideNeck_append _ (by simp), hneck]
    rfl
  have htrim : Text.trim (h ++ [' ']) = h := by
    rw [Text.trim_append_space (List.forall_mem_singleton.2 rfl), hl.trim_eq]
  simp only [ClauseText.divide, hl.trim_concat_period, Text.dropPeriod_concat, hdivide, htrim]

end Layout

/-- Goals behind commas and blanks are split at the commas. -/
theorem Bracket.splitFrom_goals {gs : List String} (hne : gs ≠ [])
    (hgs : ∀ g ∈ gs, Bracket.Moves (· = ',') g.toList [] []) (offset : Nat) :
    Bracket.splitFrom (· = ',') [] offset (' ' :: (commaJoin gs).toList) =
      .ok (gs.map fun g => ' ' :: g.toList) := by
  have hjoin : ' ' :: (commaJoin gs).toList =
      Bracket.joinWith ',' ((gs.map String.toList).map (' ' :: ·)) := by
    rw [Bracket.joinWith_blank (by simpa using hne), commaJoin, String.toList_intercalate]
    rfl
  rw [hjoin, Bracket.splitFrom_joinWith (by decide) (by simpa using hne), List.map_map]
  · rfl
  · intro piece hpiece
    obtain ⟨g, hg, rfl⟩ := by simpa using hpiece
    exact (Bracket.Moves.other (by decide) (Or.inr (by decide))).append (hgs g hg)

/-! ## Clauses -/

namespace Settings

theorem layout_goals {ps : List Predicate} (hne : ps ≠ []) (hps : ∀ p ∈ ps, p.ReadBack style) :
    ∃ ts, Layout (commaJoin (ps.map Predicate.surface)).toList ts := by
  induction ps with
  | nil => exact absurd rfl hne
  | cons p ps ih =>
    rw [List.forall_mem_cons] at hps
    obtain ⟨ts, hts⟩ := hps.1.layout
    cases ps with
    | nil =>
      refine ⟨ts, ?_⟩
      simpa [commaJoin] using hts
    | cons q ps =>
      obtain ⟨us, hus⟩ := ih (by simp) hps.2
      have hjoin : (commaJoin ((p :: q :: ps).map Predicate.surface)).toList =
          p.surface.toList ++
            ',' :: ' ' :: (commaJoin ((q :: ps).map Predicate.surface)).toList := by
        simp [commaJoin]
      exact ⟨_, hjoin ▸ hts.separated hus⟩

theorem readGoals_surface {ps : List Predicate} (hps : ∀ p ∈ ps, p.ReadBack style)
    (onEmpty : ReadError) (qs : List Predicate) :
    Settings.readGoals ⟨style, .standard⟩ onEmpty (ps.map fun p => p.surface.toList) = .ok qs ↔
      (∀ p ∈ ps, p.toTerm.IsOrdered) ∧ qs = ps.map (Predicate.reread style) := by
  rw [readGoals_eq_ok, List.forall₂_map_left_iff]
  induction ps generalizing qs with
  | nil => simp
  | cons p ps ih =>
    rw [List.forall_mem_cons] at hps
    rw [List.forall₂_cons_left_iff, List.forall_mem_cons, List.map_cons]
    obtain ⟨ts, hts⟩ := hps.1.layout
    have hne := hts.chars_ne_nil
    simp only [hps.1.read, ih hps.2, and_iff_right hne]
    constructor
    · rintro ⟨q, qs, ⟨hp, rfl⟩, ⟨hps, rfl⟩, rfl⟩
      exact ⟨⟨hp, hps⟩, rfl⟩
    · rintro ⟨⟨hp, hps⟩, rfl⟩
      exact ⟨_, _, ⟨hp, rfl⟩, ⟨hps, rfl⟩, rfl⟩

theorem readHead_surface {p : Predicate} (hp : p.ReadBack style)
    (malformed : ClauseDefect → ReadError) (q : Predicate) :
    Settings.readHead ⟨style, .standard⟩ malformed p.surface.toList = .ok q ↔
      p.toTerm.IsOrdered ∧ q = p.reread style := by
  obtain ⟨ts, hts⟩ := hp.layout
  have hne := hts.chars_ne_nil
  have hsplit : splitGoals p.surface.toList = .ok [Text.trim p.surface.toList] := by
    rw [splitGoals, Bracket.splitTrimmed, Bracket.split, hp.moves.splitFrom_eq]
    rfl
  rw [readHead_eq_ok, ← hp.read q, and_iff_right hne]
  exact and_iff_right ⟨_, hsplit, by simp⟩

theorem readBody_surface {ps : List Predicate} (hne : ps ≠ []) (hps : ∀ p ∈ ps, p.ReadBack style)
    (malformed : ClauseDefect → ReadError) (qs : List Predicate) :
    Settings.readBody ⟨style, .standard⟩ malformed
        (some (' ' :: (commaJoin (ps.map Predicate.surface)).toList)) = .ok qs ↔
      (∀ p ∈ ps, p.toTerm.IsOrdered) ∧ qs = ps.map (Predicate.reread style) := by
  obtain ⟨ts, hts⟩ := layout_goals hne hps
  have hbody : Text.trim (' ' :: (commaJoin (ps.map Predicate.surface)).toList) ≠ [] := by
    rw [hts.trim_blank_cons]
    exact hts.chars_ne_nil
  have hmoves : ∀ g ∈ ps.map Predicate.surface, Bracket.Moves (· = ',') g.toList [] [] := by
    intro g hg
    obtain ⟨p, hp, rfl⟩ := List.mem_map.1 hg
    exact (hps p hp).moves
  have hsplit : splitGoals (' ' :: (commaJoin (ps.map Predicate.surface)).toList) =
      .ok (ps.map fun p => p.surface.toList) := by
    have hpieces : ∀ p ∈ ps, Text.trim (' ' :: p.surface.toList) = p.surface.toList := by
      intro p hp
      obtain ⟨us, hus⟩ := (hps p hp).layout
      exact hus.trim_blank_cons
    have hcut := Bracket.splitFrom_goals (by simpa using hne) hmoves 0
    refine mapError_eq_ok.2 (map_eq_ok.2 ⟨_, hcut, ?_⟩)
    rw [List.map_map, List.map_map]
    exact List.map_congr_left hpieces
  rw [readBody_some, hsplit, and_iff_right hbody]
  simp only [Except.ok.injEq, exists_eq_left']
  exact readGoals_surface hps (malformed .emptyGoal) qs

/-- A clause whose parts are read back is read back from its surface form. -/
theorem readClause_surface {c : Clause} (h : ∀ p ∈ c.parts, p.ReadBack style) (d : Clause) :
    Settings.readClause ⟨style, .standard⟩ c.surface.toList = .ok d ↔
      (∀ p ∈ c.parts, p.toTerm.IsOrdered) ∧ d = c.reread style := by
  obtain ⟨head, body⟩ := c
  obtain ⟨head', body'⟩ := d
  rw [Clause.parts, List.forall_mem_cons] at h
  obtain ⟨ts, hts⟩ := h.1.layout
  rw [readClause_eq_ok]
  cases body with
  | nil =>
    have htext : (Clause.mk head []).surface.toList = head.surface.toList ++ ['.'] := by
      simp [Clause.surface, Clause.isFact]
    rw [htext, hts.divide_fact, readHead_surface h.1, readBody_none]
    simp [Clause.reread, Clause.parts, and_assoc]
  | cons goal goals =>
    have htext : (Clause.mk head (goal :: goals)).surface.toList = head.surface.toList ++
        (' ' :: ':' :: '-' :: ' ' :: (commaJoin ((goal :: goals).map Predicate.surface)).toList) ++
          ['.'] := by
      simp [Clause.surface, Clause.isFact]
    rw [htext, hts.divide_rule, readHead_surface h.1, readBody_surface (by simp) h.2]
    simp only [Clause.reread, Clause.parts, Clause.mk.injEq, List.forall_mem_cons]
    constructor
    · rintro ⟨⟨hhead, rfl⟩, hgoals, rfl⟩
      exact ⟨⟨hhead, hgoals⟩, rfl, rfl⟩
    · rintro ⟨⟨hhead, hgoals⟩, rfl, rfl⟩
      exact ⟨⟨hhead, rfl⟩, hgoals, rfl⟩

end Settings

end HornClauses
