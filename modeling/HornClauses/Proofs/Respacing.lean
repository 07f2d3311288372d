import HornClauses.Proofs.Acceptance

/-!
# White space of another length

White space may be replaced by a blank wherever it stands in a clause text. What is done to a text
before its tokens are looked at, trimming it, dropping a period, dividing it at a neck and splitting
it at commas, is done to the new text in the same way. White space that is left between tokens
consists of blanks, for a text that is read holds no other, so the tokens stay the same.

* `Respaced`: a text with runs of white space replaced by blanks.
* `Respaced.trim`, `Respaced.dropPeriod`, `Respaced.divideNeck`, `Respaced.splitGoals`: the parts of
  such a text.
* `Respaced.tokenised`: the tokens of such a text.
* `Settings.readClause_of_respaced`: it is read as the same clause.
-/

namespace HornClauses

/-- The second text is the first one with some runs of white space replaced by one blank each. -/
inductive Respaced : List Char → List Char → Prop where
  | nil : Respaced [] []
  | char (c : Char) {s t : List Char} : Respaced s t → Respaced (c :: s) (c :: t)
  | gap {c : Char} {w s t : List Char} : Text.isSpace c = true →
    (∀ d ∈ w, Text.isSpace d = true) → Respaced s t → Respaced (c :: (w ++ s)) (' ' :: t)

namespace Respaced

variable {s t s' t' : List Char} {c : Char}

/-! ## Putting texts together -/

theorem refl (s : List Char) : Respaced s s := by
  induction s with
  | nil => exact nil
  | cons c s ih => exact char c ih

theorem append (h : Respaced s t) (h' : Respaced s' t') : Respaced (s ++ s') (t ++ t') := by
  induction h with
  | nil => exact h'
  | char c _ ih => exact char c ih
  | gap hc hw _ ih =>
    rw [List.cons_append, List.append_assoc]
    exact gap hc hw ih

theorem space {w : List Char} (hne : w ≠ []) (hw : ∀ d ∈ w, Text.isSpace d = true) :
    Respaced w [' '] := by
  obtain ⟨c, w, rfl⟩ := List.exists_cons_of_ne_nil hne
  rw [List.forall_mem_cons] at hw
  rw [← List.append_nil w]
  exact gap hw.1 hw.2 nil

theorem reverse (h : Respaced s t) : Respaced s.reverse t.reverse := by
  induction h with
  | nil => exact nil
  | char c _ ih =>
    rw [List.reverse_cons, List.reverse_cons]
    exact ih.append (refl [c])
  | @gap c w s t hc hw _ ih =>
    have hall : ∀ d ∈ c :: w, Text.isSpace d = true := List.forall_mem_cons.2 ⟨hc, hw⟩
    have hspace : Respaced (c :: w).reverse [' '] :=
      space (by simp) fun d hd => hall d (List.mem_reverse.1 hd)
    rw [← List.cons_append, List.reverse_append, List.reverse_cons (a := ' ')]
    exact ih.append hspace

/-! ## Characters that are no white space -/

theorem cons_left (h : Respaced (c :: s) t) (hc : Text.isSpace c = false) :
    ∃ t', t = c :: t' ∧ Respaced s t' := by
  cases h with
  | char _ h => exact ⟨_, rfl, h⟩
  | gap hspace _ _ =>
    rw [hc] at hspace
    cases hspace

theorem cons_right (h : Respaced s (c :: t)) (hc : Text.isSpace c = false) :
    ∃ s', s = c :: s' ∧ Respaced s' t := by
  cases h with
  | char _ h => exact ⟨_, rfl, h⟩
  | gap _ _ _ => cases hc

theorem append_left {w : List Char} (hw : ∀ d ∈ w, Text.isSpace d = false)
    (h : Respaced (w ++ s) t) : ∃ t', t = w ++ t' ∧ Respaced s t' := by
  induction w generalizing t with
  | nil => exact ⟨t, rfl, h⟩
  | cons c w ih =>
    rw [List.forall_mem_cons] at hw
    rw [List.cons_append] at h
    obtain ⟨t₁, rfl, h₁⟩ := cons_left h hw.1
    obtain ⟨t', rfl, h'⟩ := ih hw.2 h₁
    exact ⟨t', rfl, h'⟩

theorem append_right {w : List Char} (hw : ∀ d ∈ w, Text.isSpace d = false)
    (h : Respaced s (w ++ t)) : ∃ s', s = w ++ s' ∧ Respaced s' t := by
  induction w generalizing s with
  | nil => exact ⟨s, rfl, h⟩
  | cons c w ih =>
    rw [List.forall_mem_cons] at hw
    rw [List.cons_append] at h
    obtain ⟨s₁, rfl, h₁⟩ := cons_right h hw.1
    obtain ⟨s', rfl, h'⟩ := ih hw.2 h₁
    exact ⟨s', rfl, h'⟩

theorem concat_left (h : Respaced (s ++ [c]) t) (hc : Text.isSpace c = false) :
    ∃ t', t = t' ++ [c] ∧ Respaced s t' := by
  have hrev := h.reverse
  rw [List.reverse_append] at hrev
  obtain ⟨t', ht, h'⟩ := cons_left hrev hc
  refine ⟨t'.reverse, by rw [← List.reverse_reverse t, ht, List.reverse_cons], ?_⟩
  rw [← List.reverse_reverse s]
  exact h'.reverse

theorem concat_right (h : Respaced s (t ++ [c])) (hc : Text.isSpace c = false) :
    ∃ s', s = s' ++ [c] ∧ Respaced s' t := by
  have hrev := h.reverse
  rw [List.reverse_append] at hrev
  obtain ⟨s', hs, h'⟩ := cons_right hrev hc
  refine ⟨s'.reverse, by rw [← List.reverse_reverse s, hs, List.reverse_cons], ?_⟩
  rw [← List.reverse_reverse t]
  exact h'.reverse

/-! ## Ends of texts -/

theorem eq_nil_iff (h : Respaced s t) : s = [] ↔ t = [] := by
  cases h <;> simp

theorem trimStart (h : Respaced s t) : Respaced (Text.trimStart s) (Text.trimStart t) := by
  induction h with
  | nil => exact nil
  | @char c s t h ih =>
    cases hc : Text.isSpace c with
    | true =>
      have hspace : ∀ d ∈ [c], Text.isSpace d = true := by simpa using hc
      rw [← List.singleton_append, Text.trimStart_space_append hspace, ← List.singleton_append,
        Text.trimStart_space_append hspace]
      exact ih
    | false =>
      rw [Text.trimStart_eq_self hc, Text.trimStart_eq_self hc]
      exact char c h
  | @gap c w s t hc hw _ ih =>
    rw [← List.cons_append, Text.trimStart_space_append (List.forall_mem_cons.2 ⟨hc, hw⟩),
      ← List.singleton_append, Text.trimStart_space_append (List.forall_mem_singleton.2 rfl)]
    exact ih

theorem trimEnd (h : Respaced s t) : Respaced (Text.trimEnd s) (Text.trimEnd t) :=
  h.reverse.trimStart.reverse

theorem trim (h : Respaced s t) : Respaced (Text.trim s) (Text.trim t) := h.trimStart.trimEnd

theorem getLast?_iff (h : Respaced s t) (hc : Text.isSpace c = false) :
    s.getLast? = some c ↔ t.getLast? = some c := by
  constructor
  · intro hs
    obtain ⟨s', rfl⟩ := List.getLast?_eq_some_iff.1 hs
    obtain ⟨t', rfl, -⟩ := concat_left h hc
    exact List.getLast?_concat
  · intro ht
    obtain ⟨t', rfl⟩ := List.getLast?_eq_some_iff.1 ht
    obtain ⟨s', rfl, -⟩ := concat_right h hc
    exact List.getLast?_concat

theorem dropPeriod (h : Respaced s t) : Respaced (Text.dropPeriod s) (Text.dropPeriod t) := by
  by_cases hs : s.getLast? = some '.'
  · obtain ⟨s', rfl⟩ := List.getLast?_eq_some_iff.1 hs
    obtain ⟨t', rfl, h'⟩ := concat_left h rfl
    rwa [Text.dropPeriod_concat, Text.dropPeriod_concat]
  · rwa [Text.dropPeriod_eq_self hs, Text.dropPeriod_eq_self (mt (h.getLast?_iff rfl).2 hs)]

theorem predicateCore (h : Respaced s t) : Respaced (predicateCore s) (predicateCore t) :=
  h.trim.dropPeriod.trimEnd

/-! ## Necks -/

/-- Two texts on either side of a neck that are replaced each. -/
def Parts (parts parts' : List Char × List Char) : Prop :=
  Respaced parts.1 parts'.1 ∧ Respaced parts.2 parts'.2

theorem parts_map {u v : List Char} (h : Respaced u v) {x y : Option (List Char × List Char)}
    (hxy : Option.Rel Parts x y) :
    Option.Rel Parts (x.map fun parts => (u ++ parts.1, parts.2))
      (y.map fun parts => (v ++ parts.1, parts.2)) := by
  cases hxy with
  | none => exact .none
  | some hparts => exact .some ⟨h.append hparts.1, hparts.2⟩

/-- A text is divided where the other one is. -/
theorem divideNeck (h : Respaced s t) :
    Option.Rel Parts (divideNeck s) (HornClauses.divideNeck t) := by
  induction h with
  | nil => exact .none
  | @char c s t h ih =>
    by_cases hneck : c = ':' ∧ s.head? = some '-'
    · obtain ⟨rfl, hdash⟩ := hneck
      obtain ⟨s', rfl⟩ := List.head?_eq_some_iff.1 hdash
      obtain ⟨t', rfl, h'⟩ := cons_left h rfl
      exact .some ⟨nil, h'⟩
    · have hs : c ≠ ':' ∨ s.head? ≠ some '-' := by tauto
      have ht : c ≠ ':' ∨ t.head? ≠ some '-' := by
        refine hs.imp_right fun hs ht => ?_
        obtain ⟨t', rfl⟩ := List.head?_eq_some_iff.1 ht
        obtain ⟨s', rfl, -⟩ := cons_right h rfl
        exact hs rfl
      rw [Layout.divideNeck_cons hs, Layout.divideNeck_cons ht]
      exact parts_map (refl [c]) ih
  | @gap c w s t hc hw _ ih =>
    have hall : ∀ d ∈ c :: w, Text.isSpace d = true := List.forall_mem_cons.2 ⟨hc, hw⟩
    have hcolon : ∀ d ∈ c :: w, d ≠ ':' := by
      rintro d hd rfl
      exact absurd (hall ':' hd) (by decide)
    rw [← List.cons_append, Layout.divideNeck_append_of_ne_colon hcolon,
      Layout.divideNeck_cons (Or.inl (by decide))]
    exact parts_map (space (by simp) hall) ih

/-! ## Commas -/

theorem consFirst {c : Char} {pieces pieces' : List (List Char)}
    (h : List.Forall₂ Respaced pieces pieces') :
    List.Forall₂ Respaced (Bracket.consFirst c pieces) (Bracket.consFirst c pieces') := by
  cases h with
  | nil => exact .cons (refl [c]) .nil
  | cons hpiece hrest => exact .cons (char c hpiece) hrest

/-- A text is split into pieces where the other one is. -/
theorem splitFrom {p : Char → Bool} (hp : ∀ c, Text.isSpace c = true → p c = false)
    (h : Respaced s t) {stack stack' : Bracket.Stack}
    (hstack : stack.map Prod.snd = stack'.map Prod.snd) (offset offset' : Nat)
    {pieces : List (List Char)} (hs : Bracket.splitFrom p stack offset s = .ok pieces) :
    ∃ pieces', Bracket.splitFrom p stack' offset' t = .ok pieces' ∧
      List.Forall₂ Respaced pieces pieces' := by
  induction h generalizing stack stack' offset offset' pieces with
  | nil =>
    obtain ⟨u, hend, rfl⟩ := map_eq_ok.1 hs
    rw [Bracket.atEnd_eq_ok hend, List.map_nil, eq_comm, List.map_eq_nil_iff] at hstack
    rw [hstack]
    exact ⟨[[]], rfl, .cons nil .nil⟩
  | @char c s t _ ih =>
    obtain ⟨opened, tail, hstep, htail, rfl⟩ := Bracket.splitFrom_cons_eq_ok.1 hs
    obtain ⟨opened', hstep', hopened⟩ := Bracket.step_congr hstack hstep offset'
    obtain ⟨tail', htail', hpieces⟩ := ih hopened _ (offset' + c.utf8Size) htail
    have hempty : stack.isEmpty = stack'.isEmpty := by simpa using congrArg List.isEmpty hstack
    have hempty' : opened.isEmpty = opened'.isEmpty := by
      simpa using congrArg List.isEmpty hopened
    refine ⟨_, Bracket.splitFrom_cons_eq_ok.2 ⟨opened', tail', hstep', htail', rfl⟩, ?_⟩
    rw [hempty, hempty']
    split
    · exact .cons nil hpieces
    · exact consFirst hpieces
  | @gap c w s t hc hw _ ih =>
    have hall : ∀ d ∈ c :: w, Text.isSpace d = true := List.forall_mem_cons.2 ⟨hc, hw⟩
    have hmoves : ∀ v : List Char, (∀ d ∈ v, Text.isSpace d = true) →
        Bracket.Moves p v (stack.map Prod.snd) (stack.map Prod.snd) := fun v hv =>
      Bracket.Moves.others (fun d hd => ⟨Bracket.not_bracket_of_isSpace (hv d hd), hp d (hv d hd)⟩) _
    obtain ⟨stack₁, offset₁, hstack₁, hleft⟩ := hmoves (c :: w) hall stack offset s rfl
    obtain ⟨stack₂, offset₂, hstack₂, hright⟩ :=
      hmoves [' '] (List.forall_mem_singleton.2 rfl) stack' offset' t hstack.symm
    rw [← List.cons_append, hleft] at hs
    obtain ⟨tail, htail, rfl⟩ := map_eq_ok.1 hs
    obtain ⟨tail', htail', hpieces⟩ := ih (hstack₁.trans hstack₂.symm) _ offset₂ htail
    refine ⟨Bracket.prepend [' '] tail', by rw [← List.singleton_append, hright, htail']; rfl, ?_⟩
    cases hpieces with
    | nil => exact absurd rfl (Bracket.splitFrom_ne_nil htail)
    | cons hpiece hrest =>
      rw [Bracket.prepend_cons, Bracket.prepend_cons]
      exact .cons ((space (by simp) hall).append hpiece) hrest

/-- Goals are split where the other ones are. -/
theorem splitGoals (h : Respaced s t) {goals : List (List Char)}
    (hs : splitGoals s = .ok goals) :
    ∃ goals', HornClauses.splitGoals t = .ok goals' ∧ List.Forall₂ Respaced goals goals' := by
  obtain ⟨pieces, hpieces, rfl⟩ := map_eq_ok.1 (mapError_eq_ok.1 hs)
  have hcomma : ∀ c, Text.isSpace c = true → decide (c = ',') = false := by
    rintro c hc
    by_contra hne
    rw [Bool.not_eq_false, decide_eq_true_eq] at hne
    rw [hne] at hc
    cases hc
  have hstack : ([] : Bracket.Stack).map Prod.snd = ([] : Bracket.Stack).map Prod.snd := rfl
  obtain ⟨pieces', hpieces', hall⟩ := h.splitFrom hcomma hstack 0 0 hpieces
  refine ⟨pieces'.map Text.trim, mapError_eq_ok.2 (map_eq_ok.2 ⟨pieces', hpieces', rfl⟩), ?_⟩
  rw [List.forall₂_map_left_iff, List.forall₂_map_right_iff]
  exact hall.imp fun _ _ => trim

/-! ## Tokens -/

theorem forall_isBlank (h : Respaced s t) (hs : ∀ c ∈ s, Text.isBlank c = true) :
    ∀ c ∈ t, Text.isBlank c = true := by
  induction h with
  | nil => exact hs
  | char c _ ih =>
    rw [List.forall_mem_cons] at hs ⊢
    exact ⟨hs.1, ih hs.2⟩
  | gap _ _ _ ih =>
    rw [List.forall_mem_cons, List.forall_mem_append] at hs
    exact List.forall_mem_cons.2 ⟨rfl, ih hs.2.2⟩

/-- The first character that is no white space stays behind blanks if it stood behind blanks. -/
theorem first_character {blanks : List Char} (h : Respaced s t) {c : Char} {s' : List Char}
    (hs : s = blanks ++ c :: s') (hblanks : ∀ d ∈ blanks, Text.isBlank d = true)
    (hc : Text.isSpace c = false) :
    ∃ blanks' t', t = blanks' ++ c :: t' ∧ (∀ d ∈ blanks', Text.isBlank d = true) ∧
      Respaced s' t' := by
  induction h generalizing blanks with
  | nil => simp at hs
  | @char d s t h ih =>
    cases blanks with
    | nil =>
      cases hs
      exact ⟨[], t, rfl, by simp, h⟩
    | cons b blanks =>
      rw [List.cons_append, List.cons.injEq] at hs
      rw [List.forall_mem_cons] at hblanks
      obtain ⟨blanks', t', rfl, hblanks', h'⟩ := ih hs.2 hblanks.2
      exact ⟨d :: blanks', t', rfl, List.forall_mem_cons.2 ⟨hs.1 ▸ hblanks.1, hblanks'⟩, h'⟩
  | @gap d w s t hd hw _ ih =>
    have hall : ∀ e ∈ d :: w, Text.isSpace e = true := List.forall_mem_cons.2 ⟨hd, hw⟩
    -- All of the white space stands before the character.
    have hrest : ∃ more, s = more ++ c :: s' ∧ ∀ e ∈ more, Text.isBlank e = true := by
      rw [← List.cons_append] at hs
      rcases List.append_eq_append_iff.1 hs with ⟨more, rfl, hmore⟩ | ⟨more, hmore, hs'⟩
      · exact ⟨more, hmore, (List.forall_mem_append.1 hblanks).2⟩
      · cases more with
        | nil => exact ⟨[], hs'.symm, by simp⟩
        | cons e more =>
          rw [List.cons_append, List.cons.injEq] at hs'
          rw [hall c (by rw [hmore, hs'.1]; simp)] at hc
          cases hc
    obtain ⟨more, hmore, hblank⟩ := hrest
    obtain ⟨blanks', t', rfl, hblanks', h'⟩ := ih hmore hblank
    exact ⟨' ' :: blanks', t', rfl, List.forall_mem_cons.2 ⟨rfl, hblanks'⟩, h'⟩

/-- A token is as long as it was, for a token that goes on behind it would have done so before. -/
theorem longest (h : Respaced s t) {u : Token} (hu : u.Longest (u.text.toList ++ s) s) :
    u.Longest (u.text.toList ++ t) t where
  wellFormed := hu.wellFormed
  eq_append := rfl
  length_le u' rest hu' heq := by
    have hrespaced : Respaced (u.text.toList ++ s) (u'.text.toList ++ rest) :=
      heq ▸ (refl u.text.toList).append h
    obtain ⟨s', hs', -⟩ := append_right (fun d hd => Token.isSpace_of_mem_text hu' hd) hrespaced
    exact hu.length_le u' s' hu' hs'

/-- White space between tokens may have any length. -/
theorem tokenised {ts : List Token} (h : Respaced s t) (hs : Tokenised s ts) : Tokenised t ts := by
  induction ts generalizing s t with
  | nil =>
    cases hs with
    | blank hblank => exact .blank (h.forall_isBlank hblank)
  | cons u ts ih =>
    obtain ⟨blanks, rest, hblanks, hsplit, hlongest, hrest⟩ := Tokenised.cons_iff_append.1 hs
    obtain ⟨c, w, htext⟩ := List.exists_cons_of_ne_nil (Token.text_ne_nil hlongest.wellFormed)
    have hspace : ∀ d ∈ c :: w, Text.isSpace d = false := fun d hd =>
      Token.isSpace_of_mem_text hlongest.wellFormed (by rwa [htext])
    rw [List.forall_mem_cons] at hspace
    rw [htext, List.cons_append] at hsplit
    obtain ⟨blanks', t', rfl, hblanks', h'⟩ := h.first_character hsplit hblanks hspace.1
    obtain ⟨rest', rfl, hrest'⟩ := append_left hspace.2 h'
    exact Tokenised.cons_iff_append.2 ⟨blanks', rest', hblanks', by rw [htext]; rfl,
      hrest'.longest hlongest, ih hrest' hrest⟩

end Respaced

/-! ## Reading -/

namespace Settings

variable {settings : Settings} {s t : List Char}

theorem readTerm_of_respaced (h : Respaced s t) {u : Term} (hs : settings.readTerm s = .ok u) :
    settings.readTerm t = .ok u := by
  obtain ⟨e, hwell, htext, hu⟩ := (readTerm_iff_tokenised "").1 hs
  exact (readTerm_iff_tokenised "").2 ⟨e, hwell, h.tokenised htext, hu⟩

theorem readPredicate_of_respaced (h : Respaced s t) {p : Predicate}
    (hs : settings.readPredicate s = .ok p) : settings.readPredicate t = .ok p := by
  obtain ⟨hne, u, hu, hp⟩ := readPredicate_eq_ok.1 hs
  exact readPredicate_eq_ok.2 ⟨fun hnil => hne (h.predicateCore.eq_nil_iff.2 hnil), u,
    readTerm_of_respaced h.predicateCore hu, hp⟩

theorem readGoals_of_respaced {goals goals' : List (List Char)}
    (h : List.Forall₂ Respaced goals goals') {onEmpty onEmpty' : ReadError} {ps : List Predicate}
    (hgoals : settings.readGoals onEmpty goals = .ok ps) :
    settings.readGoals onEmpty' goals' = .ok ps := by
  rw [readGoals_eq_ok] at hgoals ⊢
  induction h generalizing ps with
  | nil => exact hgoals
  | cons hgoal _ ih =>
    cases hgoals with
    | cons hread hreads =>
      exact .cons ⟨fun hnil => hread.1 (hgoal.eq_nil_iff.2 hnil),
        readPredicate_of_respaced hgoal hread.2⟩ (ih hreads)

theorem readHead_of_respaced (h : Respaced s t) {malformed malformed' : ClauseDefect → ReadError}
    {p : Predicate} (hs : settings.readHead malformed s = .ok p) :
    settings.readHead malformed' t = .ok p := by
  obtain ⟨hne, ⟨pieces, hpieces, hlength⟩, hp⟩ := readHead_eq_ok.1 hs
  obtain ⟨pieces', hpieces', hall⟩ := h.splitGoals hpieces
  exact readHead_eq_ok.2 ⟨fun hnil => hne (h.eq_nil_iff.2 hnil),
    ⟨pieces', hpieces', hall.length_eq ▸ hlength⟩, readPredicate_of_respaced h hp⟩

theorem readBody_of_respaced (h : Respaced s t) {malformed malformed' : ClauseDefect → ReadError}
    {ps : List Predicate} (hs : settings.readBody malformed (some s) = .ok ps) :
    settings.readBody malformed' (some t) = .ok ps := by
  obtain ⟨hne, goals, hgoals, hps⟩ := readBody_some.1 hs
  obtain ⟨goals', hgoals', hall⟩ := h.splitGoals hgoals
  exact readBody_some.2 ⟨fun hnil => hne (h.trim.eq_nil_iff.2 hnil), goals', hgoals',
    readGoals_of_respaced hall hps⟩

/-- A clause that is read is read as the same clause with blanks for its white space. -/
theorem readClause_of_respaced (h : Respaced s t) {c : Clause}
    (hs : settings.readClause s = .ok c) : settings.readClause t = .ok c := by
  rw [readClause_eq_ok] at hs ⊢
  have hcore := h.trim.dropPeriod
  have hdivide := hcore.divideNeck
  simp only [ClauseText.divide] at hs ⊢
  generalize divideNeck (Text.dropPeriod (Text.trim s)) = parts at hs hdivide
  generalize divideNeck (Text.dropPeriod (Text.trim t)) = parts' at hdivide ⊢
  cases hdivide with
  | none => exact ⟨readHead_of_respaced hcore.trim hs.1, readBody_none.2 (readBody_none.1 hs.2)⟩
  | some hparts =>
    exact ⟨readHead_of_respaced hparts.1.trim hs.1, readBody_of_respaced hparts.2 hs.2⟩

end Settings

end HornClauses
