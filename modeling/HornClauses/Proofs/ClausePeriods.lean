import HornClauses.Proofs.Acceptance
import HornClauses.Proofs.ClauseParts

/-!
# The periods of a clause

In a clause that is read a period stands between the digits of a number, or it ends something. It
ends the clause, or else its head or one of its goals, each of which may have one period of its own;
then nothing but white space lies between it and the first neck, the comma behind the goal or the
period of the clause.

* `Text.InNumber`: the places between the digits of a number.
* `Tokenised.inNumber`: tokens hold periods at such places only.
* `period_of_readPredicate`: the periods in the text of a predicate.
* `ClausePeriod`, `Settings.clausePeriod_of_readClause`: the periods in the text of a clause.
-/

namespace HornClauses

/-! ## Periods of numbers -/

/-- The place between these texts lies inside a number: digits stand on both sides of its period. -/
def Text.InNumber (before after : List Char) : Prop :=
  ∃ front left right back, before = front ++ left ∧ after = right ++ back ∧
    (left ≠ [] ∧ ∀ c ∈ left, c.isDigit = true) ∧ right ≠ [] ∧ ∀ c ∈ right, c.isDigit = true

namespace Text.InNumber

variable {before after : List Char}

theorem extend (h : InNumber before after) (lead ending : List Char) :
    InNumber (lead ++ before) (after ++ ending) := by
  obtain ⟨front, left, right, back, rfl, rfl, hleft, hright⟩ := h
  exact ⟨lead ++ front, left, right, back ++ ending, (List.append_assoc ..).symm,
    List.append_assoc .., hleft, hright⟩

/-- The characters next to the period are digits. -/
theorem digits (h : InNumber before after) :
    (∃ d ∈ before.getLast?, d.isDigit = true) ∧ ∃ d ∈ after.head?, d.isDigit = true := by
  obtain ⟨front, left, right, back, rfl, rfl, ⟨hne, hleft⟩, hne', hright⟩ := h
  obtain ⟨left, d, rfl⟩ := (List.eq_nil_or_concat' left).resolve_left hne
  obtain ⟨e, right, rfl⟩ := List.exists_cons_of_ne_nil hne'
  exact ⟨⟨d, by rw [← List.append_assoc, List.getLast?_concat]; rfl, hleft d (by simp)⟩, e, rfl,
    hright e List.mem_cons_self⟩

end Text.InNumber

/-- A period of a token is that of a number. -/
theorem Token.inNumber {t : Token} (h : t.WellFormed) {left right : List Char}
    (ht : t.text.toList = left ++ '.' :: right) :
    (left ≠ [] ∧ ∀ c ∈ left, c.isDigit = true) ∧ right ≠ [] ∧ ∀ c ∈ right, c.isDigit = true := by
  have hmem : '.' ∈ t.text.toList := by simp [ht]
  have hdigit : Char.isDigit '.' = false := by decide
  cases t with
  | number text =>
    obtain ⟨d, w, fraction, htext, hd, hw, hf⟩ := h
    rw [Token.text, htext] at ht
    have hdigits : ∀ c ∈ d :: w, c.isDigit = true := List.forall_mem_cons.2 ⟨hd, hw⟩
    rcases Text.exists_of_append_eq ht with ⟨back, hwhole, -⟩ | ⟨front, rfl, hfraction⟩
    · have hperiod := hdigits '.' (by simp [hwhole])
      rw [hdigit] at hperiod
      cases hperiod
    · rcases hf with rfl | ⟨e, v, rfl, he, hv⟩
      · simp at hfraction
      · have hbehind : ∀ c ∈ e :: v, c.isDigit = true := List.forall_mem_cons.2 ⟨he, hv⟩
        cases front with
        | nil =>
          cases hfraction
          exact ⟨⟨by simp, by rwa [List.append_nil]⟩, by simp, hbehind⟩
        | cons c front =>
          rw [List.cons_append, List.cons.injEq] at hfraction
          have hperiod := hbehind '.' (by simp [hfraction.2])
          rw [hdigit] at hperiod
          cases hperiod
  | name text => exact absurd rfl (ne_of_class (IsName.forall_mem h _ hmem) (by decide))
  | var text => exact absurd rfl (ne_of_class (IsVariable.forall_mem h _ hmem) (by decide))
  | symbol text => exact absurd rfl (ne_of_class (IsSymbol.forall_mem h _ hmem) (by decide))
  | operator op =>
    have hall : ∀ op : Operator, '.' ∉ op.token.toList := by
      intro op
      cases op <;> decide
    exact absurd hmem (hall op)
  | _ => exact absurd hmem (by decide)

/-- In a text of tokens every period belongs to a number. -/
theorem Tokenised.inNumber {s before after : List Char} {ts : List Token} (h : Tokenised s ts)
    (hs : s = before ++ '.' :: after) : Text.InNumber before after := by
  have hblank : ∀ {w front : List Char} {back}, (∀ c ∈ w, Text.isBlank c = true) →
      w ≠ front ++ '.' :: back := by
    rintro w front back hw rfl
    have hperiod := hw '.' (by simp)
    exact absurd hperiod (by decide)
  induction ts generalizing s before with
  | nil =>
    cases h with
    | blank hw => exact absurd hs (hblank hw)
  | cons t ts ih =>
    obtain ⟨blanks, rest, hblanks, rfl, hlongest, hrest⟩ := cons_iff_append.1 h
    rcases Text.exists_of_append_eq hs with ⟨back, hw, -⟩ | ⟨front, rfl, hbehind⟩
    · exact absurd hw (hblank hblanks)
    · rcases Text.exists_of_append_eq hbehind with ⟨back, ht, rfl⟩ | ⟨front', rfl, hlater⟩
      · obtain ⟨hleft, hright⟩ := Token.inNumber hlongest.wellFormed ht
        exact ⟨blanks, front, back, rest, rfl, rfl, hleft, hright⟩
      · rw [← List.append_assoc, ← List.append_nil after]
        exact (ih hrest hlater).extend (blanks ++ t.text.toList) []

/-! ## Periods of predicates -/

theorem predicateCore_trim (text : List Char) :
    predicateCore (Text.trim text) = predicateCore text := by
  rw [predicateCore, (Text.trimmed_trim text).eq, predicateCore]

theorem Text.ne_period_of_isSpace {w front back : List Char}
    (h : ∀ c ∈ w, Text.isSpace c = true) : w ≠ front ++ '.' :: back := by
  rintro rfl
  exact absurd (h '.' (by simp)) (by decide)

/-- At most the first character of an ending is a period. -/
theorem Text.IsEnding.of_append {w front back : List Char} (h : Text.IsEnding w)
    (hw : w = front ++ '.' :: back) : ∀ c ∈ back, Text.isSpace c = true := by
  rcases h with h | ⟨w', rfl, h⟩
  · exact absurd hw (Text.ne_period_of_isSpace h)
  · cases front with
    | nil =>
      cases hw
      exact h
    | cons c front =>
      rw [List.cons_append, List.cons.injEq] at hw
      exact absurd hw.2 (Text.ne_period_of_isSpace h)

/-- In the text of a predicate that is read, with white space around it, every period belongs to a
number except for one that white space follows. -/
theorem period_of_readPredicate {settings : Settings} {text before after : List Char}
    {p : Predicate} (h : settings.readPredicate (Text.trim text) = .ok p)
    (htext : text = before ++ '.' :: after) :
    Text.InNumber before after ∨ ∀ c ∈ after, Text.isSpace c = true := by
  obtain ⟨-, t, ht, -⟩ := Settings.readPredicate_eq_ok.1 h
  obtain ⟨e, he, -⟩ := Settings.readTerm_eq_ok.1 ht
  rw [predicateCore_trim] at he
  obtain ⟨lead, gap, ending, hlead, hgap, hending, hparts⟩ := exists_predicateCore_ending text
  rw [hparts] at htext
  rcases Text.exists_of_append_eq htext with ⟨back, hw, -⟩ | ⟨front, rfl, hbehind⟩
  · exact absurd hw (Text.ne_period_of_isSpace hlead)
  rcases Text.exists_of_append_eq hbehind with ⟨back, hcore, rfl⟩ | ⟨front', rfl, hbehind'⟩
  · exact Or.inl (((Grammar.tokenised_of_readTerm he).inNumber hcore).extend lead _)
  rcases Text.exists_of_append_eq hbehind' with ⟨back, hw, -⟩ | ⟨front'', -, hend⟩
  · exact absurd hw (Text.ne_period_of_isSpace hgap)
  · exact Or.inr (hending.of_append hend)

/-! ## Periods of clauses -/

/-- What a period of a clause is there for: it belongs to a number, or it ends the clause, or it is
the period of a head or a goal and ends that in front of the end of the clause, of the neck or of a
comma between goals. -/
inductive ClausePeriod (before after : List Char) : Prop where
  | number : Text.InNumber before after → ClausePeriod before after
  | clause : (∀ c ∈ after, Text.isSpace c = true) → ClausePeriod before after
  | beforeEnd {w ending : List Char} : (∀ c ∈ w, Text.isSpace c = true) →
    (∀ c ∈ ending, Text.isSpace c = true) → after = w ++ '.' :: ending → ClausePeriod before after
  | beforeNeck {w body : List Char} : (∀ c ∈ w, Text.isSpace c = true) →
    after = w ++ ':' :: '-' :: body → ¬ ":-".toList <:+: before ++ '.' :: w →
    ClausePeriod before after
  | beforeComma {head goals w rest : List Char} : before = head ++ ':' :: '-' :: goals →
    ¬ ":-".toList <:+: head → (∀ c ∈ w, Text.isSpace c = true) → after = w ++ ',' :: rest →
    Bracket.Nested (goals ++ '.' :: w) → ClausePeriod before after

namespace ClausePeriod

variable {before after w ending : List Char}

/-- A period that ends the last part of a clause. -/
theorem of_ending (hw : ∀ c ∈ w, Text.isSpace c = true) (hending : Text.IsEnding ending)
    (hafter : after = w ++ ending) : ClausePeriod before after := by
  rcases hending with h | ⟨w', rfl, h⟩
  · exact .clause (by rw [hafter, List.forall_mem_append]; exact ⟨hw, h⟩)
  · exact .beforeEnd hw h hafter

end ClausePeriod

/-- White space in front of a text makes no neck. -/
theorem neck_infix_of_space_append {lead s : List Char} (hlead : ∀ c ∈ lead, Text.isSpace c = true)
    (h : ":-".toList <:+: lead ++ s) : ":-".toList <:+: s := by
  induction lead with
  | nil => exact h
  | cons c lead ih =>
    rw [List.forall_mem_cons] at hlead
    rw [List.cons_append, List.infix_cons_iff] at h
    rcases h with ⟨more, hmore⟩ | h
    · have hc : ':' = c := Option.some.inj (congrArg List.head? hmore)
      rw [← hc] at hlead
      exact absurd hlead.1 (by decide)
    · exact ih hlead.2 h

namespace Settings

variable {settings : Settings} {text before after : List Char} {c : Clause}

/-- The head of a clause that is read, and its goals. -/
theorem predicates_of_readClause (h : settings.readClause text = .ok c) :
    (∃ p, settings.readPredicate (ClauseText.divide text).head = .ok p) ∧
      ∀ body, (ClauseText.divide text).body = some body → ∃ goals, splitGoals body = .ok goals ∧
        ∀ goal ∈ goals, ∃ p, settings.readPredicate goal = .ok p := by
  obtain ⟨hhead, hbody⟩ := readClause_eq_ok.1 h
  refine ⟨⟨_, (readHead_eq_ok.1 hhead).2.2⟩, fun body hsome => ?_⟩
  rw [hsome] at hbody
  obtain ⟨-, goals, hgoals, hread⟩ := readBody_some.1 hbody
  refine ⟨goals, hgoals, fun goal hgoal => ?_⟩
  obtain ⟨i, hi, rfl⟩ := List.getElem_of_mem hgoal
  have hall := readGoals_eq_ok.1 hread
  exact ⟨_, (hall.get hi (hall.length_eq ▸ hi)).2⟩

/-- A period in the body of a clause belongs to a number, or white space and a comma between goals
or the end of the body follow. -/
theorem period_of_splitGoals {body before after : List Char} {goals : List (List Char)}
    (hgoals : splitGoals body = .ok goals)
    (hread : ∀ goal ∈ goals, ∃ p, settings.readPredicate goal = .ok p)
    (hbody : body = before ++ '.' :: after) :
    Text.InNumber before after ∨ (∀ c ∈ after, Text.isSpace c = true) ∨
      ∃ w rest, (∀ c ∈ w, Text.isSpace c = true) ∧ after = w ++ ',' :: rest ∧
        Bracket.Nested (before ++ '.' :: w) := by
  obtain ⟨pieces, hpieces, rfl⟩ := splitGoals_eq_ok.1 hgoals
  have hjoin := Bracket.joinWith_splitFrom hpieces
  rw [hbody] at hjoin
  obtain ⟨earlier, piece, later, front, back, rest, rfl, rfl, rfl, rfl, hrest⟩ :=
    Bracket.exists_piece (by decide) hjoin
  obtain ⟨p, hp⟩ := hread (Text.trim (front ++ '.' :: back)) (List.mem_map_of_mem (by simp))
  rcases period_of_readPredicate hp rfl with hnumber | hback
  · exact Or.inl (hnumber.extend _ rest)
  rcases hrest with rfl | ⟨more, rfl⟩
  · exact Or.inr (Or.inl (by rwa [List.append_nil]))
  · -- The pieces before the comma are nested, with the commas between them.
    have hnested : ∀ piece ∈ earlier, Bracket.Nested (piece ++ [',']) := fun piece hpiece =>
      .append (Bracket.moves_of_mem_split hpieces (by simp [hpiece])).nested
        (.other (by decide) (by decide) .nil)
    have hpiece : Bracket.Nested (front ++ '.' :: back) :=
      (Bracket.moves_of_mem_split hpieces (by simp)).nested
    refine Or.inr (Or.inr ⟨back, more, hback, rfl, ?_⟩)
    rw [List.append_assoc]
    exact (Bracket.Nested.flatten (List.forall_mem_map.2 hnested)).append hpiece

/-- In a clause that is read every period belongs to a number, ends the clause, or is the one period
that a head or a goal may end with. -/
theorem clausePeriod_of_readClause (h : settings.readClause text = .ok c)
    (htext : text = before ++ '.' :: after) : ClausePeriod before after := by
  obtain ⟨⟨p, hp⟩, hgoals⟩ := predicates_of_readClause h
  obtain ⟨lead, core, ending, hlead, hending, hparts, hdivide⟩ := ClauseText.exists_divide text
  rw [hparts] at htext
  rcases Text.exists_of_append_eq htext with ⟨back, hw, -⟩ | ⟨front, rfl, hbehind⟩
  · exact absurd hw (Text.ne_period_of_isSpace hlead)
  rcases Text.exists_of_append_eq hbehind with ⟨back, hcore, rfl⟩ | ⟨front', -, hend⟩
  swap
  · exact .clause (hending.of_append hend)
  rcases hdivide with ⟨head, body, hsplit, hneck, hdivide⟩ | hdivide
  · rw [hdivide] at hp hgoals
    rw [hsplit] at hcore
    rcases Text.exists_of_append_eq hcore with ⟨back', rfl, rfl⟩ | ⟨front', rfl, hbody⟩
    · -- The period stands in the head.
      rcases period_of_readPredicate hp rfl with hnumber | hspace
      · exact .number (by rw [List.append_assoc]; exact hnumber.extend lead _)
      · have hbehind : back' ++ ([':', '-'] ++ body) ++ ending =
            back' ++ ':' :: '-' :: (body ++ ending) := by simp
        refine .beforeNeck hspace hbehind fun hinside => hneck ?_
        rw [List.append_assoc] at hinside
        exact neck_infix_of_space_append hlead hinside
    · rcases Text.exists_of_append_eq (s := [':', '-']) hbody with
        ⟨_, hmarks, -⟩ | ⟨goals, rfl, rfl⟩
      · have hperiod : '.' ∈ [':', '-'] := by simp [hmarks]
        exact absurd hperiod (by decide)
      obtain ⟨pieces, hpieces, hread⟩ := hgoals _ rfl
      rcases period_of_splitGoals hpieces hread rfl with
        hnumber | hspace | ⟨w, rest, hspace, rfl, hnested⟩
      · have hwhole := hnumber.extend (lead ++ (head ++ [':', '-'])) ending
        exact .number (by simpa using hwhole)
      · exact .of_ending hspace hending rfl
      · have hbefore : lead ++ (head ++ ([':', '-'] ++ goals)) =
            (lead ++ head) ++ ':' :: '-' :: goals := by simp
        have hbehind : w ++ ',' :: rest ++ ending = w ++ ',' :: (rest ++ ending) := by simp
        exact .beforeComma hbefore
          (fun hinside => hneck (neck_infix_of_space_append hlead hinside)) hspace hbehind hnested
  · rw [hdivide] at hp
    rcases period_of_readPredicate hp hcore with hnumber | hspace
    · exact .number (hnumber.extend lead ending)
    · exact .of_ending hspace hending rfl

/-- The periods of a head and of goals, one of them before the period of the clause. -/
theorem clausePeriod_of_readClause_three :
    Settings.standard.readClause "p(1.5). :- q. , r. .".toList =
        .ok ⟨⟨"p", [.atom "1.5"]⟩, [⟨"q", []⟩, ⟨"r", []⟩]⟩ ∧
      ClausePeriod "p(1.5)".toList " :- q. , r. .".toList ∧
      ClausePeriod "p(1.5). :- q".toList " , r. .".toList ∧
      ClausePeriod "p(1.5). :- q. , r".toList " .".toList := by
  have hread : Settings.standard.readClause "p(1.5). :- q. , r. .".toList =
      .ok ⟨⟨"p", [.atom "1.5"]⟩, [⟨"q", []⟩, ⟨"r", []⟩]⟩ := by decide +kernel
  exact ⟨hread, clausePeriod_of_readClause hread rfl, clausePeriod_of_readClause hread rfl,
    clausePeriod_of_readClause hread rfl⟩

end Settings

/-! ## More than one period -/

/-- Beside the periods of numbers there is one only, and only white space follows it. -/
def OnePeriod (text : List Char) : Prop :=
  ∀ before after, text = before ++ '.' :: after →
    Text.InNumber before after ∨ ∀ c ∈ after, Text.isSpace c = true

/-- A clause is read although its head and its goals have periods of their own. -/
theorem not_onePeriod_of_readClause :
    Settings.standard.readClause "p. :- q., r..".toList =
        .ok ⟨⟨"p", []⟩, [⟨"q", []⟩, ⟨"r", []⟩]⟩ ∧
      ¬ OnePeriod "p. :- q., r..".toList := by
  refine ⟨by decide +kernel, fun h => ?_⟩
  rcases h "p".toList " :- q., r..".toList rfl with hnumber | hspace
  · obtain ⟨-, d, hd, hdigit⟩ := hnumber.digits
    cases hd
    exact absurd hdigit (by decide)
  · exact absurd (hspace ':' (by decide)) (by decide)

end HornClauses
