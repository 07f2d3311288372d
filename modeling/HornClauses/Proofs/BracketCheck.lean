import HornClauses.Proofs.Acceptance
import HornClauses.Proofs.ClauseParts
import HornClauses.Proofs.ReaderFault

/-!
# The check of the brackets

Brackets are checked before a term is read, and before a head or a body is divided into goals. A
text that the grammar accepts passes the check, so nothing that could be read is turned away by it.
The pieces of a text that was divided are nested, and a predicate is read of one of them without the
white space and the period around it, so the check that is made there once more always passes.

* `Bracket.check_eq_ok_iff`: the texts that pass are the nested ones.
* `nested_predicateCore`: what is read of a nested text is nested.
* `Settings.accepts_check`: all of this.
-/

namespace HornClauses

namespace Bracket

theorem check_eq_ok_iff {text : List Char} : check text = .ok () ↔ Nested text := by
  rw [← nested_iff_split fun _ => false, check, map_eq_ok]
  simp only [and_true]

end Bracket

theorem Text.IsEnding.nested {w : List Char} (h : Text.IsEnding w) : Bracket.Nested w := by
  rcases h with h | ⟨w', rfl, h⟩
  · exact .of_isSpace h
  · exact .other (by decide) (by decide) (.of_isSpace h)

/-- White space and a period hold no bracket. -/
theorem nested_predicateCore {text : List Char} (h : Bracket.Nested text) :
    Bracket.Nested (predicateCore text) := by
  obtain ⟨lead, gap, ending, hlead, hgap, hending, htext⟩ := exists_predicateCore_ending text
  have hbehind : Bracket.Nested (gap ++ ending) := .append (.of_isSpace hgap) hending.nested
  rwa [htext, Bracket.nested_append_iff (.of_isSpace hlead),
    Bracket.nested_append_iff_left hbehind] at h

theorem nested_of_splitGoals {text : List Char} {goals : List (List Char)}
    (h : splitGoals text = .ok goals) :
    Bracket.Nested text ∧ ∀ goal ∈ goals, Bracket.Nested goal := by
  obtain ⟨pieces, hpieces, rfl⟩ := splitGoals_eq_ok.1 h
  refine ⟨(Bracket.nested_iff_split _).1 ⟨pieces, hpieces⟩, fun goal hgoal => ?_⟩
  obtain ⟨piece, hpiece, rfl⟩ := List.mem_map.1 hgoal
  exact (Bracket.moves_of_mem_split hpieces hpiece).nested.trim

/-! ## Accepted texts -/

namespace Rule

variable {text : List Char}

theorem accepts_term_iff_read : Accepts .term text ↔ ∃ e, readExpression text = .ok e := by
  simp only [readExpression_eq_ok]
  exact accepts_term_iff.trans Grammar.exists_readTerm_iff.symm

theorem accepts_sequence_iff_read :
    Accepts .sequence text ↔ ∃ es, readExpressions text = .ok es := by
  simp only [readExpressions_eq_ok]
  exact accepts_sequence_iff.trans Grammar.exists_readSequence_iff.symm

theorem check_of_accepts (h : Accepts .term text ∨ Accepts .sequence text) :
    Bracket.check text = .ok () := by
  rcases h with h | h
  · obtain ⟨e, he⟩ := accepts_term_iff_read.1 h
    obtain ⟨f, hf, -⟩ := map_eq_ok.1 (readExpression_eq_ok.1 he)
    exact Grammar.check_of_readFrame hf
  · obtain ⟨es, hes⟩ := accepts_sequence_iff_read.1 h
    obtain ⟨f, hf, -⟩ := map_eq_ok.1 (readExpressions_eq_ok.1 hes)
    exact Grammar.check_of_readFrame hf

end Rule

/-! ## Brackets that are reported -/

section Reported

variable {text : List Char} {shown : String} {offset : Nat} {bracket : Char}

theorem FirstFault.ne_unmatchedBracket {table : OperatorTable} {source : String}
    {nodes : List Expression} :
    ¬ FirstFault table source nodes (.unmatchedBracket shown offset bracket) := by
  intro h
  rcases h.eq_or with ⟨_, _, h⟩ | ⟨_, _, _, h⟩ | ⟨_, _, h⟩ <;> cases h

theorem CheckedFault.ne_unmatchedBracket {refuses : SyntaxFault → Prop}
    (hcheck : Bracket.check text = .ok ()) :
    ¬ CheckedFault text refuses (.unmatchedBracket shown offset bracket) := by
  rintro (⟨fault, hfault, -⟩ | ⟨-, fault, -, heq⟩)
  · rw [hcheck] at hfault
    cases hfault
  · cases heq

namespace Settings

variable {settings : Settings}

theorem readTerm_ne_unmatchedBracket (h : Bracket.check text = .ok ()) :
    settings.readTerm text ≠ .error (.unmatchedBracket shown offset bracket) := by
  intro hread
  rcases readTerm_eq_error.1 hread with hread | ⟨e, -, hfault⟩
  · exact CheckedFault.ne_unmatchedBracket h (readExpression_eq_error.1 hread)
  · exact hfault.ne_unmatchedBracket

theorem readTerms_ne_unmatchedBracket (h : Bracket.check text = .ok ()) :
    settings.readTerms text ≠ .error (.unmatchedBracket shown offset bracket) := by
  intro hread
  obtain ⟨-, hread | ⟨es, -, hfault⟩⟩ := readTerms_eq_error.1 hread
  · exact CheckedFault.ne_unmatchedBracket h (readExpressions_eq_error.1 hread)
  · exact hfault.ne_unmatchedBracket

/-- The brackets of a nested text are in order, and so are those of what is read of it. -/
theorem readPredicate_ne_unmatchedBracket (h : Bracket.Nested text) :
    settings.readPredicate text ≠ .error (.unmatchedBracket shown offset bracket) := by
  intro hread
  rcases readPredicate_eq_error hread with ⟨defect, heq⟩ | hread
  · cases heq
  · exact readTerm_ne_unmatchedBracket (Bracket.check_eq_ok_iff.2 (nested_predicateCore h)) hread

/-- A text that the grammar accepts passes the check of its brackets, and it is accepted exactly if
it is read behind the check; so a bracket is reported of a text that is not accepted only. Once the
head or the body of a clause is split, no bracket is reported of the head or of a goal, and a clause
reports brackets of nothing but what it splits. -/
theorem accepts_check (settings : Settings) (text : List Char) :
    ((Rule.Accepts .term text ∨ Rule.Accepts .sequence text) → Bracket.check text = .ok ()) ∧
    (Rule.Accepts .term text ↔ ∃ e, readExpression text = .ok e) ∧
    (Rule.Accepts .sequence text ↔ ∃ es, readExpressions text = .ok es) ∧
    (∀ shown offset bracket,
      (settings.readTerm text = .error (.unmatchedBracket shown offset bracket) →
        ¬ Rule.Accepts .term text) ∧
      (settings.readTerms text = .error (.unmatchedBracket shown offset bracket) →
        ¬ Rule.Accepts .sequence text) ∧
      (∀ pieces, splitGoals (ClauseText.divide text).head = .ok pieces →
        settings.readPredicate (ClauseText.divide text).head ≠
          .error (.unmatchedBracket shown offset bracket)) ∧
      (∀ body goals, (ClauseText.divide text).body = some body → splitGoals body = .ok goals →
        ∀ goal ∈ goals, settings.readPredicate goal ≠
          .error (.unmatchedBracket shown offset bracket)) ∧
      (settings.readClause text = .error (.unmatchedBracket shown offset bracket) →
        splitGoals (ClauseText.divide text).head =
            .error (.unmatchedBracket shown offset bracket) ∨
          ∃ body, (ClauseText.divide text).body = some body ∧
            splitGoals body = .error (.unmatchedBracket shown offset bracket))) := by
  refine ⟨Rule.check_of_accepts, Rule.accepts_term_iff_read, Rule.accepts_sequence_iff_read,
    fun shown offset bracket => ⟨fun hread haccepts => ?_, fun hread haccepts => ?_,
      fun pieces hpieces => ?_, fun body goals _ hgoals goal hmem => ?_, fun hread => ?_⟩⟩
  · exact readTerm_ne_unmatchedBracket (Rule.check_of_accepts (Or.inl haccepts)) hread
  · exact readTerms_ne_unmatchedBracket (Rule.check_of_accepts (Or.inr haccepts)) hread
  · exact readPredicate_ne_unmatchedBracket (nested_of_splitGoals hpieces).1
  · exact readPredicate_ne_unmatchedBracket ((nested_of_splitGoals hgoals).2 goal hmem)
  · cases clauseFault_of_readClause hread with
    | malformed defect heq => cases heq
    | headSplit h => exact Or.inl h
    | head hpieces h =>
      exact absurd h (readPredicate_ne_unmatchedBracket (nested_of_splitGoals hpieces).1)
    | bodySplit hbody h => exact Or.inr ⟨_, hbody, h⟩
    | goal _ hgoals hmem h =>
      exact absurd h (readPredicate_ne_unmatchedBracket ((nested_of_splitGoals hgoals).2 _ hmem))

/-- An accepted text passes the check, a text with a closer of the wrong kind is not accepted, and a
goal that ends in a period and white space is read past it. -/
theorem accepts_check_tuple :
    Bracket.check "f([X|(Y, é)])".toList = .ok () ∧
      ¬ Rule.Accepts .term "f([X|(Y, é])".toList ∧
      (ClauseText.divide "p(X) :- q(X) . , r([X]).".toList).body = some " q(X) . , r([X])".toList ∧
      splitGoals " q(X) . , r([X])".toList = .ok ["q(X) .".toList, "r([X])".toList] ∧
      (∀ shown offset bracket, Settings.standard.readPredicate "q(X) .".toList ≠
        .error (.unmatchedBracket shown offset bracket)) := by
  have hread : (readExpression "f([X|(Y, é)])".toList).isOk = true := by decide +kernel
  have hfault : Settings.standard.readTerm "f([X|(Y, é])".toList =
      .error (.unmatchedBracket "f([X|(Y, é])" 11 ']') := by decide +kernel
  have hbody : (ClauseText.divide "p(X) :- q(X) . , r([X]).".toList).body =
      some " q(X) . , r([X])".toList := by decide +kernel
  have hgoals : splitGoals " q(X) . , r([X])".toList =
      .ok ["q(X) .".toList, "r([X])".toList] := by decide +kernel
  obtain ⟨hcheck, hterm, -, -⟩ := accepts_check .standard "f([X|(Y, é)])".toList
  obtain ⟨-, -, -, hreport⟩ := accepts_check .standard "f([X|(Y, é])".toList
  obtain ⟨-, -, -, hclause⟩ := accepts_check .standard "p(X) :- q(X) . , r([X]).".toList
  refine ⟨hcheck (Or.inl (hterm.2 ?_)), (hreport _ _ _).1 hfault, hbody, hgoals,
    fun shown offset bracket => ?_⟩
  · cases he : readExpression "f([X|(Y, é)])".toList with
    | ok e => exact ⟨e, rfl⟩
    | error err =>
      rw [he] at hread
      cases hread
  · exact (hclause shown offset bracket).2.2.2.1 _ _ hbody hgoals _ List.mem_cons_self

end Settings

end Reported

end HornClauses
