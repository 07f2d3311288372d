import HornClauses.Proofs.BracketNesting
import HornClauses.Proofs.Trimming
import HornClauses.Program
import Mathlib.Data.List.Forall2

/-!
# When a text is read

Reading a term, a predicate or a clause succeeds when certain parts are read. A text that the
grammar reads passes the check of its brackets, so the check makes no difference to a success.

* `readExpression_eq_ok`, `Settings.readTerm_eq_ok`, `Settings.readPredicate_eq_ok`: terms and
  predicates.
* `Settings.readGoals_eq_ok`, `Settings.readClause_eq_ok`, `Settings.readProgram_eq_ok`: goals, clauses
  and programs.
-/

namespace HornClauses

/-! ## Terms and predicates -/

theorem readExpression_eq_ok {text : List Char} {e : Expression} :
    readExpression text = .ok e ↔ Grammar.readTerm text = .ok e := by
  simp only [readExpression, bind_eq_ok, mapError_eq_ok]
  constructor
  · rintro ⟨-, -, h⟩
    exact h
  · intro h
    obtain ⟨f, hf, -⟩ := map_eq_ok.1 h
    exact ⟨(), Grammar.check_of_readFrame hf, h⟩

theorem readExpressions_eq_ok {text : List Char} {es : List Expression} :
    readExpressions text = .ok es ↔ Grammar.readSequence text = .ok es := by
  simp only [readExpressions, bind_eq_ok, mapError_eq_ok]
  constructor
  · rintro ⟨-, -, h⟩
    exact h
  · intro h
    obtain ⟨f, hf, -⟩ := map_eq_ok.1 h
    exact ⟨(), Grammar.check_of_readFrame hf, h⟩

/-- What is read of the text of a predicate stands behind white space and in front of white space
and periods. -/
theorem exists_predicateCore (text : List Char) :
    ∃ before after, (∀ c ∈ before, Text.isSpace c = true) ∧
      (∀ c ∈ after, Text.isSpace c = true ∨ c = '.') ∧
        text = before ++ (predicateCore text ++ after) := by
  obtain ⟨before, after, hbefore, hafter, htext⟩ := Text.exists_trim text
  obtain ⟨period, hperiod, htrim⟩ := Text.exists_dropPeriod (Text.trim text)
  have hcore : Text.dropPeriod (Text.trim text) = predicateCore text ++
      (Text.dropPeriod (Text.trim text)).rtakeWhile Text.isSpace := by
    rw [predicateCore, Text.trimEnd_eq_rdropWhile, List.rdropWhile_append_rtakeWhile]
  refine ⟨before, (Text.dropPeriod (Text.trim text)).rtakeWhile Text.isSpace ++ period ++ after,
    hbefore, ?_, ?_⟩
  · intro c hc
    rw [List.mem_append, List.mem_append] at hc
    obtain (hc | hc) | hc := hc
    · exact Or.inl (List.mem_rtakeWhile_imp hc)
    · exact Or.inr (hperiod c hc)
    · exact Or.inl (hafter c hc)
  · calc text = before ++ Text.trim text ++ after := htext
      _ = before ++ (predicateCore text ++
            (Text.dropPeriod (Text.trim text)).rtakeWhile Text.isSpace ++ period) ++ after := by
          rw [← hcore, ← htrim]
      _ = _ := by simp only [List.append_assoc]

namespace Settings

variable {settings : Settings} {text : List Char}

theorem readTerm_eq_ok {t : Term} :
    settings.readTerm text = .ok t ↔ ∃ e, Grammar.readTerm text = .ok e ∧
      e.toTerm settings (String.ofList (Text.trim text)) = .ok t := by
  simp only [readTerm, bind_eq_ok, readExpression_eq_ok]

/-- White space is read as no terms, and any other text as its expressions. -/
theorem readTerms_eq_ok {ts : List Term} :
    settings.readTerms text = .ok ts ↔
      Text.trim text = [] ∧ ts = [] ∨
        Text.trim text ≠ [] ∧ ∃ es, Grammar.readSequence text = .ok es ∧
          Expression.toTerms settings (String.ofList (Text.trim text)) es = .ok ts := by
  unfold readTerms
  split
  · rename_i hempty
    simp [List.isEmpty_iff.1 hempty, eq_comm]
  · rename_i hempty
    have hne : Text.trim text ≠ [] := by simpa using hempty
    simp [bind_eq_ok, readExpressions_eq_ok, hne]

/-- A predicate is a compound, or an atom without arguments. -/
theorem readPredicate_eq_ok {p : Predicate} :
    settings.readPredicate text = .ok p ↔
      predicateCore text ≠ [] ∧ ∃ t, settings.readTerm (predicateCore text) = .ok t ∧
        (t = p.toTerm ∨ t = .atom p.name ∧ p.args = []) := by
  obtain ⟨name, args⟩ := p
  unfold readPredicate
  split
  · rename_i hempty
    simp [List.isEmpty_iff.1 hempty]
  · rename_i hempty
    rw [bind_eq_ok]
    have hne : predicateCore text ≠ [] := by simpa using hempty
    constructor
    · rintro ⟨t, ht, hp⟩
      refine ⟨hne, t, ht, ?_⟩
      cases t with
      | atom n =>
        cases hp
        exact Or.inr ⟨rfl, rfl⟩
      | var n => cases hp
      | compound n ts =>
        cases hp
        exact Or.inl rfl
    · rintro ⟨-, t, ht, rfl | ⟨rfl, hargs⟩⟩
      · exact ⟨_, ht, rfl⟩
      · cases hargs
        exact ⟨_, ht, rfl⟩

/-! ## Clauses -/

/-- Goals are read when none of them is empty and each of them is read. -/
theorem readGoals_eq_ok {onEmpty : ReadError} {goals : List (List Char)} {ps : List Predicate} :
    settings.readGoals onEmpty goals = .ok ps ↔
      List.Forall₂ (fun goal p => goal ≠ [] ∧ settings.readPredicate goal = .ok p) goals ps := by
  induction goals generalizing ps with
  | nil =>
    rw [List.forall₂_nil_left_iff, readGoals, Except.ok.injEq, eq_comm]
  | cons goal goals ih =>
    rw [readGoals]
    split
    · rename_i hempty
      simp only [reduceCtorEq, false_iff]
      intro h
      cases h with
      | cons hgoal _ => exact hgoal.1 (List.isEmpty_iff.1 hempty)
    · rename_i hempty
      simp only [bind_eq_ok, pure_eq_ok, ih]
      constructor
      · rintro ⟨p, hp, ps, hps, rfl⟩
        exact .cons ⟨by simpa using hempty, hp⟩ hps
      · intro h
        cases h with
        | cons hgoal hgoals => exact ⟨_, hgoal.2, _, hgoals, rfl⟩

/-- A head is read when it is one goal and that is read. -/
theorem readHead_eq_ok {malformed : ClauseDefect → ReadError} {head : List Char} {p : Predicate} :
    settings.readHead malformed head = .ok p ↔
      head ≠ [] ∧ (∃ pieces, splitGoals head = .ok pieces ∧ pieces.length ≤ 1) ∧
        settings.readPredicate head = .ok p := by
  unfold readHead
  split
  · rename_i hempty
    simp [List.isEmpty_iff.1 hempty]
  · rename_i hempty
    have hne : head ≠ [] := by simpa using hempty
    rw [bind_eq_ok]
    constructor
    · rintro ⟨pieces, hpieces, h⟩
      split at h
      · cases h
      · rename_i hlength
        exact ⟨hne, ⟨pieces, hpieces, by omega⟩, h⟩
    · rintro ⟨-, ⟨pieces, hpieces, hlength⟩, h⟩
      exact ⟨pieces, hpieces, by rw [if_neg (by omega), h]⟩

theorem readBody_none {malformed : ClauseDefect → ReadError} {ps : List Predicate} :
    settings.readBody malformed none = .ok ps ↔ ps = [] := by
  simp [readBody, eq_comm]

/-- A body is read when it is not blank and each of its goals is read. -/
theorem readBody_some {malformed : ClauseDefect → ReadError} {body : List Char}
    {ps : List Predicate} :
    settings.readBody malformed (some body) = .ok ps ↔
      Text.trim body ≠ [] ∧ ∃ goals, splitGoals body = .ok goals ∧
        settings.readGoals (malformed .emptyGoal) goals = .ok ps := by
  rw [readBody]
  split
  · rename_i hempty
    simp [List.isEmpty_iff.1 hempty]
  · rename_i hempty
    have hne : Text.trim body ≠ [] := by simpa using hempty
    simp [bind_eq_ok, hne]

theorem readClause_eq_ok {c : Clause} :
    settings.readClause text = .ok c ↔
      settings.readHead (.malformedClause (String.ofList (Text.trim text)))
          (ClauseText.divide text).head = .ok c.head ∧
        settings.readBody (.malformedClause (String.ofList (Text.trim text)))
          (ClauseText.divide text).body = .ok c.body := by
  obtain ⟨head, body⟩ := c
  simp only [readClause, bind_eq_ok, pure_eq_ok]
  constructor
  · rintro ⟨p, hp, ps, hps, heq⟩
    cases heq
    exact ⟨hp, hps⟩
  · rintro ⟨hp, hps⟩
    exact ⟨_, hp, _, hps, rfl⟩

/-! ## Programs -/

theorem mapM_readSegmentsFrom {index : Nat} {ss : List Segment} {cs : List Clause} :
    (settings.readSegmentsFrom index ss).mapM id = .ok cs ↔
      List.Forall₂ (fun s c => settings.readClause s.text = .ok c) ss cs := by
  induction ss generalizing index cs with
  | nil =>
    rw [List.forall₂_nil_left_iff, readSegmentsFrom, List.mapM_nil, pure_eq_ok, eq_comm]
  | cons s ss ih =>
    rw [readSegmentsFrom, List.mapM_cons]
    simp only [bind_eq_ok, pure_eq_ok, id, readSegment, mapError_eq_ok, ih]
    constructor
    · rintro ⟨c, hc, cs, hcs, rfl⟩
      exact .cons hc hcs
    · intro h
      cases h with
      | cons hc hcs => exact ⟨_, hc, _, hcs, rfl⟩

/-- A program is read when each of its clause texts is read. -/
theorem readProgram_eq_ok {source : List Char} {cs : List Clause} :
    settings.readProgram source = .ok cs ↔
      List.Forall₂ (fun s c => settings.readClause s.text = .ok c) (segments source) cs :=
  mapM_readSegmentsFrom

end Settings

end HornClauses
