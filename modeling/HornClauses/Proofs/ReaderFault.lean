import HornClauses.Proofs.FirstFault

/-!
# Why a text is not read

An error comes from the check of the brackets, from the grammar, from an expression that is at fault
or from the shape of a clause. A clause hands on the errors of its head and of its goals as they
are, so all that has to be known of it is which texts are checked and read on the way.

* `CheckedFault`: errors of the check and of the grammar.
* `readExpression_eq_error`, `Settings.readTerm_eq_error`, `Settings.readTerms_eq_error`: errors of
  terms.
* `Settings.ClauseFault`, `Settings.clauseFault_of_readClause`: where the error of a clause arises.
-/

namespace HornClauses

/-! ## Terms -/

section Terms

variable {text : List Char} {err : ReadError}

/-- The brackets are at fault, or they are in order and the grammar refuses the text. -/
def CheckedFault (text : List Char) (refuses : SyntaxFault → Prop) (err : ReadError) : Prop :=
  (∃ fault, Bracket.check text = .error fault ∧ .ofBracketFault text fault = err) ∨
    Bracket.check text = .ok () ∧ ∃ fault, refuses fault ∧ .ofSyntaxFault text fault = err

theorem bind_check_eq_error {α : Type} {outcome : Except SyntaxFault α} :
    ((Bracket.check text).mapError (.ofBracketFault text) >>= fun _ =>
        outcome.mapError (.ofSyntaxFault text)) = .error err ↔
      CheckedFault text (outcome = .error ·) err := by
  simp only [CheckedFault, bind_eq_error, mapError_eq_error, mapError_eq_ok]
  exact or_congr_right ⟨fun ⟨_, h⟩ => h, fun h => ⟨(), h⟩⟩

theorem readExpression_eq_error :
    readExpression text = .error err ↔
      CheckedFault text (Grammar.readTerm text = .error ·) err :=
  bind_check_eq_error

theorem readExpressions_eq_error :
    readExpressions text = .error err ↔
      CheckedFault text (Grammar.readSequence text = .error ·) err :=
  bind_check_eq_error

/-- An expression at fault is reported by its operators or its hole. -/
theorem FirstFault.eq_or {table : OperatorTable} {source : String} {nodes : List Expression}
    (h : FirstFault table source nodes err) :
    (∃ shown op, err = .unlistedOperator shown op) ∨
      (∃ shown op nested, err = .ambiguousOperator shown op nested) ∨
        ∃ shown op?, err = .missingOperand shown op? := by
  obtain ⟨before, node, after, -, -, hfault⟩ := h
  cases hfault with
  | unlisted _ _ _ => exact Or.inl ⟨_, _, rfl⟩
  | conflict _ _ _ _ _ _ _ => exact Or.inr (Or.inl ⟨_, _, _, rfl⟩)
  | hole _ _ _ => exact Or.inr (Or.inr ⟨_, _, rfl⟩)

namespace Settings

variable {settings : Settings}

theorem readTerm_eq_error :
    settings.readTerm text = .error err ↔
      readExpression text = .error err ∨ ∃ e, readExpression text = .ok e ∧
        FirstFault settings.operators (String.ofList (Text.trim text)) e.nodes err := by
  rw [readTerm, bind_eq_error]
  simp only [(Expression.settles_toTerm _).error_iff]

theorem readTerms_eq_error :
    settings.readTerms text = .error err ↔ Text.trim text ≠ [] ∧
      (readExpressions text = .error err ∨ ∃ es, readExpressions text = .ok es ∧
        FirstFault settings.operators (String.ofList (Text.trim text)) (Expression.nodesOfList es)
          err) := by
  unfold readTerms
  split
  · rename_i hempty
    simp [List.isEmpty_iff.1 hempty]
  · rename_i hempty
    have hne : Text.trim text ≠ [] := by simpa using hempty
    simp only [bind_eq_error, (Expression.settles_toTerms _).error_iff, hne, ne_eq,
      not_false_eq_true, true_and]

/-! ## Clauses -/

/-- A text that is no predicate is empty or a variable, or no term can be read from it. -/
theorem readPredicate_eq_error (h : settings.readPredicate text = .error err) :
    (∃ defect, err = .malformedClause (String.ofList text) defect) ∨
      settings.readTerm (predicateCore text) = .error err := by
  unfold readPredicate at h
  split at h
  · cases h
    exact Or.inl ⟨_, rfl⟩
  · rcases bind_eq_error.1 h with h | ⟨t, -, h⟩
    · exact Or.inr h
    · cases t with
      | var name =>
        cases h
        exact Or.inl ⟨_, rfl⟩
      | _ => exact absurd h pure_ne_error

theorem readGoals_eq_error {onEmpty : ReadError} {goals : List (List Char)}
    (h : settings.readGoals onEmpty goals = .error err) :
    err = onEmpty ∨ ∃ goal ∈ goals, settings.readPredicate goal = .error err := by
  induction goals with
  | nil => cases h
  | cons goal goals ih =>
    rw [readGoals] at h
    split at h
    · cases h
      exact Or.inl rfl
    · rcases bind_eq_error.1 h with h | ⟨p, -, h⟩
      · exact Or.inr ⟨goal, List.mem_cons_self, h⟩
      · rcases bind_eq_error.1 h with h | ⟨ps, -, h⟩
        · rcases ih h with hempty | ⟨goal', hmem, hgoal⟩
          · exact Or.inl hempty
          · exact Or.inr ⟨goal', List.mem_cons_of_mem goal hmem, hgoal⟩
        · exact absurd h pure_ne_error

/-- Where the error of a clause arises: in the shape of the clause, when its head or its body is
split, or when its head or a goal is read as a predicate after that. -/
inductive ClauseFault (settings : Settings) (text : List Char) (err : ReadError) : Prop where
  | malformed (defect : ClauseDefect) :
    err = .malformedClause (String.ofList (Text.trim text)) defect → ClauseFault settings text err
  | headSplit : splitGoals (ClauseText.divide text).head = .error err →
    ClauseFault settings text err
  | head {pieces : List (List Char)} : splitGoals (ClauseText.divide text).head = .ok pieces →
    settings.readPredicate (ClauseText.divide text).head = .error err →
    ClauseFault settings text err
  | bodySplit {body : List Char} : (ClauseText.divide text).body = some body →
    splitGoals body = .error err → ClauseFault settings text err
  | goal {body goal : List Char} {goals : List (List Char)} :
    (ClauseText.divide text).body = some body → splitGoals body = .ok goals → goal ∈ goals →
    settings.readPredicate goal = .error err → ClauseFault settings text err

theorem clauseFault_of_readClause (h : settings.readClause text = .error err) :
    settings.ClauseFault text err := by
  rw [readClause] at h
  rcases bind_eq_error.1 h with h | ⟨head, -, h⟩
  · unfold readHead at h
    split at h
    · cases h
      exact .malformed _ rfl
    · rcases bind_eq_error.1 h with h | ⟨pieces, hpieces, h⟩
      · exact .headSplit h
      · split at h
        · cases h
          exact .malformed _ rfl
        · exact .head hpieces h
  · rcases bind_eq_error.1 h with h | ⟨body, -, h⟩
    · cases hbody : (ClauseText.divide text).body with
      | none =>
        rw [hbody] at h
        cases h
      | some body =>
        rw [hbody, readBody] at h
        split at h
        · cases h
          exact .malformed _ rfl
        · rcases bind_eq_error.1 h with h | ⟨goals, hgoals, h⟩
          · exact .bodySplit hbody h
          · rcases readGoals_eq_error h with h | ⟨goal, hmem, h⟩
            · exact .malformed _ h
            · exact .goal hbody hgoals hmem h
    · exact absurd h pure_ne_error

end Settings

end Terms

end HornClauses
