import HornClauses.Proofs.OperatorListing
import HornClauses.Proofs.ProgramComposition
import HornClauses.Proofs.ReaderFault
import HornClauses.Proofs.RuleTokens

/-!
# Operators that are not listed

The rule of operators takes a token of the grammar from any text, so an operator that is reported as
unlisted is one that the grammar knows and the table does not list. With a table that lists all
tokens, in whatever order, no text is refused for that. A chain is refused for the first of its
operators that has no place, before anything is made of the places of the others.

* `ReadError.UnlistedIn`: an error that blames a table for nothing that it lists.
* `Settings.Reports`, `Settings.Reports.unlistedIn`: the errors of all ways to read a text.
* `OperatorTable.resolve_of_placeless`: a chain with an operator that has no place.
* `OperatorTable.tables_sound`: lists, look-ups, the rule of operators and tables that list all.
-/

namespace HornClauses

/-! ## The rule of operators -/

/-- The rule takes a token of the grammar, the one that is scanned, and leaves what follows it. -/
theorem Rule.outcome_operator {s rest : List Char} :
    Peg.Outcome Rule.body (.rule .operator) s (some rest) ↔
      ∃ op, Token.scan? s = some (.operator op, rest) := by
  have hterminal : Peg.Outcome Rule.body (.rule .operator) s (some rest) ↔
      ∃ t, Token.scan? s = some (t, rest) ∧ t.terminal = .operator :=
    Terminal.outcome_eq_some (k := .operator)
  rw [hterminal]
  constructor
  · rintro ⟨t, hscan, hk⟩
    cases t with
    | operator op => exact ⟨op, hscan⟩
    | _ => cases hk
  · rintro ⟨op, hscan⟩
    exact ⟨_, hscan, rfl⟩

theorem Rule.exists_token_of_outcome {s rest : List Char}
    (h : Peg.Outcome Rule.body (.rule .operator) s (some rest)) :
    ∃ token ∈ Operator.tokens, s = token.toList ++ rest := by
  obtain ⟨op, hscan⟩ := Rule.outcome_operator.1 h
  exact ⟨op.token, op.token_mem_tokens, Token.scan?_append hscan⟩

theorem Rule.matches_operator_iff {w : String} :
    Rule.Matches .operator w.toList ↔ w ∈ Operator.tokens := by
  have hterminal : Rule.Matches .operator w.toList ↔
      ∃ t : Token, t.WellFormed ∧ t.terminal = .operator ∧ t.text.toList = w.toList :=
    Terminal.matches_iff (k := .operator)
  rw [hterminal]
  constructor
  · rintro ⟨t, -, hk, htext⟩
    cases t with
    | operator op =>
      rw [← String.toList_inj.1 htext]
      exact op.token_mem_tokens
    | _ => cases hk
  · intro h
    obtain ⟨op, -, rfl⟩ := List.mem_map.1 h
    exact ⟨.operator op, trivial, rfl, rfl⟩

/-! ## Errors -/

/-- If an error blames a table for an operator, the grammar knows the operator and the table does
not list it. -/
def ReadError.UnlistedIn (table : OperatorTable) (err : ReadError) : Prop :=
  ∀ shown token, err.root = .unlistedOperator shown token →
    token ∈ Operator.tokens ∧ token ∉ table.tokens

section Errors

variable {settings : Settings} {text : List Char} {err : ReadError}

theorem CheckedFault.unlistedIn {refuses : SyntaxFault → Prop} (table : OperatorTable)
    (h : CheckedFault text refuses err) : err.UnlistedIn table := by
  rcases h with ⟨fault, -, rfl⟩ | ⟨-, fault, -, rfl⟩ <;> exact nofun

theorem unlistedIn_of_splitTrimmed (table : OperatorTable) {separator : Char}
    (h : (Bracket.splitTrimmed separator text).mapError (.ofBracketFault text) = .error err) :
    err.UnlistedIn table := by
  obtain ⟨fault, -, rfl⟩ := mapError_eq_error.1 h
  exact nofun

theorem FirstFault.unlistedIn {table : OperatorTable} {source : String} {nodes : List Expression}
    (h : FirstFault table source nodes err) : err.UnlistedIn table := by
  obtain ⟨before, node, after, -, -, hfault⟩ := h
  cases hfault with
  | unlisted _ _ hop =>
    rintro shown token heq
    cases heq
    exact ⟨Operator.token_mem_tokens _, fun hlisted =>
      hop (OperatorTable.token_mem_tokens_iff.1 hlisted)⟩
  | _ => exact nofun

namespace Settings

theorem readTerm_unlistedIn (h : settings.readTerm text = .error err) :
    err.UnlistedIn settings.operators := by
  rcases readTerm_eq_error.1 h with h | ⟨e, -, h⟩
  · exact (readExpression_eq_error.1 h).unlistedIn _
  · exact h.unlistedIn

theorem readTerms_unlistedIn (h : settings.readTerms text = .error err) :
    err.UnlistedIn settings.operators := by
  rcases (readTerms_eq_error.1 h).2 with h | ⟨es, -, h⟩
  · exact (readExpressions_eq_error.1 h).unlistedIn _
  · exact h.unlistedIn

theorem readPredicate_unlistedIn (h : settings.readPredicate text = .error err) :
    err.UnlistedIn settings.operators := by
  rcases readPredicate_eq_error h with ⟨defect, rfl⟩ | h
  · exact nofun
  · exact readTerm_unlistedIn h

theorem readClause_unlistedIn (h : settings.readClause text = .error err) :
    err.UnlistedIn settings.operators := by
  cases clauseFault_of_readClause h with
  | malformed defect heq =>
    subst heq
    exact nofun
  | headSplit h => exact unlistedIn_of_splitTrimmed _ h
  | head _ h => exact readPredicate_unlistedIn h
  | bodySplit _ h => exact unlistedIn_of_splitTrimmed _ h
  | goal _ _ _ h => exact readPredicate_unlistedIn h

theorem readClauses_unlistedIn {i : Nat} (h : (settings.readClauses text)[i]? = some (.error err)) :
    err.UnlistedIn settings.operators := by
  obtain ⟨s, -, hsegment⟩ := getElem?_readClauses.1 h
  obtain ⟨cause, hcause, rfl⟩ := mapError_eq_error.1 hsegment
  have hroot := readClause_unlistedIn hcause
  exact hroot

/-- An error of one of the ways to read a text: as pieces outside brackets, as a term or several, as
a predicate, as a clause, or as a program, with what its clauses give one by one. -/
inductive Reports (settings : Settings) (text : List Char) (err : ReadError) : Prop where
  | pieces {separator : Char} :
    (Bracket.splitTrimmed separator text).mapError (.ofBracketFault text) = .error err →
    Reports settings text err
  | term : settings.readTerm text = .error err → Reports settings text err
  | terms : settings.readTerms text = .error err → Reports settings text err
  | predicate : settings.readPredicate text = .error err → Reports settings text err
  | clause : settings.readClause text = .error err → Reports settings text err
  | clauseOfProgram {i : Nat} : (settings.readClauses text)[i]? = some (.error err) →
    Reports settings text err
  | program : settings.readProgram text = .error err → Reports settings text err

theorem Reports.unlistedIn (h : settings.Reports text err) :
    err.UnlistedIn settings.operators := by
  cases h with
  | pieces h => exact unlistedIn_of_splitTrimmed _ h
  | term h => exact readTerm_unlistedIn h
  | terms h => exact readTerms_unlistedIn h
  | predicate h => exact readPredicate_unlistedIn h
  | clause h => exact readClause_unlistedIn h
  | clauseOfProgram h => exact readClauses_unlistedIn h
  | program h =>
    obtain ⟨i, hi, -⟩ := firstError_iff_getElem?.1 (readProgram_eq_error.1 h)
    exact readClauses_unlistedIn hi

end Settings

end Errors

/-! ## Places in a chain -/

namespace OperatorTable

theorem isSome_priority?_iff {table : OperatorTable} {op : Operator} :
    (table.priority? op).isSome ↔ op ∈ table.operators := by
  rw [isSome_priority?, ← mem_operators_iff]

/-- A chain is refused for the first of its operators that has no place. -/
theorem resolve_of_placeless {table : OperatorTable} {source text : String}
    {links : List (Option Term × Operator)} {last : Option Term} {before after : List Operator}
    {op : Operator} (hsplit : links.map Prod.snd = before ++ op :: after)
    (hbefore : ∀ o ∈ before, (table.priority? o).isSome) (hop : table.priority? op = none) :
    table.resolve source text links last = .error (.unlistedOperator text op.token) := by
  refine resolve_eq_error_iff.2 (.unlisted hsplit (fun o ho => ?_) ?_)
  · exact isSome_priority?_iff.1 (hbefore o ho)
  · rw [← isSome_priority?_iff, hop]
    exact Bool.false_ne_true

theorem placeOf?_token (table : OperatorTable) (op : Operator) :
    table.placeOf? op.token = table.priority? op := by
  rw [placeOf?, Operator.ofToken?_token, Option.bind_some]

/-- Every operator of a chain has a place, or the chain is refused before a place is needed. -/
theorem placed_or_refused (table : OperatorTable) (source text : String)
    (links : List (Option Term × Operator)) (last : Option Term) :
    (∀ op ∈ links.map Prod.snd, table.placeOf? op.token = some (table.rank op)) ∨
      ∃ before op after, links.map Prod.snd = before ++ op :: after ∧
        (∀ o ∈ before, (table.placeOf? o.token).isSome) ∧ table.placeOf? op.token = none ∧
        table.resolve source text links last = .error (.unlistedOperator text op.token) := by
  simp only [placeOf?_token]
  cases hunlisted : table.unlisted? (links.map Prod.snd) with
  | none =>
    refine Or.inl fun op hop => ?_
    have hlisted := unlisted?_eq_none_iff.1 hunlisted op hop
    obtain ⟨k, hk⟩ := Option.isSome_iff_exists.1 (isSome_priority?_iff.2 hlisted)
    rw [rank, hk, Option.getD_some]
  | some op =>
    obtain ⟨before, after, hsplit, hlisted, hop⟩ := unlisted?_eq_some_iff.1 hunlisted
    have hbefore : ∀ o ∈ before, (table.priority? o).isSome := fun o ho =>
      isSome_priority?_iff.2 (hlisted o ho)
    have hnone : table.priority? op = none :=
      Option.not_isSome_iff_eq_none.1 (isSome_priority?_iff.not.2 hop)
    exact Or.inr ⟨before, op, after, hsplit, hbefore, hnone,
      resolve_of_placeless hsplit hbefore hnone⟩

theorem ListsAll.not_unlistedIn {table : OperatorTable} (hall : table.ListsAll) {err : ReadError}
    (h : err.UnlistedIn table) (shown token : String) :
    err.root ≠ .unlistedOperator shown token := by
  intro hroot
  obtain ⟨hknown, hunlisted⟩ := h shown token hroot
  exact hunlisted (hall token hknown)

/-- A list makes the table that lists its items, if there is one, and otherwise the first item that
is at fault is reported. In every table the two ways to look up a token agree. What the rule of
operators takes from a text is a token of the grammar, and each of these is taken. An operator that
is reported as unlisted, however the text is read, is one that the grammar knows and the table does
not list, so there is none if the table lists them all, as the standard table and every list of
all tokens do. And a chain is refused before the place of an operator is needed that has none. -/
theorem tables_sound :
    (∀ items : List (String × Option String),
      (∀ table, ofList? items = .ok table ↔ table.toList = items) ∧
      ((∃ table, ofList? items = .ok table) ↔
        (∀ token ∈ items.map Prod.fst, token ∈ Operator.tokens) ∧ (items.map Prod.fst).Nodup) ∧
      ∀ err, ofList? items = .error err ↔ FirstItemFault (items.map Prod.fst) err) ∧
    (∀ table : OperatorTable, table.LooksUp) ∧
    (∀ s rest, Peg.Outcome Rule.body (.rule .operator) s (some rest) →
      ∃ token ∈ Operator.tokens, s = token.toList ++ rest) ∧
    (∀ w : String, Rule.Matches .operator w.toList ↔ w ∈ Operator.tokens) ∧
    (∀ (settings : Settings) text err, settings.Reports text err →
      err.UnlistedIn settings.operators ∧
        (settings.operators.ListsAll → ∀ shown token, err.root ≠ .unlistedOperator shown token)) ∧
    standard.ListsAll ∧
    (∀ items : List (String × Option String), (items.map Prod.fst).Perm Operator.tokens →
      ∃ table, ofList? items = .ok table ∧ table.ListsAll) ∧
    ∀ (table : OperatorTable) (source text : String) (links : List (Option Term × Operator))
      (last : Option Term),
      (∀ op ∈ links.map Prod.snd, table.placeOf? op.token = some (table.rank op)) ∨
        ∃ before op after, links.map Prod.snd = before ++ op :: after ∧
          (∀ o ∈ before, (table.placeOf? o.token).isSome) ∧ table.placeOf? op.token = none ∧
          table.resolve source text links last = .error (.unlistedOperator text op.token) := by
  refine ⟨fun items => ⟨fun table => ofList?_eq_ok_iff, exists_ofList?_iff,
    fun err => ofList?_eq_error_iff⟩, looksUp, ?_, ?_, ?_, listsAll_standard, ?_,
    placed_or_refused⟩
  · exact fun s rest => Rule.exists_token_of_outcome
  · exact fun w => Rule.matches_operator_iff
  · intro settings text err hreports
    exact ⟨hreports.unlistedIn, fun hall => hall.not_unlistedIn hreports.unlistedIn⟩
  · exact fun items => exists_listsAll_of_perm

/-- The third item is at fault before the fourth, and of two faults of one item the token that is
unknown is reported. -/
example :
    ofList? [("*", none), ("+", some "plus"), ("*", none), ("?", none)] =
        .error (.duplicate "*") ∧
      ofList? [("*", none), ("?", none), ("?", none)] = .error (.unknown "?") := by
  decide

end OperatorTable

end HornClauses
