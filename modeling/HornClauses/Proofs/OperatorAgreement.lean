import HornClauses.Proofs.ReaderOutcome
import HornClauses.Proofs.ReadingTokens
import HornClauses.Proofs.TokenJoints
import HornClauses.Proofs.TwoSettings

/-!
# What of an operator table matters to a text

A text is read alike under two tables that agree on the operators among its tokens. What a table
says about other operators, and how many of them stand before or between those of the text, makes no
difference, not even to an error.

* `operatorsIn`: the operators among the tokens of a text.
* `mem_operatorsIn_of_tokenised`: an expression that is read from a part of a text has no others.
* `Settings.read_eq_of_agreeOn`: terms, sequences of terms and predicates under two tables.
-/

namespace HornClauses

/-! ## The operators of a text -/

/-- The operators among the tokens of a text in order. Each token is as long as can be, and a
character that begins no token is passed over. -/
def operatorsIn (s : List Char) : List Operator :=
  match _h : Token.scan? s with
  | some (.operator op, rest) => op :: operatorsIn rest
  | some (_, rest) => operatorsIn rest
  | none =>
    match s with
    | [] => []
    | _ :: rest => operatorsIn rest
termination_by s.length
decreasing_by
  · exact Token.scan?_length ‹_›
  · exact Token.scan?_length ‹_›
  · simp

theorem mem_operatorsIn_of_scan? {s rest : List Char} {t : Token} {op : Operator}
    (h : Token.scan? s = some (t, rest)) :
    op ∈ operatorsIn s ↔ .operator op = t ∨ op ∈ operatorsIn rest := by
  rw [operatorsIn]
  split
  · rename_i op' rest' h'
    rw [h, Option.some.injEq, Prod.mk.injEq] at h'
    obtain ⟨rfl, rfl⟩ := h'
    rw [List.mem_cons, Token.operator.injEq]
  · rename_i t' rest' hother h'
    rw [h, Option.some.injEq, Prod.mk.injEq] at h'
    obtain ⟨rfl, rfl⟩ := h'
    constructor
    · exact Or.inr
    · rintro (rfl | hop)
      · exact absurd rfl (hother op)
      · exact hop
  · rename_i h'
    rw [h] at h'
    cases h'

/-- White space begins no token. -/
theorem Token.scan?_of_isSpace {c : Char} (hc : Text.isSpace c = true) (s : List Char) :
    scan? (c :: s) = none := by
  cases hscan : scan? (c :: s) with
  | none => rfl
  | some result =>
    obtain ⟨t, rest⟩ := result
    obtain ⟨more, htext, -⟩ := scan?_text hscan
    have hmem : c ∈ t.text.toList := by
      rw [htext]
      exact List.mem_cons_self
    rw [isSpace_of_mem_text (wellFormed_of_scan? hscan) hmem] at hc
    cases hc

theorem operatorsIn_space_append {w : List Char} (hw : ∀ c ∈ w, Text.isSpace c = true)
    (s : List Char) : operatorsIn (w ++ s) = operatorsIn s := by
  induction w with
  | nil => rfl
  | cons c w ih =>
    obtain ⟨hc, hrest⟩ := List.forall_mem_cons.1 hw
    have hscan := Token.scan?_of_isSpace hc (w ++ s)
    rw [List.cons_append, operatorsIn]
    split
    · rename_i h
      rw [hscan] at h
      cases h
    · rename_i h
      rw [hscan] at h
      cases h
    · exact ih hrest

/-- The operators among the tokens of a part of a text are operators of the text, if nothing but
white space and periods stands behind the part. -/
theorem mem_operatorsIn_of_tokenised {s : List Char} {ts : List Token} (hs : Tokenised s ts)
    {w : List Char} (hw : ∀ c ∈ w, Text.isSpace c = true ∨ c = '.') {op : Operator}
    (hop : .operator op ∈ ts) : op ∈ operatorsIn (s ++ w) := by
  induction hs with
  | blank _ => cases hop
  | @token s rest t ts hlongest _ ih =>
    have hblanks : ∀ c ∈ s.takeWhile Text.isBlank, Text.isSpace c = true := fun c hc =>
      Text.isSpace_of_isBlank (List.mem_takeWhile_imp hc)
    rw [← List.takeWhile_append_dropWhile (p := Text.isBlank) (l := s), List.append_assoc,
      operatorsIn_space_append hblanks,
      mem_operatorsIn_of_scan? (Token.scan?_eq_some_iff.2 (hlongest.append_period hw))]
    rcases List.mem_cons.1 hop with hfirst | hlater
    · exact Or.inl hfirst
    · exact Or.inr (ih hlater)

/-! ## Two tables -/

namespace Settings

variable {table other : OperatorTable} {text : List Char}

theorem readTerm_eq_of_agreeOn (lists : ListStyle) {ops : List Operator}
    (h : table.AgreeOn other ops) (hops : ∀ e, readExpression text = .ok e →
      ∀ op, .operator op ∈ e.tokens → op ∈ ops) :
    readTerm ⟨lists, table⟩ text = readTerm ⟨lists, other⟩ text :=
  (sameOutcome_readTerm (ListStyle.Carries.eq lists) h hops).eq

theorem readTerms_eq_of_agreeOn (lists : ListStyle) {ops : List Operator}
    (h : table.AgreeOn other ops) (hops : ∀ es, readExpressions text = .ok es →
      ∀ op, .operator op ∈ Expression.tokensOfList es → op ∈ ops) :
    readTerms ⟨lists, table⟩ text = readTerms ⟨lists, other⟩ text := by
  have hsame := sameOutcome_readTerms (ListStyle.Carries.eq lists) h hops
  rw [List.forall₂_eq_eq_eq] at hsame
  exact hsame.eq

/-- Two tables that agree on the operators of a text read it alike, as a term, as a sequence of
terms and as a predicate, and find the same fault in it. -/
theorem read_eq_of_agreeOn (h : table.AgreeOn other (operatorsIn text)) (lists : ListStyle) :
    readTerm ⟨lists, table⟩ text = readTerm ⟨lists, other⟩ text ∧
      readTerms ⟨lists, table⟩ text = readTerms ⟨lists, other⟩ text ∧
        readPredicate ⟨lists, table⟩ text = readPredicate ⟨lists, other⟩ text := by
  refine ⟨?_, ?_, ?_⟩
  · apply readTerm_eq_of_agreeOn lists h
    intro e he op hop
    have htokens := Grammar.tokenised_of_readTerm (readExpression_eq_ok.1 he)
    rw [← List.append_nil text]
    exact mem_operatorsIn_of_tokenised htokens (by simp) hop
  · apply readTerms_eq_of_agreeOn lists h
    intro es hes op hop
    have htokens := Grammar.tokenised_of_readSequence (readExpressions_eq_ok.1 hes)
    rw [← List.append_nil text]
    exact mem_operatorsIn_of_tokenised htokens (by simp) hop
  · have hcore : readTerm ⟨lists, table⟩ (predicateCore text) =
        readTerm ⟨lists, other⟩ (predicateCore text) := by
      apply readTerm_eq_of_agreeOn lists h
      intro e he op hop
      obtain ⟨before, after, hbefore, hafter, htext⟩ := exists_predicateCore text
      have htokens := Grammar.tokenised_of_readTerm (readExpression_eq_ok.1 he)
      rw [htext, operatorsIn_space_append hbefore]
      exact mem_operatorsIn_of_tokenised htokens hafter hop
    rw [readPredicate, readPredicate, hcore]

/-- A shorter table, with further operators and other names between those of the text. -/
theorem read_eq_of_agreeOn_shorter :
    let shorter : OperatorTable :=
      ⟨[⟨.is, none⟩, ⟨.gt, some "greater"⟩, ⟨.add, some "+"⟩, ⟨.div, some "quotient"⟩,
        ⟨.sub, none⟩, ⟨.mul, none⟩], by decide⟩
    let text := "p(X is 1 + 2 * Y, [a - b | T])".toList
    OperatorTable.standard.AgreeOn shorter (operatorsIn text) ∧
      readPredicate ⟨.legacy, .standard⟩ text = readPredicate ⟨.legacy, shorter⟩ text := by
  intro shorter text
  have hops : operatorsIn text = [.is, .add, .mul, .sub] := by decide +kernel
  have h : OperatorTable.standard.AgreeOn shorter (operatorsIn text) := by
    rw [hops]
    exact ⟨by decide, by decide, by decide⟩
  exact ⟨h, (read_eq_of_agreeOn h .legacy).2.2⟩

end Settings

end HornClauses
