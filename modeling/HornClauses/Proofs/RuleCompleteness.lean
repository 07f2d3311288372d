import HornClauses.Proofs.Derivation
import HornClauses.Proofs.RuleTokens

/-!
# What is derived is matched by the rules

A rule that is tried where derived tokens stand takes just these tokens, although it takes the first
alternative that fits and repeats as long as it can. That is because the next token decides: an
operand is told by its first token, an operand that is left out by the token that follows, and a
repetition ends where no separator follows. A name is the one exception, and there the parenthesis
after it decides.

* `Rule.Finds`, `Rule.Misses`: an expression takes certain tokens of a text, or does not fit there.
* `Slot.finds`, `Expression.finds`, `Expression.parted_all`: derived tokens are taken, when what
  follows cannot prolong them.
* `Rule.accepts_term_of_derives`, `Rule.accepts_sequence_of_derives`: a text with derived tokens is
  accepted.
-/

namespace HornClauses

open Peg Text

namespace Rule

/-- The kind of the first of these tokens, if there is one, is of a certain class. -/
def Begins (p : Terminal → Prop) (ts : List Token) : Prop :=
  ∀ t ∈ ts.head?, p t.terminal

section Begins

variable {p q : Terminal → Prop} {ts us : List Token}

theorem begins_nil : Begins p [] := fun _ h => by cases h

theorem begins_cons {t : Token} (h : p t.terminal) : Begins p (t :: ts) := by
  intro u hu
  cases hu
  exact h

theorem Begins.mono (h : Begins p ts) (hpq : ∀ k, p k → q k) : Begins q ts :=
  fun t ht => hpq _ (h t ht)

theorem Begins.append (h : Begins p ts) (h' : Begins p us) : Begins p (ts ++ us) := by
  cases ts with
  | nil => exact h'
  | cons t ts => exact begins_cons (h t rfl)

end Begins

/-- Where these tokens stand first, an expression takes them. -/
def Finds (e : Peg Rule) (ts us : List Token) : Prop :=
  ∀ s, s.dropWhile isBlank = s → Tokenised s (ts ++ us) →
    ∃ rest, Outcome body e s (some rest) ∧ Tokenised rest us

/-- Where these tokens stand, an expression does not fit. -/
def Misses (e : Peg Rule) (us : List Token) : Prop :=
  ∀ s, s.dropWhile isBlank = s → Tokenised s us → Outcome body e s none

section Combinators

variable {e f : Peg Rule} {fs : List (Peg Rule)} {ts us vs : List Token}

theorem Misses.terminal {k : Terminal} (h : Begins (· ≠ k) us) : Misses k.peg us := by
  intro s hs htokens
  refine k.computes.outcome_iff.2 ?_
  cases hread : k.read? s with
  | none => rfl
  | some rest =>
    obtain ⟨t, hscan, hk⟩ := Terminal.read?_eq_some.1 hread
    cases us with
    | nil =>
      rw [Tokenised.nil_iff, hs] at htokens
      subst htokens
      cases hscan
    | cons u us =>
      obtain ⟨rest', hscan', -⟩ := Tokenised.cons_iff.1 htokens
      rw [hs, hscan] at hscan'
      cases hscan'
      exact absurd hk (h t rfl)

theorem Misses.rule {r : Rule} (h : Misses (body r) us) : Misses (.rule r) us :=
  fun s hs htokens => .rule (h s hs htokens)

theorem Misses.choice (he : Misses e us) (hf : Misses f us) : Misses (.choice e f) us :=
  fun s hs htokens => .second (he s hs htokens) (hf s hs htokens)

theorem Misses.oneOf (h : ∀ f ∈ e :: fs, Misses f us) : Misses (oneOf e fs) us := by
  induction fs generalizing e with
  | nil => exact h e List.mem_cons_self
  | cons f fs ih =>
    rw [List.forall_mem_cons] at h
    exact .choice h.1 (ih h.2)

theorem Misses.spaced (he : Misses e us) : Misses (spaced e f) us :=
  fun s hs htokens => .seq_fails (he s hs htokens)

/-- A second part that does not fit makes the whole not fit. -/
theorem Misses.after (he : Finds e ts us) (hf : Misses f us) :
    Misses (Rule.spaced e f) (ts ++ us) := by
  intro s hs htokens
  obtain ⟨s', hout, hrest⟩ := he s hs htokens
  have hf' := hf _ (List.dropWhile_idempotent _ s') (Tokenised.dropWhile_iff.2 hrest)
  exact .seq hout (.seq (computes_blanks s') hf')

namespace Finds

theorem terminal (t : Token) (us : List Token) : Finds t.terminal.peg [t] us := by
  intro s hs htokens
  obtain ⟨rest, hscan, hrest⟩ := Tokenised.cons_iff.1 htokens
  rw [hs] at hscan
  exact ⟨rest, Terminal.outcome_eq_some.2 ⟨t, hscan, rfl⟩, hrest⟩

theorem terminal_or_misses (t : Token) (k : Terminal) (us : List Token) :
    Finds k.peg [t] us ∨ Misses k.peg ([t] ++ us) := by
  by_cases hk : t.terminal = k
  · exact Or.inl (hk ▸ terminal t us)
  · exact Or.inr (.terminal (begins_cons hk))

theorem rule {r : Rule} (h : Finds (body r) ts us) : Finds (.rule r) ts us := by
  intro s hs htokens
  obtain ⟨rest, hout, hrest⟩ := h s hs htokens
  exact ⟨rest, .rule hout, hrest⟩

theorem first (h : Finds e ts us) : Finds (.choice e f) ts us := by
  intro s hs htokens
  obtain ⟨rest, hout, hrest⟩ := h s hs htokens
  exact ⟨rest, .first hout, hrest⟩

theorem second (he : Misses e (ts ++ us)) (hf : Finds f ts us) : Finds (.choice e f) ts us := by
  intro s hs htokens
  obtain ⟨rest, hout, hrest⟩ := hf s hs htokens
  exact ⟨rest, .second (he s hs htokens) hout, hrest⟩

/-- A choice takes what one alternative takes if the others take the same or do not fit. -/
theorem oneOf {g : Peg Rule} (hg : g ∈ e :: fs) (hfinds : Finds g ts us)
    (h : ∀ f ∈ e :: fs, Finds f ts us ∨ Misses f (ts ++ us)) : Finds (oneOf e fs) ts us := by
  induction fs generalizing e with
  | nil =>
    rw [List.mem_singleton] at hg
    exact hg ▸ hfinds
  | cons f fs ih =>
    rw [List.forall_mem_cons] at h
    rcases List.mem_cons.1 hg with rfl | hg
    · exact .first hfinds
    · rcases h.1 with hfirst | hmiss
      · exact .first hfirst
      · exact .second hmiss (ih hg h.2)

theorem present (h : Finds e ts us) : Finds (.optional e) ts us := by
  intro s hs htokens
  obtain ⟨rest, hout, hrest⟩ := h s hs htokens
  exact ⟨rest, .present hout, hrest⟩

theorem absent (h : Misses e us) : Finds (.optional e) [] us :=
  fun s hs htokens => ⟨s, .absent (h s hs htokens), htokens⟩

theorem spaced (he : Finds e ts (us ++ vs)) (hf : Finds f us vs) :
    Finds (spaced e f) (ts ++ us) vs := by
  intro s hs htokens
  rw [List.append_assoc] at htokens
  obtain ⟨s', hout, hrest⟩ := he s hs htokens
  obtain ⟨rest, hout', hrest'⟩ := hf _ (List.dropWhile_idempotent _ s')
    (Tokenised.dropWhile_iff.2 hrest)
  exact ⟨rest, .seq hout (.seq (computes_blanks s') hout'), hrest'⟩

/-- A repetition ends where the expression does not fit. -/
theorem none (h : Misses e us) : Finds (spacedMany e) [] us :=
  absent fun s hs htokens => .seq_fails (h s hs htokens)

theorem more (he : Finds e ts (us ++ vs)) (h : Finds (spacedMany e) us vs) :
    Finds (spacedMany e) (ts ++ us) vs := by
  intro s hs htokens
  rw [List.append_assoc] at htokens
  obtain ⟨s', hfirst, hrest⟩ := he s hs htokens
  obtain ⟨rest, hmany, hrest'⟩ := h _ (List.dropWhile_idempotent _ s')
    (Tokenised.dropWhile_iff.2 hrest)
  have hblanks := computes_blanks s'
  rcases Outcome.optional_eq_some.1 hmany with hmany | ⟨hnone, rfl⟩
  · obtain ⟨s'', hnext, hmany⟩ := Outcome.seq_eq_some.1 hmany
    exact ⟨rest, .present (.seq hfirst (.more (.seq hblanks hnext) hmany)), hrest'⟩
  · -- Nothing more is taken, and the blanks that were skipped are left.
    have hfails : Outcome body e (s'.dropWhile isBlank) Option.none := by
      cases hnone with
      | seq _ hmany =>
        obtain ⟨_, hsome⟩ := hmany.exists_of_many
        cases hsome
      | seq_fails hnext => exact hnext
    exact ⟨s', .present (.seq hfirst (.done (.seq hblanks hfails))),
      Tokenised.dropWhile_iff.1 hrest'⟩

end Finds

end Combinators

/-! ## What derived tokens begin with -/

section Starts

variable {ts : List Token}

/-- The kinds of tokens that an operand begins with. -/
def StartsOperand (k : Terminal) : Prop :=
  k = .name ∨ k = .var ∨ k = .number ∨ k = .symbol ∨ k = .openParen ∨ k = .openBracket

/-- The kinds of tokens that may follow an expression. -/
def FollowsExpression (k : Terminal) : Prop := ¬ StartsOperand k ∧ k ≠ .operator

def FollowsSequence (k : Terminal) : Prop := FollowsExpression k ∧ k ≠ .comma

theorem followsSequence_closing {k : Terminal}
    (h : k = .closeParen ∨ k = .closeBracket ∨ k = .bar) : FollowsSequence k := by
  rcases h with rfl | rfl | rfl <;> simp [FollowsSequence, FollowsExpression, StartsOperand]

theorem followsExpression_comma : FollowsExpression .comma := by
  simp [FollowsExpression, StartsOperand]

theorem not_startsOperand_operator : ¬ StartsOperand .operator := by
  simp [StartsOperand]

theorem begins_slot {slot : Slot} (h : slot.Derives ts) : Begins StartsOperand ts := by
  cases h with
  | hole => exact begins_nil
  | _ => exact begins_cons (by simp [StartsOperand, Token.terminal])

theorem begins_expression {e : Expression} (h : e.Derives ts) :
    Begins (fun k => StartsOperand k ∨ k = .operator) ts := by
  cases h with
  | chain hlinks hlast =>
    have hslot := (begins_slot hlast).mono fun k hk => Or.inl (b := k = .operator) hk
    cases hlinks with
    | nil => exact hslot
    | cons op hfirst hlinks =>
      refine Begins.append (Begins.append ((begins_slot hfirst).mono fun k => Or.inl) ?_) hslot
      exact begins_cons (Or.inr rfl)

/-- Expressions with commas between them begin with no closing bracket. -/
theorem begins_sequence {es : List Expression} (h : Expression.DerivesAll es ts) :
    Begins (· ≠ .closeBracket) ts := by
  have hne : ∀ k, StartsOperand k ∨ k = .operator → k ≠ .closeBracket := by
    rintro _ hk rfl
    simp [StartsOperand] at hk
  cases h with
  | one he => exact (begins_expression he).mono hne
  | cons he _ =>
    refine ((begins_expression he).mono hne).append (begins_cons ?_)
    exact Terminal.noConfusion

end Starts

/-! ## Parts with separators -/

/-- Tokens that an expression takes, and then that it takes again after each separator. -/
def Parted (k : Terminal) (e : Peg Rule) (ts us : List Token) : Prop :=
  ∃ vs ws, ts = vs ++ ws ∧ Finds e vs (ws ++ us) ∧ Finds (spacedMany (spaced k.peg e)) ws us

namespace Parted

variable {k : Terminal} {e : Peg Rule} {ts us vs : List Token}

theorem one (h : Finds e ts us) (hus : Begins (· ≠ k) us) : Parted k e ts us :=
  ⟨ts, [], (List.append_nil ts).symm, h, .none (.spaced (.terminal hus))⟩

theorem cons (t : Token) (he : Finds e ts (t :: (us ++ vs))) (h : Parted t.terminal e us vs) :
    Parted t.terminal e (ts ++ t :: us) vs := by
  obtain ⟨first, later, rfl, hfirst, hlater⟩ := h
  have hpart : Finds (spaced t.terminal.peg e) ([t] ++ first) (later ++ vs) :=
    .spaced (.terminal t _) hfirst
  exact ⟨ts, t :: (first ++ later), rfl, he, hpart.more hlater⟩

theorem finds (h : Parted k e ts us) :
    Finds (spaced e (spacedMany (spaced k.peg e))) ts us := by
  obtain ⟨first, later, rfl, hfirst, hlater⟩ := h
  exact .spaced hfirst hlater

end Parted

/-! ## Operands -/

section Operands

variable {ts us vs : List Token}

theorem misses_compound (h : Begins (· ≠ .name) us) : Misses (.rule .compound) us :=
  .rule (.spaced (.terminal (k := .name) h))

theorem misses_list (h : Begins (· ≠ .openBracket) us) : Misses (.rule .list) us :=
  .rule (.choice (.spaced (.terminal (k := .openBracket) h))
    (.spaced (.terminal (k := .openBracket) h)))

theorem misses_tuple (h : Begins (· ≠ .openParen) us) : Misses (.rule .tuple) us :=
  .rule (.spaced (.terminal (k := .openParen) h))

theorem misses_operand (h : Begins (fun k => ¬ StartsOperand k) us) :
    Misses (.rule .operand) us := by
  have hk : ∀ k, StartsOperand k → Begins (· ≠ k) us := by
    rintro k hk
    refine h.mono ?_
    rintro _ hno rfl
    exact hno hk
  refine .rule (.oneOf ?_)
  simp only [List.forall_mem_cons]
  refine ⟨misses_compound (hk _ ?_), misses_list (hk _ ?_), misses_tuple (hk _ ?_),
    .terminal (k := .var) (hk _ ?_), .terminal (k := .number) (hk _ ?_),
    .terminal (k := .name) (hk _ ?_), .terminal (k := .symbol) (hk _ ?_), by simp⟩
  all_goals simp [StartsOperand]

theorem finds_compound (name : String) (h : Finds (.rule .args) ts (.closeParen :: us)) :
    Finds (.rule .operand) (.name name :: .openParen :: (ts ++ [.closeParen])) us := by
  have hparens := Finds.spaced (.terminal .openParen _) (.spaced h (.terminal .closeParen us))
  exact .rule (.first (.rule (.spaced (.terminal (.name name) _) hparens)))

/-- A word is an operand by itself if it does not begin one with arguments. -/
theorem finds_word {t : Token}
    (ht : t.terminal = .name ∨ t.terminal = .var ∨ t.terminal = .number ∨ t.terminal = .symbol)
    (hcompound : Misses (.rule .compound) (t :: us)) : Finds (.rule .operand) [t] us := by
  have hmem : t.terminal.peg ∈ [.rule .compound, .rule .list, .rule .tuple, .rule .var,
      .rule .number, .rule .name, .rule .symbol] := by
    rcases ht with ht | ht | ht | ht <;> rw [ht] <;> simp [Terminal.peg]
  have hlist : t.terminal ≠ .openBracket := by
    rcases ht with ht | ht | ht | ht <;> rw [ht] <;> exact nofun
  have htuple : t.terminal ≠ .openParen := by
    rcases ht with ht | ht | ht | ht <;> rw [ht] <;> exact nofun
  refine .rule (.oneOf hmem (.terminal t us) ?_)
  simp only [List.forall_mem_cons]
  exact ⟨Or.inr hcompound, Or.inr (misses_list (begins_cons hlist)),
    Or.inr (misses_tuple (begins_cons htuple)), Finds.terminal_or_misses t .var us,
    Finds.terminal_or_misses t .number us, Finds.terminal_or_misses t .name us,
    Finds.terminal_or_misses t .symbol us, by simp⟩

theorem finds_name (name : String) (h : Begins (· ≠ .openParen) us) :
    Finds (.rule .operand) [.name name] us := by
  have hcompound : Misses (.rule .compound) ([.name name] ++ us) :=
    .rule (.after (.terminal (.name name) us) (.spaced (.terminal (k := .openParen) h)))
  exact finds_word (Or.inl rfl) hcompound

theorem finds_tuple (h : Finds (.rule .elements) ts (.closeParen :: us)) :
    Finds (.rule .operand) (.openParen :: (ts ++ [.closeParen])) us := by
  have htuple := Finds.rule (r := .tuple) (.spaced (.terminal .openParen _)
    (.spaced h (.terminal .closeParen us)))
  exact .rule (.second (misses_compound (begins_cons nofun))
    (.second (misses_list (begins_cons nofun)) (.first htuple)))

theorem finds_list (h : Finds (body .list) (.openBracket :: ts) us) :
    Finds (.rule .operand) (.openBracket :: ts) us :=
  .rule (.second (misses_compound (begins_cons nofun)) (.first (.rule h)))

theorem finds_nil (us : List Token) :
    Finds (body .list) [.openBracket, .closeBracket] us :=
  .first (.spaced (.terminal .openBracket _) (.terminal .closeBracket us))

/-- Brackets are closed at once only if nothing is written between them. -/
theorem misses_nil (h : Begins (· ≠ .closeBracket) ts) :
    Misses (spaced (.literal ['[']) (.literal [']'])) (.openBracket :: ts) :=
  Misses.after (.terminal .openBracket ts) (.terminal (k := .closeBracket) h)

theorem finds_elements (hts : Begins (· ≠ .closeBracket) ts)
    (h : Finds (.rule .elements) ts (.closeBracket :: us)) :
    Finds (body .list) (.openBracket :: (ts ++ [.closeBracket])) us := by
  cases ts with
  | nil => exact finds_nil us
  | cons t ts =>
    have hbar : Misses (spaced (.literal ['|']) (.rule .tail)) (.closeBracket :: us) :=
      .spaced (.terminal (k := .bar) (begins_cons nofun))
    have hend := Finds.spaced (.absent hbar) (.terminal .closeBracket us)
    refine .second (misses_nil (begins_cons (hts t rfl))) ?_
    exact .spaced (.terminal .openBracket _) (.spaced h hend)

theorem finds_elementsWithTail (hts : Begins (· ≠ .closeBracket) ts)
    (h : Finds (.rule .elements) ts (.bar :: (vs ++ .closeBracket :: us)))
    (htail : Finds (.rule .tail) vs (.closeBracket :: us)) :
    Finds (body .list) (.openBracket :: (ts ++ .bar :: (vs ++ [.closeBracket]))) us := by
  have hbar := Finds.present (.spaced (.terminal .bar _) htail)
  have hend := Finds.spaced hbar (.terminal .closeBracket us)
  have hmiss : Begins (· ≠ .closeBracket) (ts ++ .bar :: (vs ++ [.closeBracket]) ++ us) := by
    rw [List.append_assoc]
    exact hts.append (begins_cons nofun)
  refine .second (misses_nil hmiss) (.spaced (.terminal .openBracket _) (.spaced ?_ hend))
  simpa using h

end Operands

end Rule

open Rule

/-! ## Derivations -/

mutual

theorem Slot.finds (slot : Slot) {ts us : List Token} (h : slot.Derives ts)
    (hus : Begins (fun k => ¬ StartsOperand k) us) :
    Finds (.optional (.rule .operand)) ts us := by
  have hparen : ∀ {vs}, Begins FollowsSequence (.closeParen :: vs) :=
    begins_cons (followsSequence_closing (Or.inl rfl))
  have hbracket : ∀ {vs}, Begins FollowsSequence (.closeBracket :: vs) :=
    begins_cons (followsSequence_closing (Or.inr (Or.inl rfl)))
  have hbar : ∀ {vs}, Begins FollowsSequence (.bar :: vs) :=
    begins_cons (followsSequence_closing (Or.inr (Or.inr rfl)))
  cases slot with
  | hole =>
    cases h
    exact .absent (misses_operand hus)
  | name text =>
    cases h
    refine .present (finds_name text (hus.mono ?_))
    rintro _ hno rfl
    exact hno (by simp [StartsOperand])
  | var text =>
    cases h
    exact .present (finds_word (Or.inr (Or.inl rfl)) (misses_compound (begins_cons nofun)))
  | number text =>
    cases h
    exact .present
      (finds_word (Or.inr (Or.inr (Or.inl rfl))) (misses_compound (begins_cons nofun)))
  | symbol text =>
    cases h
    exact .present
      (finds_word (Or.inr (Or.inr (Or.inr rfl))) (misses_compound (begins_cons nofun)))
  | compound name args =>
    cases h with
    | compound _ hargs =>
      exact .present (finds_compound name
        (.rule (Expression.parted_all args hargs hparen).finds))
  | list elements =>
    cases h with
    | nil => exact .present (finds_list (finds_nil us))
    | list hes =>
      exact .present (finds_list (finds_elements (begins_sequence hes)
        (.rule (Expression.parted_all elements hes hbracket).finds)))
  | listWithTail elements tail =>
    cases h with
    | listWithTail hes htail =>
      exact .present (finds_list (finds_elementsWithTail (begins_sequence hes)
        (.rule (Expression.parted_all elements hes hbar).finds)
        (.rule (Expression.finds tail htail (hbracket.mono fun _ => And.left)))))
  | tuple components =>
    cases h with
    | tuple hes =>
      exact .present (finds_tuple
        (.rule (Expression.parted_all components hes hparen).finds))
termination_by structural slot

/-- The tokens of an expression are taken if neither an operand nor an operator follows. -/
theorem Expression.finds (e : Expression) {ts us : List Token} (h : e.Derives ts)
    (hus : Begins FollowsExpression us) :
    Finds (.rule .expression) ts us := by
  obtain ⟨text, links, last⟩ := e
  cases h with
  | chain hlinks hlast =>
    have hslot := Slot.finds last hlast (hus.mono fun _ => And.left)
    have hlast := Parted.one hslot (hus.mono fun _ => And.right)
    exact .rule (Expression.parted_links links hlinks hlast).finds
termination_by structural e

theorem Expression.parted_all (es : List Expression) {ts us : List Token}
    (h : Expression.DerivesAll es ts)
    (hus : Begins FollowsSequence us) :
    Parted .comma (.rule .expression) ts us := by
  cases es with
  | nil => cases h
  | cons e es =>
    cases h with
    | one he =>
      exact .one (Expression.finds e he (hus.mono fun _ => And.left))
        (hus.mono fun _ => And.right)
    | cons he hes =>
      exact .cons .comma (Expression.finds e he (begins_cons followsExpression_comma))
        (Expression.parted_all es hes hus)
termination_by structural es

theorem Expression.parted_links (links : List (Slot × Operator)) {ts us vs : List Token}
    (h : Expression.DerivesLinks links ts)
    (hlast : Parted .operator (.optional (.rule .operand)) vs us) :
    Parted .operator (.optional (.rule .operand)) (ts ++ vs) us := by
  cases links with
  | nil =>
    cases h
    exact hlast
  | cons link links =>
    obtain ⟨slot, op⟩ := link
    cases h with
    | cons _ hslot hlinks =>
      rw [List.append_assoc, List.cons_append]
      exact .cons (.operator op) (Slot.finds slot hslot (begins_cons not_startsOperand_operator))
        (Expression.parted_links links hlinks hlast)
termination_by structural links

end

/-! ## Texts -/

namespace Rule

variable {text : List Char} {ts : List Token}

/-- A text is accepted if its tokens are taken when nothing follows. -/
theorem outcome_whole {e : Peg Rule} (h : Finds e ts []) (htext : Tokenised text ts) :
    ∃ rest, Outcome body (.seq blanks (spaced e .atEnd)) text (some rest) := by
  obtain ⟨s, hout, hs⟩ := h _ (List.dropWhile_idempotent _ text)
    (by rw [List.append_nil]; exact Tokenised.dropWhile_iff.2 htext)
  have hend : Outcome body .atEnd (s.dropWhile isBlank) (some []) :=
    Outcome.atEnd_eq_some.2 ⟨Tokenised.nil_iff.1 hs, rfl⟩
  exact ⟨[], .seq (computes_blanks text) (.seq hout (.seq (computes_blanks s) hend))⟩

theorem accepts_term_of_derives (htext : Tokenised text ts) {e : Expression}
    (h : e.Derives ts) : Accepts .term text := by
  obtain ⟨rest, hout⟩ := outcome_whole (Expression.finds e h begins_nil) htext
  exact ⟨rest, .rule hout⟩

theorem accepts_sequence_of_derives (htext : Tokenised text ts) {es : List Expression}
    (h : Expression.DerivesAll es ts) : Accepts .sequence text := by
  have hargs : Finds (.rule .args) ts [] := .rule (Expression.parted_all es h begins_nil).finds
  obtain ⟨rest, hout⟩ := outcome_whole hargs htext
  exact ⟨rest, .rule hout⟩

end Rule

end HornClauses
