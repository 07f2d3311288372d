import HornClauses.Proofs.Derivation
import HornClauses.Proofs.RuleTokens
import HornClauses.Proofs.TokenCharacters

/-!
# What the rules match is derived

A match of a rule takes whole tokens, with the blanks between them, and these tokens are derived.
The brackets of an operand hold a shorter text, so the induction is on the length of the text, and
for one length it goes from operands to expressions and from these to sequences of them. Inside,
each operator of parsing expressions has one lemma.

* `Covers`: two texts differ by certain tokens at the front of the longer one.
* `Rule.Sound`: the matches of an expression on all shorter texts take tokens of a certain kind.
* `Rule.derives_of_accepts_term`, `Rule.derives_of_accepts_sequence`: the tokens of a text that is
  accepted are derived.
-/

namespace HornClauses

open Peg Text

/-! ## Tokens at the front of a text -/

/-- The first text consists of certain tokens and the second text. -/
def Covers (s rest : List Char) (ts : List Token) : Prop :=
  ∀ us, Tokenised rest us → Tokenised s (ts ++ us)

namespace Covers

variable {s s' rest : List Char} {ts us : List Token}

theorem refl (s : List Char) : Covers s s [] := fun _ h => h

theorem trans (h : Covers s s' ts) (h' : Covers s' rest us) : Covers s rest (ts ++ us) := by
  intro vs hvs
  rw [List.append_assoc]
  exact h _ (h' _ hvs)

theorem blanks (s : List Char) : Covers s (s.dropWhile isBlank) [] :=
  fun _ h => Tokenised.dropWhile_iff.1 h

theorem token {t : Token} (h : Token.scan? s = some (t, rest)) : Covers s rest [t] := by
  intro us hus
  have hblank : s.dropWhile isBlank = s := by
    obtain ⟨c, w, hw⟩ := List.exists_cons_of_ne_nil
      (Token.text_ne_nil (Token.wellFormed_of_scan? h))
    have hc := Token.isSpace_of_mem_text (Token.wellFormed_of_scan? h) (c := c) (by simp [hw])
    rw [Token.scan?_append h, hw, List.cons_append, List.dropWhile_cons_of_neg]
    intro hb
    rw [isSpace_of_isBlank hb] at hc
    cases hc
  exact Tokenised.cons_iff.2 ⟨rest, hblank.symm ▸ h, hus⟩

end Covers

namespace Rule

/-- Matches on texts of less than a certain length take tokens of a certain kind. -/
def Sound (n : Nat) (e : Peg Rule) (P : List Token → Prop) : Prop :=
  ∀ s rest, s.length < n → Outcome body e s (some rest) → ∃ ts, P ts ∧ Covers s rest ts

/-- A single token of this kind. -/
def IsToken (k : Terminal) (ts : List Token) : Prop := ∃ t : Token, t.terminal = k ∧ ts = [t]

/-- Tokens of one kind and then tokens of another kind. -/
def Then (P Q : List Token → Prop) (ts : List Token) : Prop :=
  ∃ us vs, P us ∧ Q vs ∧ ts = us ++ vs

namespace Sound

variable {n : Nat} {e f : Peg Rule} {P Q : List Token → Prop}

theorem mono (h : Sound n e P) (hPQ : ∀ ts, P ts → Q ts) : Sound n e Q := by
  intro s rest hs hout
  obtain ⟨ts, hts, hcover⟩ := h s rest hs hout
  exact ⟨ts, hPQ ts hts, hcover⟩

theorem terminal {k : Terminal} (hk : ∀ t : Token, t.terminal = k → P [t]) : Sound n k.peg P := by
  intro s rest _ hout
  obtain ⟨t, hscan, ht⟩ := Terminal.outcome_eq_some.1 hout
  exact ⟨[t], hk t ht, Covers.token hscan⟩

theorem mark {t : Token} (ht : t.isMark = true) : Sound n t.terminal.peg (· = [t]) :=
  .terminal fun u hu => by rw [eq_of_terminal_eq ht hu]

theorem rule {r : Rule} (h : Sound n (body r) P) : Sound n (.rule r) P :=
  fun s rest hs hout => h s rest hs (Outcome.rule_iff.1 hout)

theorem choice (he : Sound n e P) (hf : Sound n f P) : Sound n (.choice e f) P := by
  intro s rest hs hout
  rcases Outcome.choice_eq_some.1 hout with hout | ⟨-, hout⟩
  · exact he s rest hs hout
  · exact hf s rest hs hout

theorem oneOf {fs : List (Peg Rule)} (h : ∀ f ∈ e :: fs, Sound n f P) : Sound n (oneOf e fs) P := by
  induction fs generalizing e with
  | nil => exact h e List.mem_cons_self
  | cons f fs ih =>
    rw [List.forall_mem_cons] at h
    exact choice h.1 (ih h.2)

/-- What an optional expression leaves out are no tokens. -/
theorem optional (he : Sound n e P) (hnil : P []) : Sound n (.optional e) P := by
  intro s rest hs hout
  rcases Outcome.optional_eq_some.1 hout with hout | ⟨-, rfl⟩
  · exact he s rest hs hout
  · exact ⟨[], hnil, Covers.refl _⟩

theorem outcome_spaced {s rest : List Char} (h : Outcome body (spaced e f) s (some rest)) :
    ∃ s', Outcome body e s (some s') ∧ Outcome body f (s'.dropWhile isBlank) (some rest) := by
  obtain ⟨s', he, hrest⟩ := Outcome.seq_eq_some.1 h
  obtain ⟨s'', hblanks, hf⟩ := Outcome.seq_eq_some.1 hrest
  exact ⟨s', he, outcome_blanks.1 hblanks ▸ hf⟩

theorem spaced (he : Sound n e P) (hf : Sound n f Q) : Sound n (spaced e f) (Then P Q) := by
  intro s rest hs hout
  obtain ⟨s', hout, hrest⟩ := outcome_spaced hout
  have hs' := (hout.suffix.length_le).trans_lt hs
  obtain ⟨us, hus, hcover⟩ := he s s' hs hout
  obtain ⟨vs, hvs, hcover'⟩ := hf _ rest
    (((s'.dropWhile_suffix isBlank).length_le).trans_lt hs') hrest
  exact ⟨us ++ vs, ⟨us, vs, hus, hvs, rfl⟩, hcover.trans ((Covers.blanks s').trans hcover')⟩

/-- After a token the text is shorter. -/
theorem after {k : Terminal} (hk : ∀ t : Token, t.terminal = k → P [t]) (hf : Sound n f Q) :
    Sound (n + 1) (Rule.spaced k.peg f) (Then P Q) := by
  intro s rest hs hout
  obtain ⟨s', hout, hrest⟩ := outcome_spaced hout
  obtain ⟨t, hscan, ht⟩ := Terminal.outcome_eq_some.1 hout
  have hshort := Token.scan?_length hscan
  have hblank := (s'.dropWhile_suffix isBlank).length_le
  obtain ⟨vs, hvs, hcover⟩ := hf _ rest (by omega) hrest
  exact ⟨[t] ++ vs, ⟨[t], vs, hk t ht, hvs, rfl⟩,
    (Covers.token hscan).trans ((Covers.blanks s').trans hcover)⟩

theorem afterMark {t : Token} (ht : t.isMark = true) (hf : Sound n f Q) :
    Sound (n + 1) (Rule.spaced t.terminal.peg f) (Then (· = [t]) Q) :=
  .after (fun u hu => by rw [eq_of_terminal_eq ht hu]) hf

/-- What holds of no tokens and passes back over each part holds of any number of parts. -/
theorem spacedMany (he : Sound n e P) (hnil : Q [])
    (hcons : ∀ ts us, P ts → Q us → Q (ts ++ us)) : Sound n (spacedMany e) Q := by
  have hpart : ∀ {s s' : List Char}, s.length < n → Outcome body e s (some s') →
      ∀ {rest}, (∃ us, Q us ∧ Covers s' rest us) → ∃ us, Q us ∧ Covers s rest us := by
    rintro s s' hs hout rest ⟨us, hus, hcover⟩
    obtain ⟨ts, hts, hcover'⟩ := he s s' hs hout
    exact ⟨ts ++ us, hcons ts us hts hus, hcover'.trans hcover⟩
  intro s rest hs hout
  rcases Outcome.optional_eq_some.1 hout with hout | ⟨-, rfl⟩
  · obtain ⟨s', hfirst, hmany⟩ := Outcome.seq_eq_some.1 hout
    have hs' := (hfirst.suffix.length_le).trans_lt hs
    refine hpart hs hfirst (Outcome.many_induct (P := fun s => s.length < n →
      ∃ us, Q us ∧ Covers s rest us) hmany (fun _ => ⟨[], hnil, Covers.refl rest⟩) ?_ hs')
    intro s₁ s₂ hout ih hs₁
    obtain ⟨s₃, hblanks, hout⟩ := Outcome.seq_eq_some.1 hout
    rw [outcome_blanks] at hblanks
    subst hblanks
    have hs₃ := ((s₁.dropWhile_suffix isBlank).length_le).trans_lt hs₁
    obtain ⟨us, hus, hcover⟩ := hpart hs₃ hout (ih ((hout.suffix.length_le).trans_lt hs₃))
    exact ⟨us, hus, (Covers.blanks s₁).trans hcover⟩
  · exact ⟨[], hnil, Covers.refl _⟩

/-- Parts with a separator between any two of them: what holds of one part and passes back over a
part and its separator holds of all. -/
theorem parted {k : Terminal} (he : Sound n e P) (hone : ∀ ts, P ts → Q ts)
    (hcons : ∀ (t : Token) (ts us : List Token), t.terminal = k → P ts → Q us →
      Q (ts ++ t :: us)) :
    Sound n (Rule.spaced e (Rule.spacedMany (Rule.spaced k.peg e))) Q := by
  -- The parts that follow, with their separators, complete any first part.
  have hmany := spacedMany (Q := fun us => ∀ ts, P ts → Q (ts ++ us))
    (.spaced (.terminal (P := IsToken k) fun t ht => ⟨t, ht, rfl⟩) he) ?_ ?_
  · refine .mono (.spaced he hmany) ?_
    rintro _ ⟨ts, us, hts, hus, rfl⟩
    exact hus ts hts
  · intro ts hts
    rw [List.append_nil]
    exact hone ts hts
  · rintro _ us ⟨_, vs, ⟨t, ht, rfl⟩, hvs, rfl⟩ hus ts hts
    exact hcons t ts (vs ++ us) ht hts (hus vs hvs)

end Sound

/-! ## The rules -/

section Rules

variable {n : Nat}

def IsOperand (ts : List Token) : Prop := ∃ slot : Slot, slot.Derives ts

def IsExpression (ts : List Token) : Prop := ∃ e : Expression, e.Derives ts

def IsSequence (ts : List Token) : Prop := ∃ es, Expression.DerivesAll es ts

theorem sound_compound (h : Sound n (.rule .args) IsSequence) :
    Sound (n + 1) (.rule .compound) IsOperand := by
  refine .rule (.mono (.after (P := IsToken .name) (fun t ht => ⟨t, ht, rfl⟩)
    (.spaced (.mark (t := .openParen) rfl) (.spaced h (.mark (t := .closeParen) rfl)))) ?_)
  rintro _ ⟨_, _, ⟨t, ht, rfl⟩, ⟨_, _, rfl, ⟨ts, _, ⟨es, hes⟩, rfl, rfl⟩, rfl⟩, rfl⟩
  cases t with
  | name word => exact ⟨_, .compound word hes⟩
  | _ => cases ht

theorem sound_tuple (h : Sound n (.rule .elements) IsSequence) :
    Sound (n + 1) (.rule .tuple) IsOperand := by
  refine .rule (.mono (.afterMark (t := .openParen) rfl
    (.spaced h (.mark (t := .closeParen) rfl))) ?_)
  rintro _ ⟨_, _, rfl, ⟨ts, _, ⟨es, hes⟩, rfl, rfl⟩, rfl⟩
  exact ⟨_, .tuple hes⟩

/-- A bar and a tail, or nothing. -/
def IsTail (ts : List Token) : Prop := ts = [] ∨ ∃ us, IsExpression us ∧ ts = .bar :: us

theorem sound_tail (h : Sound n (.rule .expression) IsExpression) :
    Sound n (.optional (spaced (.literal ['|']) (.rule .tail))) IsTail := by
  have htail : Sound n (.rule .tail) IsExpression := .rule h
  refine .optional (.mono (.spaced (.mark (t := .bar) rfl) htail) ?_) (Or.inl rfl)
  rintro _ ⟨_, us, rfl, hus, rfl⟩
  exact Or.inr ⟨us, hus, rfl⟩

theorem sound_list (h : Sound n (.rule .elements) IsSequence)
    (he : Sound n (.rule .expression) IsExpression) :
    Sound (n + 1) (.rule .list) IsOperand := by
  refine .rule (.choice ?_ ?_)
  · refine .mono (.afterMark (t := .openBracket) rfl (.mark (t := .closeBracket) rfl)) ?_
    rintro _ ⟨_, _, rfl, rfl, rfl⟩
    exact ⟨_, .nil⟩
  · refine .mono (.afterMark (t := .openBracket) rfl (.spaced h (.spaced (sound_tail he)
      (.mark (t := .closeBracket) rfl)))) ?_
    rintro _ ⟨_, _, rfl, ⟨ts, _, ⟨es, hes⟩, ⟨us, _, hus, rfl, rfl⟩, rfl⟩, rfl⟩
    rcases hus with rfl | ⟨us, ⟨tail, htail⟩, rfl⟩
    · exact ⟨_, .list hes⟩
    · exact ⟨_, .listWithTail hes htail⟩

theorem sound_operand (h : Sound n (.rule .args) IsSequence)
    (h' : Sound n (.rule .elements) IsSequence)
    (he : Sound n (.rule .expression) IsExpression) :
    Sound (n + 1) (.rule .operand) IsOperand := by
  have hvar : Sound (n + 1) (.rule .var) IsOperand := .terminal (k := .var) fun t ht => by
    cases t <;> first | exact ⟨_, .var _⟩ | cases ht
  have hnumber : Sound (n + 1) (.rule .number) IsOperand := .terminal (k := .number) fun t ht => by
    cases t <;> first | exact ⟨_, .number _⟩ | cases ht
  have hname : Sound (n + 1) (.rule .name) IsOperand := .terminal (k := .name) fun t ht => by
    cases t <;> first | exact ⟨_, .name _⟩ | cases ht
  have hsymbol : Sound (n + 1) (.rule .symbol) IsOperand := .terminal (k := .symbol) fun t ht => by
    cases t <;> first | exact ⟨_, .symbol _⟩ | cases ht
  refine .rule (.oneOf ?_)
  simp only [List.forall_mem_cons]
  exact ⟨sound_compound h, sound_list h' he, sound_tuple h', hvar, hnumber, hname, hsymbol,
    by simp⟩

theorem sound_expression (h : Sound n (.rule .operand) IsOperand) :
    Sound n (.rule .expression) IsExpression := by
  refine .rule (.parted (k := .operator) (.optional h ⟨.hole, .hole⟩) ?_ ?_)
  · rintro ts ⟨slot, hslot⟩
    exact ⟨_, .chain .nil hslot⟩
  · rintro t ts us ht ⟨slot, hslot⟩ ⟨e, he⟩
    -- The operand before an operator goes in front of the expression after it.
    cases t with
    | operator op =>
      cases he with
      | chain hlinks hlast =>
        have hchain := Expression.Derives.chain (.cons op hslot hlinks) hlast
        rw [List.append_assoc, List.cons_append] at hchain
        exact ⟨_, hchain⟩
    | _ => cases ht

theorem sound_separated (h : Sound n (.rule .expression) IsExpression) :
    Sound n (separated (.rule .expression)) IsSequence := by
  refine .parted (k := .comma) h ?_ ?_
  · rintro ts ⟨e, he⟩
    exact ⟨_, .one he⟩
  · rintro t ts us ht ⟨e, he⟩ ⟨es, hes⟩
    rw [eq_of_terminal_eq (t := .comma) rfl ht]
    exact ⟨_, .cons he hes⟩

/-- Expressions and sequences of them are sound on texts of every length. -/
theorem sound (n : Nat) :
    Sound n (.rule .expression) IsExpression ∧
      Sound n (separated (.rule .expression)) IsSequence := by
  induction n with
  | zero =>
    have hnone : ∀ {e P}, Sound 0 e P := fun s _ hs => absurd hs (Nat.not_lt_zero s.length)
    exact ⟨hnone, hnone⟩
  | succ n ih =>
    have hexpression := sound_expression (sound_operand (.rule ih.2) (.rule ih.2) ih.1)
    exact ⟨hexpression, sound_separated hexpression⟩

end Rules

/-! ## Texts -/

variable {text rest : List Char}

/-- A text that is accepted consists of the tokens that a rule takes. -/
theorem tokenised_of_whole {e : Peg Rule} {P : List Token → Prop} (h : ∀ n, Sound n e P)
    (hout : Outcome body (.seq blanks (spaced e .atEnd)) text (some rest)) :
    ∃ ts, Tokenised text ts ∧ P ts := by
  obtain ⟨s, hblanks, hout⟩ := Outcome.seq_eq_some.1 hout
  rw [outcome_blanks] at hblanks
  subst hblanks
  obtain ⟨s', hout, hend⟩ := Sound.outcome_spaced hout
  obtain ⟨ts, hts, hcover⟩ := h _ _ s' (Nat.lt_succ_self _) hout
  have htext := hcover [] (Tokenised.nil_iff.2 (Outcome.atEnd_eq_some.1 hend).1)
  rw [List.append_nil] at htext
  exact ⟨ts, Tokenised.dropWhile_iff.1 htext, hts⟩

theorem derives_of_accepts_term (h : Accepts .term text) :
    ∃ ts, Tokenised text ts ∧ ∃ e : Expression, e.Derives ts := by
  obtain ⟨rest, hout⟩ := h
  exact tokenised_of_whole (fun n => (sound n).1) (Outcome.rule_iff.1 hout)

theorem derives_of_accepts_sequence (h : Accepts .sequence text) :
    ∃ ts, Tokenised text ts ∧ ∃ es, Expression.DerivesAll es ts := by
  obtain ⟨rest, hout⟩ := h
  have hargs : ∀ n, Sound n (.rule .args) IsSequence := fun n => .rule (sound n).2
  exact tokenised_of_whole hargs (Outcome.rule_iff.1 hout)

end Rule

end HornClauses
