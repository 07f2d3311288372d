import HornClauses.Proofs.ReadingStage
import HornClauses.Proofs.TokenWalk

/-!
# Where tokens are tried

While a rule is matched against a text, tokens are tried at certain places, and where one is not
found, another alternative is taken up or the match fails. A place where a token is tried is reached
over tokens that fit one another, and there a token of the kind that is tried would fit as well. And
if a text is changed behind some place, its match is the same as before unless a token is tried at
that place.

* `Rule.Tries`: a token of some kind, or the end of the text, is tried at a place.
* `Rule.Tracks`: what an expression takes leads from stage to stage, and so does what stands before
  a place where it tries a token.
* `Rule.exists_stage_of_tries`: places where tokens are tried while a text is matched.
* `Rule.tries_or_alike`: matching a text that is changed behind a place.
-/

namespace HornClauses

open Peg Text

namespace Rule

/-! ## Trying tokens -/

/-- Is a rule one of those that are made up of tokens? -/
def isPhrase : Rule → Bool
  | compound | args | list | elements | tail | tuple | operand | expression | term | sequence =>
    true
  | _ => false

/-- What is tried: a token of some kind, or the end of the text. -/
def tried : Option Terminal → Peg Rule
  | some k => k.peg
  | none => .atEnd

/-- While an expression is matched against the first text, something is tried at the second one, an
end part of it. -/
inductive Tries : Peg Rule → List Char → Option Terminal → List Char → Prop where
  | here {e : Peg Rule} {k : Option Terminal} {s : List Char} : tried k = e → Tries e s k s
  | left {e f : Peg Rule} {s m : List Char} {k : Option Terminal} : Tries e s k m →
    Tries (.seq e f) s k m
  | right {e f : Peg Rule} {s s' m : List Char} {k : Option Terminal} :
    Outcome body e s (some s') → Tries f s' k m → Tries (.seq e f) s k m
  | first {e f : Peg Rule} {s m : List Char} {k : Option Terminal} : Tries e s k m →
    Tries (.choice e f) s k m
  | second {e f : Peg Rule} {s m : List Char} {k : Option Terminal} : Outcome body e s none →
    Tries f s k m → Tries (.choice e f) s k m
  | one {e : Peg Rule} {s m : List Char} {k : Option Terminal} : Tries e s k m →
    Tries (.many e) s k m
  | more {e : Peg Rule} {s s' m : List Char} {k : Option Terminal} : Outcome body e s (some s') →
    Tries (.many e) s' k m → Tries (.many e) s k m
  | optional {e : Peg Rule} {s m : List Char} {k : Option Terminal} : Tries e s k m →
    Tries (.optional e) s k m
  | rule {r : Rule} {s m : List Char} {k : Option Terminal} : r.isPhrase = true →
    Tries (body r) s k m → Tries (.rule r) s k m

section Inversion

variable {e f : Peg Rule} {s m : List Char} {k : Option Terminal}

/-- Tokens are literals or rules that are no phrases. -/
theorem tried_ne (hliteral : ∀ w, e ≠ .literal w) (hrule : ∀ r, r.isPhrase = false → e ≠ .rule r)
    (hend : e ≠ .atEnd) : tried k ≠ e := by
  rintro rfl
  cases k with
  | none => exact hend rfl
  | some k =>
    cases k <;> first | exact hliteral _ rfl | exact hrule _ rfl rfl

theorem tried_ne_rule {r : Rule} (hr : r.isPhrase = true) : tried k ≠ .rule r := by
  refine tried_ne nofun (fun r' hr' heq => ?_) nofun
  cases heq
  rw [hr] at hr'
  cases hr'

theorem tried_injective {k k' : Option Terminal} (h : tried k = tried k') : k = k' := by
  cases k with
  | none =>
    cases k' with
    | none => rfl
    | some k' => cases k' <;> cases h
  | some k =>
    cases k' with
    | none => cases k <;> cases h
    | some k' => cases k <;> cases k' <;> first | rfl | cases h

theorem tries_tried {k' : Option Terminal} (h : Tries (tried k) s k' m) : k' = k ∧ m = s := by
  generalize he : tried k = e at h
  cases h with
  | here hk => exact ⟨tried_injective (hk.trans he.symm), rfl⟩
  | rule hr _ => exact absurd he (tried_ne_rule hr)
  | _ => exact absurd he (tried_ne nofun nofun nofun)

theorem tries_seq :
    Tries (.seq e f) s k m ↔
      Tries e s k m ∨ ∃ s', Outcome body e s (some s') ∧ Tries f s' k m := by
  constructor
  · intro h
    cases h with
    | here hk => exact absurd hk (tried_ne nofun nofun nofun)
    | left h => exact Or.inl h
    | right he h => exact Or.inr ⟨_, he, h⟩
  · rintro (h | ⟨s', he, h⟩)
    · exact .left h
    · exact .right he h

theorem tries_choice :
    Tries (.choice e f) s k m ↔ Tries e s k m ∨ Outcome body e s none ∧ Tries f s k m := by
  constructor
  · intro h
    cases h with
    | here hk => exact absurd hk (tried_ne nofun nofun nofun)
    | first h => exact Or.inl h
    | second he h => exact Or.inr ⟨he, h⟩
  · rintro (h | ⟨he, h⟩)
    · exact .first h
    · exact .second he h

theorem tries_optional : Tries (.optional e) s k m ↔ Tries e s k m := by
  constructor
  · intro h
    cases h with
    | here hk => exact absurd hk (tried_ne nofun nofun nofun)
    | optional h => exact h
  · exact .optional

theorem tries_rule {r : Rule} (hr : r.isPhrase = true) :
    Tries (.rule r) s k m ↔ Tries (body r) s k m := by
  constructor
  · intro h
    cases h with
    | here hk => exact absurd hk (tried_ne_rule hr)
    | rule _ h => exact h
  · exact .rule hr

/-- What holds where a repetition tries something at once and passes back over each match holds
wherever it tries something. -/
theorem tries_many_induct {P : List Char → Prop} (h : Tries (.many e) s k m)
    (hone : ∀ s, Tries e s k m → P s)
    (hmore : ∀ s s', Outcome body e s (some s') → P s' → P s) : P s := by
  generalize hmany : Peg.many e = e' at h
  induction h with
  | here hk =>
    subst hmany
    exact absurd hk (tried_ne nofun nofun nofun)
  | one h _ =>
    cases hmany
    exact hone _ h
  | more he _ ih =>
    cases hmany
    exact hmore _ _ he (ih hone rfl)
  | _ => cases hmany

/-- Blanks are no tokens. -/
theorem not_tries_blanks : ¬ Tries blanks s k m := by
  intro h
  refine tries_many_induct (P := fun _ => False) h (fun s h => ?_) fun _ _ _ h => h
  cases h with
  | here hk =>
    cases k with
    | none => cases hk
    | some k => cases k <;> cases hk
  | rule hr _ => cases hr

end Inversion

/-! ## Stages on the way -/

/-- The tokens between two places of a text lead from one stage to another. -/
def Reaches (goal : Goal) (σ : Stage) (s : List Char) (σ' : Stage) (m : List Char) : Prop :=
  ∃ ts, Walks m s ts ∧ σ.run goal ts = some σ'

namespace Reaches

variable {goal : Goal} {σ σ' σ'' : Stage} {s m m' : List Char}

theorem refl (goal : Goal) (σ : Stage) (s : List Char) : Reaches goal σ s σ s := ⟨[], .here, rfl⟩

theorem trans (h : Reaches goal σ s σ' m) (h' : Reaches goal σ' m σ'' m') :
    Reaches goal σ s σ'' m' := by
  obtain ⟨ts, hwalk, hrun⟩ := h
  obtain ⟨us, hwalk', hrun'⟩ := h'
  exact ⟨ts ++ us, hwalk.trans hwalk', Stage.run_append_eq_some.2 ⟨σ', hrun, hrun'⟩⟩

theorem token {t : Token} (hscan : Token.scan? s = some (t, m))
    (hnext : σ.next goal t.terminal = some σ') : Reaches goal σ s σ' m :=
  ⟨[t], .one hscan, by rw [Stage.run, hnext]; rfl⟩

theorem blanks (goal : Goal) (σ : Stage) (s : List Char) :
    Reaches goal σ s σ (s.dropWhile isBlank) :=
  ⟨[], Walks.blanks s, rfl⟩

theorem length_le (h : Reaches goal σ s σ' m) : m.length ≤ s.length := by
  obtain ⟨ts, hwalk, -⟩ := h
  exact hwalk.length_le

end Reaches

/-- Does what is tried fit this stage? -/
def Allows (goal : Goal) (σ : Stage) : Option Terminal → Prop
  | some k => ∃ σ', σ.next goal k = some σ'
  | none => σ.enclosures = []

/-- From a stage on, what an expression takes of a text that is short enough leads to stages of a
certain kind, and wherever it tries something, that fits the stage there. -/
structure Tracks (goal : Goal) (n : Nat) (e : Peg Rule) (σ : Stage) (Q : Stage → Prop) : Prop where
  matched : ∀ s rest, s.length < n → Outcome body e s (some rest) →
    ∃ σ', Reaches goal σ s σ' rest ∧ Q σ'
  tried : ∀ s k m, s.length < n → Tries e s k m → ∃ σ', Reaches goal σ s σ' m ∧ Allows goal σ' k

namespace Tracks

variable {goal : Goal} {n : Nat} {e f : Peg Rule} {σ : Stage} {Q R : Stage → Prop}

theorem mono (h : Tracks goal n e σ Q) (hQ : ∀ σ', Q σ' → R σ') : Tracks goal n e σ R where
  matched s rest hs hout := by
    obtain ⟨σ', hreach, hσ'⟩ := h.matched s rest hs hout
    exact ⟨σ', hreach, hQ σ' hσ'⟩
  tried := h.tried

theorem terminal {k : Terminal} {σ' : Stage} (hnext : σ.next goal k = some σ') (hσ' : Q σ') :
    Tracks goal n k.peg σ Q where
  matched s rest _ hout := by
    obtain ⟨t, hscan, rfl⟩ := Terminal.outcome_eq_some.1 hout
    exact ⟨σ', .token hscan hnext, hσ'⟩
  tried s k' m _ htries := by
    obtain ⟨rfl, rfl⟩ := tries_tried (k := some k) htries
    exact ⟨σ, .refl goal σ m, σ', hnext⟩

theorem atEnd (hσ : σ.enclosures = []) : Tracks goal n .atEnd σ (· = σ) where
  matched s rest _ hout := by
    obtain ⟨rfl, rfl⟩ := Outcome.atEnd_eq_some.1 hout
    exact ⟨σ, .refl goal σ [], rfl⟩
  tried s k m _ htries := by
    obtain ⟨rfl, rfl⟩ := tries_tried (k := none) htries
    exact ⟨σ, .refl goal σ m, hσ⟩

theorem rule {r : Rule} (hr : r.isPhrase = true) (h : Tracks goal n (body r) σ Q) :
    Tracks goal n (.rule r) σ Q where
  matched s rest hs hout := h.matched s rest hs (Outcome.rule_iff.1 hout)
  tried s k m hs htries := h.tried s k m hs ((tries_rule hr).1 htries)

theorem choice (he : Tracks goal n e σ Q) (hf : Tracks goal n f σ Q) :
    Tracks goal n (.choice e f) σ Q where
  matched s rest hs hout := by
    rcases Outcome.choice_eq_some.1 hout with hout | ⟨-, hout⟩
    · exact he.matched s rest hs hout
    · exact hf.matched s rest hs hout
  tried s k m hs htries := by
    rcases tries_choice.1 htries with htries | ⟨-, htries⟩
    · exact he.tried s k m hs htries
    · exact hf.tried s k m hs htries

theorem oneOf {fs : List (Peg Rule)} (h : ∀ f ∈ e :: fs, Tracks goal n f σ Q) :
    Tracks goal n (oneOf e fs) σ Q := by
  induction fs generalizing e with
  | nil => exact h e List.mem_cons_self
  | cons f fs ih =>
    rw [List.forall_mem_cons] at h
    exact choice h.1 (ih h.2)

theorem optional (he : Tracks goal n e σ Q) (hσ : Q σ) : Tracks goal n (.optional e) σ Q where
  matched s rest hs hout := by
    rcases Outcome.optional_eq_some.1 hout with hout | ⟨-, rfl⟩
    · exact he.matched s rest hs hout
    · exact ⟨σ, .refl goal σ rest, hσ⟩
  tried s k m hs htries := he.tried s k m hs (tries_optional.1 htries)

/-- What the second part takes stands behind what the first part takes. -/
theorem seq (he : Tracks goal n e σ Q) (hf : ∀ σ', Q σ' → Tracks goal n f σ' R) :
    Tracks goal n (.seq e f) σ R where
  matched s rest hs hout := by
    obtain ⟨s', hfirst, hrest⟩ := Outcome.seq_eq_some.1 hout
    obtain ⟨σ', hreach, hσ'⟩ := he.matched s s' hs hfirst
    obtain ⟨σ'', hreach', hσ''⟩ :=
      (hf σ' hσ').matched s' rest (hreach.length_le.trans_lt hs) hrest
    exact ⟨σ'', hreach.trans hreach', hσ''⟩
  tried s k m hs htries := by
    rcases tries_seq.1 htries with hfirst | ⟨s', hfirst, hlater⟩
    · exact he.tried s k m hs hfirst
    · obtain ⟨σ', hreach, hσ'⟩ := he.matched s s' hs hfirst
      obtain ⟨σ'', hreach', hσ''⟩ := (hf σ' hσ').tried s' k m (hreach.length_le.trans_lt hs) hlater
      exact ⟨σ'', hreach.trans hreach', hσ''⟩

/-- After a token the text is shorter. -/
theorem after {k : Terminal} {σ' : Stage} (hnext : σ.next goal k = some σ')
    (hf : Tracks goal n f σ' Q) : Tracks goal (n + 1) (.seq k.peg f) σ Q where
  matched s rest hs hout := by
    obtain ⟨s', hfirst, hrest⟩ := Outcome.seq_eq_some.1 hout
    obtain ⟨t, hscan, rfl⟩ := Terminal.outcome_eq_some.1 hfirst
    have hshort := Token.scan?_length hscan
    obtain ⟨σ'', hreach, hσ''⟩ := hf.matched s' rest (by omega) hrest
    exact ⟨σ'', .trans (.token hscan hnext) hreach, hσ''⟩
  tried s k' m hs htries := by
    rcases tries_seq.1 htries with hfirst | ⟨s', hfirst, hlater⟩
    · obtain ⟨rfl, rfl⟩ := tries_tried (k := some k) hfirst
      exact ⟨σ, .refl goal σ m, σ', hnext⟩
    · obtain ⟨t, hscan, rfl⟩ := Terminal.outcome_eq_some.1 hfirst
      have hshort := Token.scan?_length hscan
      obtain ⟨σ'', hreach, hσ''⟩ := hf.tried s' k' m (by omega) hlater
      exact ⟨σ'', .trans (.token hscan hnext) hreach, hσ''⟩

theorem afterBlanks (h : Tracks goal n e σ Q) : Tracks goal n (.seq blanks e) σ Q where
  matched s rest hs hout := by
    obtain ⟨s', hblanks, hrest⟩ := Outcome.seq_eq_some.1 hout
    rw [outcome_blanks] at hblanks
    subst hblanks
    obtain ⟨σ', hreach, hσ'⟩ :=
      h.matched _ rest ((Reaches.blanks goal σ s).length_le.trans_lt hs) hrest
    exact ⟨σ', (Reaches.blanks goal σ s).trans hreach, hσ'⟩
  tried s k m hs htries := by
    rcases tries_seq.1 htries with hblanks | ⟨s', hblanks, hlater⟩
    · exact absurd hblanks not_tries_blanks
    · rw [outcome_blanks] at hblanks
      subst hblanks
      obtain ⟨σ', hreach, hσ'⟩ :=
        h.tried _ k m ((Reaches.blanks goal σ s).length_le.trans_lt hs) hlater
      exact ⟨σ', (Reaches.blanks goal σ s).trans hreach, hσ'⟩

theorem spaced (he : Tracks goal n e σ Q) (hf : ∀ σ', Q σ' → Tracks goal n f σ' R) :
    Tracks goal n (Rule.spaced e f) σ R :=
  .seq he fun σ' hσ' => (hf σ' hσ').afterBlanks

/-- A repetition stays among the stages among which its part stays. -/
theorem many (he : ∀ σ, Q σ → Tracks goal n e σ Q) (hσ : Q σ) : Tracks goal n (.many e) σ Q where
  matched s rest hs hout := by
    refine Outcome.many_induct (P := fun s => ∀ σ, Q σ → s.length < n →
      ∃ σ', Reaches goal σ s σ' rest ∧ Q σ') hout
      (fun σ hσ _ => ⟨σ, .refl goal σ rest, hσ⟩) ?_ σ hσ hs
    intro s s' hout ih σ hσ hs
    obtain ⟨σ', hreach, hσ'⟩ := (he σ hσ).matched s s' hs hout
    obtain ⟨σ'', hreach', hσ''⟩ := ih σ' hσ' (hreach.length_le.trans_lt hs)
    exact ⟨σ'', hreach.trans hreach', hσ''⟩
  tried s k m hs htries := by
    refine tries_many_induct (P := fun s => ∀ σ, Q σ → s.length < n →
      ∃ σ', Reaches goal σ s σ' m ∧ Allows goal σ' k) htries
      (fun s htries σ hσ hs => (he σ hσ).tried s k m hs htries) ?_ σ hσ hs
    intro s s' hout ih σ hσ hs
    obtain ⟨σ', hreach, hσ'⟩ := (he σ hσ).matched s s' hs hout
    obtain ⟨σ'', hreach', hσ''⟩ := ih σ' hσ' (hreach.length_le.trans_lt hs)
    exact ⟨σ'', hreach.trans hreach', hσ''⟩

theorem spacedMany (he : ∀ σ, Q σ → Tracks goal n e σ Q) (hσ : Q σ) :
    Tracks goal n (Rule.spacedMany e) σ Q :=
  .optional (.seq (he σ hσ) fun _ hσ' => .many (fun σ hσ => (he σ hσ).afterBlanks) hσ') hσ

end Tracks

/-! ## The rules, stage by stage -/

section Rules

variable {goal : Goal} {n : Nat} {outer : List Enclosure}

/-- What stands between these brackets. -/
def Within (outer : List Enclosure) (σ : Stage) : Prop := σ.enclosures = outer

theorem Within.eq {σ : Stage} (h : Within outer σ) : σ = ⟨σ.phase, outer⟩ := by rw [← h]

theorem tracks_closing {e : Enclosure} {σ : Stage} (hσ : Within (e :: outer) σ) :
    Tracks goal n e.closer.peg σ (Within outer) := by
  rw [hσ.eq]
  cases e <;> exact .terminal rfl rfl

theorem tracks_compound
    (h : Tracks goal n (.rule .args) ⟨.hole, .parens :: outer⟩ (Within (.parens :: outer))) :
    Tracks goal (n + 1) (.rule .compound) ⟨.hole, outer⟩ (Within outer) := by
  have hparens : Tracks goal n (spaced (.literal ['(']) (spaced (.rule .args) (.literal [')'])))
      ⟨.name, outer⟩ (Within outer) := by
    refine .spaced (.terminal (k := .openParen) (Q := (· = ⟨.hole, .parens :: outer⟩)) rfl rfl) ?_
    rintro _ rfl
    exact .spaced h fun _ => tracks_closing
  exact .rule rfl (.after (k := .name) rfl hparens.afterBlanks)

theorem tracks_tuple
    (h : Tracks goal n (.rule .elements) ⟨.hole, .parens :: outer⟩ (Within (.parens :: outer))) :
    Tracks goal (n + 1) (.rule .tuple) ⟨.hole, outer⟩ (Within outer) :=
  .rule rfl (.after (k := .openParen) rfl
    (.afterBlanks (.spaced h fun _ => tracks_closing (e := .parens))))

/-- The brackets of a list, or of a list whose tail has been begun. -/
def WithinList (outer : List Enclosure) (σ : Stage) : Prop :=
  Within (.elements :: outer) σ ∨ Within (.tail :: outer) σ

theorem tracks_bar
    (h : Tracks goal n (.rule .expression) ⟨.hole, .tail :: outer⟩ (Within (.tail :: outer)))
    {σ : Stage} (hσ : Within (.elements :: outer) σ) :
    Tracks goal n (.optional (spaced (.literal ['|']) (.rule .tail))) σ (WithinList outer) := by
  have hbar : σ.next goal .bar = some ⟨.hole, .tail :: outer⟩ := by
    rw [hσ.eq]
    rfl
  refine .optional (.spaced (.terminal hbar (Q := (· = ⟨.hole, .tail :: outer⟩)) rfl) ?_)
    (Or.inl hσ)
  rintro _ rfl
  exact .rule rfl (h.mono fun _ => Or.inr)

theorem tracks_list
    (h : Tracks goal n (.rule .elements) ⟨.hole, .elements :: outer⟩ (Within (.elements :: outer)))
    (htail : Tracks goal n (.rule .expression) ⟨.hole, .tail :: outer⟩
      (Within (.tail :: outer))) :
    Tracks goal (n + 1) (.rule .list) ⟨.hole, outer⟩ (Within outer) := by
  have hend : ∀ σ, WithinList outer σ → Tracks goal n (.literal [']']) σ (Within outer) := by
    rintro σ (hσ | hσ)
    · exact tracks_closing (e := .elements) hσ
    · exact tracks_closing (e := .tail) hσ
  refine .rule rfl (.choice (.after (k := .openBracket) rfl (.afterBlanks (hend _ (Or.inl rfl))))
    (.after (k := .openBracket) rfl (.afterBlanks (.spaced h fun σ hσ => ?_))))
  exact .spaced (tracks_bar htail hσ) hend

theorem tracks_expression
    (h : Tracks goal n (.rule .operand) ⟨.hole, outer⟩ (Within outer)) :
    Tracks goal n (.rule .expression) ⟨.hole, outer⟩ (Within outer) := by
  have hoperand : Tracks goal n (.optional (.rule .operand)) ⟨.hole, outer⟩ (Within outer) :=
    .optional h rfl
  refine .rule rfl (.spaced hoperand fun σ hσ => .spacedMany (fun σ hσ => ?_) hσ)
  have hnext : σ.next goal .operator = some ⟨.hole, outer⟩ := by
    rw [hσ.eq]
    rfl
  refine .spaced (.terminal hnext (Q := (· = ⟨.hole, outer⟩)) rfl) ?_
  rintro _ rfl
  exact hoperand

/-- Expressions with commas between them, where commas fit. -/
theorem tracks_separated
    (h : Tracks goal n (.rule .expression) ⟨.hole, outer⟩ (Within outer))
    (hcomma : ∀ φ, (⟨φ, outer⟩ : Stage).next goal .comma = some ⟨.hole, outer⟩) :
    Tracks goal n (separated (.rule .expression)) ⟨.hole, outer⟩ (Within outer) := by
  refine .spaced h fun σ hσ => .spacedMany (fun σ hσ => ?_) hσ
  have hnext : σ.next goal .comma = some ⟨.hole, outer⟩ := by
    rw [hσ.eq]
    exact hcomma σ.phase
  refine .spaced (.terminal hnext (Q := (· = ⟨.hole, outer⟩)) rfl) ?_
  rintro _ rfl
  exact h

/-- Expressions are tracked on texts of every length, inside any brackets. -/
theorem tracks_all (goal : Goal) (n : Nat) (outer : List Enclosure) :
    Tracks goal n (.rule .expression) ⟨.hole, outer⟩ (Within outer) := by
  induction n generalizing outer with
  | zero =>
    exact ⟨fun _ _ hs => absurd hs (Nat.not_lt_zero _),
      fun _ _ _ hs => absurd hs (Nat.not_lt_zero _)⟩
  | succ n ih =>
    have hparens := tracks_separated (ih (.parens :: outer)) fun _ => rfl
    have helements := tracks_separated (ih (.elements :: outer)) fun _ => rfl
    refine tracks_expression (.rule rfl (.oneOf ?_))
    simp only [List.forall_mem_cons]
    exact ⟨tracks_compound (.rule rfl hparens),
      tracks_list (.rule rfl helements) (ih (.tail :: outer)), tracks_tuple (.rule rfl hparens),
      .terminal (k := .var) rfl rfl, .terminal (k := .number) rfl rfl,
      .terminal (k := .name) rfl rfl, .terminal (k := .symbol) rfl rfl, by simp⟩

end Rules

/-- Where something is tried while a text is matched, it fits the stage that is reached there. -/
theorem exists_stage_of_tries {goal : Goal} {text m : List Char} {k : Option Terminal}
    (h : Tries (.rule goal.rule) text k m) :
    ∃ σ, Reaches goal .start text σ m ∧ Allows goal σ k := by
  have hexpression := tracks_all goal (text.length + 1) []
  have htracks : ∃ Q, Tracks goal (text.length + 1) (.rule goal.rule) .start Q := by
    cases goal with
    | term =>
      exact ⟨_, .rule rfl (.afterBlanks (.spaced hexpression fun σ hσ =>
        (Tracks.atEnd hσ).mono fun _ _ => trivial))⟩
    | sequence =>
      have hargs := tracks_separated hexpression fun _ => rfl
      exact ⟨_, .rule rfl (.afterBlanks (.spaced (.rule rfl hargs) fun σ hσ =>
        (Tracks.atEnd hσ).mono fun _ _ => trivial))⟩
  obtain ⟨Q, htracks⟩ := htracks
  exact htracks.tried text k m (Nat.lt_succ_self _) h

/-! ## Texts that end differently -/

/-- The expressions that are made up of tokens and blanks. -/
inductive IsPhrase : Peg Rule → Prop where
  | tried {e : Peg Rule} {k : Option Terminal} : Rule.tried k = e → IsPhrase e
  | blank : IsPhrase (.rule .blank)
  | seq {e f : Peg Rule} : IsPhrase e → IsPhrase f → IsPhrase (.seq e f)
  | choice {e f : Peg Rule} : IsPhrase e → IsPhrase f → IsPhrase (.choice e f)
  | many {e : Peg Rule} : IsPhrase e → IsPhrase (.many e)
  | optional {e : Peg Rule} : IsPhrase e → IsPhrase (.optional e)
  | rule {r : Rule} : r.isPhrase = true → IsPhrase (.rule r)

namespace IsPhrase

variable {e f : Peg Rule}

theorem terminal (k : Terminal) : IsPhrase k.peg := .tried (k := some k) rfl

theorem spaced (he : IsPhrase e) (hf : IsPhrase f) : IsPhrase (Rule.spaced e f) :=
  .seq he (.seq (.many .blank) hf)

theorem spacedMany (he : IsPhrase e) : IsPhrase (Rule.spacedMany e) :=
  .optional (.seq he (.many (.seq (.many .blank) he)))

theorem separated (he : IsPhrase e) : IsPhrase (Rule.separated e) :=
  .spaced he (.spacedMany (.spaced (.terminal .comma) he))

theorem oneOf {fs : List (Peg Rule)} (h : ∀ f ∈ e :: fs, IsPhrase f) :
    IsPhrase (Rule.oneOf e fs) := by
  induction fs generalizing e with
  | nil => exact h e List.mem_cons_self
  | cons f fs ih =>
    rw [List.forall_mem_cons] at h
    exact .choice h.1 (ih h.2)

end IsPhrase

/-- The rules that are made up of tokens are made up of such rules, tokens and blanks. -/
theorem isPhrase_body {r : Rule} (h : r.isPhrase = true) : IsPhrase (body r) := by
  cases r with
  | compound =>
    exact .spaced (.terminal .name) (.spaced (.terminal .openParen)
      (.spaced (.rule rfl) (.terminal .closeParen)))
  | args => exact .separated (.rule rfl)
  | list =>
    exact .choice (.spaced (.terminal .openBracket) (.terminal .closeBracket))
      (.spaced (.terminal .openBracket) (.spaced (.rule rfl)
        (.spaced (.optional (.spaced (.terminal .bar) (.rule rfl))) (.terminal .closeBracket))))
  | elements => exact .separated (.rule rfl)
  | tail => exact .rule rfl
  | tuple => exact .spaced (.terminal .openParen) (.spaced (.rule rfl) (.terminal .closeParen))
  | operand =>
    refine .oneOf ?_
    simp only [List.forall_mem_cons]
    exact ⟨.rule rfl, .rule rfl, .rule rfl, .terminal .var, .terminal .number, .terminal .name,
      .terminal .symbol, by simp⟩
  | expression =>
    exact .spaced (.optional (.rule rfl))
      (.spacedMany (.spaced (.terminal .operator) (.optional (.rule rfl))))
  | term => exact .seq (.many .blank) (.spaced (.rule rfl) (.tried (k := none) rfl))
  | sequence => exact .seq (.many .blank) (.spaced (.rule rfl) (.tried (k := none) rfl))
  | _ => cases h

section Transfer

variable {a b s s' : List Char} {o' : Option (List Char)}

/-- The outcomes of an expression on two texts end alike. -/
def Alike (a b : List Char) (e : Peg Rule) (s : List Char) (o' : Option (List Char)) : Prop :=
  ∃ o, Outcome body e s o ∧ Option.Rel (Parallel a b) o o'

theorem alike_blank (ha : a.dropWhile isBlank = a) (hb : b.dropWhile isBlank = b)
    (hs : Parallel a b s s') (h : Outcome body (.rule .blank) s' o') :
    Alike a b (.rule .blank) s o' := by
  have hcomputes : Computes body (.rule .blank) (afterChar? isBlank) := .rule (.char isBlank)
  have hnone : ∀ {t : List Char}, t.dropWhile isBlank = t → afterChar? isBlank t = none := by
    intro t ht
    cases t with
    | nil => rfl
    | cons c t => simp [afterChar?, isBlank_of_dropWhile ht]
  rw [hcomputes.outcome_iff] at h
  subst h
  refine ⟨_, hcomputes s, ?_⟩
  cases hs with
  | here =>
    rw [hnone ha, hnone hb]
    exact .none
  | blank hc hrest =>
    rw [afterChar?, afterChar?, if_pos hc, if_pos hc]
    exact .some hrest
  | token hscan hscan' _ =>
    rw [hnone (Token.dropWhile_isBlank_of_scan? hscan),
      hnone (Token.dropWhile_isBlank_of_scan? hscan')]
    exact .none

/-- No token is found at a blank. -/
theorem outcome_tried_of_isBlank {k : Option Terminal} {c : Char} (hc : isBlank c = true)
    (s : List Char) : Outcome body (tried k) (c :: s) none := by
  cases k with
  | none => exact .atEnd_cons
  | some k =>
    refine k.computes.outcome_iff.2 ?_
    rw [Terminal.read?, Token.scan?_of_isBlank hc, Option.bind_none]

/-- The end of the text is not found at a token. -/
theorem outcome_atEnd_of_scan? {t : Token} {s rest : List Char}
    (h : Token.scan? s = some (t, rest)) : Outcome body .atEnd s none := by
  cases s with
  | nil => cases h
  | cons c s => exact .atEnd_cons

/-- A token that is not tried where the texts begin to differ is found in both or in none. -/
theorem tries_or_alike_of_tried {e : Peg Rule} {k : Option Terminal} (hk : tried k = e)
    (hs : Parallel a b s s') (h : Outcome body e s' o') :
    (∃ k, Tries e s k a) ∨ Alike a b e s o' := by
  subst hk
  cases hs with
  | here => exact Or.inl ⟨k, .here rfl⟩
  | blank hc hrest =>
    cases h.unique (outcome_tried_of_isBlank hc _)
    exact Or.inr ⟨none, outcome_tried_of_isBlank hc _, .none⟩
  | token hscan hscan' hrest =>
    cases k with
    | none =>
      cases h.unique (outcome_atEnd_of_scan? hscan')
      exact Or.inr ⟨none, outcome_atEnd_of_scan? hscan, .none⟩
    | some k =>
      refine Or.inr ⟨_, k.computes s, ?_⟩
      rw [tried, k.computes.outcome_iff, Terminal.read?, hscan', Option.bind_some] at h
      rw [Terminal.read?, hscan, Option.bind_some, h]
      split
      · exact .some hrest
      · exact .none

theorem Alike.cases_some {e : Peg Rule} {rest' : List Char} (h : Alike a b e s (some rest')) :
    ∃ rest, Outcome body e s (some rest) ∧ Parallel a b rest rest' := by
  obtain ⟨o, hout, hrel⟩ := h
  cases hrel with
  | some hrest => exact ⟨_, hout, hrest⟩

theorem Alike.cases_none {e : Peg Rule} (h : Alike a b e s none) : Outcome body e s none := by
  obtain ⟨o, hout, hrel⟩ := h
  cases hrel
  exact hout

/-- What an expression matches stays a match when the text is changed behind some place, unless a
token is tried at that place. -/
theorem tries_or_alike {e : Peg Rule} (ha : a.dropWhile isBlank = a)
    (hb : b.dropWhile isBlank = b) (h : Outcome body e s' o') (he : IsPhrase e)
    (hs : Parallel a b s s') : (∃ k, Tries e s k a) ∨ Alike a b e s o' := by
  induction h generalizing s with
  | char hc =>
    cases he with
    | tried hk => exact tries_or_alike_of_tried hk hs (.char hc)
  | char_other hc =>
    cases he with
    | tried hk => exact tries_or_alike_of_tried hk hs (.char_other hc)
  | char_nil =>
    cases he with
    | tried hk => exact tries_or_alike_of_tried hk hs .char_nil
  | literal hw =>
    cases he with
    | tried hk => exact tries_or_alike_of_tried hk hs (.literal hw)
  | literal_other hw =>
    cases he with
    | tried hk => exact tries_or_alike_of_tried hk hs (.literal_other hw)
  | seq h hf ihe ihf =>
    cases he with
    | tried hk => exact tries_or_alike_of_tried hk hs (.seq h hf)
    | seq he hf =>
      rcases ihe he hs with ⟨k, htries⟩ | hfirst
      · exact Or.inl ⟨k, .left htries⟩
      obtain ⟨s₁, hfirst, hs₁⟩ := hfirst.cases_some
      rcases ihf hf hs₁ with ⟨k, htries⟩ | ⟨o, hsecond, hrel⟩
      · exact Or.inl ⟨k, .right hfirst htries⟩
      · exact Or.inr ⟨o, .seq hfirst hsecond, hrel⟩
  | seq_fails h ihe =>
    cases he with
    | tried hk => exact tries_or_alike_of_tried hk hs (.seq_fails h)
    | seq he hf =>
      rcases ihe he hs with ⟨k, htries⟩ | hfirst
      · exact Or.inl ⟨k, .left htries⟩
      · exact Or.inr ⟨none, .seq_fails hfirst.cases_none, .none⟩
  | first h ihe =>
    cases he with
    | tried hk => exact tries_or_alike_of_tried hk hs (.first h)
    | choice he hf =>
      rcases ihe he hs with ⟨k, htries⟩ | hfirst
      · exact Or.inl ⟨k, .first htries⟩
      obtain ⟨s₁, hfirst, hs₁⟩ := hfirst.cases_some
      exact Or.inr ⟨some s₁, .first hfirst, .some hs₁⟩
  | second h hf ihe ihf =>
    cases he with
    | tried hk => exact tries_or_alike_of_tried hk hs (.second h hf)
    | choice he hf =>
      rcases ihe he hs with ⟨k, htries⟩ | hfirst
      · exact Or.inl ⟨k, .first htries⟩
      rcases ihf hf hs with ⟨k, htries⟩ | ⟨o, hsecond, hrel⟩
      · exact Or.inl ⟨k, .second hfirst.cases_none htries⟩
      · exact Or.inr ⟨o, .second hfirst.cases_none hsecond, hrel⟩
  | more h hmany ihe ihmany =>
    cases he with
    | tried hk => exact tries_or_alike_of_tried hk hs (.more h hmany)
    | many he =>
      rcases ihe he hs with ⟨k, htries⟩ | hfirst
      · exact Or.inl ⟨k, .one htries⟩
      obtain ⟨s₁, hfirst, hs₁⟩ := hfirst.cases_some
      rcases ihmany (.many he) hs₁ with ⟨k, htries⟩ | ⟨o, hsecond, hrel⟩
      · exact Or.inl ⟨k, .more hfirst htries⟩
      · exact Or.inr ⟨o, .more hfirst hsecond, hrel⟩
  | done h ihe =>
    cases he with
    | tried hk => exact tries_or_alike_of_tried hk hs (.done h)
    | many he =>
      rcases ihe he hs with ⟨k, htries⟩ | hfirst
      · exact Or.inl ⟨k, .one htries⟩
      · exact Or.inr ⟨some s, .done hfirst.cases_none, .some hs⟩
  | present h ihe =>
    cases he with
    | tried hk => exact tries_or_alike_of_tried hk hs (.present h)
    | optional he =>
      rcases ihe he hs with ⟨k, htries⟩ | hfirst
      · exact Or.inl ⟨k, .optional htries⟩
      obtain ⟨s₁, hfirst, hs₁⟩ := hfirst.cases_some
      exact Or.inr ⟨some s₁, .present hfirst, .some hs₁⟩
  | absent h ihe =>
    cases he with
    | tried hk => exact tries_or_alike_of_tried hk hs (.absent h)
    | optional he =>
      rcases ihe he hs with ⟨k, htries⟩ | hfirst
      · exact Or.inl ⟨k, .optional htries⟩
      · exact Or.inr ⟨some s, .absent hfirst.cases_none, .some hs⟩
  | rejected h _ =>
    cases he with
    | tried hk => exact tries_or_alike_of_tried hk hs (.rejected h)
  | passed h _ =>
    cases he with
    | tried hk => exact tries_or_alike_of_tried hk hs (.passed h)
  | rule h ih =>
    cases he with
    | tried hk => exact tries_or_alike_of_tried hk hs (.rule h)
    | blank => exact Or.inr (alike_blank ha hb hs (.rule h))
    | rule hr =>
      rcases ih (isPhrase_body hr) hs with ⟨k, htries⟩ | ⟨o, hout, hrel⟩
      · exact Or.inl ⟨k, .rule hr htries⟩
      · exact Or.inr ⟨o, .rule hout, hrel⟩
  | atEnd =>
    cases he with
    | tried hk => exact tries_or_alike_of_tried hk hs .atEnd
  | atEnd_cons =>
    cases he with
    | tried hk => exact tries_or_alike_of_tried hk hs .atEnd_cons

end Transfer

end Rule

end HornClauses
