import HornClauses.Proofs.BracketCheck
import HornClauses.Proofs.TriedTokens

/-!
# Where a text is refused

A text that is refused is refused at its first token that does not fit what stands before it, and
that is the furthest place at which a token is tried and not found. Up to that place nothing is
wrong: any open brackets may be closed at once, since nothing has to stand before a closer, so
closing them makes an accepted text. And no accepted text goes on there with the token that is
refused. Since the brackets of the whole text are in order, the place is never its end.

* `Bracket.Completes`: the closers of all brackets that are open at the end of a text.
* `Stage.run_closers`: closing all brackets that are open at some stage.
* `Refusal`, `Grammar.readFrame_eq_error`: where a reading stops.
* `Rule.FailsAt`: the places at which a token is tried and not found.
* `ViablePrefix`: what holds of the place at which a text is refused.
* `Settings.viablePrefix_of_refused`: so it is for terms and for sequences of terms.
-/

namespace HornClauses

open Peg Text

/-! ## Closing what is open -/

namespace Bracket

/-- These are the closers of the brackets that are open at the end of the text. -/
structure Completes (s closers : List Char) : Prop where
  isCloser : ∀ c ∈ closers, isCloser c = true
  nested : Nested (s ++ closers)

theorem eq_nil_of_closers {s : List Char} (hs : ∀ c ∈ s, isCloser c = true) (h : Nested s) :
    s = [] := by
  cases s with
  | nil => rfl
  | cons c s =>
    have hc := hs c List.mem_cons_self
    rw [h.isCloser_head] at hc
    cases hc

theorem isPair_unique {o c c' : Char} (h : isPair o c = true) (h' : isPair o c' = true) :
    c = c' := by
  simp only [isPair, Bool.or_eq_true, Bool.and_eq_true, decide_eq_true_eq] at h h'
  rcases h with ⟨rfl, rfl⟩ | ⟨rfl, rfl⟩ <;> rcases h' with ⟨ho, rfl⟩ | ⟨ho, rfl⟩ <;>
    first | rfl | cases ho

/-- There is one way only to close brackets with nothing but closers. -/
theorem Closes.unique {opened s t : List Char} (h : Closes opened s) (h' : Closes opened t)
    (hs : ∀ c ∈ s, isCloser c = true) (ht : ∀ c ∈ t, isCloser c = true) : s = t := by
  induction h generalizing t with
  | nested hnested =>
    rw [eq_nil_of_closers hs hnested, eq_nil_of_closers ht (closes_nil_iff.1 h')]
  | @closer o c opened u s hnested hpair _ ih =>
    rw [List.forall_mem_append, List.forall_mem_cons] at hs
    cases h' with
    | closer hnested' hpair' hrest' =>
      rw [List.forall_mem_append, List.forall_mem_cons] at ht
      rw [eq_nil_of_closers hs.1 hnested, eq_nil_of_closers ht.1 hnested',
        isPair_unique hpair hpair', ih hrest' hs.2.2 ht.2.2]

/-- Wherever the text begins, the same closers close what it leaves open. -/
theorem closers_unique {stack : Stack} {s closers closers' : List Char}
    (hc : ∀ c ∈ closers, isCloser c = true) (hc' : ∀ c ∈ closers', isCloser c = true)
    (h : Closes (stack.map Prod.snd) (s ++ closers))
    (h' : Closes (stack.map Prod.snd) (s ++ closers')) : closers = closers' := by
  induction s generalizing stack with
  | nil => exact h.unique h' hc hc'
  | cons c s ih =>
    obtain ⟨pieces, hpieces⟩ := (@exists_splitFrom_iff (fun _ => false) stack 0 _).2 h
    obtain ⟨opened, -, hstep, -⟩ := splitFrom_cons_eq_ok.1 hpieces
    exact ih ((closes_cons_iff hstep).1 h) ((closes_cons_iff hstep).1 h')

theorem Completes.unique {s closers closers' : List Char} (h : Completes s closers)
    (h' : Completes s closers') : closers = closers' :=
  @closers_unique [] _ _ _ h.isCloser h'.isCloser (.nested h.nested) (.nested h'.nested)

end Bracket

/-! ## The closers of a stage -/

namespace Enclosure

/-- The closer of the bracket. -/
def char : Enclosure → Char
  | parens => ')'
  | elements | tail => ']'

def token : Enclosure → Token
  | parens => .closeParen
  | elements | tail => .closeBracket

theorem isDelimiter_char (e : Enclosure) : isDelimiter e.char = true := by cases e <;> rfl

theorem isCloser_char (e : Enclosure) : Bracket.isCloser e.char = true := by cases e <;> rfl

/-- Closers one after the other are one token each. -/
theorem tokenised (es : List Enclosure) : Tokenised (es.map char) (es.map token) := by
  induction es with
  | nil => exact .blank (by simp)
  | cons e es ih =>
    refine Tokenised.cons_iff.2 ⟨es.map char, ?_, ih⟩
    cases e <;> rfl

/-- A token that no closer prolongs stands before closers. -/
theorem apart_head (es : List Enclosure) : ∀ c ∈ (es.map char).head?, Token.Apart c := by
  cases es with
  | nil => simp
  | cons e es =>
    rintro c ⟨⟩
    exact Token.apart_of_isDelimiter e.isDelimiter_char

theorem dropWhile_char (es : List Enclosure) :
    (es.map char).dropWhile isBlank = es.map char := by
  cases es with
  | nil => rfl
  | cons e es => cases e <;> rfl

end Enclosure

/-- Nothing has to stand before a closer, so all brackets may be closed at any stage. -/
theorem Stage.run_closers (goal : Goal) (σ : Stage) :
    ∃ φ, σ.run goal (σ.enclosures.map Enclosure.token) = some ⟨φ, []⟩ := by
  obtain ⟨φ, enclosures⟩ := σ
  induction enclosures generalizing φ with
  | nil => exact ⟨φ, rfl⟩
  | cons e outer ih => cases e <;> exact ih .operand

/-- A text that is read up to some stage is accepted when its brackets are closed there. -/
theorem Goal.accepts_closed {goal : Goal} {s : List Char} {ts : List Token} {σ : Stage}
    (hs : Tokenised s ts) (h : Stage.start.run goal ts = some σ) :
    Rule.Accepts goal.rule (s ++ σ.enclosures.map Enclosure.char) := by
  obtain ⟨φ, hclose⟩ := σ.run_closers goal
  exact accepts_iff_run.2 ⟨_, φ, hs.append (Enclosure.tokenised _) (Enclosure.apart_head _),
    Stage.run_append_eq_some.2 ⟨σ, h, hclose⟩⟩

theorem Goal.nested_of_accepts {goal : Goal} {s : List Char} (h : Rule.Accepts goal.rule s) :
    Bracket.Nested s := by
  refine Bracket.check_eq_ok_iff.1 (Rule.check_of_accepts ?_)
  cases goal with
  | term => exact Or.inl h
  | sequence => exact Or.inr h

/-- The brackets of the stage are those that are open in the text. -/
theorem Goal.completes_closers {goal : Goal} {s : List Char} {ts : List Token} {σ : Stage}
    (hs : Tokenised s ts) (h : Stage.start.run goal ts = some σ) :
    Bracket.Completes s (σ.enclosures.map Enclosure.char) where
  isCloser := List.forall_mem_map.2 fun e _ => e.isCloser_char
  nested := nested_of_accepts (accepts_closed hs h)

/-! ## Where a reading stops -/

section Reading

variable {goal : Goal} {text : List Char}

/-- Reading from one place of a text on has got to another one, where no blank stands. -/
structure Reading.Arrives (goal : Goal) (r : Reading) (position : Nat) (s : List Char)
    (r' : Reading) (position' : Nat) (rest : List Char) : Prop where
  reaches : Rule.Reaches goal r.stage s r'.stage rest
  rooted : r'.Rooted goal
  position_add : position' + rest.length = position + s.length
  dropWhile_rest : rest.dropWhile isBlank = rest

/-- The tokens of a text are read up to one that does not fit or to its last one. -/
theorem Reading.exists_arrival {r : Reading} {s : List Char} (hr : r.Rooted goal)
    (hs : s.dropWhile isBlank = s) (position : Nat) :
    ∃ r' position' rest, Arrives goal r position s r' position' rest ∧
      ((∃ t rest', Token.scan? rest = some (t, rest') ∧ r'.stage.next goal t.terminal = none ∧
        run goal r position (Lexeme.scan s).1 = .error (r'.fault goal position')) ∨
      Token.scan? rest = none ∧ (Lexeme.scan s).2 = rest ∧
        run goal r position (Lexeme.scan s).1 = .ok (r', position')) := by
  induction s using Lexeme.scan.induct generalizing r position with
  | case1 s hscan =>
    rw [Lexeme.scan_none hscan]
    exact ⟨r, position, s, ⟨.refl goal _ s, hr, rfl, hs⟩, Or.inr ⟨hscan, rfl, rfl⟩⟩
  | case2 s t rest hscan ih =>
    rw [Lexeme.scan_some hscan]
    have hstage := stage_of_step (l := ⟨t, String.ofList (rest.takeWhile isBlank)⟩) hr
    rw [run]
    cases hstep : r.step ⟨t, String.ofList (rest.takeWhile isBlank)⟩ with
    | none =>
      rw [hstep] at hstage
      exact ⟨r, position, s, ⟨.refl goal _ s, hr, rfl, hs⟩,
        Or.inl ⟨t, rest, hscan, hstage.symm, rfl⟩⟩
    | some r₁ =>
      rw [hstep] at hstage
      obtain ⟨r', position', rest', harrives, hstop⟩ := ih ((shift_of_step hstep).rooted hr)
        (List.dropWhile_idempotent ..) _
      refine ⟨r', position', rest', ⟨?_, harrives.rooted, ?_, harrives.dropWhile_rest⟩, hstop⟩
      · exact (Rule.Reaches.token hscan hstage.symm).trans
          ((Rule.Reaches.blanks goal _ rest).trans harrives.reaches)
      · have hadd := harrives.position_add
        have hlength : s.length = t.text.length + rest.length := by
          rw [Token.scan?_append hscan, List.length_append, String.length_toList]
        have hrest := congrArg List.length
          (List.takeWhile_append_dropWhile (p := isBlank) (l := rest))
        rw [List.length_append] at hrest
        simp only [Lexeme.length, String.length_ofList] at hadd
        omega

/-- The text is refused between these parts: the tokens before the place lead to a stage at which
what stands behind it does not fit, a token or the end of the text. -/
structure Refusal (goal : Goal) (before after : List Char) (ts : List Token) (σ : Stage) :
    Prop where
  walks : Walks after (before ++ after) ts
  run : Stage.start.run goal ts = some σ
  dropWhile_after : after.dropWhile isBlank = after
  refused : ∀ t rest, Token.scan? after = some (t, rest) → σ.next goal t.terminal = none
  unclosed : after = [] → σ.enclosures ≠ []

theorem Grammar.readFrame_eq_error {fault : SyntaxFault}
    (h : readFrame goal text = .error fault) :
    ∃ before after ts σ, Refusal goal before after ts σ ∧ text = before ++ after ∧
      before.length = fault.position := by
  obtain ⟨r, position, after, harrives, hstop⟩ := Reading.exists_arrival
    (Reading.rooted_start goal) (text.dropWhile_idempotent isBlank)
    (text.takeWhile isBlank).length
  obtain ⟨ts, hwalks, hrun⟩ := (Rule.Reaches.blanks goal _ text).trans harrives.reaches
  obtain ⟨before, htext, -⟩ := hwalks.exists_front
  have hposition : before.length = position := by
    have hadd := harrives.position_add
    rw [← List.length_append, List.takeWhile_append_dropWhile, htext, List.length_append] at hadd
    omega
  rw [htext] at hwalks
  unfold readFrame at h
  rcases hstop with ⟨t, rest, hscan, hnext, hread⟩ | ⟨hscan, hrest, hread⟩
  · simp only [hread] at h
    cases h
    refine ⟨before, after, ts, _, ⟨hwalks, hrun, harrives.dropWhile_rest, ?_, ?_⟩, htext, hposition⟩
    · intro t' rest' hscan'
      rw [hscan] at hscan'
      cases hscan'
      exact hnext
    · rintro rfl
      cases hscan
  · simp only [hread, hrest] at h
    split at h
    · cases h
    · rename_i hopen
      cases h
      refine ⟨before, after, ts, _, ⟨hwalks, hrun, harrives.dropWhile_rest, ?_, ?_⟩, htext,
        hposition⟩
      · intro t rest' hscan'
        rw [hscan] at hscan'
        cases hscan'
      · rintro rfl henclosures
        rw [harrives.rooted.enclosures_eq_nil_iff] at henclosures
        simp [henclosures] at hopen

end Reading

/-! ## The place of a refusal -/

/-- At this place of a text a token is tried, or the end of the text, and not found. -/
def Rule.FailsAt (r : Rule) (text : List Char) (position : Nat) : Prop :=
  ∃ before after k, text = before ++ after ∧ before.length = position ∧
    Tries (.rule r) text k after ∧ Outcome body (tried k) after none

namespace Refusal

variable {goal : Goal} {before after : List Char} {ts : List Token} {σ : Stage}

theorem tokenised_before (h : Refusal goal before after ts σ) : Tokenised before ts := by
  obtain ⟨u, heq, hu⟩ := h.walks.exists_front
  rwa [List.append_cancel_right heq]

/-- No stage is reached over the token that does not fit. -/
theorem run_eq_none (h : Refusal goal before after ts σ) {t : Token} {rest : List Char}
    (hscan : Token.scan? after = some (t, rest)) (more : List Token) :
    Stage.start.run goal (ts ++ t :: more) = none := by
  rw [Stage.run_append, h.run, Option.bind_some, Stage.run, h.refused t rest hscan,
    Option.bind_none]

/-- In a text that begins with the tokens before the place no token that does not fit follows. -/
theorem not_accepts (h : Refusal goal before after ts σ) {t : Token} {rest : List Char}
    (hscan : Token.scan? after = some (t, rest)) {other : List Char} {more : List Token}
    (hother : Tokenised other (ts ++ t :: more)) : ¬ Rule.Accepts goal.rule other := by
  intro haccepts
  obtain ⟨us, φ, hus, hrun⟩ := Goal.accepts_iff_run.1 haccepts
  rw [hus.unique hother, h.run_eq_none hscan] at hrun
  cases hrun

/-- The text itself would be accepted only if nothing stood behind the place and nothing were open
there. -/
theorem not_accepts_text (h : Refusal goal before after ts σ) :
    ¬ Rule.Accepts goal.rule (before ++ after) := by
  intro haccepts
  obtain ⟨us, φ, hus, hrun⟩ := Goal.accepts_iff_run.1 haccepts
  obtain ⟨vs, rfl, hvs⟩ := h.walks.exists_rest hus
  cases vs with
  | nil =>
    rw [Tokenised.nil_iff, h.dropWhile_after] at hvs
    rw [List.append_nil, h.run, Option.some.injEq] at hrun
    exact h.unclosed hvs (by rw [hrun])
  | cons t more =>
    obtain ⟨rest, hscan, -⟩ := Tokenised.cons_iff.1 hvs
    rw [h.dropWhile_after] at hscan
    exact h.not_accepts hscan hus haccepts

/-- If the brackets of a text are in order, it is not refused at its end. -/
theorem exists_character (h : Refusal goal before after ts σ)
    (hnested : Bracket.Nested (before ++ after)) :
    ∃ c rest, after = c :: rest ∧ isBlank c = false := by
  cases after with
  | nil =>
    rw [List.append_nil] at hnested
    have hcomplete := Goal.completes_closers h.tokenised_before h.run
    have hnothing := Bracket.eq_nil_of_closers hcomplete.isCloser
      ((Bracket.nested_append_iff hnested).1 hcomplete.nested)
    exact absurd (List.map_eq_nil_iff.1 hnothing) (h.unclosed rfl)
  | cons c rest => exact ⟨c, rest, rfl, isBlank_of_dropWhile h.dropWhile_after⟩

/-- What is tried where the text is refused is not found. -/
theorem outcome_tried (h : Refusal goal before after ts σ) {k : Option Terminal}
    (htries : Rule.Tries (.rule goal.rule) (before ++ after) k after) :
    Outcome Rule.body (Rule.tried k) after none := by
  obtain ⟨σ', ⟨us, hwalks, hrun⟩, hallows⟩ := Rule.exists_stage_of_tries htries
  rw [hwalks.unique h.walks, h.run] at hrun
  cases hrun
  cases k with
  | none =>
    cases after with
    | nil => exact absurd hallows (h.unclosed rfl)
    | cons c after => exact .atEnd_cons
  | some k =>
    obtain ⟨σ', hnext⟩ := hallows
    refine k.computes.outcome_iff.2 (Option.eq_none_iff_forall_ne_some.2 ?_).symm
    intro rest hread
    obtain ⟨t, hscan, rfl⟩ := Terminal.read?_eq_some.1 hread
    rw [h.refused t rest hscan] at hnext
    cases hnext

/-- Something is tried where the text is refused: if its brackets are closed there instead, it is
accepted. -/
theorem exists_tries (h : Refusal goal before after ts σ) :
    ∃ k, Rule.Tries (.rule goal.rule) (before ++ after) k after := by
  obtain ⟨rest, hout⟩ := Goal.accepts_closed h.tokenised_before h.run
  obtain ⟨u, heq, hparallel⟩ := h.walks.parallel (Enclosure.apart_head σ.enclosures)
  rw [← List.append_cancel_right heq] at hparallel
  have hclosers := (Enclosure.dropWhile_char σ.enclosures)
  rcases Rule.tries_or_alike h.dropWhile_after hclosers hout (.rule (by cases goal <;> rfl))
    hparallel with htries | halike
  · exact htries
  · obtain ⟨rest', hout', -⟩ := halike.cases_some
    exact absurd ⟨rest', hout'⟩ h.not_accepts_text

theorem failsAt (h : Refusal goal before after ts σ) :
    Rule.FailsAt goal.rule (before ++ after) before.length := by
  obtain ⟨k, htries⟩ := h.exists_tries
  exact ⟨before, after, k, rfl, rfl, htries, h.outcome_tried htries⟩

/-- No token is tried behind the place. -/
theorem le_of_failsAt (h : Refusal goal before after ts σ) {position : Nat}
    (hfails : Rule.FailsAt goal.rule (before ++ after) position) : position ≤ before.length := by
  obtain ⟨u, m, k, htext, rfl, htries, -⟩ := hfails
  obtain ⟨σ', ⟨us, hwalks, hrun⟩, -⟩ := Rule.exists_stage_of_tries htries
  rcases h.walks.compare h.dropWhile_after hwalks with hle | ⟨t, rest, vs, hscan, rfl⟩
  · have hlength := congrArg List.length htext
    rw [List.length_append, List.length_append] at hlength
    omega
  · -- The way there would lead over the token that does not fit.
    rw [h.run_eq_none hscan] at hrun
    cases hrun

end Refusal

/-- What is true of the place at which a text is refused. -/
structure ViablePrefix (goal : Goal) (text : List Char) (position : Nat) : Prop where
  /-- It stands inside the text, before a character that is no blank. -/
  inside : ∃ c, text[position]? = some c ∧ isBlank c = false
  /-- A token is tried there and not found. -/
  failsAt : goal.rule.FailsAt text position
  /-- Behind it none is. -/
  furthest : ∀ i, goal.rule.FailsAt text i → i ≤ position
  /-- Followed by the closers of the brackets that are open, the text before it is accepted. -/
  closed : ∃ closers, (∀ w, Bracket.Completes (text.take position) w ↔ w = closers) ∧
    Rule.Accepts goal.rule (text.take position ++ closers)
  /-- No accepted text begins with the tokens before it and the longest token that stands there. -/
  refused : ∃ ts, Walks (text.drop position) text ts ∧
    ∀ t rest, Token.Longest (text.drop position) t rest →
      ∀ other more, Tokenised other (ts ++ t :: more) → ¬ Rule.Accepts goal.rule other

theorem Refusal.viablePrefix {goal : Goal} {before after : List Char} {ts : List Token} {σ : Stage}
    (h : Refusal goal before after ts σ) (hnested : Bracket.Nested (before ++ after)) :
    ViablePrefix goal (before ++ after) before.length := by
  have hcompletes := Goal.completes_closers h.tokenised_before h.run
  refine ⟨?_, h.failsAt, fun i => h.le_of_failsAt, ⟨σ.enclosures.map Enclosure.char, ?_, ?_⟩, ts,
    ?_, ?_⟩
  · obtain ⟨c, rest, rfl, hc⟩ := h.exists_character hnested
    exact ⟨c, by simp, hc⟩
  · rw [List.take_left]
    exact fun w => ⟨fun hw => hw.unique hcompletes, fun hw => hw ▸ hcompletes⟩
  · rw [List.take_left]
    exact Goal.accepts_closed h.tokenised_before h.run
  · rw [List.drop_left]
    exact h.walks
  · rw [List.drop_left]
    exact fun t rest ht other more hother =>
      h.not_accepts (Token.scan?_eq_some_iff.2 ht) hother

/-- The fault of a text whose brackets are in order. -/
theorem Grammar.viablePrefix_of_readFrame {goal : Goal} {text : List Char} {fault : SyntaxFault}
    (hcheck : Bracket.check text = .ok ()) (h : readFrame goal text = .error fault) :
    ViablePrefix goal text fault.position := by
  obtain ⟨before, after, ts, σ, hrefusal, rfl, hposition⟩ := readFrame_eq_error h
  rw [← hposition]
  exact hrefusal.viablePrefix (Bracket.check_eq_ok_iff.1 hcheck)

section Reported

variable {text : List Char} {shown : String} {fault : SyntaxFault}

/-- A text that the grammar refuses once its brackets are in order. -/
theorem CheckedFault.viablePrefix {goal : Goal} {refuses : SyntaxFault → Prop}
    (hrefuses : ∀ fault, refuses fault → Grammar.readFrame goal text = .error fault)
    (h : CheckedFault text refuses (.refused shown fault)) :
    shown = String.ofList text ∧ ViablePrefix goal text fault.position := by
  rcases h with ⟨bracket, -, heq⟩ | ⟨hcheck, fault', hfault, heq⟩
  · cases heq
  · cases heq
    exact ⟨rfl, Grammar.viablePrefix_of_readFrame hcheck (hrefuses fault hfault)⟩

theorem FirstFault.ne_refused {table : OperatorTable} {source : String}
    {nodes : List Expression} : ¬ FirstFault table source nodes (.refused shown fault) := by
  intro h
  rcases h.eq_or with ⟨_, _, h⟩ | ⟨_, _, _, h⟩ | ⟨_, _, h⟩ <;> cases h

/-- A term or a sequence of terms is refused at the furthest place at which a token is tried and not
found. There stands a character that is no blank; what stands before it is accepted if it is
followed by the closers of the brackets that are open; and nothing is accepted that begins with the
same tokens and the token that stands there. -/
theorem Settings.viablePrefix_of_refused (settings : Settings) (text : List Char) (shown : String)
    (fault : SyntaxFault) :
    (settings.readTerm text = .error (.refused shown fault) →
      shown = String.ofList text ∧ ViablePrefix .term text fault.position) ∧
    (settings.readTerms text = .error (.refused shown fault) →
      shown = String.ofList text ∧ ViablePrefix .sequence text fault.position) := by
  constructor
  · intro h
    rcases readTerm_eq_error.1 h with h | ⟨e, -, hfault⟩
    · exact (readExpression_eq_error.1 h).viablePrefix fun _ => map_eq_error.1
    · exact absurd hfault FirstFault.ne_refused
  · intro h
    obtain ⟨-, h | ⟨es, -, hfault⟩⟩ := readTerms_eq_error.1 h
    · exact (readExpressions_eq_error.1 h).viablePrefix fun _ => map_eq_error.1
    · exact absurd hfault FirstFault.ne_refused

/-- A variable behind the tail of a list, two brackets deep: the text before it is accepted with two
closers. A comma in the tail of a list is refused as well. -/
theorem Settings.viablePrefix_of_refused_tail :
    Settings.standard.readTerms "p(é), q([X |Y  Z])".toList =
        .error (.refused "p(é), q([X |Y  Z])" ⟨.sequence, 15, true, true⟩) ∧
      Rule.FailsAt .sequence "p(é), q([X |Y  Z])".toList 15 ∧
      Rule.Accepts .sequence "p(é), q([X |Y  ])".toList ∧
      Settings.standard.readTerm "f(é, [X | Y, Z])".toList =
        .error (.refused "f(é, [X | Y, Z])" ⟨.term, 11, true, true⟩) ∧
      ViablePrefix .term "f(é, [X | Y, Z])".toList 11 := by
  have hterms : Settings.standard.readTerms "p(é), q([X |Y  Z])".toList =
      .error (.refused "p(é), q([X |Y  Z])" ⟨.sequence, 15, true, true⟩) := by decide +kernel
  have hterm : Settings.standard.readTerm "f(é, [X | Y, Z])".toList =
      .error (.refused "f(é, [X | Y, Z])" ⟨.term, 11, true, true⟩) := by decide +kernel
  have hprefix : ViablePrefix .sequence "p(é), q([X |Y  Z])".toList 15 :=
    ((viablePrefix_of_refused .standard _ _ _).2 hterms).2
  have hfront : "p(é), q([X |Y  Z])".toList.take 15 = "p(é), q([X |Y  ".toList := by decide
  have hwhole : "p(é), q([X |Y  ".toList ++ "])".toList = "p(é), q([X |Y  ])".toList := by decide
  have hclosers : Bracket.Completes "p(é), q([X |Y  ".toList "])".toList :=
    ⟨List.all_eq_true.1 rfl, Bracket.check_eq_ok_iff.1 (by decide +kernel)⟩
  obtain ⟨closers, hopen, haccepts⟩ := hprefix.closed
  rw [hfront] at hopen haccepts
  rw [← (hopen _).1 hclosers, hwhole] at haccepts
  exact ⟨hterms, hprefix.failsAt, haccepts, hterm,
    ((viablePrefix_of_refused .standard _ _ _).1 hterm).2⟩

end Reported

end HornClauses
