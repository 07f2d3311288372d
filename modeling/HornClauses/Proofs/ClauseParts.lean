import HornClauses.Proofs.Layout
import HornClauses.Proofs.ReaderOutcome
import HornClauses.Proofs.TopLevelPieces

/-!
# Where the parts of a clause stand

The head and the body of a clause are cut out of its text, goals out of the body, and what is read
of a predicate out of the text of a head or a goal. All that is left out on the way is white space, a
period at the end of the clause and one at the end of each head and goal, the first neck, and the
commas between the goals.

* `Text.IsEnding`: white space with at most one period in front of it.
* `exists_predicateCore_ending`: what is read of the text of a predicate.
* `ClauseText.exists_divide`: the head and the body in the text of a clause.
* `Bracket.exists_piece`: a character of a body is a comma between goals or stands in one of them.
-/

namespace HornClauses

/-! ## Endings -/

namespace Text

variable {s w : List Char}

/-- A character of two joined texts stands in one of them. -/
theorem exists_of_append_eq {t before after : List Char} {c : Char}
    (h : s ++ t = before ++ c :: after) :
    (∃ back, s = before ++ c :: back ∧ after = back ++ t) ∨
      ∃ front, before = s ++ front ∧ t = front ++ c :: after := by
  rcases List.append_eq_append_iff.1 h with ⟨front, hbefore, ht⟩ | ⟨back, hs, hafter⟩
  · exact Or.inr ⟨front, hbefore, ht⟩
  · cases back with
    | nil => exact Or.inr ⟨[], by rw [hs, List.append_nil, List.append_nil], hafter.symm⟩
    | cons d back =>
      rw [List.cons_append, List.cons.injEq] at hafter
      exact Or.inl ⟨back, hafter.1 ▸ hs, hafter.2⟩

/-- White space, or a period and white space behind it. -/
def IsEnding (w : List Char) : Prop :=
  (∀ c ∈ w, isSpace c = true) ∨ ∃ w', w = '.' :: w' ∧ ∀ c ∈ w', isSpace c = true

/-- Trimming a text and dropping a period at its end takes an ending from it. -/
theorem exists_dropPeriod_trim (s : List Char) : ∃ lead ending, (∀ c ∈ lead, isSpace c = true) ∧
    IsEnding ending ∧ s = lead ++ (dropPeriod (trim s) ++ ending) := by
  obtain ⟨lead, trail, hlead, htrail, hs⟩ := exists_trim s
  by_cases hlast : (trim s).getLast? = some '.'
  · obtain ⟨rest, hrest⟩ := List.getLast?_eq_some_iff.1 hlast
    refine ⟨lead, '.' :: trail, hlead, Or.inr ⟨trail, rfl, htrail⟩, ?_⟩
    nth_rewrite 1 [hs]
    rw [hrest, dropPeriod_concat]
    simp
  · refine ⟨lead, trail, hlead, Or.inl htrail, ?_⟩
    nth_rewrite 1 [hs]
    rw [dropPeriod_eq_self hlast, List.append_assoc]

theorem infix_trim (s : List Char) : trim s <:+: s := by
  obtain ⟨before, after, -, -, hs⟩ := exists_trim s
  exact ⟨before, after, hs.symm⟩

end Text

/-- The text of a predicate is what is read of it, with white space around that and then at most one
period. -/
theorem exists_predicateCore_ending (text : List Char) :
    ∃ lead gap ending, (∀ c ∈ lead, Text.isSpace c = true) ∧ (∀ c ∈ gap, Text.isSpace c = true) ∧
      Text.IsEnding ending ∧ text = lead ++ (predicateCore text ++ (gap ++ ending)) := by
  obtain ⟨lead, ending, hlead, hending, htext⟩ := Text.exists_dropPeriod_trim text
  have hcore : Text.dropPeriod (Text.trim text) = predicateCore text ++
      (Text.dropPeriod (Text.trim text)).rtakeWhile Text.isSpace := by
    rw [predicateCore, Text.trimEnd_eq_rdropWhile, List.rdropWhile_append_rtakeWhile]
  refine ⟨lead, (Text.dropPeriod (Text.trim text)).rtakeWhile Text.isSpace, ending, hlead,
    fun c hc => List.mem_rtakeWhile_imp hc, hending, ?_⟩
  rw [← List.append_assoc (predicateCore text), ← hcore]
  exact htext

theorem infix_predicateCore (text : List Char) : predicateCore text <:+: text := by
  obtain ⟨lead, gap, ending, -, -, -, htext⟩ := exists_predicateCore_ending text
  exact ⟨lead, gap ++ ending, by rw [List.append_assoc]; exact htext.symm⟩

/-! ## Head and body -/

/-- A text is divided at its first neck. -/
theorem eq_append_of_divideNeck {s head body : List Char}
    (h : divideNeck s = some (head, body)) :
    s = head ++ ':' :: '-' :: body ∧ ¬ ":-".toList <:+: head := by
  induction s generalizing head with
  | nil => cases h
  | cons c rest ih =>
    by_cases hcons : c ≠ ':' ∨ rest.head? ≠ some '-'
    · rw [Layout.divideNeck_cons hcons] at h
      obtain ⟨⟨head', body'⟩, hrest, heq⟩ := Option.map_eq_some_iff.1 h
      cases heq
      obtain ⟨rfl, hneck⟩ := ih hrest
      refine ⟨rfl, fun hinside => ?_⟩
      rcases List.infix_cons_iff.1 hinside with ⟨more, hmore⟩ | hinside
      · -- The neck would begin with the first character.
        cases hmore
        rcases hcons with hc | hc
        · exact hc rfl
        · exact hc rfl
      · exact hneck hinside
    · simp only [not_or, not_not] at hcons
      obtain ⟨rfl, hdash⟩ := hcons
      obtain ⟨more, rfl⟩ := List.head?_eq_some_iff.1 hdash
      cases h
      exact ⟨rfl, by simp⟩

/-- The text of a clause is a head, a neck and a body, or a head alone, and at most one period. -/
theorem ClauseText.exists_divide (text : List Char) :
    ∃ lead core ending, (∀ c ∈ lead, Text.isSpace c = true) ∧ Text.IsEnding ending ∧
      text = lead ++ (core ++ ending) ∧
        ((∃ front body, core = front ++ ':' :: '-' :: body ∧ ¬ ":-".toList <:+: front ∧
          divide text = ⟨Text.trim front, some body⟩) ∨ divide text = ⟨Text.trim core, none⟩) := by
  obtain ⟨lead, ending, hlead, hending, htext⟩ := Text.exists_dropPeriod_trim text
  refine ⟨lead, _, ending, hlead, hending, htext, ?_⟩
  cases hneck : divideNeck (Text.dropPeriod (Text.trim text)) with
  | none =>
    right
    simp only [divide, hneck]
  | some parts =>
    obtain ⟨front, body⟩ := parts
    left
    obtain ⟨hcore, hfirst⟩ := eq_append_of_divideNeck hneck
    exact ⟨front, body, hcore, hfirst, by simp only [divide, hneck]⟩

theorem ClauseText.infix_head (text : List Char) : (divide text).head <:+: text := by
  obtain ⟨lead, core, ending, -, -, htext, hparts⟩ := exists_divide text
  have hcore : core <:+: text := ⟨lead, ending, by rw [htext, List.append_assoc]⟩
  rcases hparts with ⟨front, body, hsplit, -, hdivide⟩ | hdivide
  · have hfront : front <:+: core := ⟨[], ':' :: '-' :: body, by rw [hsplit, List.nil_append]⟩
    rw [hdivide]
    exact (Text.infix_trim front).trans (hfront.trans hcore)
  · rw [hdivide]
    exact (Text.infix_trim core).trans hcore

theorem ClauseText.infix_body {text body : List Char} (h : (divide text).body = some body) :
    body <:+: text := by
  obtain ⟨lead, core, ending, -, -, htext, hparts⟩ := exists_divide text
  rcases hparts with ⟨front, body', hsplit, -, hdivide⟩ | hdivide
  · rw [hdivide] at h
    cases h
    refine ⟨lead ++ (front ++ [':', '-']), ending, ?_⟩
    rw [htext, hsplit]
    simp
  · rw [hdivide] at h
    cases h

/-! ## Goals -/

namespace Bracket

variable {separator : Char}

/-- A character of joined pieces that is no separator stands in one of them, behind the pieces
before it and in front of a separator or of the end. -/
theorem exists_piece {pieces : List (List Char)} {before after : List Char} {c : Char}
    (hc : c ≠ separator) (h : joinWith separator pieces = before ++ c :: after) :
    ∃ earlier piece later front back rest, pieces = earlier ++ piece :: later ∧
      piece = front ++ c :: back ∧
      before = (earlier.flatMap fun p => p ++ [separator]) ++ front ∧ after = back ++ rest ∧
        (rest = [] ∨ ∃ more, rest = separator :: more) := by
  induction pieces generalizing before with
  | nil => simp [joinWith] at h
  | cons piece pieces ih =>
    cases pieces with
    | nil =>
      rw [joinWith] at h
      exact ⟨[], piece, [], before, after, [], rfl, h, rfl, (List.append_nil after).symm,
        Or.inl rfl⟩
    | cons next pieces =>
      have hjoin : joinWith separator (piece :: next :: pieces) =
          piece ++ separator :: joinWith separator (next :: pieces) := rfl
      rw [hjoin] at h
      rcases Text.exists_of_append_eq h with ⟨back, rfl, rfl⟩ | ⟨front, rfl, hlater⟩
      · exact ⟨[], _, next :: pieces, before, back, _, rfl, rfl, rfl, rfl, Or.inr ⟨_, rfl⟩⟩
      · -- The character stands behind the first piece, so behind its separator.
        cases front with
        | nil =>
          cases hlater
          exact absurd rfl hc
        | cons d front =>
          rw [List.cons_append, List.cons.injEq] at hlater
          obtain ⟨rfl, hlater⟩ := hlater
          obtain ⟨earlier, found, later, front, back, rest, hpieces, hfound, rfl, hafter, hrest⟩ :=
            ih hlater
          exact ⟨piece :: earlier, found, later, front, back, rest,
            by rw [hpieces, List.cons_append], hfound, by simp, hafter, hrest⟩

theorem infix_joinWith {pieces : List (List Char)} {piece : List Char} (h : piece ∈ pieces) :
    piece <:+: joinWith separator pieces := by
  induction pieces with
  | nil => cases h
  | cons first pieces ih =>
    cases pieces with
    | nil =>
      rw [List.mem_singleton] at h
      exact h ▸ List.infix_rfl
    | cons next pieces =>
      rcases List.mem_cons.1 h with rfl | h
      · exact (List.prefix_append piece _).isInfix
      · have hlater : joinWith separator (next :: pieces) <:+:
            joinWith separator (first :: next :: pieces) :=
          ⟨first ++ [separator], [], by simp [joinWith]⟩
        exact (ih h).trans hlater

end Bracket

theorem splitGoals_eq_ok {body : List Char} {goals : List (List Char)} :
    splitGoals body = .ok goals ↔
      ∃ pieces, Bracket.split (· = ',') body = .ok pieces ∧ pieces.map Text.trim = goals := by
  rw [splitGoals, mapError_eq_ok, Bracket.splitTrimmed, map_eq_ok]

/-- A goal is a part of its body. -/
theorem infix_goal {body goal : List Char} {goals : List (List Char)}
    (h : splitGoals body = .ok goals) (hgoal : goal ∈ goals) : goal <:+: body := by
  obtain ⟨pieces, hpieces, rfl⟩ := splitGoals_eq_ok.1 h
  obtain ⟨piece, hpiece, rfl⟩ := List.mem_map.1 hgoal
  have hjoin := Bracket.joinWith_splitFrom hpieces
  exact (Text.infix_trim piece).trans (hjoin ▸ Bracket.infix_joinWith hpiece)

end HornClauses
