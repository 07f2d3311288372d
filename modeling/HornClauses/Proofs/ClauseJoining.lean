import HornClauses.Proofs.Layout
import HornClauses.Proofs.ReaderOutcome

/-!
# Clauses put together from their parts

A clause text is cut into its head and its goals before any of them is read: at the first neck, at
the commas outside brackets and at one period at the end. A text that is read as a predicate comes
through all of this in one piece. Its brackets are in order and its commas stand inside them, for
the grammar reads what is left of it without white space and a period at the ends; and a neck inside a
goal stands behind the one that was written first.

* `ClauseText.join`: the text of a clause with a certain head and certain goals.
* `Settings.isPart_of_readPredicate`: a predicate is one goal.
* `ClauseText.divide_join`: the parts of the text of a clause.
* `Settings.readClause_join`: it is read as the clause of what its parts are read as.
-/

namespace HornClauses

/-! ## The text of a clause -/

namespace ClauseText

/-- What stands between the neck and the period: the goals behind commas and blanks. -/
def bodyText (goals : List (List Char)) : List Char := ' ' :: ", ".toList.intercalate goals

/-- A head, a neck and goals if there are any, and a period. -/
def join (head : List Char) (goals : List (List Char)) : List Char :=
  head ++ (if goals = [] then [] else " :-".toList ++ bodyText goals) ++ ['.']

end ClauseText

/-- A text without a neck holds none together with what follows it, unless that begins with a
dash. -/
theorem divideNeck_append {w rest : List Char} (hw : ¬ ":-".toList <:+: w)
    (hr : rest.head? ≠ some '-') :
    divideNeck (w ++ rest) = (divideNeck rest).map fun parts => (w ++ parts.1, parts.2) := by
  induction w with
  | nil => simp
  | cons c w ih =>
    have hcons : c ≠ ':' ∨ (w ++ rest).head? ≠ some '-' := by
      by_contra hneck
      simp only [not_or, not_not] at hneck
      obtain ⟨rfl, hdash⟩ := hneck
      cases w with
      | nil => exact hr hdash
      | cons d w =>
        cases hdash
        exact hw ⟨[], w, rfl⟩
    rw [List.cons_append, Layout.divideNeck_cons hcons,
      ih fun hinside => hw (hinside.trans (List.suffix_cons c w).isInfix), Option.map_map]
    rfl

theorem ClauseText.divide_join {head : List Char} (hneck : ¬ ":-".toList <:+: head)
    (hne : Text.trim head ≠ []) (goals : List (List Char)) :
    divide (join head goals) =
      ⟨Text.trim head, if goals = [] then none else some (bodyText goals)⟩ := by
  have hstart : Text.trimStart head ≠ [] := by
    rw [Ne, Text.trimStart_eq_nil_iff, ← Text.trim_eq_nil_iff]
    exact hne
  have hneck' : ¬ ":-".toList <:+: Text.trimStart head := fun hinside =>
    hneck (hinside.trans (List.dropWhile_suffix Text.isSpace).isInfix)
  have htrim : Text.trim (Text.trimStart head) = Text.trim head := by
    have htwice : Text.trimStart (Text.trimStart head) = Text.trimStart head :=
      List.dropWhile_idempotent _ head
    rw [Text.trim, htwice, Text.trim]
  have hcore : ∀ rest, Text.dropPeriod (Text.trim (head ++ rest ++ ['.'])) =
      Text.trimStart head ++ rest := by
    intro rest
    rw [Text.trim, List.append_assoc, Text.trimStart_append hstart, ← List.append_assoc,
      Text.trimEnd_eq_self rfl, Text.dropPeriod_concat]
  simp only [divide, join, hcore]
  by_cases hgoals : goals = []
  · have hdivide : divideNeck (Text.trimStart head) = none := by
      have hend : divideNeck (Text.trimStart head ++ []) = none :=
        divideNeck_append hneck' (by simp)
      rwa [List.append_nil] at hend
    simp only [if_pos hgoals, List.append_nil, hdivide, htrim]
  · have hdivide : divideNeck (Text.trimStart head ++ (" :-".toList ++ bodyText goals)) =
        some (Text.trimStart head ++ [' '], bodyText goals) := by
      rw [divideNeck_append hneck' (by simp)]
      rfl
    have hhead : Text.trim (Text.trimStart head ++ [' ']) = Text.trim head := by
      rw [Text.trim_append_space (List.forall_mem_singleton.2 rfl), htrim]
    simp only [if_neg hgoals, hdivide, hhead]

/-! ## The parts -/

/-- Is a text cut out of a clause as one goal, with its ends trimmed? -/
structure IsPart (text : List Char) : Prop where
  ne_nil : Text.trim text ≠ []
  moves : Bracket.Moves (· = ',') text [] []

namespace IsPart

variable {text : List Char}

theorem splitGoals_eq (h : IsPart text) : splitGoals text = .ok [Text.trim text] := by
  rw [splitGoals, Bracket.splitTrimmed, Bracket.split, h.moves.splitFrom_eq]
  rfl

/-- Goals in the body of a clause are cut apart at the commas between them. -/
theorem splitGoals_bodyText {goals : List (List Char)} (hne : goals ≠ [])
    (h : ∀ goal ∈ goals, IsPart goal) :
    splitGoals (ClauseText.bodyText goals) = .ok (goals.map Text.trim) := by
  have hjoin : ClauseText.bodyText goals = Bracket.joinWith ',' (goals.map (' ' :: ·)) :=
    (Bracket.joinWith_blank hne).symm
  have hmoves : ∀ piece ∈ goals.map (' ' :: ·), Bracket.Moves (· = ',') piece [] [] := by
    intro piece hpiece
    obtain ⟨goal, hgoal, rfl⟩ := List.mem_map.1 hpiece
    exact (Bracket.Moves.other (by decide) (Or.inr (by decide))).append (h goal hgoal).moves
  have hsplit := Bracket.splitFrom_joinWith (by decide) (by simpa using hne) hmoves 0
  refine mapError_eq_ok.2 (map_eq_ok.2 ⟨goals.map (' ' :: ·), by rw [hjoin]; exact hsplit, ?_⟩)
  rw [List.map_map]
  refine List.map_congr_left fun goal _ => ?_
  exact Text.trim_space_append (w := [' ']) (List.forall_mem_singleton.2 rfl) goal

theorem trim_bodyText_ne_nil {goals : List (List Char)} (hne : goals ≠ [])
    (h : ∀ goal ∈ goals, IsPart goal) : Text.trim (ClauseText.bodyText goals) ≠ [] := by
  obtain ⟨goal, later, rfl⟩ := List.exists_cons_of_ne_nil hne
  intro hnil
  refine (h goal List.mem_cons_self).ne_nil (Text.trim_eq_nil_iff.2 fun c hc => ?_)
  refine Text.trim_eq_nil_iff.1 hnil c (List.mem_cons_of_mem _ ?_)
  cases later <;> simp [hc]

end IsPart

namespace Settings

variable {settings : Settings} {g : List Char} {q : Predicate}

/-- A predicate is read from a text as from the trimmed text. -/
theorem readPredicate_trim (h : settings.readPredicate g = .ok q) :
    settings.readPredicate (Text.trim g) = .ok q := by
  have hcore : predicateCore (Text.trim g) = predicateCore g := by
    rw [predicateCore, (Text.trimmed_trim g).eq, predicateCore]
  rw [readPredicate_eq_ok] at h ⊢
  rwa [hcore]

/-- The text of a predicate opens and closes brackets as what the grammar reads of it does. -/
theorem isPart_of_readPredicate (h : settings.readPredicate g = .ok q) : IsPart g := by
  obtain ⟨hne, t, ht, -⟩ := readPredicate_eq_ok.1 h
  obtain ⟨e, he, -⟩ := readTerm_eq_ok.1 ht
  constructor
  · intro hnil
    rw [predicateCore, hnil] at hne
    exact hne rfl
  · obtain ⟨before, after, hbefore, hafter, htext⟩ := exists_predicateCore g
    have hspace : ∀ {c}, Text.isSpace c = true ∨ c = '.' →
        (Bracket.isOpener c = false ∧ Bracket.isCloser c = false) ∧ decide (c = ',') = false := by
      rintro c (hc | rfl)
      · refine ⟨Bracket.not_bracket_of_isSpace hc, ?_⟩
        rw [decide_eq_false_iff_not]
        rintro rfl
        cases hc
      · decide
    rw [htext]
    refine (Bracket.Moves.others (fun c hc => hspace (Or.inl (hbefore c hc))) []).append ?_
    exact (Grammar.moves_of_readTerm he).append
      (Bracket.Moves.others (fun c hc => hspace (hafter c hc)) [])

/-! ## Clauses -/

/-- A head without a neck and goals, each of which is read as a predicate, make up the text of a
clause that is read as the clause of these predicates. Each of them is one goal to the bracket scan,
and the goals are cut apart at the commas that were put between them and nowhere else. -/
theorem readClause_join {h : List Char} (hneck : ¬ ":-".toList <:+: h) {p : Predicate}
    (hp : settings.readPredicate h = .ok p) {gs : List (List Char)} {qs : List Predicate}
    (hgs : List.Forall₂ (fun g q => settings.readPredicate g = .ok q) gs qs) :
    settings.readClause (ClauseText.join h gs) = .ok ⟨p, qs⟩ ∧
      (∀ g ∈ h :: gs, Text.trim g ≠ [] ∧ splitGoals g = .ok [Text.trim g]) ∧
      (∀ body, (ClauseText.divide (ClauseText.join h gs)).body = some body →
        splitGoals body = .ok (gs.map Text.trim)) := by
  have hhead : IsPart h := isPart_of_readPredicate hp
  have hgoals : ∀ g ∈ gs, IsPart g := by
    intro g hg
    obtain ⟨i, hi, rfl⟩ := List.getElem_of_mem hg
    exact isPart_of_readPredicate (hgs.get hi (hgs.length_eq ▸ hi))
  have hdivide := ClauseText.divide_join hneck hhead.ne_nil gs
  refine ⟨?_, ?_, ?_⟩
  · rw [readClause_eq_ok, hdivide]
    constructor
    · have htrim := readPredicate_trim hp
      refine readHead_eq_ok.2 ⟨hhead.ne_nil, ?_, htrim⟩
      exact ⟨_, (isPart_of_readPredicate htrim).splitGoals_eq, Nat.le_refl 1⟩
    · by_cases hnone : gs = []
      · subst hnone
        cases hgs
        exact readBody_none.2 rfl
      · simp only [if_neg hnone]
        refine readBody_some.2 ⟨IsPart.trim_bodyText_ne_nil hnone hgoals, gs.map Text.trim,
          IsPart.splitGoals_bodyText hnone hgoals, readGoals_eq_ok.2 ?_⟩
        rw [List.forall₂_map_left_iff]
        exact hgs.imp fun g q hg => ⟨(isPart_of_readPredicate hg).ne_nil, readPredicate_trim hg⟩
  · intro g hg
    have hpart : IsPart g := by
      rcases List.mem_cons.1 hg with rfl | hg
      · exact hhead
      · exact hgoals g hg
    exact ⟨hpart.ne_nil, hpart.splitGoals_eq⟩
  · intro body hbody
    rw [hdivide] at hbody
    by_cases hnone : gs = []
    · simp [hnone] at hbody
    · simp only [if_neg hnone, Option.some.injEq] at hbody
      rw [← hbody]
      exact IsPart.splitGoals_bodyText hnone hgoals

/-- A head with a period of its own, a goal with commas inside brackets and one that begins with a
neck. -/
theorem readClause_join_neckInGoal :
    ¬ ":-".toList <:+: " p(X) .".toList ∧
      Settings.standard.readPredicate " p(X) .".toList = .ok ⟨"p", [.var "X"]⟩ ∧
      List.Forall₂ (fun g q => Settings.standard.readPredicate g = .ok q)
        ["q((a, b), [c | T]).".toList, ":- a".toList]
        [⟨"q", [.pair (.atom "a") (.atom "b"), .cell [.atom "c", .var "T"]]⟩,
          ⟨"-", [.atom ":", .atom "a"]⟩] ∧
      Settings.standard.readClause " p(X) . :- q((a, b), [c | T])., :- a.".toList =
        .ok ⟨⟨"p", [.var "X"]⟩,
          [⟨"q", [.pair (.atom "a") (.atom "b"), .cell [.atom "c", .var "T"]]⟩,
            ⟨"-", [.atom ":", .atom "a"]⟩]⟩ := by
  have hneck : ¬ ":-".toList <:+: " p(X) .".toList := by decide +kernel
  have hp : Settings.standard.readPredicate " p(X) .".toList = .ok ⟨"p", [.var "X"]⟩ := by
    decide +kernel
  have hgs : List.Forall₂ (fun g q => Settings.standard.readPredicate g = .ok q)
      ["q((a, b), [c | T]).".toList, ":- a".toList]
      [⟨"q", [.pair (.atom "a") (.atom "b"), .cell [.atom "c", .var "T"]]⟩,
        ⟨"-", [.atom ":", .atom "a"]⟩] :=
    .cons (by decide +kernel) (.cons (by decide +kernel) .nil)
  have htext : ClauseText.join " p(X) .".toList ["q((a, b), [c | T]).".toList, ":- a".toList] =
      " p(X) . :- q((a, b), [c | T])., :- a.".toList := by decide +kernel
  refine ⟨hneck, hp, hgs, ?_⟩
  rw [← htext]
  exact (readClause_join hneck hp hgs).1

end Settings

end HornClauses
