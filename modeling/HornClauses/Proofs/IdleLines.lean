import HornClauses.Proofs.ProgramComposition
import HornClauses.Proofs.Trimming

/-!
# Comments and blank lines

Clause texts are made of the code of the lines, so what a line holds besides its code is not seen,
and neither is a line without code, wherever it stands: before a clause, inside one or behind one.
It only counts as a line.

* `codeOf_comment`, `codeOf_of_isIdle`: the code of a line with a comment and of a line without code.
* `segments_congr`: the clause texts depend on the code of the lines only.
* `segments_insert_idle`: a line without code moves the lines below it.
* `Settings.readClauses_idle`: comments and lines without code are not seen.
-/

namespace HornClauses

/-! ## Code -/

/-- A comment behind a line is no code, and nor is the end of the line. -/
theorem codeOf_comment {ending : List Char} (hending : ∀ c ∈ ending, Text.isSpace c = true)
    (line comment : List Char) :
    codeOf (line ++ '%' :: (comment ++ ending)) = codeOf (line ++ ending) := by
  have hplain : ending.takeWhile (· ≠ '%') = ending := by
    rw [List.takeWhile_eq_self_iff]
    intro c hc
    have hne : c ≠ '%' := by
      rintro rfl
      exact absurd (hending '%' hc) (by decide)
    simpa using hne
  rw [codeOf, codeOf, List.takeWhile_append, List.takeWhile_append, hplain]
  split
  · rw [List.takeWhile_cons_of_neg (by simp), List.append_nil, Text.trim_append_space hending]
  · rfl

/-- A line of white space, or one that begins with a comment. -/
def IsIdle (line : List Char) : Prop :=
  (∀ c ∈ line, Text.isSpace c = true) ∨
    ∃ blanks comment, line = blanks ++ '%' :: comment ∧ ∀ c ∈ blanks, Text.isSpace c = true

theorem codeOf_of_isIdle {line : List Char} (h : IsIdle line) : codeOf line = [] := by
  have hblank : ∀ blanks : List Char, (∀ c ∈ blanks, Text.isSpace c = true) →
      codeOf blanks = [] := fun blanks hblanks =>
    Text.trim_eq_nil_iff.2 fun c hc => hblanks c ((blanks.takeWhile_sublist _).subset hc)
  rcases h with h | ⟨blanks, comment, rfl, h⟩
  · exact hblank line h
  · have hnone : ∀ c ∈ ([] : List Char), Text.isSpace c = true := by simp
    have hcode := codeOf_comment hnone blanks comment
    rw [List.append_nil, List.append_nil] at hcode
    rw [hcode, hblank blanks h]

/-! ## Lines and code -/

theorem numberCode_congr {ls ls' : List (List Char)} (h : ls.map codeOf = ls'.map codeOf)
    (first : Nat) : numberCode first ls = numberCode first ls' := by
  induction ls generalizing ls' first with
  | nil => rw [List.map_eq_nil_iff.1 h.symm]
  | cons l ls ih =>
    cases ls' with
    | nil => cases h
    | cons l' ls' =>
      rw [List.map_cons, List.map_cons, List.cons.injEq] at h
      rw [numberCode, numberCode, h.1, ih h.2]

theorem segments_congr {a b : List Char}
    (h : (Text.lines a).map codeOf = (Text.lines b).map codeOf) : segments a = segments b := by
  rw [segments, codeLines, numberCode_congr h, segments, codeLines]

namespace Text

theorem ne_lineFeed_of_mem_lines {s line : List Char} (h : line ∈ lines s) : ∀ c ∈ line, c ≠ '\n' := by
  induction s generalizing line with
  | nil =>
    rw [lines, List.mem_singleton] at h
    simp [h]
  | cons c s ih =>
    by_cases hc : c = '\n'
    · subst hc
      rw [lines_lineFeed_cons, List.mem_cons] at h
      rcases h with rfl | h
      · simp
      · exact ih h
    · obtain ⟨first, more, hlines⟩ := List.exists_cons_of_ne_nil (lines_ne_nil s)
      rw [lines_cons hc hlines, List.mem_cons] at h
      rw [hlines] at ih
      rcases h with rfl | h
      · exact List.forall_mem_cons.2 ⟨hc, ih List.mem_cons_self⟩
      · exact ih (List.mem_cons_of_mem first h)

theorem lines_joinLines {ls : List (List Char)} (hne : ls ≠ [])
    (h : ∀ line ∈ ls, ∀ c ∈ line, c ≠ '\n') : lines (joinLines ls) = ls := by
  induction ls with
  | nil => exact absurd rfl hne
  | cons line ls ih =>
    rw [List.forall_mem_cons] at h
    cases ls with
    | nil => exact lines_eq_singleton h.1
    | cons next ls =>
      rw [joinLines, lines_lineFeed, lines_eq_singleton h.1, ih (by simp) h.2]
      · rfl
      · simp

/-- The number of a line once another line stands below the first ones. -/
def numberBelow (above number : Nat) : Nat := if above < number then number + 1 else number

end Text

/-- A line without code moves the clauses that begin below it by a line. -/
theorem segments_insert_idle {source line : List Char} {above below : List (List Char)}
    (hlines : Text.lines source = above ++ below) (hline : ∀ c ∈ line, c ≠ '\n')
    (hidle : IsIdle line) :
    segments (Text.joinLines (above ++ line :: below)) =
      (segments source).map (Segment.renumber (Text.numberBelow above.length)) := by
  have hnew : Text.lines (Text.joinLines (above ++ line :: below)) = above ++ line :: below := by
    refine Text.lines_joinLines (by simp) fun l hl => ?_
    have hold : ∀ l ∈ above ++ below, ∀ c ∈ l, c ≠ '\n' := fun l hl =>
      Text.ne_lineFeed_of_mem_lines (hlines ▸ hl)
    rw [List.forall_mem_append] at hold
    rcases List.mem_append.1 hl with hl | hl
    · exact hold.1 l hl
    · rcases List.mem_cons.1 hl with rfl | hl
      · exact hline
      · exact hold.2 l hl
  have habove : (numberCode 1 above).map (Segment.renumber (Text.numberBelow above.length)) =
      numberCode 1 above := by
    refine (List.map_congr_left fun s hs => ?_).trans (List.map_id _)
    have hnumber := (line_of_mem_numberCode hs).2
    rw [Segment.renumber, Text.numberBelow, if_neg (by omega)]
    rfl
  have hbelow : (numberCode (1 + above.length) below).map
      (Segment.renumber (Text.numberBelow above.length)) =
        numberCode (1 + above.length + 1) below := by
    rw [numberCode_add (1 + above.length)]
    refine List.map_congr_left fun s hs => ?_
    have hnumber := (line_of_mem_numberCode hs).1
    rw [Segment.renumber, Text.numberBelow, if_pos (by omega), Segment.renumber]
  have hcodes : codeLines (Text.joinLines (above ++ line :: below)) =
      (codeLines source).map (Segment.renumber (Text.numberBelow above.length)) := by
    rw [codeLines, hnew, numberCode_append, numberCode, codeOf_of_isIdle hidle,
      List.isEmpty_nil, if_pos rfl, codeLines, hlines, numberCode_append, List.map_append, habove,
      hbelow]
  rw [segments, hcodes]
  exact Segment.ofLines_renumber _ none _

/-- A comment at the end of a line leaves all clause texts on their lines. The line may end with a
carriage return. -/
theorem segments_comment {source line comment ending : List Char} {above below : List (List Char)}
    (hlines : Text.lines source = above ++ (line ++ ending) :: below)
    (hending : ending = [] ∨ ending = ['\r']) (hcomment : ∀ c ∈ comment, c ≠ '\n') :
    segments (Text.joinLines (above ++ (line ++ '%' :: (comment ++ ending)) :: below)) =
      segments source := by
  have hspace : ∀ c ∈ ending, Text.isSpace c = true ∧ c ≠ '\n' := by
    rcases hending with rfl | rfl
    · simp
    · exact List.forall_mem_singleton.2 (by decide)
  have hold : ∀ l ∈ above ++ (line ++ ending) :: below, ∀ c ∈ l, c ≠ '\n' := fun l hl =>
    Text.ne_lineFeed_of_mem_lines (hlines ▸ hl)
  rw [List.forall_mem_append, List.forall_mem_cons, List.forall_mem_append] at hold
  obtain ⟨habove, ⟨hline, -⟩, hbelow⟩ := hold
  have hnew : ∀ c ∈ line ++ '%' :: (comment ++ ending), c ≠ '\n' := by
    rw [List.forall_mem_append, List.forall_mem_cons, List.forall_mem_append]
    exact ⟨hline, by decide, hcomment, fun c hc => (hspace c hc).2⟩
  apply segments_congr
  rw [Text.lines_joinLines (by simp), hlines, List.map_append, List.map_append, List.map_cons,
    List.map_cons, codeOf_comment fun c hc => (hspace c hc).1]
  rw [List.forall_mem_append, List.forall_mem_cons]
  exact ⟨habove, hnew, hbelow⟩

namespace Settings

/-- Comments behind lines are not seen, and a line without code is seen in the numbers of the lines
below it only. -/
theorem readClauses_idle (settings : Settings) (source : List Char) :
    (∀ above line ending below comment, Text.lines source = above ++ (line ++ ending) :: below →
      (ending = [] ∨ ending = ['\r']) → (∀ c ∈ comment, c ≠ '\n') →
      segments (Text.joinLines (above ++ (line ++ '%' :: (comment ++ ending)) :: below)) =
          segments source ∧
        settings.readClauses
            (Text.joinLines (above ++ (line ++ '%' :: (comment ++ ending)) :: below)) =
          settings.readClauses source) ∧
    ∀ above line below, Text.lines source = above ++ below → (∀ c ∈ line, c ≠ '\n') →
      IsIdle line →
      (segments (Text.joinLines (above ++ line :: below))).map Segment.text =
          (segments source).map Segment.text ∧
        segments (Text.joinLines (above ++ line :: below)) =
          (segments source).map (Segment.renumber (Text.numberBelow above.length)) ∧
        settings.readClauses (Text.joinLines (above ++ line :: below)) =
          (settings.readClauses source).map
            (Except.mapError (.relocate 0 (Text.numberBelow above.length))) := by
  constructor
  · intro above line ending below comment hlines hending hcomment
    have hsegments := segments_comment hlines hending hcomment
    exact ⟨hsegments, by rw [readClauses, hsegments, readClauses]⟩
  · intro above line below hlines hline hidle
    have hsegments := segments_insert_idle hlines hline hidle
    refine ⟨?_, hsegments, readClauses_eq_renumber hsegments⟩
    rw [hsegments, List.map_map]
    rfl

/-- A comment behind a comment, and a line without code inside a clause. -/
theorem segments_idle_insideClause :
    (Text.lines "p(X) :- % a\n  q(X).\nr(.".toList =
        [] ++ ("p(X) :- % a".toList ++ []) :: ["  q(X).".toList, "r(.".toList] ∧
      segments "p(X) :- % a% b\n  q(X).\nr(.".toList =
        segments "p(X) :- % a\n  q(X).\nr(.".toList) ∧
    IsIdle " \t% c".toList ∧
      segments "p(X) :- % a\n \t% c\n  q(X).\nr(.".toList =
        [⟨1, "p(X) :- q(X).".toList⟩, ⟨4, "r(.".toList⟩] := by
  have hlines : Text.lines "p(X) :- % a\n  q(X).\nr(.".toList =
      [] ++ ("p(X) :- % a".toList ++ []) :: ["  q(X).".toList, "r(.".toList] := by decide +kernel
  have hidle : IsIdle " \t% c".toList :=
    Or.inr ⟨" \t".toList, " c".toList, rfl, List.all_iff_forall_prop.1 rfl⟩
  obtain ⟨hcomment, hinsert⟩ := readClauses_idle .standard "p(X) :- % a\n  q(X).\nr(.".toList
  refine ⟨⟨hlines, ?_⟩, hidle, ?_⟩
  · have hb : ∀ c ∈ " b".toList, c ≠ '\n' := List.all_iff_forall_prop.1 rfl
    exact (hcomment _ _ _ _ " b".toList hlines (Or.inl rfl) hb).1
  · have hline : ∀ c ∈ " \t% c".toList, c ≠ '\n' := List.all_iff_forall_prop.1 rfl
    refine (hinsert ["p(X) :- % a".toList] _ _ hlines hline hidle).2.1.trans ?_
    decide +kernel

end Settings

end HornClauses
