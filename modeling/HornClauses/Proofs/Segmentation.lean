import HornClauses.Segment
import Mathlib.Data.List.Basic

/-!
# Clause texts of parts of a program

A program is divided line by line, and what is carried from one line to the next is the clause that
is begun there. So the lines of a part are grouped on their own up to that clause, and a part that
leaves none begun does not touch what follows. The numbers of lines are carried along and decide
nothing.

* `Text.lines_append`: the last line of one text and the first line of the next become one line.
* `codeOf_append`: the code of a line whose first part holds no percent sign.
* `Segment.ofLines_eq_self`: lines that are clause texts by themselves.
* `Segment.ofLines_append`: lines are grouped part by part.
* `Segment.ofLines_renumber`: the groups do not depend on the numbers of the lines.
* `segments_lineFeed`: the clause texts of two programs, one below the other.
-/

namespace HornClauses

/-! ## Lines -/

namespace Text

theorem exists_lines (s : List Char) : ∃ ls last, lines s = ls ++ [last] :=
  (List.eq_nil_or_concat' (lines s)).resolve_left (lines_ne_nil s)

theorem lines_cons {c : Char} (hc : c ≠ '\n') {s first : List Char} {more : List (List Char)}
    (h : lines s = first :: more) : lines (c :: s) = (c :: first) :: more := by
  rw [lines, if_neg hc, h]

theorem lines_lineFeed_cons (s : List Char) : lines ('\n' :: s) = [] :: lines s := by
  rw [lines, if_pos rfl]

theorem lines_eq_singleton {s : List Char} (h : ∀ c ∈ s, c ≠ '\n') : lines s = [s] := by
  induction s with
  | nil => rfl
  | cons c s ih =>
    rw [List.forall_mem_cons] at h
    exact lines_cons h.1 (ih h.2)

theorem lines_append {s t last first : List Char} {ls more : List (List Char)}
    (hs : lines s = ls ++ [last]) (ht : lines t = first :: more) :
    lines (s ++ t) = ls ++ (last ++ first) :: more := by
  induction s generalizing ls last with
  | nil =>
    obtain ⟨rfl, hlast⟩ := List.append_eq_singleton_iff.1 hs.symm |>.resolve_right (by simp)
    cases hlast
    exact ht
  | cons c s ih =>
    by_cases hc : c = '\n'
    · subst hc
      rw [lines_lineFeed_cons] at hs
      cases ls with
      | nil =>
        rw [List.nil_append, List.cons.injEq] at hs
        exact absurd hs.2 (lines_ne_nil s)
      | cons l ls =>
        rw [List.cons_append, List.cons.injEq] at hs
        rw [List.cons_append, lines_lineFeed_cons, ih hs.2, ← hs.1, List.cons_append]
    · obtain ⟨line, rest, hline⟩ := List.exists_cons_of_ne_nil (lines_ne_nil s)
      rw [lines_cons hc hline] at hs
      cases ls with
      | nil =>
        rw [List.nil_append, List.cons.injEq] at hs
        obtain ⟨rfl, rfl⟩ := hs
        exact lines_cons hc (ih (show lines s = [] ++ [_] from hline))
      | cons l ls =>
        rw [List.cons_append, List.cons.injEq] at hs
        obtain ⟨rfl, rfl⟩ := hs
        exact lines_cons hc (ih (show lines s = line :: ls ++ [_] from hline))

/-- A line feed parts the lines before it from those behind it. -/
theorem lines_lineFeed (s t : List Char) : lines (s ++ '\n' :: t) = lines s ++ lines t := by
  obtain ⟨ls, last, hs⟩ := exists_lines s
  rw [lines_append hs (lines_lineFeed_cons t), hs, List.append_nil, List.append_assoc]
  rfl

theorem length_lines (s : List Char) : (lines s).length = s.count '\n' + 1 := by
  induction s with
  | nil => rfl
  | cons c s ih =>
    by_cases hc : c = '\n'
    · subst hc
      rw [lines_lineFeed_cons, List.length_cons, ih, List.count_cons_self]
    · obtain ⟨line, rest, hline⟩ := List.exists_cons_of_ne_nil (lines_ne_nil s)
      rw [lines_cons hc hline, List.count_cons_of_ne hc, ← ih, hline]
      rfl

end Text

/-! ## Code without a percent sign -/

theorem codeOf_append {s : List Char} (h : ∀ c ∈ s, c ≠ '%') (rest : List Char) :
    codeOf (s ++ rest) = Text.trim (s ++ rest.takeWhile (· ≠ '%')) := by
  rw [codeOf, List.takeWhile_append_of_pos (by simpa using h)]

theorem codeOf_eq_trim {s : List Char} (h : ∀ c ∈ s, c ≠ '%') : codeOf s = Text.trim s := by
  have hcode := codeOf_append h []
  rwa [List.takeWhile_nil, List.append_nil] at hcode

/-! ## Numbers of lines -/

namespace Segment

/-- The same text on another line. -/
def renumber (f : Nat → Nat) (s : Segment) : Segment := { s with line := f s.line }

@[simp] theorem text_renumber (f : Nat → Nat) (s : Segment) : (s.renumber f).text = s.text := rfl

@[simp] theorem isComplete_renumber (f : Nat → Nat) (s : Segment) :
    (s.renumber f).isComplete = s.isComplete := rfl

theorem join_renumber (f : Nat → Nat) (begun : Option Segment) (code : Segment) :
    join (begun.map (renumber f)) (code.renumber f) = (join begun code).renumber f := by
  cases begun <;> rfl

theorem ofLines_renumber (f : Nat → Nat) (begun : Option Segment) (codes : List Segment) :
    ofLines (begun.map (renumber f)) (codes.map (renumber f)) =
      (ofLines begun codes).map (renumber f) := by
  induction codes generalizing begun with
  | nil => cases begun <;> rfl
  | cons code codes ih =>
    rw [List.map_cons, ofLines, ofLines, isComplete_renumber, join_renumber]
    split
    · rw [List.map_cons, ← ih none]
      rfl
    · exact ih (some (join begun code))

end Segment

theorem numberCode_append (first : Nat) (ls ms : List (List Char)) :
    numberCode first (ls ++ ms) = numberCode first ls ++ numberCode (first + ls.length) ms := by
  induction ls generalizing first with
  | nil => rfl
  | cons l ls ih =>
    have hfirst : first + (l :: ls).length = first + 1 + ls.length := by
      rw [List.length_cons]
      omega
    rw [List.cons_append, numberCode, numberCode, ih (first + 1), hfirst]
    split <;> rfl

theorem numberCode_add (first k : Nat) (ls : List (List Char)) :
    numberCode (first + k) ls = (numberCode first ls).map (Segment.renumber (· + k)) := by
  induction ls generalizing first with
  | nil => rfl
  | cons l ls ih =>
    have hnext : first + k + 1 = first + 1 + k := by omega
    rw [numberCode, numberCode, hnext, ih (first + 1)]
    split <;> rfl

theorem line_of_mem_numberCode {first : Nat} {ls : List (List Char)} {s : Segment}
    (h : s ∈ numberCode first ls) : first ≤ s.line ∧ s.line < first + ls.length := by
  induction ls generalizing first with
  | nil => cases h
  | cons l ls ih =>
    have hrest : s ∈ numberCode (first + 1) ls →
        first ≤ s.line ∧ s.line < first + (l :: ls).length := by
      intro hs
      have := ih hs
      rw [List.length_cons]
      omega
    rw [numberCode] at h
    split at h
    · exact hrest h
    · rcases List.mem_cons.1 h with rfl | hs
      · simp
      · exact hrest hs

/-- Lines that are code as they stand. -/
theorem numberCode_eq_mapIdx {ls : List (List Char)} (h : ∀ l ∈ ls, codeOf l = l ∧ l ≠ [])
    (first : Nat) : numberCode first ls = ls.mapIdx fun i l => ⟨i + first, l⟩ := by
  induction ls generalizing first with
  | nil => rfl
  | cons l ls ih =>
    rw [List.forall_mem_cons] at h
    obtain ⟨⟨hcode, hne⟩, hrest⟩ := h
    rw [numberCode, hcode, if_neg (by simpa using hne), ih hrest, List.mapIdx_cons, Nat.zero_add]
    simp only [Nat.add_right_comm, Nat.add_assoc]

/-! ## Grouping -/

namespace Segment

/-- Lines that end in a period are clause texts by themselves, and so is a last line that does
not. -/
theorem ofLines_eq_self {ss : List Segment} (h : ∀ s ∈ ss.dropLast, s.isComplete = true) :
    ofLines none ss = ss := by
  induction ss with
  | nil => rfl
  | cons s ss ih =>
    cases ss with
    | nil =>
      rw [ofLines]
      split <;> rfl
    | cons next rest =>
      rw [List.dropLast_cons_cons, List.forall_mem_cons] at h
      rw [ofLines, if_pos h.1, ih h.2]
      rfl

/-- A clause is complete once a line that ends in a period is put to it. -/
theorem isComplete_join (begun : Option Segment) (code : Segment) :
    (join begun code).isComplete = code.isComplete := by
  cases begun with
  | none => rfl
  | some s =>
    have hblank : (' ' :: code.text).getLast? = some '.' ↔ code.text.getLast? = some '.' := by
      cases htext : code.text with
      | nil => decide
      | cons c rest => rw [List.getLast?_cons_cons]
    simp only [join, isComplete, List.getLast?_append_of_ne_nil _ (List.cons_ne_nil _ _), hblank]

/-- The clauses that are completed on some lines stay as they are, and the clause that is left begun
goes on with the lines that follow. -/
theorem ofLines_append (begun : Option Segment) (hbegun : ∀ b ∈ begun, b.isComplete = false)
    (codes : List Segment) :
    ∃ done left, (∀ b ∈ left, b.isComplete = false) ∧
      ∀ more, ofLines begun (codes ++ more) = done ++ ofLines left more := by
  induction codes generalizing begun with
  | nil => exact ⟨[], begun, hbegun, fun _ => rfl⟩
  | cons code codes ih =>
    by_cases hcode : code.isComplete = true
    · obtain ⟨done, left, hleft, hsplit⟩ := ih none (by simp)
      refine ⟨join begun code :: done, left, hleft, fun more => ?_⟩
      rw [List.cons_append, ofLines, if_pos hcode, hsplit, List.cons_append]
    · have hjoin : (join begun code).isComplete = false := by
        rw [isComplete_join]
        simpa using hcode
      obtain ⟨done, left, hleft, hsplit⟩ := ih (some (join begun code)) (by simpa using hjoin)
      refine ⟨done, left, hleft, fun more => ?_⟩
      rw [List.cons_append, ofLines, if_neg hcode, hsplit]

/-- No clause is left begun behind the last of these. -/
def Closed (ss : List Segment) : Prop := ∀ s ∈ ss.getLast?, s.isComplete = true

theorem ofLines_append_of_closed {codes : List Segment} (h : Closed (ofLines none codes))
    (more : List Segment) : ofLines none (codes ++ more) = ofLines none codes ++ ofLines none more := by
  obtain ⟨done, left, hleft, hsplit⟩ := ofLines_append none (by simp) codes
  have hcodes : ofLines none codes = done ++ left.toList := by
    rw [← List.append_nil codes, hsplit]
    rfl
  cases left with
  | none => rw [hsplit, hcodes, Option.toList_none, List.append_nil]
  | some b =>
    have hlast : b ∈ (ofLines none codes).getLast? := by
      rw [hcodes, Option.toList_some, List.getLast?_concat]
      rfl
    exact absurd ((h b hlast).symm.trans (hleft b rfl)) Bool.noConfusion

end Segment

/-! ## Programs -/

/-- A program that leaves no clause begun stands before another, which begins on the line below. -/
theorem segments_lineFeed {a : List Char} (h : Segment.Closed (segments a)) (b : List Char) :
    segments (a ++ '\n' :: b) =
      segments a ++ (segments b).map (Segment.renumber (· + (a.count '\n' + 1))) := by
  have hcodes : codeLines (a ++ '\n' :: b) =
      codeLines a ++ (codeLines b).map (Segment.renumber (· + (a.count '\n' + 1))) := by
    rw [codeLines, Text.lines_lineFeed, numberCode_append, Text.length_lines, numberCode_add]
    rfl
  rw [segments, hcodes, Segment.ofLines_append_of_closed h]
  exact congrArg _ (Segment.ofLines_renumber _ none _)

end HornClauses
