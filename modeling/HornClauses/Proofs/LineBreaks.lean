import HornClauses.Proofs.Respacing
import HornClauses.Proofs.Segmentation

/-!
# Lines of a clause that are broken

A line of code that is broken at a blank becomes two lines, and of these the first does not complete
a clause unless it ends in a period. So the clauses are begun and completed with the same lines, and
where the line was broken there is one blank in the clause text in place of the white space.

* `Segment.ofLines_alike`: lines with the same code but for white space are grouped in one way.
* `Segment.ofLines_break`: so are a line and the two parts of it.
* `segments_lineBreak`: a line break leaves the clause texts the same but for white space.
* `Settings.readProgram_lineBreak`: and so the program is read as before.
-/

namespace HornClauses

/-! ## Grouping -/

namespace Segment

/-- Two clause texts, wherever they stand, that are the same but for white space. -/
def Alike (s s' : Segment) : Prop := Respaced s.text s'.text

theorem Alike.isComplete_eq {s s' : Segment} (h : Alike s s') : s.isComplete = s'.isComplete := by
  have hiff := h.getLast?_iff (c := '.') rfl
  simp only [isComplete, hiff]

theorem Alike.join {begun begun' : Option Segment} (h : Option.Rel Alike begun begun')
    {code code' : Segment} (hcode : Alike code code') :
    Alike (join begun code) (join begun' code') := by
  cases h with
  | none => exact hcode
  | some hbegun => exact Respaced.append hbegun (.char ' ' hcode)

theorem ofLines_alike {begun begun' : Option Segment} (h : Option.Rel Alike begun begun')
    {codes codes' : List Segment} (hcodes : List.Forall₂ Alike codes codes') :
    List.Forall₂ Alike (ofLines begun codes) (ofLines begun' codes') := by
  induction hcodes generalizing begun begun' with
  | nil =>
    cases h with
    | none => exact .nil
    | some hbegun => exact .cons hbegun .nil
  | @cons code code' codes codes' hcode _ ih =>
    rw [ofLines, ofLines, hcode.isComplete_eq]
    split
    · exact .cons (Alike.join h hcode) (ih .none)
    · exact ih (.some (Alike.join h hcode))

/-- A line of code is put to what is begun like its two parts, one after the other. -/
theorem join_break (begun : Option Segment) {x gap y : List Char} (hgap : gap ≠ [])
    (hspace : ∀ c ∈ gap, Text.isSpace c = true) (number number' number'' : Nat) :
    Alike (join begun ⟨number, x ++ gap ++ y⟩)
      (join (some (join begun ⟨number', x⟩)) ⟨number'', y⟩) := by
  have hline : Respaced (x ++ gap ++ y) (x ++ ' ' :: y) := by
    rw [List.append_assoc]
    exact (Respaced.refl x).append ((Respaced.space hgap hspace).append (Respaced.refl y))
  cases begun with
  | none => exact hline
  | some b =>
    have hjoin := (Respaced.refl (b.text ++ [' '])).append hline
    simpa [Alike, join] using hjoin

/-- Breaking a line in two where the first part completes no clause leaves the clauses alike. -/
theorem ofLines_break (begun : Option Segment) {x gap y : List Char} (hx : x.getLast? ≠ some '.')
    (hy : y ≠ []) (hgap : gap ≠ []) (hspace : ∀ c ∈ gap, Text.isSpace c = true)
    {codes codes' : List Segment} (hcodes : List.Forall₂ Alike codes codes')
    (number number' number'' : Nat) :
    List.Forall₂ Alike (ofLines begun (⟨number, x ++ gap ++ y⟩ :: codes))
      (ofLines begun (⟨number', x⟩ :: ⟨number'', y⟩ :: codes')) := by
  have hjoin := join_break begun (x := x) (y := y) hgap hspace number number' number''
  have hfirst : (Segment.mk number' x).isComplete = false := by simpa [isComplete] using hx
  have hsecond : (Segment.mk number (x ++ gap ++ y)).isComplete =
      (Segment.mk number'' y).isComplete := by
    simp only [isComplete, List.getLast?_append_of_ne_nil _ hy]
  rw [ofLines, ofLines, hfirst, if_neg Bool.false_ne_true, ofLines, hsecond]
  split
  · exact .cons hjoin (ofLines_alike .none hcodes)
  · exact ofLines_alike (.some hjoin) hcodes

end Segment

theorem numberCode_alike (first first' : Nat) (ls : List (List Char)) :
    List.Forall₂ Segment.Alike (numberCode first ls) (numberCode first' ls) := by
  induction ls generalizing first first' with
  | nil => exact .nil
  | cons l ls ih =>
    rw [numberCode, numberCode]
    split
    · exact ih (first + 1) (first' + 1)
    · exact .cons (Respaced.refl _) (ih (first + 1) (first' + 1))

/-! ## Lines -/

/-- What stands behind the last line feed of a text. -/
def Text.lastLine (s : List Char) : List Char := (lines s).getLast (lines_ne_nil s)

/-- The code of a line is made of the code of its two parts. -/
theorem ofLines_numberCode_break (begun : Option Segment) {c : Char} (hc : Text.isSpace c = true)
    {start : List Char} (hcomment : ∀ d ∈ start, d ≠ '%')
    (hperiod : (Text.trim start).getLast? ≠ some '.') (first : List Char)
    (more : List (List Char)) (number : Nat) :
    List.Forall₂ Segment.Alike
      (Segment.ofLines begun (numberCode number ((start ++ c :: first) :: more)))
      (Segment.ofLines begun (numberCode number (start :: first :: more))) := by
  have hspace : ∀ d ∈ [c], Text.isSpace d = true := List.forall_mem_singleton.2 hc
  have hline : codeOf (start ++ c :: first) =
      Text.trim (start ++ [c] ++ first.takeWhile (· ≠ '%')) := by
    have hpercent : c ≠ '%' := by
      rintro rfl
      cases hc
    have hcode := codeOf_append
      (List.forall_mem_append.2 ⟨hcomment, List.forall_mem_singleton.2 hpercent⟩) first
    rwa [List.append_assoc, List.singleton_append] at hcode
  have hrefl : Option.Rel Segment.Alike begun begun := by
    cases begun with
    | none => exact .none
    | some b => exact .some (Respaced.refl b.text)
  simp only [numberCode, List.isEmpty_iff]
  rw [hline, codeOf_eq_trim hcomment]
  by_cases hx : Text.trim start = []
  · -- The first part has no code, and the line has that of the second part.
    have hblank : ∀ d ∈ start ++ [c], Text.isSpace d = true :=
      List.forall_mem_append.2 ⟨Text.trim_eq_nil_iff.1 hx, hspace⟩
    rw [Text.trim_space_append hblank, ← codeOf, if_pos hx]
    split
    · exact Segment.ofLines_alike hrefl (numberCode_alike _ _ more)
    · exact Segment.ofLines_alike hrefl (.cons (Respaced.refl _) (numberCode_alike _ _ more))
  by_cases hy : codeOf first = []
  · -- The second part has no code, and the line has that of the first part.
    have hblank : ∀ d ∈ [c] ++ first.takeWhile (· ≠ '%'), Text.isSpace d = true :=
      List.forall_mem_append.2 ⟨hspace, Text.trim_eq_nil_iff.1 hy⟩
    rw [List.append_assoc, Text.trim_append_space hblank, if_neg hx, if_neg hx, if_pos hy]
    exact Segment.ofLines_alike hrefl (.cons (Respaced.refl _) (numberCode_alike _ _ more))
  · obtain ⟨gap, hgap, hall, hjoined⟩ :=
      Text.exists_trim_append hspace (List.cons_ne_nil c []) hx hy
    rw [hjoined, ← codeOf, if_neg (by simp [hx]), if_neg hx, if_neg hy]
    exact Segment.ofLines_break begun hperiod hy hgap hall (numberCode_alike _ _ more) _ _ _

/-- A line break in the place of white space that stands before the comment of its line, and behind
no period that ends a line, leaves the clause texts the same but for white space. -/
theorem segments_lineBreak {before : List Char} {c : Char} (hc : Text.isSpace c = true)
    (hfeed : c ≠ '\n') (hcomment : ∀ d ∈ Text.lastLine before, d ≠ '%')
    (hperiod : (Text.trim (Text.lastLine before)).getLast? ≠ some '.') (after : List Char) :
    List.Forall₂ Segment.Alike (segments (before ++ c :: after))
      (segments (before ++ '\n' :: after)) := by
  have hbefore : Text.lines before = (Text.lines before).dropLast ++ [Text.lastLine before] :=
    (List.dropLast_append_getLast (Text.lines_ne_nil before)).symm
  generalize (Text.lines before).dropLast = above at hbefore
  generalize Text.lastLine before = start at hcomment hperiod hbefore
  obtain ⟨first, more, hafter⟩ := List.exists_cons_of_ne_nil (Text.lines_ne_nil after)
  have hold := Text.lines_append hbefore (Text.lines_cons hfeed hafter)
  have hnew : Text.lines (before ++ '\n' :: after) = above ++ start :: first :: more := by
    rw [Text.lines_lineFeed, hbefore, hafter, List.append_assoc]
    rfl
  obtain ⟨done, left, -, hsplit⟩ := Segment.ofLines_append none (by simp) (numberCode 1 above)
  rw [segments, codeLines, hold, numberCode_append, hsplit, segments, codeLines, hnew,
    numberCode_append, hsplit]
  exact List.rel_append (List.forall₂_same.2 fun s _ => Respaced.refl s.text)
    (ofLines_numberCode_break left hc hcomment hperiod first more (1 + above.length))

namespace Settings

/-- A program is read as before when one of its lines is broken at a blank or a tab, unless that
stands in a comment or behind a period that then ends a line. -/
theorem readProgram_lineBreak {settings : Settings} {before after : List Char} {c : Char}
    {cs : List Clause} (h : settings.readProgram (before ++ c :: after) = .ok cs)
    (hc : c = ' ' ∨ c = '\t') (hcomment : ∀ d ∈ Text.lastLine before, d ≠ '%')
    (hperiod : (Text.trim (Text.lastLine before)).getLast? ≠ some '.') :
    settings.readProgram (before ++ '\n' :: after) = .ok cs := by
  have hspace : Text.isSpace c = true ∧ c ≠ '\n' := by
    rcases hc with rfl | rfl <;> decide
  have halike := segments_lineBreak hspace.1 hspace.2 hcomment hperiod after
  rw [readProgram_eq_ok] at h ⊢
  generalize segments (before ++ c :: after) = ss at h halike
  generalize segments (before ++ '\n' :: after) = ss' at halike ⊢
  induction halike generalizing cs with
  | nil => exact h
  | cons hs _ ih =>
    cases h with
    | cons hread hreads => exact .cons (readClause_of_respaced hs hread) (ih hreads)

/-- A body broken at a tab behind several blanks, on a line with a comment. -/
theorem readProgram_lineBreak_insideBody :
    (∀ d ∈ Text.lastLine "p(a). % one\np(X) :- q(X) ,  ".toList, d ≠ '%') ∧
      (Text.trim (Text.lastLine "p(a). % one\np(X) :- q(X) ,  ".toList)).getLast? ≠ some '.' ∧
      Settings.standard.readProgram
          ("p(a). % one\np(X) :- q(X) ,  ".toList ++ '\n' :: " r . % two".toList) =
        .ok [⟨⟨"p", [.atom "a"]⟩, []⟩,
          ⟨⟨"p", [.var "X"]⟩, [⟨"q", [.var "X"]⟩, ⟨"r", []⟩]⟩] := by
  have hcomment : ∀ d ∈ Text.lastLine "p(a). % one\np(X) :- q(X) ,  ".toList, d ≠ '%' :=
    List.all_iff_forall_prop.1 (by decide +kernel)
  have hperiod : (Text.trim (Text.lastLine "p(a). % one\np(X) :- q(X) ,  ".toList)).getLast? ≠
      some '.' := by decide +kernel
  have hread : Settings.standard.readProgram
      ("p(a). % one\np(X) :- q(X) ,  ".toList ++ '\t' :: " r . % two".toList) =
        .ok [⟨⟨"p", [.atom "a"]⟩, []⟩,
          ⟨⟨"p", [.var "X"]⟩, [⟨"q", [.var "X"]⟩, ⟨"r", []⟩]⟩] := by
    decide +kernel
  exact ⟨hcomment, hperiod, readProgram_lineBreak hread (Or.inr rfl) hcomment hperiod⟩

end Settings

end HornClauses
