import HornClauses.Proofs.IdleLines
import Mathlib.Data.List.SplitBy

/-!
# Clause texts as runs of lines

The loop over the lines keeps one clause text that is begun, and that text alone tells whether a
clause is in progress. Seen from outside, it cuts the lines of code behind each line that ends in a
period: what is begun is always the text of a run of lines without such a line, so the loop returns
the texts of the runs, and there is one way only to cut the lines so. No line is lost, repeated or
moved.

* `Segment.Runs`: the runs into which lines of code are cut, `Segment.ofRun`: the text of a run.
* `Segment.runs_iff`: there is one way to cut the lines.
* `Segment.ofLines_begunBy`: what the loop returns, given the run that is begun.
* `Settings.segments_partition`: the clause texts of a program, and the errors of its clauses.
-/

namespace HornClauses

/-! ## Texts with separators between them -/

namespace Bracket

variable {separator : Char}

theorem joinWith_append {pieces more : List (List Char)} (h : pieces ≠ []) (h' : more ≠ []) :
    joinWith separator (pieces ++ more) =
      joinWith separator pieces ++ separator :: joinWith separator more := by
  induction pieces with
  | nil => exact absurd rfl h
  | cons piece pieces ih =>
    by_cases hrest : pieces = []
    · subst hrest
      exact joinWith_cons h' piece
    · rw [List.cons_append, joinWith_cons (List.append_ne_nil_of_left_ne_nil hrest more),
        ih hrest, joinWith_cons hrest, List.append_assoc, List.cons_append]

/-- Pieces may be put together in groups first. -/
theorem joinWith_flatten {groups : List (List (List Char))} (h : ∀ group ∈ groups, group ≠ []) :
    joinWith separator (groups.map (joinWith separator)) = joinWith separator groups.flatten := by
  induction groups with
  | nil => rfl
  | cons group groups ih =>
    rw [List.forall_mem_cons] at h
    by_cases hrest : groups = []
    · subst hrest
      rw [List.flatten_singleton]
      rfl
    · have hflatten : groups.flatten ≠ [] := by
        obtain ⟨next, more, rfl⟩ := List.exists_cons_of_ne_nil hrest
        exact List.append_ne_nil_of_left_ne_nil (h.2 next List.mem_cons_self) _
      rw [List.map_cons, joinWith_cons (by simpa using hrest), ih h.2, List.flatten_cons,
        joinWith_append h.1 hflatten]

theorem joinWith_ne_nil {pieces : List (List Char)} (hne : pieces ≠ [])
    (h : ∀ piece ∈ pieces, piece ≠ []) : joinWith separator pieces ≠ [] := by
  obtain ⟨piece, rest, rfl⟩ := List.exists_cons_of_ne_nil hne
  have hpiece := h piece List.mem_cons_self
  by_cases hrest : rest = []
  · subst hrest
    exact hpiece
  · rw [joinWith_cons hrest]
    exact List.append_ne_nil_of_left_ne_nil hpiece _

/-- What holds of the separator and of all characters of the pieces holds of the whole. -/
theorem forall_mem_joinWith {p : Char → Prop} (hseparator : p separator)
    {pieces : List (List Char)} (h : ∀ piece ∈ pieces, ∀ c ∈ piece, p c) :
    ∀ c ∈ joinWith separator pieces, p c := by
  induction pieces with
  | nil => simp [joinWith]
  | cons piece pieces ih =>
    rw [List.forall_mem_cons] at h
    by_cases hrest : pieces = []
    · subst hrest
      exact h.1
    · rw [joinWith_cons hrest, List.forall_mem_append, List.forall_mem_cons]
      exact ⟨h.1, hseparator, ih h.2⟩

end Bracket

/-! ## Lines of code -/

theorem numberCode_eq_filter (first : Nat) (ls : List (List Char)) :
    numberCode first ls =
      ((ls.zipIdx first).map fun l => ⟨l.2, codeOf l.1⟩).filter fun s => !s.text.isEmpty := by
  induction ls generalizing first with
  | nil => rfl
  | cons l ls ih =>
    rw [numberCode, ih (first + 1), List.zipIdx_cons, List.map_cons, List.filter_cons]
    cases (codeOf l).isEmpty <;> rfl

theorem numberCode_pairwise (first : Nat) (ls : List (List Char)) :
    (numberCode first ls).Pairwise fun s s' => s.line < s'.line := by
  induction ls generalizing first with
  | nil => exact .nil
  | cons l ls ih =>
    rw [numberCode]
    split
    · exact ih (first + 1)
    · exact List.pairwise_cons.2 ⟨fun s hs => (line_of_mem_numberCode hs).1, ih (first + 1)⟩

theorem mem_of_mem_trim {s : List Char} {c : Char} (h : c ∈ Text.trim s) : c ∈ s := by
  obtain ⟨before, after, -, -, heq⟩ := Text.exists_trim s
  rw [heq]
  simp [h]

theorem mem_of_mem_codeOf {line : List Char} {c : Char} (h : c ∈ codeOf line) :
    c ∈ line ∧ c ≠ '%' := by
  have htake := mem_of_mem_trim h
  exact ⟨(line.takeWhile_sublist _).subset htake, by simpa using List.mem_takeWhile_imp htake⟩

/-- A text without comments and line feeds that is not empty, trimmed as lines of code are. -/
structure IsCode (s : List Char) : Prop where
  ne_nil : s ≠ []
  trimmed : Text.Trimmed s
  plain : ∀ c ∈ s, c ≠ '%' ∧ c ≠ '\n'

theorem isCode_of_mem_codeLines {source : List Char} {code : Segment}
    (h : code ∈ codeLines source) : IsCode code.text := by
  rw [codeLines, numberCode_eq_filter, List.mem_filter, List.mem_map] at h
  obtain ⟨⟨⟨line, number⟩, hline, rfl⟩, hne⟩ := h
  have hfeed := Text.ne_lineFeed_of_mem_lines (List.fst_mem_of_mem_zipIdx hline)
  refine ⟨by simpa using hne, Text.trimmed_trim _, fun c hc => ?_⟩
  obtain ⟨hmem, hpercent⟩ := mem_of_mem_codeOf hc
  exact ⟨hpercent, hfeed c hmem⟩

namespace IsCode

theorem code {s : List Char} (h : IsCode s) : codeOf s = s :=
  (codeOf_eq_trim fun c hc => (h.plain c hc).1).trans h.trimmed.eq

theorem joinWith {pieces : List (List Char)} (hne : pieces ≠ [])
    (h : ∀ piece ∈ pieces, IsCode piece) : IsCode (Bracket.joinWith ' ' pieces) := by
  refine ⟨Bracket.joinWith_ne_nil hne fun piece hpiece => (h piece hpiece).ne_nil, ?_,
    Bracket.forall_mem_joinWith (by decide) fun piece hpiece => (h piece hpiece).plain⟩
  induction pieces with
  | nil => exact absurd rfl hne
  | cons piece pieces ih =>
    rw [List.forall_mem_cons] at h
    by_cases hrest : pieces = []
    · subst hrest
      exact h.1.trimmed
    · have hjoined : Bracket.joinWith ' ' pieces ≠ [] :=
        Bracket.joinWith_ne_nil hrest fun piece hpiece => (h.2 piece hpiece).ne_nil
      have happend := h.1.trimmed.append (ih hrest h.2) h.1.ne_nil hjoined [' ']
      rwa [List.append_assoc, List.singleton_append, ← Bracket.joinWith_cons hrest] at happend

end IsCode

/-! ## Runs of lines -/

/-- A list is a chain of a relation that looks at its left side only if all but the last element
pass. -/
theorem isChain_left_iff {α : Type} {p : α → Prop} {l : List α} :
    l.IsChain (fun a _ => p a) ↔ ∀ a ∈ l.dropLast, p a := by
  induction l with
  | nil => simp
  | cons a l ih =>
    cases l with
    | nil => simp
    | cons b l => rw [List.isChain_cons_cons, ih, List.dropLast_cons_cons, List.forall_mem_cons]

namespace Segment

/-- Consecutive runs of lines of code. Each run but the last ends in a line that completes a clause,
and no run has such a line before its end. -/
structure Runs (codes : List Segment) (runs : List (List Segment)) : Prop where
  flatten : runs.flatten = codes
  ne_nil : ∀ run ∈ runs, run ≠ []
  ends : ∀ run ∈ runs.dropLast, ∃ code ∈ run.getLast?, code.isComplete = true
  inner : ∀ run ∈ runs, ∀ code ∈ run.dropLast, code.isComplete = false

/-- The clause text that a run makes up: its lines with a blank between any two of them, on the line
of the first. -/
def ofRun (run : List Segment) : Segment :=
  ⟨run.head?.elim 0 line, Bracket.joinWith ' ' (run.map text)⟩

/-- The clause that is begun when these lines are read since the last one was completed. -/
def begunBy (run : List Segment) : Option Segment :=
  if run = [] then none else some (ofRun run)

/-- Does a line go on with the clause of the line before it? -/
def goesOn (before _code : Segment) : Bool := !before.isComplete

theorem runs_iff {codes : List Segment} {runs : List (List Segment)} :
    Runs codes runs ↔ codes.splitBy goesOn = runs := by
  have hinner : ∀ run : List Segment, run.IsChain (fun x y => goesOn x y = true) ↔
      ∀ code ∈ run.dropLast, code.isComplete = false := by
    intro run
    simp only [goesOn, Bool.not_eq_true', isChain_left_iff]
  have hends : (∀ run ∈ runs, run ≠ []) →
      (runs.IsChain (fun a b => ∃ ha hb, goesOn (a.getLast ha) (b.head hb) = false) ↔
        ∀ run ∈ runs.dropLast, ∃ code ∈ run.getLast?, code.isComplete = true) := by
    intro hne
    rw [← isChain_left_iff]
    constructor
    · intro h
      refine h.imp fun a b ⟨ha, _, hlast⟩ => ?_
      exact ⟨_, List.getLast_mem_getLast? ha, by simpa [goesOn] using hlast⟩
    · intro h
      refine List.IsChain.imp_of_mem_imp (fun a b _ hb ⟨code, hcode, hlast⟩ => ?_) h
      obtain ⟨ha, rfl⟩ := List.mem_getLast?_eq_getLast hcode
      exact ⟨ha, hne b hb, by simpa [goesOn] using hlast⟩
  rw [List.splitBy_eq_iff]
  constructor
  · rintro ⟨rfl, hne, hruns, hchain⟩
    exact ⟨rfl, fun hnil => hne [] hnil rfl, fun run hrun => (hinner run).2 (hchain run hrun),
      (hends hne).2 hruns⟩
  · rintro ⟨rfl, hnil, hchain, hruns⟩
    have hne : ∀ run ∈ runs, run ≠ [] := fun run hrun heq => hnil (heq ▸ hrun)
    exact ⟨rfl, hne, (hends hne).1 hruns, fun run hrun => (hinner run).1 (hchain run hrun)⟩

theorem exists_runs (codes : List Segment) : ∃ runs, Runs codes runs := ⟨_, runs_iff.2 rfl⟩

/-! ## The loop over the lines -/

theorem join_begunBy (run : List Segment) (code : Segment) :
    join (begunBy run) code = ofRun (run ++ [code]) := by
  cases run with
  | nil => rfl
  | cons first rest =>
    have htexts : (first :: rest).map text ≠ [] := by simp
    rw [begunBy, if_neg (List.cons_ne_nil first rest), ofRun, ofRun, List.map_append,
      List.map_singleton, Bracket.joinWith_append htexts (List.cons_ne_nil _ _)]
    rfl

theorem isComplete_ofRun (run : List Segment) (code : Segment) :
    (ofRun (run ++ [code])).isComplete = code.isComplete := by
  rw [← join_begunBy, isComplete_join]

/-- While no line completes it, the clause that is begun is the text of the lines since the last one
was completed. -/
theorem ofLines_begunBy {run : List Segment} (hrun : ∀ code ∈ run, code.isComplete = false)
    (codes : List Segment) :
    ofLines (begunBy run) codes = ((run ++ codes).splitBy goesOn).map ofRun := by
  have hchain : ∀ run : List Segment, (∀ code ∈ run.dropLast, code.isComplete = false) →
      run ≠ [] → run.splitBy goesOn = [run] := by
    intro run hrun hne
    exact runs_iff.1 ⟨List.flatten_singleton, by simpa using hne, by simp, by simpa using hrun⟩
  induction codes generalizing run with
  | nil =>
    rw [List.append_nil, ofLines, begunBy]
    split
    · rename_i hnil
      rw [hnil]
      rfl
    · rename_i hne
      rw [hchain run (fun code hcode => hrun code (List.dropLast_subset run hcode)) hne]
      rfl
  | cons code codes ih =>
    have hassoc : run ++ code :: codes = run ++ [code] ++ codes := by simp
    rw [ofLines, join_begunBy, hassoc]
    split
    · rename_i hcode
      have hcut : ∀ x ∈ (run ++ [code]).getLast?, ∀ y ∈ codes.head?, goesOn x y = false := by
        rintro x hx y -
        rw [List.getLast?_concat, Option.mem_some_iff] at hx
        simp [goesOn, ← hx, hcode]
      have hnone := @ih [] (by simp)
      rw [List.splitBy_append hcut, hchain _ (by simpa using hrun) (by simp), ← List.nil_append codes,
        List.map_append, ← hnone]
      rfl
    · rename_i hcode
      have hnext : ∀ c ∈ run ++ [code], c.isComplete = false := by
        rw [List.forall_mem_append, List.forall_mem_singleton]
        exact ⟨hrun, by simpa using hcode⟩
      rw [← ih hnext, begunBy, if_neg (by simp)]

theorem mem_of_mem_run {codes : List Segment} {runs : List (List Segment)} (h : Runs codes runs)
    {run : List Segment} (hrun : run ∈ runs) {code : Segment} (hcode : code ∈ run) :
    code ∈ codes := by
  rw [← h.flatten]
  exact List.mem_flatten.2 ⟨run, hrun, hcode⟩

/-- The lines on which runs begin are some of their lines, in the same order. -/
theorem map_line_ofRun_sublist {runs : List (List Segment)} (h : ∀ run ∈ runs, run ≠ []) :
    ((runs.map ofRun).map line).Sublist (runs.flatten.map line) := by
  induction runs with
  | nil => exact .slnil
  | cons run runs ih =>
    rw [List.forall_mem_cons] at h
    obtain ⟨first, rest, rfl⟩ := List.exists_cons_of_ne_nil h.1
    rw [List.flatten_cons, List.map_append]
    exact List.Sublist.cons_cons first.line ((ih h.2).trans (List.sublist_append_right _ _))

end Segment

theorem segments_eq_runs {source : List Char} {runs : List (List Segment)}
    (h : Segment.Runs (codeLines source) runs) : segments source = runs.map Segment.ofRun := by
  have hloop := @Segment.ofLines_begunBy [] (by simp) (codeLines source)
  rwa [List.nil_append, Segment.runs_iff.1 h] at hloop

theorem isCode_of_mem_segments {source : List Char} {s : Segment} (h : s ∈ segments source) :
    IsCode s.text := by
  obtain ⟨runs, hcut⟩ := Segment.exists_runs (codeLines source)
  rw [segments_eq_runs hcut, List.mem_map] at h
  obtain ⟨run, hrun, rfl⟩ := h
  refine IsCode.joinWith (by simpa using hcut.ne_nil run hrun) fun piece hpiece => ?_
  obtain ⟨code, hcode, rfl⟩ := List.mem_map.1 hpiece
  exact isCode_of_mem_codeLines (Segment.mem_of_mem_run hcut hrun hcode)

/-- Only the last clause text may lack its period. -/
theorem isComplete_of_mem_dropLast {source : List Char} {s : Segment}
    (h : s ∈ (segments source).dropLast) : s.isComplete = true := by
  obtain ⟨runs, hcut⟩ := Segment.exists_runs (codeLines source)
  rw [segments_eq_runs hcut, ← List.map_dropLast, List.mem_map] at h
  obtain ⟨run, hrun, rfl⟩ := h
  obtain ⟨code, hlast, hcode⟩ := hcut.ends run hrun
  obtain ⟨before, rfl⟩ := List.getLast?_eq_some_iff.1 hlast
  rw [Segment.isComplete_ofRun, hcode]

/-- Nothing is lost, repeated or moved. -/
theorem joinWith_segments (source : List Char) :
    Bracket.joinWith ' ' ((segments source).map Segment.text) =
      Bracket.joinWith ' ' ((codeLines source).map Segment.text) := by
  obtain ⟨runs, hcut⟩ := Segment.exists_runs (codeLines source)
  have hgroups : ∀ group ∈ runs.map (List.map Segment.text), group ≠ [] := by
    intro group hgroup
    obtain ⟨run, hrun, rfl⟩ := List.mem_map.1 hgroup
    simpa using hcut.ne_nil run hrun
  have htexts : (segments source).map Segment.text =
      (runs.map (List.map Segment.text)).map (Bracket.joinWith ' ') := by
    rw [segments_eq_runs hcut, List.map_map, List.map_map]
    rfl
  rw [htexts, Bracket.joinWith_flatten hgroups, ← List.map_flatten, hcut.flatten]

theorem segments_pairwise (source : List Char) :
    (segments source).Pairwise fun s s' => s.line < s'.line := by
  obtain ⟨runs, hcut⟩ := Segment.exists_runs (codeLines source)
  have hlines : ((codeLines source).map Segment.line).Pairwise (· < ·) :=
    List.pairwise_map.2 (numberCode_pairwise 1 _)
  rw [← hcut.flatten] at hlines
  rw [segments_eq_runs hcut, ← List.pairwise_map]
  exact hlines.sublist (Segment.map_line_ofRun_sublist hcut.ne_nil)

namespace Settings

/-- The lines of code are those whose code is not empty, with their numbers. They are cut into runs
in one way, and a clause text is made of each run. So the clause texts with blanks between them are
the lines of code with blanks between them, they begin on lines further and further below, and none
is empty or holds a comment or a line feed. What is read of each tells its place and its line if it
is an error. -/
theorem segments_partition (settings : Settings) (source : List Char) :
    codeLines source = (((Text.lines source).zipIdx 1).map fun l => ⟨l.2, codeOf l.1⟩).filter
        (fun s => !s.text.isEmpty) ∧
      (∃ runs, (∀ runs', Segment.Runs (codeLines source) runs' ↔ runs' = runs) ∧
        segments source = runs.map Segment.ofRun) ∧
      Bracket.joinWith ' ' ((segments source).map Segment.text) =
        Bracket.joinWith ' ' ((codeLines source).map Segment.text) ∧
      ((segments source).Pairwise fun s s' => s.line < s'.line) ∧
      (∀ s ∈ segments source, s.text ≠ [] ∧ ∀ c ∈ s.text, c ≠ '%' ∧ c ≠ '\n') ∧
      ∀ (i : Nat) (r : Except ReadError Clause), (settings.readClauses source)[i]? = some r ↔
        ∃ s, (segments source)[i]? = some s ∧
          (settings.readClause s.text).mapError (.inClause i s.line) = r := by
  have honly : ∀ runs, Segment.Runs (codeLines source) runs ↔
      runs = (codeLines source).splitBy Segment.goesOn :=
    fun _ => Segment.runs_iff.trans eq_comm
  refine ⟨numberCode_eq_filter 1 _, ⟨_, honly, segments_eq_runs ((honly _).2 rfl)⟩,
    joinWith_segments source, segments_pairwise source, fun s hs => ?_,
    fun i r => getElem?_readClauses⟩
  have hcode := isCode_of_mem_segments hs
  exact ⟨hcode.ne_nil, hcode.plain⟩

end Settings

end HornClauses
