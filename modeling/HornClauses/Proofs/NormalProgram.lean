import HornClauses.Proofs.ClauseRuns

/-!
# Programs with one clause on a line

A program is brought into a form of its own by putting each clause text on a line. A clause text is
code as it stands: it is trimmed, holds no percent sign and no line feed, and unless it is the last
one it ends in a period, so each of these lines is a clause text again. The form has the same clause
texts as the program, and it is read as the program is, but for the numbers of the lines.

* `clauseTexts`, `normalise`: the clause texts of a program and the program made of them.
* `segments_normalise`: the clause texts of a program in this form stand one on a line.
* `Settings.readProgram_normalise`: what it is read into.
-/

namespace HornClauses

def clauseTexts (source : List Char) : List (List Char) := (segments source).map Segment.text

/-- The program with each of its clause texts on a line. -/
def normalise (source : List Char) : List Char := Text.joinLines (clauseTexts source)

/-! ## Clause texts -/

theorem isCode_of_mem_clauseTexts {source text : List Char} (h : text ∈ clauseTexts source) :
    IsCode text := by
  obtain ⟨s, hs, rfl⟩ := List.mem_map.1 h
  exact isCode_of_mem_segments hs

theorem codeLines_normalise (source : List Char) :
    codeLines (normalise source) = (clauseTexts source).mapIdx fun i text => ⟨i + 1, text⟩ := by
  by_cases hnil : clauseTexts source = []
  · rw [normalise, hnil]
    rfl
  · have hlines : Text.lines (normalise source) = clauseTexts source :=
      Text.lines_joinLines hnil fun text htext c hc =>
        ((isCode_of_mem_clauseTexts htext).plain c hc).2
    rw [codeLines, hlines]
    refine numberCode_eq_mapIdx (fun text htext => ?_) 1
    have hcode := isCode_of_mem_clauseTexts htext
    exact ⟨hcode.code, hcode.ne_nil⟩

theorem segments_normalise (source : List Char) :
    segments (normalise source) = (clauseTexts source).mapIdx fun i text => ⟨i + 1, text⟩ := by
  have htexts : (codeLines (normalise source)).map Segment.text = clauseTexts source := by
    rw [codeLines_normalise]
    exact List.ext_getElem (by simp) (by simp)
  rw [segments, Segment.ofLines_eq_self, codeLines_normalise]
  intro code hcode
  have hmem : code.text ∈ ((codeLines (normalise source)).map Segment.text).dropLast := by
    rw [← List.map_dropLast]
    exact List.mem_map_of_mem hcode
  rw [htexts, clauseTexts, ← List.map_dropLast] at hmem
  obtain ⟨s, hs, hsame⟩ := List.mem_map.1 hmem
  have hcomplete := isComplete_of_mem_dropLast hs
  rwa [Segment.isComplete, hsame] at hcomplete

theorem clauseTexts_normalise (source : List Char) :
    clauseTexts (normalise source) = clauseTexts source := by
  rw [clauseTexts, segments_normalise]
  exact List.ext_getElem (by simp) (by simp)

/-! ## What is read -/

namespace Settings

variable {settings : Settings} {source : List Char}

theorem readProgram_eq_ok_iff_clauseTexts {cs : List Clause} :
    settings.readProgram source = .ok cs ↔
      List.Forall₂ (fun text c => settings.readClause text = .ok c) (clauseTexts source) cs := by
  rw [readProgram_eq_ok, clauseTexts, List.forall₂_map_left_iff]

theorem getElem?_readClauses_eq_error {i : Nat} {e : ReadError} :
    (settings.readClauses source)[i]? = some (.error e) ↔
      ∃ s cause, (segments source)[i]? = some s ∧ settings.readClause s.text = .error cause ∧
        e = .inClause i s.line cause := by
  rw [getElem?_readClauses]
  simp only [readSegment, mapError_eq_error, @eq_comm _ e, exists_and_left]

/-- Each clause is read as before, and an error tells the line on which it then stands. -/
theorem getElem?_readClauses_normalise (settings : Settings) (source : List Char) (i : Nat) :
    (settings.readClauses (normalise source))[i]? =
      (settings.readClauses source)[i]?.map (Except.mapError (.relocate 0 fun _ => i + 1)) := by
  rw [readClauses, readClauses, getElem?_readSegmentsFrom, getElem?_readSegmentsFrom,
    segments_normalise, List.getElem?_mapIdx, clauseTexts, List.getElem?_map, Option.map_map,
    Option.map_map, Option.map_map]
  congr 1
  funext s
  simp only [Function.comp, readSegment, Nat.zero_add]
  cases settings.readClause s.text <;> rfl

/-- Where a clause of the program is not read, neither is that of the form, for the same cause. -/
theorem getElem?_readClauses_normalise_eq_error {i : Nat} {e : ReadError} :
    (settings.readClauses (normalise source))[i]? = some (.error e) ↔
      ∃ line cause, (settings.readClauses source)[i]? = some (.error (.inClause i line cause)) ∧
        e = .inClause i (i + 1) cause := by
  rw [getElem?_readClauses_normalise, Option.map_eq_some_iff]
  constructor
  · rintro ⟨r, hr, hmap⟩
    obtain ⟨e', rfl, rfl⟩ := mapError_eq_error.1 hmap
    obtain ⟨s, cause, -, -, rfl⟩ := getElem?_readClauses_eq_error.1 hr
    exact ⟨s.line, cause, hr, rfl⟩
  · rintro ⟨line, cause, hr, rfl⟩
    exact ⟨_, hr, rfl⟩

theorem getElem?_readClauses_normalise_eq_ok {i : Nat} {c : Clause} :
    (settings.readClauses (normalise source))[i]? = some (.ok c) ↔
      (settings.readClauses source)[i]? = some (.ok c) := by
  rw [getElem?_readClauses_normalise, Option.map_eq_some_iff]
  simp only [mapError_eq_ok, exists_eq_right]

theorem readProgram_normalise_eq_error {e : ReadError} :
    settings.readProgram (normalise source) = .error e ↔
      ∃ i line cause, settings.readProgram source = .error (.inClause i line cause) ∧
        e = .inClause i (i + 1) cause := by
  simp only [readProgram_eq_error, firstError_iff_getElem?,
    getElem?_readClauses_normalise_eq_error, getElem?_readClauses_normalise_eq_ok]
  constructor
  · rintro ⟨i, ⟨line, cause, hr, rfl⟩, hbefore⟩
    exact ⟨i, line, cause, ⟨i, hr, hbefore⟩, rfl⟩
  · rintro ⟨i, line, cause, ⟨j, hr, hbefore⟩, rfl⟩
    -- The error tells its own place.
    obtain ⟨s, cause', -, -, heq⟩ := getElem?_readClauses_eq_error.1 hr
    cases heq
    exact ⟨_, ⟨_, _, hr, rfl⟩, hbefore⟩

/-- The form of a program has the clause texts of the program, one on a line. It is read into the
same clauses, or it fails at the same clause for the same cause. -/
theorem readProgram_normalise (settings : Settings) (source : List Char) :
    clauseTexts (normalise source) = clauseTexts source ∧
      (segments (normalise source) = (clauseTexts source).mapIdx fun i text => ⟨i + 1, text⟩) ∧
      (∀ cs, settings.readProgram (normalise source) = .ok cs ↔
        settings.readProgram source = .ok cs) ∧
      ∀ e, settings.readProgram (normalise source) = .error e ↔
        ∃ i line cause, settings.readProgram source = .error (.inClause i line cause) ∧
          e = .inClause i (i + 1) cause := by
  refine ⟨clauseTexts_normalise source, segments_normalise source, fun cs => ?_,
    fun e => readProgram_normalise_eq_error⟩
  rw [readProgram_eq_ok_iff_clauseTexts, clauseTexts_normalise, readProgram_eq_ok_iff_clauseTexts]

end Settings

end HornClauses
