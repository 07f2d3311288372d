import HornClauses.Proofs.ClauseRereading
import HornClauses.Proofs.Segmentation

/-!
# Reading the surface form of a program

Each clause of a program that can be read is written on one line that holds no comment and ends in a
period. So the clause texts of the surface form of a program are the surface forms of its clauses,
and the program is read clause by clause as they are.

* `segments_renderProgram`: the clause texts of a program that is written.
* `Settings.readProgram_renderProgram`: what a program that was read, and written, is read as.
-/

namespace HornClauses

/-! ## Lines -/

/-- A line that is one clause text. -/
structure IsClauseLine (s : List Char) : Prop where
  code : codeOf s = s
  complete : s.getLast? = some '.'
  line : ∀ c ∈ s, c ≠ '\n'

theorem IsClauseLine.ne_nil {s : List Char} (h : IsClauseLine s) : s ≠ [] := by
  rintro rfl
  cases h.complete

theorem numberCode_eq {ls : List (List Char)} (h : ∀ s ∈ ls, IsClauseLine s) (first : Nat) :
    (numberCode first ls).map Segment.text = ls ∧
      ∀ s ∈ numberCode first ls, s.isComplete = true := by
  have htexts : (numberCode first ls).map Segment.text = ls := by
    rw [numberCode_eq_mapIdx fun s hs => ⟨(h s hs).code, (h s hs).ne_nil⟩]
    exact List.ext_getElem (by simp) (by simp)
  refine ⟨htexts, fun s hs => ?_⟩
  have hline := h s.text (htexts ▸ List.mem_map_of_mem hs)
  simp [Segment.isComplete, hline.complete]

/-! ## Clauses as lines -/

variable {style : ListStyle}

theorem Layout.isClauseLine {s rest : List Char} {ts : List Token} (h : Layout s ts)
    (hrest : ∀ c ∈ rest, c ≠ '%' ∧ c ≠ '\n') : IsClauseLine (s ++ rest ++ ['.']) := by
  have hall : ∀ c ∈ s ++ rest ++ ['.'], c ≠ '%' ∧ c ≠ '\n' := by
    intro c hc
    rcases List.mem_append.1 hc with hc | hc
    · rcases List.mem_append.1 hc with hc | hc
      · exact ⟨h.ne_percent hc, h.ne_lineFeed hc⟩
      · exact hrest c hc
    · rw [List.mem_singleton.1 hc]
      decide
  refine ⟨?_, by rw [List.getLast?_concat], fun c hc => (hall c hc).2⟩
  rw [codeOf_eq_trim fun c hc => (hall c hc).1, h.trim_concat_period]

/-- A clause that is read back is written on a line. -/
theorem Clause.isClauseLine {c : Clause} (h : ∀ p ∈ c.parts, p.ReadBack style) :
    IsClauseLine c.surface.toList := by
  obtain ⟨head, body⟩ := c
  rw [Clause.parts, List.forall_mem_cons] at h
  obtain ⟨ts, hts⟩ := h.1.layout
  cases body with
  | nil =>
    have htext : (Clause.mk head []).surface.toList = head.surface.toList ++ [] ++ ['.'] := by
      simp [Clause.surface, Clause.isFact]
    rw [htext]
    exact hts.isClauseLine (by simp)
  | cons goal goals =>
    obtain ⟨us, hus⟩ := Settings.layout_goals (by simp) h.2
    have htext : (Clause.mk head (goal :: goals)).surface.toList = head.surface.toList ++
        (' ' :: ':' :: '-' :: ' ' :: (commaJoin ((goal :: goals).map Predicate.surface)).toList) ++
          ['.'] := by
      simp [Clause.surface, Clause.isFact]
    rw [htext]
    apply hts.isClauseLine
    have hgoals : ∀ c ∈ (commaJoin ((goal :: goals).map Predicate.surface)).toList,
        c ≠ '%' ∧ c ≠ '\n' := fun c hc => ⟨hus.ne_percent hc, hus.ne_lineFeed hc⟩
    simp only [List.forall_mem_cons]
    exact ⟨by decide, by decide, by decide, by decide, hgoals⟩

/-! ## Programs -/

theorem lines_renderProgram {cs : List Clause} (hne : cs ≠ [])
    (h : ∀ c ∈ cs, IsClauseLine c.surface.toList) :
    Text.lines (renderProgram cs).toList = cs.map fun c => c.surface.toList := by
  induction cs with
  | nil => exact absurd rfl hne
  | cons c cs ih =>
    rw [List.forall_mem_cons] at h
    cases cs with
    | nil =>
      have htext : renderProgram [c] = c.surface := by simp [renderProgram]
      rw [htext, Text.lines_eq_singleton h.1.line]
      rfl
    | cons d cs =>
      have htext : (renderProgram (c :: d :: cs)).toList =
          c.surface.toList ++ '\n' :: (renderProgram (d :: cs)).toList := by
        simp [renderProgram]
      rw [htext, Text.lines_lineFeed, Text.lines_eq_singleton h.1.line, ih (by simp) h.2]
      rfl

/-- The clause texts of a program that is written are the surface forms of its clauses. -/
theorem segments_renderProgram {cs : List Clause} (h : ∀ c ∈ cs, IsClauseLine c.surface.toList) :
    (segments (renderProgram cs).toList).map Segment.text = cs.map fun c => c.surface.toList := by
  cases cs with
  | nil => rfl
  | cons c cs =>
    have hlines : ∀ s ∈ (c :: cs).map fun c => c.surface.toList, IsClauseLine s := by
      intro s hs
      obtain ⟨d, hd, rfl⟩ := List.mem_map.1 hs
      exact h d hd
    obtain ⟨htexts, hcomplete⟩ := numberCode_eq hlines 1
    have halone := Segment.ofLines_eq_self fun s hs => hcomplete s (List.dropLast_subset _ hs)
    rw [segments, codeLines, lines_renderProgram (by simp) h, halone, htexts]

namespace Settings

theorem forall₂_readClause {cs : List Clause} (h : ∀ c ∈ cs, ∀ p ∈ c.parts, p.ReadBack style)
    (ds : List Clause) :
    List.Forall₂ (fun c d => Settings.readClause ⟨style, .standard⟩ c.surface.toList = .ok d) cs
        ds ↔
      (∀ c ∈ cs, ∀ p ∈ c.parts, p.toTerm.IsOrdered) ∧ ds = cs.map (Clause.reread style) := by
  induction cs generalizing ds with
  | nil => simp
  | cons c cs ih =>
    rw [List.forall_mem_cons] at h
    rw [List.forall₂_cons_left_iff, List.forall_mem_cons, List.map_cons]
    simp only [readClause_surface h.1, ih h.2]
    constructor
    · rintro ⟨d, ds, ⟨hc, rfl⟩, ⟨hcs, rfl⟩, rfl⟩
      exact ⟨⟨hc, hcs⟩, rfl⟩
    · rintro ⟨⟨hc, hcs⟩, rfl⟩
      exact ⟨_, _, ⟨hc, rfl⟩, ⟨hcs, rfl⟩, rfl⟩

/-- A program that was read is read back from its surface form with the end of every list in the way
of the list style, unless an operation in it is disordered. -/
theorem readProgram_renderProgram {source : List Char} {cs : List Clause}
    (h : Settings.readProgram ⟨style, .standard⟩ source = .ok cs) (ds : List Clause) :
    Settings.readProgram ⟨style, .standard⟩ (renderProgram cs).toList = .ok ds ↔
      (∀ c ∈ cs, ∀ p ∈ c.parts, p.toTerm.IsOrdered) ∧ ds = cs.map (Clause.reread style) := by
  have hback : ∀ c ∈ cs, ∀ p ∈ c.parts, p.ReadBack style := fun c hc p hp =>
    (readable_of_readProgram h c hc p hp).readBack
  have htexts := segments_renderProgram fun c hc => Clause.isClauseLine (hback c hc)
  have hmap : List.Forall₂ (fun text d => Settings.readClause ⟨style, .standard⟩ text = .ok d)
      ((segments (renderProgram cs).toList).map Segment.text) ds ↔
        List.Forall₂ (fun s d => Settings.readClause ⟨style, .standard⟩ s.text = .ok d)
          (segments (renderProgram cs).toList) ds := List.forall₂_map_left_iff
  rw [readProgram_eq_ok, ← hmap, htexts, List.forall₂_map_left_iff]
  exact forall₂_readClause hback ds

end Settings

end HornClauses
