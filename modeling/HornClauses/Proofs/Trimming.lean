import HornClauses.Text.Space
import Mathlib.Data.List.DropRight

/-!
# Trimmed texts

Trimming takes the white space from both ends of a text and leaves a text that begins and ends with
other characters, or nothing.

* `Text.exists_trim`: a text is its trimmed text between white space.
* `Text.trim_space_append`, `Text.trim_append_space`: white space at an end makes no difference.
* `Text.exists_trim_append`: two texts with white space between them, trimmed.
-/

namespace HornClauses.Text

variable {s w : List Char}

theorem trimEnd_eq_rdropWhile (s : List Char) : trimEnd s = s.rdropWhile isSpace := rfl

/-! ## White space at the ends -/

theorem trimStart_space_append (hw : ∀ c ∈ w, isSpace c = true) (s : List Char) :
    trimStart (w ++ s) = trimStart s :=
  List.dropWhile_append_of_pos hw

theorem trimEnd_append_space (hw : ∀ c ∈ w, isSpace c = true) (s : List Char) :
    trimEnd (s ++ w) = trimEnd s := by
  have hrev : ∀ c ∈ w.reverse, isSpace c = true := fun c hc => hw c (List.mem_reverse.1 hc)
  rw [trimEnd, List.reverse_append, List.dropWhile_append_of_pos hrev, trimEnd]

theorem trimStart_eq_nil_iff : trimStart s = [] ↔ ∀ c ∈ s, isSpace c = true :=
  List.dropWhile_eq_nil_iff

theorem trimEnd_eq_nil_iff : trimEnd s = [] ↔ ∀ c ∈ s, isSpace c = true :=
  List.rdropWhile_eq_nil_iff

/-- What is left begins with no white space. -/
theorem head?_trimStart {c : Char} (h : (trimStart s).head? = some c) : isSpace c = false := by
  have hhead := List.head?_dropWhile_not isSpace s
  rw [trimStart] at h
  rwa [h] at hhead

theorem trimStart_append (hne : trimStart s ≠ []) (t : List Char) :
    trimStart (s ++ t) = trimStart s ++ t := by
  rw [trimStart, List.dropWhile_append, if_neg (by rwa [List.isEmpty_iff]), trimStart]

theorem trim_eq_nil_iff : trim s = [] ↔ ∀ c ∈ s, isSpace c = true := by
  rw [trim, trimEnd_eq_nil_iff]
  constructor
  · intro h
    refine trimStart_eq_nil_iff.1 ?_
    by_contra hne
    obtain ⟨c, rest, hrest⟩ := List.exists_cons_of_ne_nil hne
    have hc := head?_trimStart (List.head?_eq_some_iff.2 ⟨rest, hrest⟩)
    rw [h c (by rw [hrest]; exact List.mem_cons_self)] at hc
    cases hc
  · intro h c hc
    exact h c ((s.dropWhile_suffix isSpace).subset hc)

theorem trim_space_append (hw : ∀ c ∈ w, isSpace c = true) (s : List Char) :
    trim (w ++ s) = trim s := by
  rw [trim, trimStart_space_append hw, trim]

theorem trim_append_space (hw : ∀ c ∈ w, isSpace c = true) (s : List Char) :
    trim (s ++ w) = trim s := by
  by_cases hs : trimStart s = []
  · have hall := trimStart_eq_nil_iff.1 hs
    rw [trim_eq_nil_iff.2 hall, trim_eq_nil_iff, List.forall_mem_append]
    exact ⟨hall, hw⟩
  · rw [trim, trimStart_append hs, trimEnd_append_space hw, trim]

/-- A text is its trimmed text between white space. -/
theorem exists_trim (s : List Char) : ∃ before after, (∀ c ∈ before, isSpace c = true) ∧
    (∀ c ∈ after, isSpace c = true) ∧ s = before ++ trim s ++ after := by
  refine ⟨s.takeWhile isSpace, (trimStart s).rtakeWhile isSpace,
    fun c hc => List.mem_takeWhile_imp hc, fun c hc => List.mem_rtakeWhile_imp hc, ?_⟩
  rw [trim, trimEnd_eq_rdropWhile, List.append_assoc, List.rdropWhile_append_rtakeWhile, trimStart,
    List.takeWhile_append_dropWhile]

/-! ## Texts that are trimmed -/

/-- A text that neither begins nor ends with white space. -/
structure Trimmed (s : List Char) : Prop where
  head : ∀ c, s.head? = some c → isSpace c = false
  last : ∀ c, s.getLast? = some c → isSpace c = false

theorem Trimmed.eq (h : Trimmed s) : trim s = s := by
  have hstart : trimStart s = s := by
    cases s with
    | nil => rfl
    | cons c s => exact trimStart_eq_self (h.head c rfl)
  rw [trim, hstart]
  rcases List.eq_nil_or_concat' s with rfl | ⟨s, c, rfl⟩
  · rfl
  · exact trimEnd_eq_self (h.last c List.getLast?_concat)

theorem trimmed_trim (s : List Char) : Trimmed (trim s) := by
  constructor
  · intro c hc
    have hprefix := List.rdropWhile_prefix isSpace (trimStart s)
    obtain ⟨rest, hrest⟩ := List.head?_eq_some_iff.1 hc
    rw [← trimEnd_eq_rdropWhile, ← trim, hrest] at hprefix
    obtain ⟨after, hafter⟩ := hprefix
    exact head?_trimStart (List.head?_eq_some_iff.2 ⟨rest ++ after, hafter.symm⟩)
  · intro c hc
    rw [trim, trimEnd, List.getLast?_reverse] at hc
    exact head?_trimStart hc

/-- Two trimmed texts with something between them are trimmed. -/
theorem Trimmed.append {t : List Char} (hs : Trimmed s) (ht : Trimmed t) (hs' : s ≠ [])
    (ht' : t ≠ []) (w : List Char) : Trimmed (s ++ w ++ t) := by
  constructor
  · intro c hc
    rw [List.append_assoc, List.head?_append_of_ne_nil s hs'] at hc
    exact hs.head c hc
  · intro c hc
    rw [List.getLast?_append_of_ne_nil _ ht'] at hc
    exact ht.last c hc

/-- White space between two texts that are not blank stays between them. -/
theorem exists_trim_append {t : List Char} (hw : ∀ c ∈ w, isSpace c = true) (hne : w ≠ [])
    (hs : trim s ≠ []) (ht : trim t ≠ []) :
    ∃ gap, gap ≠ [] ∧ (∀ c ∈ gap, isSpace c = true) ∧
      trim (s ++ w ++ t) = trim s ++ gap ++ trim t := by
  obtain ⟨before, after, hbefore, hafter, hseq⟩ := exists_trim s
  obtain ⟨before', after', hbefore', hafter', hteq⟩ := exists_trim t
  refine ⟨after ++ w ++ before', by simp [hne], ?_, ?_⟩
  · rw [List.forall_mem_append, List.forall_mem_append]
    exact ⟨⟨hafter, hw⟩, hbefore'⟩
  · have hsplit : s ++ w ++ t =
        before ++ (trim s ++ (after ++ w ++ before') ++ trim t ++ after') := by
      nth_rewrite 1 [hseq, hteq]
      simp only [List.append_assoc]
    rw [hsplit, trim_space_append hbefore, trim_append_space hafter',
      ((trimmed_trim s).append (trimmed_trim t) hs ht _).eq]

/-! ## Periods -/

theorem dropPeriod_concat (s : List Char) : dropPeriod (s ++ ['.']) = s := by
  rw [dropPeriod, List.getLast?_concat, if_pos rfl, List.dropLast_concat]

theorem dropPeriod_eq_self (h : s.getLast? ≠ some '.') : dropPeriod s = s := if_neg h

theorem exists_dropPeriod (s : List Char) :
    ∃ after, (∀ c ∈ after, c = '.') ∧ s = dropPeriod s ++ after := by
  by_cases hlast : s.getLast? = some '.'
  · obtain ⟨rest, rfl⟩ := List.getLast?_eq_some_iff.1 hlast
    refine ⟨['.'], by simp, ?_⟩
    rw [dropPeriod_concat]
  · refine ⟨[], by simp, ?_⟩
    rw [dropPeriod_eq_self hlast, List.append_nil]

end HornClauses.Text
