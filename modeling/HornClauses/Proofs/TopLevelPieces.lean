import HornClauses.Proofs.Nesting
import HornClauses.Proofs.Trimming

/-!
# The pieces of a text between its separators

A text is split when it is properly nested, and then at every separator outside its brackets and
nowhere else. A piece is nested and holds separators inside its own brackets only. That stays so
when it is trimmed, since white space is no bracket, so a piece is never split again.

* `Bracket.parts`: the parts of a text between some of its places.
* `Bracket.exists_places`: the places at which a text is split.
* `Bracket.moves_of_splitFrom`: no piece holds a separator outside its brackets.
* `Bracket.splitTrimmed_places`: all of this for the pieces as they are handed on.
-/

namespace HornClauses.Bracket

/-! ## Parts of a text -/

/-- The parts of a text, from a start on, that the characters at certain places separate. -/
def parts (text : List Char) (start : Nat) : List Nat → List (List Char)
  | [] => [text.drop start]
  | i :: later => (text.drop start).take (i - start) :: parts text (i + 1) later

theorem length_parts (text : List Char) (start : Nat) (places : List Nat) :
    (parts text start places).length = places.length + 1 := by
  induction places generalizing start with
  | nil => rfl
  | cons i later ih => rw [parts, List.length_cons, ih, List.length_cons]

theorem parts_succ (c : Char) (text : List Char) (start : Nat) (places : List Nat) :
    parts (c :: text) (start + 1) (places.map (· + 1)) = parts text start places := by
  induction places generalizing start with
  | nil => rfl
  | cons i later ih =>
    rw [List.map_cons, parts, parts, ih, List.drop_succ_cons, Nat.add_sub_add_right]

theorem consFirst_parts (c : Char) (text : List Char) (places : List Nat) :
    consFirst c (parts text 0 places) = parts (c :: text) 0 (places.map (· + 1)) := by
  cases places with
  | nil => rfl
  | cons i later => rw [List.map_cons, parts, parts, parts_succ]; rfl

/-! ## The places of the separators -/

section Separator

variable {separator : Char} (hsep : isOpener separator = false ∧ isCloser separator = false)

include hsep

/-- A text is split at the separators before which all that is open is closed. -/
theorem exists_places {stack : Stack} {offset : Nat} {text : List Char} {pieces : List (List Char)}
    (h : splitFrom (· = separator) stack offset text = .ok pieces) :
    ∃ places : List Nat, places.Pairwise (· < ·) ∧
      (∀ i, i ∈ places ↔
        text[i]? = some separator ∧ Closes (stack.map Prod.snd) (text.take i)) ∧
      pieces = parts text 0 places := by
  induction text generalizing stack offset pieces with
  | nil =>
    obtain ⟨u, -, rfl⟩ := map_eq_ok.1 h
    exact ⟨[], .nil, by simp, rfl⟩
  | cons c text ih =>
    obtain ⟨opened, tail, hstep, htail, rfl⟩ := splitFrom_cons_eq_ok.1 h
    obtain ⟨places, hsorted, hmem, rfl⟩ := ih htail
    have hlater : ∀ i, i + 1 ∈ places.map (· + 1) ↔ (c :: text)[i + 1]? = some separator ∧
        Closes (stack.map Prod.snd) ((c :: text).take (i + 1)) := by
      intro i
      rw [List.getElem?_cons_succ, List.take_succ_cons, closes_cons_iff hstep, ← hmem i]
      simp
    have hsorted' : (places.map (· + 1)).Pairwise (· < ·) :=
      List.pairwise_map.2 (hsorted.imp fun hlt => Nat.succ_lt_succ hlt)
    by_cases hcut : (stack.isEmpty && opened.isEmpty && decide (c = separator)) = true
    · -- The first character is itself a separator outside all brackets.
      rw [if_pos hcut]
      simp only [Bool.and_eq_true, List.isEmpty_iff, decide_eq_true_eq] at hcut
      obtain ⟨⟨rfl, -⟩, rfl⟩ := hcut
      refine ⟨0 :: places.map (· + 1), List.pairwise_cons.2 ⟨by simp, hsorted'⟩, fun i => ?_, ?_⟩
      · cases i with
        | zero => simp [closes_nil_text]
        | succ i => simpa using hlater i
      · rw [parts, parts_succ]
        rfl
    · rw [if_neg hcut]
      refine ⟨places.map (· + 1), hsorted', fun i => ?_, consFirst_parts c text places⟩
      cases i with
      | succ i => exact hlater i
      | zero =>
        simp only [List.mem_map, Nat.add_eq_zero_iff, Nat.one_ne_zero, and_false, exists_false,
          List.getElem?_cons_zero, Option.some.injEq, List.take_zero, closes_nil_text, false_iff]
        rintro ⟨rfl, hstack⟩
        have hsame : opened = stack := by
          rcases step_eq_ok.1 hstep with ⟨hc, -⟩ | ⟨entry, hpair, -⟩ | ⟨-, hopened⟩
          · rw [hsep.1] at hc
            cases hc
          · rw [(kind_of_isPair hpair).2.2.2] at hsep
            cases hsep.2
          · exact hopened
        rw [hsame, List.map_eq_nil_iff.1 hstack] at hcut
        simp at hcut

/-- In a piece no separator stands where the text before it is nested. -/
theorem Moves.not_nested_take {s : List Char} (h : Moves (· = separator) s [] []) {i : Nat}
    (hi : s[i]? = some separator) : ¬ Nested (s.take i) := by
  obtain ⟨places, -, hmem, hparts⟩ := exists_places hsep (h.splitFrom_eq 0)
  have hnone : places = [] := by
    have hlength := congrArg List.length hparts
    rw [length_parts, List.length_singleton] at hlength
    exact List.length_eq_zero_iff.1 (by omega)
  intro hnested
  have hplace := (hmem i).2 ⟨hi, .nested hnested⟩
  rw [hnone] at hplace
  cases hplace

end Separator

/-! ## The pieces -/

/-- The first piece closes what is open, and the others close what they open. -/
theorem moves_of_splitFrom {p : Char → Bool} {stack : Stack} {offset : Nat} {text : List Char}
    {pieces : List (List Char)} (h : splitFrom p stack offset text = .ok pieces) :
    ∃ first later, pieces = first :: later ∧ Moves p first (stack.map Prod.snd) [] ∧
      ∀ piece ∈ later, Moves p piece [] [] := by
  induction text generalizing stack offset pieces with
  | nil =>
    obtain ⟨u, hend, rfl⟩ := map_eq_ok.1 h
    rw [atEnd_eq_ok hend]
    exact ⟨[], [], rfl, .nil p [], by simp⟩
  | cons c text ih =>
    obtain ⟨opened, tail, hstep, htail, rfl⟩ := splitFrom_cons_eq_ok.1 h
    obtain ⟨first, later, rfl, hfirst, hlater⟩ := ih htail
    by_cases hcut : (stack.isEmpty && opened.isEmpty && p c) = true
    · rw [if_pos hcut]
      simp only [Bool.and_eq_true, List.isEmpty_iff] at hcut
      obtain ⟨⟨rfl, rfl⟩, -⟩ := hcut
      exact ⟨[], first :: later, rfl, .nil p [], List.forall_mem_cons.2 ⟨hfirst, hlater⟩⟩
    · rw [if_neg hcut]
      have hchar : Moves p [c] (stack.map Prod.snd) (opened.map Prod.snd) := by
        refine .of_step fun stack' offset' hstack' => ?_
        obtain ⟨opened', hstep', hopened'⟩ := step_congr hstack'.symm hstep offset'
        refine ⟨opened', hstep', hopened'.symm, ?_⟩
        have hempty : (stack'.isEmpty && opened'.isEmpty) =
            (stack.isEmpty && opened.isEmpty) := by
          rw [← List.isEmpty_map (f := Prod.snd) (l := stack'), hstack',
            ← List.isEmpty_map (f := Prod.snd) (l := opened'), ← hopened']
          simp
        rw [hempty]
        simpa using hcut
      exact ⟨c :: first, later, rfl, hchar.append hfirst, hlater⟩

theorem Moves.nested {p : Char → Bool} {s : List Char} (h : Moves p s [] []) : Nested s :=
  (nested_iff_split p).1 ⟨[s], h.splitFrom_eq 0⟩

theorem moves_of_mem_split {p : Char → Bool} {text piece : List Char} {pieces : List (List Char)}
    (h : split p text = .ok pieces) (hpiece : piece ∈ pieces) : Moves p piece [] [] := by
  obtain ⟨first, later, rfl, hfirst, hlater⟩ := moves_of_splitFrom h
  rcases List.mem_cons.1 hpiece with rfl | hpiece
  · exact hfirst
  · exact hlater piece hpiece

/-- A nested text stays nested when white space is taken from its ends. -/
theorem Nested.trim {s : List Char} (h : Nested s) : Nested (Text.trim s) := by
  obtain ⟨before, after, hbefore, hafter, heq⟩ := Text.exists_trim s
  rwa [heq, List.append_assoc, nested_append_iff (.of_isSpace hbefore),
    nested_append_iff_left (.of_isSpace hafter)] at h

/-- A piece that is trimmed is one piece again. -/
theorem Moves.split_trim {separator : Char}
    (hsep : isOpener separator = false ∧ isCloser separator = false) {s : List Char}
    (h : Moves (· = separator) s [] []) :
    split (· = separator) (Text.trim s) = .ok [Text.trim s] := by
  obtain ⟨pieces, hpieces⟩ := (nested_iff_split (· = separator)).2 h.nested.trim
  obtain ⟨places, -, hmem, rfl⟩ := exists_places hsep hpieces
  obtain ⟨before, after, hbefore, -, heq⟩ := Text.exists_trim s
  have hnone : places = [] := by
    refine List.eq_nil_iff_forall_not_mem.2 fun i hi => ?_
    obtain ⟨hget, hcloses⟩ := (hmem i).1 hi
    have hlt : i < (Text.trim s).length := (List.getElem?_eq_some_iff.1 hget).1
    -- The same place in the piece as it was cut, behind its white space.
    have hget' : s[before.length + i]? = some separator := by
      rw [heq, List.append_assoc, List.getElem?_append_right (by omega), Nat.add_sub_cancel_left,
        List.getElem?_append_left hlt, hget]
    have htake : s.take (before.length + i) = before ++ (Text.trim s).take i := by
      nth_rewrite 1 [heq]
      rw [List.append_assoc, List.take_length_add_append,
        List.take_append_of_le_length (by omega)]
    apply h.not_nested_take hsep hget'
    rw [htake]
    exact (Nested.of_isSpace hbefore).append (closes_nil_iff.1 hcloses)
  rw [hpieces, hnone]
  rfl

/-! ## Splitting -/

/-- A text is split exactly when it is properly nested. The pieces are the trimmed parts between the
separators that no brackets enclose; each of them is nested and is one piece when it is split
again. -/
theorem splitTrimmed_places {separator : Char} (hsep : separator ∉ ['(', ')', '[', ']'])
    (text : List Char) :
    ((∃ pieces, splitTrimmed separator text = .ok pieces) ↔ Nested text) ∧
    ∀ pieces, splitTrimmed separator text = .ok pieces →
      ∃ places : List Nat, places.Pairwise (· < ·) ∧
        (∀ i, i ∈ places ↔ text[i]? = some separator ∧ ¬ Enclosed text i) ∧
        pieces = (parts text 0 places).map Text.trim ∧ pieces.length = places.length + 1 ∧
        joinWith separator (parts text 0 places) = text ∧
        ∀ piece ∈ pieces, Nested piece ∧ splitTrimmed separator piece = .ok [piece] := by
  have hkind : isOpener separator = false ∧ isCloser separator = false := by
    simp only [List.mem_cons, List.not_mem_nil, or_false, not_or] at hsep
    simp [isOpener, isCloser, hsep]
  have hiff : (∃ pieces, splitTrimmed separator text = .ok pieces) ↔ Nested text := by
    rw [← nested_iff_split (· = separator)]
    simp only [splitTrimmed, map_eq_ok]
    constructor
    · rintro ⟨-, pieces, hpieces, -⟩
      exact ⟨pieces, hpieces⟩
    · rintro ⟨pieces, hpieces⟩
      exact ⟨_, pieces, hpieces, rfl⟩
  refine ⟨hiff, fun pieces hpieces => ?_⟩
  have hnested : Nested text := hiff.1 ⟨pieces, hpieces⟩
  obtain ⟨uncut, hsplit, rfl⟩ := map_eq_ok.1 hpieces
  obtain ⟨places, hsorted, hmem, rfl⟩ := exists_places hkind hsplit
  obtain ⟨first, later, hparts, hfirst, hlater⟩ := moves_of_splitFrom hsplit
  refine ⟨places, hsorted, fun i => ?_, rfl, by rw [List.length_map, length_parts],
    joinWith_splitFrom hsplit, fun piece hpiece => ?_⟩
  · rw [hmem i]
    refine and_congr_right fun hi => ?_
    rw [enclosed_iff hnested hi hkind, not_not]
    exact closes_nil_iff
  · obtain ⟨part, hpart, rfl⟩ := List.mem_map.1 hpiece
    have hmoves : Moves (· = separator) part [] [] := by
      rw [hparts] at hpart
      rcases List.mem_cons.1 hpart with rfl | hpart
      · exact hfirst
      · exact hlater part hpart
    refine ⟨hmoves.nested.trim, ?_⟩
    rw [splitTrimmed, hmoves.split_trim hkind, Except.map, List.map_singleton,
      (Text.trimmed_trim part).eq]

/-- A separator of three bytes inside two kinds of brackets, outside them and at the end. -/
theorem splitTrimmed_places_arrow :
    '→' ∉ ['(', ')', '[', ']'] ∧ Nested "(a→[b→c]) → d→".toList ∧
      splitTrimmed '→' "(a→[b→c]) → d→".toList = .ok ["(a→[b→c])".toList, ['d'], []] ∧
      splitTrimmed '→' "(a→[b→c])".toList = .ok ["(a→[b→c])".toList] := by
  have hsep : '→' ∉ ['(', ')', '[', ']'] := by decide
  have hsplit : splitTrimmed '→' "(a→[b→c]) → d→".toList =
      .ok ["(a→[b→c])".toList, ['d'], []] := by decide +kernel
  obtain ⟨hnested, hpieces⟩ := splitTrimmed_places hsep "(a→[b→c]) → d→".toList
  obtain ⟨-, -, -, -, -, -, hagain⟩ := hpieces _ hsplit
  exact ⟨hsep, hnested.1 ⟨_, hsplit⟩, hsplit, (hagain _ List.mem_cons_self).2⟩

end HornClauses.Bracket
