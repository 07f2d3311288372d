import HornClauses.Proofs.TokenCharacters
import HornClauses.Reader

/-!
# Tokens laid out as text

A layout writes tokens one after another with a blank or nothing between two of them, and with
nothing only beside a bracket, a comma or a bar. What is written so is scanned as the same tokens,
and the two characters of a neck never meet in it.

* `Layout.glue`, `Layout.space`: layouts are put together.
* `Layout.scan_eq`: a layout is scanned as its tokens.
* `Layout.divideNeck_append`: a layout holds no neck.
* `Layout.trim_eq`, `Layout.ne_percent`: a layout is trimmed and holds no comment.
-/

namespace HornClauses

/-- A text that writes tokens with single blanks between them, or with nothing beside a mark. -/
inductive Layout : List Char → List Token → Prop where
  | one {t : Token} : t.WellFormed → Layout t.text.toList [t]
  | glued {t m : Token} {s : List Char} {ts : List Token} : t.WellFormed →
    t.isMark = true ∨ m.isMark = true → Layout s (m :: ts) →
    Layout (t.text.toList ++ s) (t :: m :: ts)
  | spaced {t : Token} {s : List Char} {ts : List Token} : t.WellFormed → Layout s ts →
    Layout (t.text.toList ++ ' ' :: s) (t :: ts)

namespace Layout

open Token Text

variable {s s' : List Char} {ts ts' : List Token}

/-! ## Putting layouts together -/

theorem ne_nil (h : Layout s ts) : ts ≠ [] := by
  cases h <;> simp

def StartsWithMark (ts : List Token) : Prop := ∃ m rest, ts = m :: rest ∧ m.isMark = true

def EndsWithMark (ts : List Token) : Prop := ∃ rest m, ts = rest ++ [m] ∧ m.isMark = true

theorem endsWithMark_cons {t : Token} (h : Layout s ts) (he : EndsWithMark (t :: ts)) :
    EndsWithMark ts := by
  obtain ⟨rest, m, heq, hm⟩ := he
  cases rest with
  | nil =>
    simp only [List.nil_append, List.cons.injEq] at heq
    exact absurd heq.2 h.ne_nil
  | cons r rest =>
    simp only [List.cons_append, List.cons.injEq] at heq
    exact ⟨rest, m, heq.2, hm⟩

theorem glue (h : Layout s ts) (h' : Layout s' ts')
    (hm : EndsWithMark ts ∨ StartsWithMark ts') : Layout (s ++ s') (ts ++ ts') := by
  induction h with
  | @one t ht =>
    cases ts' with
    | nil => exact absurd rfl h'.ne_nil
    | cons m ts' =>
      refine glued ht ?_ h'
      rcases hm with ⟨rest, m', heq, hm⟩ | ⟨m', rest, heq, hm⟩
      · cases rest with
        | nil =>
          cases heq
          exact Or.inl hm
        | cons r rest => simp at heq
      · cases heq
        exact Or.inr hm
  | glued ht hg hrest ih =>
    rw [List.append_assoc]
    exact glued ht hg (ih (hm.imp_left (endsWithMark_cons hrest)))
  | spaced ht hrest ih =>
    rw [List.append_assoc, List.cons_append]
    exact spaced ht (ih (hm.imp_left (endsWithMark_cons hrest)))

theorem space (h : Layout s ts) (h' : Layout s' ts') : Layout (s ++ ' ' :: s') (ts ++ ts') := by
  induction h with
  | one ht => exact spaced ht h'
  | glued ht hg _ ih =>
    rw [List.append_assoc]
    exact glued ht hg ih
  | spaced ht _ ih =>
    rw [List.append_assoc, List.cons_append]
    exact spaced ht ih

theorem mark_glue {m : Token} (hm : m.isMark = true) (hw : m.WellFormed) (h : Layout s ts) :
    Layout (m.text.toList ++ s) (m :: ts) :=
  (one hw).glue h (Or.inl ⟨[], m, rfl, hm⟩)

theorem glue_mark {m : Token} (hm : m.isMark = true) (hw : m.WellFormed) (h : Layout s ts) :
    Layout (s ++ m.text.toList) (ts ++ [m]) :=
  h.glue (one hw) (Or.inr ⟨m, [], rfl, hm⟩)

theorem parenthesized (h : Layout s ts) :
    Layout ('(' :: (s ++ [')'])) (openParen :: (ts ++ [closeParen])) :=
  mark_glue (m := openParen) rfl trivial (glue_mark (m := closeParen) rfl trivial h)

theorem bracketed (h : Layout s ts) :
    Layout ('[' :: (s ++ [']'])) (openBracket :: (ts ++ [closeBracket])) :=
  mark_glue (m := openBracket) rfl trivial (glue_mark (m := closeBracket) rfl trivial h)

theorem separated (h : Layout s ts) (h' : Layout s' ts') :
    Layout (s ++ ',' :: ' ' :: s') (ts ++ comma :: ts') := by
  have := (glue_mark (m := comma) rfl trivial h).space h'
  simpa [Token.text] using this

/-! ## Scanning -/

theorem eq_cons (h : Layout s ts) : ∃ t rest c s', ts = t :: rest ∧ s = c :: s' ∧ t.WellFormed ∧
    c ∈ t.text.toList := by
  have hhead : ∀ {t : Token} (rest : List Token) (u : List Char), t.WellFormed →
      ∃ t' rest' c s', t :: rest = t' :: rest' ∧ t.text.toList ++ u = c :: s' ∧ t'.WellFormed ∧
        c ∈ t'.text.toList := by
    intro t rest u ht
    obtain ⟨c, w, hw⟩ := List.exists_cons_of_ne_nil (text_ne_nil ht)
    exact ⟨t, rest, c, w ++ u, rfl, by rw [hw, List.cons_append], ht, by simp [hw]⟩
  cases h with
  | one ht => simpa using hhead [] [] ht
  | glued ht hg hrest => exact hhead _ _ ht
  | spaced ht hrest => exact hhead _ _ ht

theorem chars_ne_nil (h : Layout s ts) : s ≠ [] := by
  obtain ⟨-, -, c, s', -, rfl, -⟩ := h.eq_cons
  exact List.cons_ne_nil c s'

theorem delimited_of_mark {m : Token} (h : Layout s (m :: ts)) (hm : m.isMark = true) :
    Delimited s := by
  obtain ⟨t, rest, c, s', heq, rfl, -, hc⟩ := h.eq_cons
  cases heq
  obtain ⟨d, hd, htext⟩ := mem_text_mark hm
  rw [htext, List.mem_singleton] at hc
  subst hc
  have hall : ∀ d ∈ markChars, isDelimiter d = true := List.all_eq_true.1 rfl
  exact delimited_cons (hall c hd) s'

theorem isBlank_of_isSpace_eq_false {c : Char} (h : isSpace c = false) : isBlank c = false := by
  by_contra hb
  rw [isSpace_of_isBlank (by simpa using hb)] at h
  cases h

theorem dropWhile_isBlank (h : Layout s ts) : s.dropWhile isBlank = s := by
  obtain ⟨t, rest, c, s', -, rfl, ht, hc⟩ := h.eq_cons
  simp [isBlank_of_isSpace_eq_false (isSpace_of_mem_text ht hc)]

/-- A layout is scanned as its tokens, and nothing is left. -/
theorem scan_eq (h : Layout s ts) :
    ∃ ls, Lexeme.scan s = (ls, []) ∧ ls.map Lexeme.token = ts := by
  induction h with
  | @one t ht =>
    have hscan : scan? t.text.toList = some (t, []) := by
      simpa using scan?_of_wellFormed ht [] (Or.inr delimited_nil)
    have hnil : Lexeme.scan [] = ([], []) := Lexeme.scan_none rfl
    rw [Lexeme.scan_some hscan, List.dropWhile_nil, hnil]
    exact ⟨_, rfl, rfl⟩
  | @glued t m s ts ht hg hrest ih =>
    obtain ⟨ls, hls, hmap⟩ := ih
    have hscan := scan?_of_wellFormed ht s (hg.imp_right hrest.delimited_of_mark)
    rw [Lexeme.scan_some hscan, hrest.dropWhile_isBlank, hls]
    exact ⟨_, rfl, by rw [List.map_cons, hmap]⟩
  | @spaced t s ts ht hrest ih =>
    obtain ⟨ls, hls, hmap⟩ := ih
    have hscan := scan?_of_wellFormed ht (' ' :: s) (Or.inr (delimited_cons rfl s))
    have hdrop : (' ' :: s).dropWhile isBlank = s := by
      rw [List.dropWhile_cons_of_pos rfl, hrest.dropWhile_isBlank]
    rw [Lexeme.scan_some hscan, hdrop, hls]
    exact ⟨_, rfl, by rw [List.map_cons, hmap]⟩

/-! ## No neck -/

theorem divideNeck_cons {c : Char} {rest : List Char}
    (h : c ≠ ':' ∨ rest.head? ≠ some '-') :
    divideNeck (c :: rest) = (divideNeck rest).map fun parts => (c :: parts.1, parts.2) := by
  rw [divideNeck.eq_def]
  split
  · rename_i heq
    cases heq
  · rename_i heq
    cases heq
    rcases h with h | h <;> exact absurd rfl h
  · rename_i heq
    cases heq
    rfl

theorem divideNeck_append_of_ne_colon {w : List Char} (hw : ∀ c ∈ w, c ≠ ':') (rest : List Char) :
    divideNeck (w ++ rest) = (divideNeck rest).map fun parts => (w ++ parts.1, parts.2) := by
  induction w with
  | nil => simp
  | cons c w ih =>
    rw [List.cons_append, divideNeck_cons (Or.inl (hw c (by simp))),
      ih fun d hd => hw d (by simp [hd]), Option.map_map]
    rfl

theorem divideNeck_append_of_ne_dash {w rest : List Char} (hw : ∀ c ∈ w, c ≠ '-')
    (hr : rest.head? ≠ some '-') :
    divideNeck (w ++ rest) = (divideNeck rest).map fun parts => (w ++ parts.1, parts.2) := by
  induction w with
  | nil => simp
  | cons c w ih =>
    have hnext : (w ++ rest).head? ≠ some '-' := by
      cases w with
      | nil => exact hr
      | cons d w => simpa using hw d (by simp)
    rw [List.cons_append, divideNeck_cons (Or.inr hnext),
      ih fun d hd => hw d (by simp [hd]), Option.map_map]
    rfl

/-- A colon occurs in symbols only, and a symbol holds no dash. -/
theorem colon_or_dash {t : Token} (h : t.WellFormed) :
    (∀ c ∈ t.text.toList, c ≠ ':') ∨ ((∀ c ∈ t.text.toList, c ≠ '-') ∧ t.isMark = false) := by
  cases t with
  | name text => exact Or.inl fun c hc => ne_of_class (IsName.forall_mem h c hc) (by decide)
  | var text => exact Or.inl fun c hc => ne_of_class (IsVariable.forall_mem h c hc) (by decide)
  | number text =>
    left
    intro c hc
    rcases IsNumber.forall_mem h c hc with hd | rfl
    · exact ne_of_class hd (by decide)
    · decide
  | symbol text =>
    exact Or.inr ⟨fun c hc => ne_of_class (IsSymbol.forall_mem h c hc) (by decide), rfl⟩
  | operator op =>
    left
    cases op <;> exact List.all_iff_forall_prop.1 rfl
  | _ =>
    left
    exact List.all_iff_forall_prop.1 rfl

theorem divideNeck_text {t : Token} (h : t.WellFormed) (rest : List Char)
    (hr : t.isMark = true ∨ rest.head? ≠ some '-') :
    divideNeck (t.text.toList ++ rest) =
      (divideNeck rest).map fun parts => (t.text.toList ++ parts.1, parts.2) := by
  rcases colon_or_dash h with hc | ⟨hd, hm⟩
  · exact divideNeck_append_of_ne_colon hc rest
  · refine divideNeck_append_of_ne_dash hd (hr.resolve_left ?_)
    rw [hm]
    exact Bool.false_ne_true

theorem head_ne_dash_of_mark {m : Token} (h : Layout s (m :: ts)) (hm : m.isMark = true)
    (rest : List Char) : (s ++ rest).head? ≠ some '-' := by
  obtain ⟨t, more, c, s', heq, rfl, -, hc⟩ := h.eq_cons
  have hd := h.delimited_of_mark hm c rfl
  rw [List.cons_append, List.head?_cons, ne_eq, Option.some.injEq]
  exact ne_of_class hd (by decide)

/-- A layout holds no neck, and forms none with what follows. -/
theorem divideNeck_append (h : Layout s ts) (rest : List Char) (hr : rest.head? ≠ some '-') :
    divideNeck (s ++ rest) = (divideNeck rest).map fun parts => (s ++ parts.1, parts.2) := by
  induction h with
  | one ht => exact divideNeck_text ht rest (Or.inr hr)
  | @glued t m s ts ht hg hrest ih =>
    have hnext := hg.imp_right fun hm => hrest.head_ne_dash_of_mark hm rest
    rw [List.append_assoc, divideNeck_text ht (s ++ rest) hnext, ih, Option.map_map]
    simp [Function.comp_def]
  | @spaced t s ts ht hrest ih =>
    have hspace : divideNeck (' ' :: (s ++ rest)) =
        (divideNeck (s ++ rest)).map fun parts => (' ' :: parts.1, parts.2) :=
      divideNeck_cons (Or.inl (by decide))
    rw [List.append_assoc, List.cons_append,
      divideNeck_text ht (' ' :: (s ++ rest)) (Or.inr (by simp)), hspace, ih,
      Option.map_map, Option.map_map]
    simp [Function.comp_def]

theorem divideNeck_eq_none (h : Layout s ts) : divideNeck s = none := by
  have := h.divideNeck_append [] (by simp)
  simpa [divideNeck] using this

/-! ## Characters -/

theorem mem_cases (h : Layout s ts) {c : Char} (hc : c ∈ s) :
    c = ' ' ∨ ∃ t ∈ ts, t.WellFormed ∧ c ∈ t.text.toList := by
  induction h with
  | @one t ht => exact Or.inr ⟨t, by simp, ht, hc⟩
  | @glued t m s ts ht hg hrest ih =>
    rcases List.mem_append.1 hc with hc | hc
    · exact Or.inr ⟨t, by simp, ht, hc⟩
    · rcases ih hc with hc | ⟨u, hu, hwf, hc⟩
      · exact Or.inl hc
      · exact Or.inr ⟨u, List.mem_cons_of_mem t hu, hwf, hc⟩
  | @spaced t s ts ht hrest ih =>
    rcases List.mem_append.1 hc with hc | hc
    · exact Or.inr ⟨t, by simp, ht, hc⟩
    · rcases List.mem_cons.1 hc with hc | hc
      · exact Or.inl hc
      · rcases ih hc with hc | ⟨u, hu, hwf, hc⟩
        · exact Or.inl hc
        · exact Or.inr ⟨u, List.mem_cons_of_mem t hu, hwf, hc⟩

theorem ne_percent (h : Layout s ts) {c : Char} (hc : c ∈ s) : c ≠ '%' := by
  rcases h.mem_cases hc with rfl | ⟨t, -, ht, hc⟩
  · decide
  · exact ne_percent_of_mem_text ht hc

theorem ne_lineFeed (h : Layout s ts) {c : Char} (hc : c ∈ s) : c ≠ '\n' := by
  rcases h.mem_cases hc with rfl | ⟨t, -, ht, hc⟩
  · decide
  · rintro rfl
    exact absurd (isSpace_of_mem_text ht hc) (by decide)

/-! ## Ends -/

theorem getLast?_eq (h : Layout s ts) :
    ∃ t : Token, t.WellFormed ∧ s.getLast? = t.text.toList.getLast? := by
  induction h with
  | @one t ht => exact ⟨t, ht, rfl⟩
  | @glued t m s ts ht hg hrest ih =>
    obtain ⟨u, hu, hlast⟩ := ih
    exact ⟨u, hu, by rw [List.getLast?_append_of_ne_nil _ hrest.chars_ne_nil, hlast]⟩
  | @spaced t s ts ht hrest ih =>
    obtain ⟨u, hu, hlast⟩ := ih
    refine ⟨u, hu, ?_⟩
    rw [List.getLast?_append_of_ne_nil _ (List.cons_ne_nil _ _),
      List.getLast?_cons_of_ne_nil hrest.chars_ne_nil, hlast]

theorem eq_snoc (h : Layout s ts) : ∃ s' c, s = s' ++ [c] ∧ isSpace c = false ∧ c ≠ '.' := by
  obtain ⟨t, ht, hlast⟩ := h.getLast?_eq
  obtain ⟨w, c, hw⟩ := List.eq_nil_or_concat' t.text.toList |>.resolve_left (text_ne_nil ht)
  rw [hw, List.getLast?_concat] at hlast
  obtain ⟨s', rfl⟩ := List.getLast?_eq_some_iff.1 hlast
  refine ⟨s', c, rfl, isSpace_of_mem_text ht (by simp [hw]), ?_⟩
  rintro rfl
  exact getLast?_text_ne_period ht (by rw [hw, List.getLast?_concat])

theorem trimStart_append (h : Layout s ts) (rest : List Char) :
    trimStart (s ++ rest) = s ++ rest := by
  obtain ⟨t, more, c, s', -, rfl, ht, hc⟩ := h.eq_cons
  exact trimStart_eq_self (isSpace_of_mem_text ht hc)

theorem trimEnd_append (h : Layout s ts) (before : List Char) :
    trimEnd (before ++ s) = before ++ s := by
  obtain ⟨s', c, rfl, hc, -⟩ := h.eq_snoc
  rw [← List.append_assoc]
  exact trimEnd_eq_self hc

theorem trim_eq (h : Layout s ts) : trim s = s := by
  have hstart := h.trimStart_append []
  have hend := h.trimEnd_append []
  rw [List.append_nil] at hstart
  rw [List.nil_append] at hend
  rw [trim, hstart, hend]

theorem dropPeriod_append (h : Layout s ts) (before : List Char) :
    dropPeriod (before ++ s) = before ++ s := by
  obtain ⟨s', c, rfl, -, hc⟩ := h.eq_snoc
  unfold dropPeriod
  rw [← List.append_assoc, List.getLast?_concat, if_neg]
  rw [Option.some.injEq]
  exact hc

/-- A layout is its own core as a predicate. -/
theorem predicateCore_eq (h : Layout s ts) : predicateCore s = s := by
  have hperiod := h.dropPeriod_append []
  have hend := h.trimEnd_append []
  rw [List.nil_append] at hperiod hend
  rw [predicateCore, h.trim_eq, hperiod, hend]

end Layout

end HornClauses
