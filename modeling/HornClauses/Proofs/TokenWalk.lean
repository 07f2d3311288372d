import HornClauses.Proofs.TokenJoints

/-!
# Walking over the tokens of a text

A text is walked over from its beginning to some place, blank by blank and token by token. There is
one such walk only: of two walks the one that ends first is the beginning of the other. What stands
behind the place where a walk ends may be changed, as long as it does not prolong the last token.

* `Walks`: the tokens between the beginning of a text and a place in it.
* `Walks.exists_front`, `Walks.exists_rest`: the text before the place consists of these tokens, and
  the text behind it of the others.
* `Walks.compare`: two walks over one text.
* `Parallel`, `Walks.parallel`: the same walk over texts that end differently.
-/

namespace HornClauses

open Text

/-- A text from which no blank can be dropped begins with none. -/
theorem Text.isBlank_of_dropWhile {c : Char} {s : List Char}
    (h : (c :: s).dropWhile isBlank = c :: s) : isBlank c = false := by
  by_contra hc
  have hlength := (s.dropWhile_suffix isBlank).length_le
  rw [List.dropWhile_cons_of_pos (by simpa using hc)] at h
  rw [h, List.length_cons] at hlength
  omega

theorem Token.scan?_of_isBlank {c : Char} (hc : isBlank c = true) (s : List Char) :
    scan? (c :: s) = none := by
  cases hscan : scan? (c :: s) with
  | none => rfl
  | some r =>
    obtain ⟨t, rest⟩ := r
    obtain ⟨more, htext, -⟩ := scan?_text hscan
    have hspace := isSpace_of_mem_text (wellFormed_of_scan? hscan) (c := c) (by simp [htext])
    rw [isSpace_of_isBlank hc] at hspace
    cases hspace

theorem Token.dropWhile_isBlank_of_scan? {s rest : List Char} {t : Token}
    (h : scan? s = some (t, rest)) : s.dropWhile isBlank = s := by
  rw [scan?_append h, dropWhile_isBlank_text (wellFormed_of_scan? h)]

/-- From the second text over these tokens, and blanks around them, to the first. -/
inductive Walks (m : List Char) : List Char → List Token → Prop where
  | here : Walks m m []
  | blank {c : Char} {s : List Char} {ts : List Token} : isBlank c = true → Walks m s ts →
    Walks m (c :: s) ts
  | token {s rest : List Char} {t : Token} {ts : List Token} : Token.scan? s = some (t, rest) →
    Walks m rest ts → Walks m s (t :: ts)

namespace Walks

variable {s m n : List Char} {ts us : List Token}

theorem one {t : Token} (h : Token.scan? s = some (t, m)) : Walks m s [t] := .token h .here

theorem trans (h : Walks m s ts) (h' : Walks n m us) : Walks n s (ts ++ us) := by
  induction h with
  | here => exact h'
  | blank hc _ ih => exact .blank hc ih
  | token hscan _ ih => exact .token hscan ih

theorem blanks (s : List Char) : Walks (s.dropWhile isBlank) s [] := by
  induction s with
  | nil => exact .here
  | cons c s ih =>
    by_cases hc : isBlank c = true
    · rw [List.dropWhile_cons_of_pos hc]
      exact .blank hc ih
    · rw [List.dropWhile_cons_of_neg hc]
      exact .here

/-- The text before the place consists of the tokens. -/
theorem exists_front (h : Walks m s ts) : ∃ u, s = u ++ m ∧ Tokenised u ts := by
  induction h with
  | here => exact ⟨[], rfl, .blank (by simp)⟩
  | @blank c s ts hc _ ih =>
    obtain ⟨u, rfl, hu⟩ := ih
    exact ⟨c :: u, rfl, hu.blank_append (w := [c]) (by simpa using hc)⟩
  | @token s rest t ts hscan _ ih =>
    obtain ⟨u, rfl, hu⟩ := ih
    have hs := Token.scan?_append hscan
    have hlongest := Token.scan?_eq_some_iff.1 hscan
    rw [hs, ← List.append_assoc] at hlongest
    refine ⟨t.text.toList ++ u, by rw [hs, List.append_assoc], ?_⟩
    exact Tokenised.cons_iff_append.2 ⟨[], u, by simp, rfl, hlongest.of_append, hu⟩

theorem length_le (h : Walks m s ts) : m.length ≤ s.length := by
  obtain ⟨u, rfl, -⟩ := h.exists_front
  rw [List.length_append]
  omega

/-- All walks to a place lead over the same tokens. -/
theorem unique (h : Walks m s ts) (h' : Walks m s us) : ts = us := by
  obtain ⟨u, rfl, hu⟩ := h.exists_front
  obtain ⟨u', heq, hu'⟩ := h'.exists_front
  rw [List.append_cancel_right heq] at hu
  exact hu.unique hu'

/-- A walk over a text of tokens leads over the first of them. -/
theorem exists_rest (h : Walks m s ts) (hs : Tokenised s us) :
    ∃ vs, us = ts ++ vs ∧ Tokenised m vs := by
  induction h generalizing us with
  | here => exact ⟨us, rfl, hs⟩
  | blank hc _ ih =>
    rw [← Tokenised.dropWhile_iff, List.dropWhile_cons_of_pos hc, Tokenised.dropWhile_iff] at hs
    exact ih hs
  | @token s rest t ts hscan _ ih =>
    have hdrop := Token.dropWhile_isBlank_of_scan? hscan
    cases us with
    | nil =>
      rw [Tokenised.nil_iff, hdrop] at hs
      rw [hs] at hscan
      cases hscan
    | cons u us =>
      obtain ⟨rest', hscan', hrest⟩ := Tokenised.cons_iff.1 hs
      rw [hdrop, hscan] at hscan'
      cases hscan'
      obtain ⟨vs, rfl, hvs⟩ := ih hrest
      exact ⟨vs, rfl, hvs⟩

/-- A walk that does not end before the place where another one ends goes on there with the token
that stands there. -/
theorem compare (h : Walks m s ts) (hm : m.dropWhile isBlank = m) (h' : Walks n s us) :
    m.length ≤ n.length ∨ ∃ t rest vs, Token.scan? m = some (t, rest) ∧ us = ts ++ t :: vs := by
  induction h generalizing us with
  | here =>
    cases h' with
    | here => exact Or.inl (Nat.le_refl _)
    | blank hc hrest =>
      rw [isBlank_of_dropWhile hm] at hc
      cases hc
    | token hscan _ => exact Or.inr ⟨_, _, _, hscan, rfl⟩
  | @blank c s ts hc hrest ih =>
    cases h' with
    | here => exact Or.inl ((Walks.blank hc hrest).length_le)
    | blank _ hrest' => exact ih hrest'
    | token hscan _ =>
      rw [Token.scan?_of_isBlank hc] at hscan
      cases hscan
  | @token s rest t ts hscan hrest ih =>
    cases h' with
    | here => exact Or.inl ((Walks.token hscan hrest).length_le)
    | blank hc _ =>
      rw [Token.scan?_of_isBlank hc] at hscan
      cases hscan
    | token hscan' hrest' =>
      rw [hscan] at hscan'
      cases hscan'
      rcases ih hrest' with hle | ⟨t', rest', vs, hscan', rfl⟩
      · exact Or.inl hle
      · exact Or.inr ⟨t', rest', vs, hscan', rfl⟩

end Walks

/-! ## Texts that end differently -/

/-- The same blanks and tokens lead from both texts to their ends. -/
inductive Parallel (a b : List Char) : List Char → List Char → Prop where
  | here : Parallel a b a b
  | blank {c : Char} {s s' : List Char} : isBlank c = true → Parallel a b s s' →
    Parallel a b (c :: s) (c :: s')
  | token {t : Token} {s s' rest rest' : List Char} : Token.scan? s = some (t, rest) →
    Token.scan? s' = some (t, rest') → Parallel a b rest rest' → Parallel a b s s'

/-- A walk leads to another end as well if that does not prolong the last token. -/
theorem Walks.parallel {s m n : List Char} {ts : List Token} (h : Walks m s ts)
    (hn : ∀ c ∈ n.head?, Token.Apart c) :
    ∃ u, s = u ++ m ∧ Parallel m n (u ++ m) (u ++ n) := by
  induction h with
  | here => exact ⟨[], rfl, .here⟩
  | @blank c s ts hc _ ih =>
    obtain ⟨u, rfl, hu⟩ := ih
    exact ⟨c :: u, rfl, .blank hc hu⟩
  | @token s rest t ts hscan _ ih =>
    obtain ⟨u, rfl, hu⟩ := ih
    have hs := Token.scan?_append hscan
    have hlongest := Token.scan?_eq_some_iff.1 hscan
    rw [hs, ← List.append_assoc] at hlongest
    rw [hs] at hscan
    refine ⟨t.text.toList ++ u, by rw [hs, List.append_assoc], ?_⟩
    rw [List.append_assoc, List.append_assoc]
    refine .token hscan (Token.scan?_eq_some_iff.2 ?_) hu
    rw [← List.append_assoc]
    exact hlongest.of_append.append hn

end HornClauses
