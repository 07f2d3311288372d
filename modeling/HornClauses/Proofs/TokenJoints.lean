import HornClauses.Proofs.LongestToken
import HornClauses.Proofs.TokenCharacters
import HornClauses.Proofs.Trimming

/-!
# Where texts of tokens are joined

A text of tokens can be divided between two of them. Two texts of tokens can be joined where no token
goes on across the joint: in front of white space, or of a character that is a token by itself. So
white space at the ends of a text and commas between texts do not touch the tokens next to them.

* `Token.Apart`: a character that no longer token holds.
* `Tokenised.exists_append`, `Tokenised.append`: dividing and joining texts of tokens.
* `Tokenised.exists_comma`, `Tokenised.mark`: the same at a comma, or at any bracket or bar.
* `Tokenised.trim`, `Tokenised.of_trim`: the tokens of a trimmed text.
-/

namespace HornClauses

/-! ## The end of a token -/

namespace Token

/-- A character that is part of no token, unless it is all of it. -/
def Apart (c : Char) : Prop :=
  ∀ t : Token, t.WellFormed → c ∈ t.text.toList → t.text.toList = [c]

theorem apart_of_isSpace {c : Char} (hc : Text.isSpace c = true) : Apart c := by
  intro t ht hmem
  rw [isSpace_of_mem_text ht hmem] at hc
  cases hc

theorem apart_of_isDelimiter {c : Char} (hc : Text.isDelimiter c = true) : Apart c := by
  intro t ht hmem
  cases hm : t.isMark with
  | true =>
    obtain ⟨d, -, htext⟩ := mem_text_mark hm
    rw [htext, List.mem_singleton] at hmem
    rw [htext, hmem]
  | false =>
    rw [isDelimiter_of_mem_text ht hm hmem] at hc
    cases hc

theorem dropWhile_isBlank_text {t : Token} (ht : t.WellFormed) (rest : List Char) :
    (t.text.toList ++ rest).dropWhile Text.isBlank = t.text.toList ++ rest := by
  obtain ⟨c, w, htext⟩ := List.exists_cons_of_ne_nil (text_ne_nil ht)
  have hc : Text.isSpace c = false := isSpace_of_mem_text ht (by simp [htext])
  have hblank : ¬ Text.isBlank c = true := fun hblank => by
    rw [Text.isSpace_of_isBlank hblank] at hc
    cases hc
  rw [htext, List.cons_append, List.dropWhile_cons_of_neg hblank]

/-- White space behind a text with a token stands behind that token. -/
theorem exists_append_of_space {s w blanks rest : List Char} {t : Token} (ht : t.WellFormed)
    (hw : ∀ c ∈ w, Text.isSpace c = true) (h : s ++ w = blanks ++ (t.text.toList ++ rest)) :
    ∃ rest', s = blanks ++ (t.text.toList ++ rest') ∧ rest = rest' ++ w := by
  rw [← List.append_assoc] at h
  rcases List.append_eq_append_iff.1 h with ⟨more, htext, hmore⟩ | ⟨rest', hs, hrest⟩
  · rcases List.eq_nil_or_concat' more with rfl | ⟨more, c, rfl⟩
    · rw [List.append_nil] at htext
      exact ⟨[], by rw [List.append_nil, htext], hmore.symm⟩
    · -- The last character of the token would be white space.
      have hlast := congrArg List.getLast? htext
      rw [List.getLast?_append_of_ne_nil _ (text_ne_nil ht), ← List.append_assoc,
        List.getLast?_concat] at hlast
      have hc := isSpace_of_mem_text ht (List.mem_of_getLast? hlast)
      rw [hw c (by simp [hmore])] at hc
      cases hc
  · exact ⟨rest', by rw [hs, List.append_assoc], hrest⟩

namespace Longest

variable {s rest w : List Char} {t : Token}

/-- A token does not grow when such a character stands behind the text. -/
theorem append (h : Longest s t rest) (hw : ∀ c ∈ w.head?, Apart c) :
    Longest (s ++ w) t (rest ++ w) where
  wellFormed := h.wellFormed
  eq_append := by rw [h.eq_append, List.append_assoc]
  length_le u rest' hu heq := by
    rcases List.append_eq_append_iff.1 heq with ⟨more, htext, hmore⟩ | ⟨more, hs, -⟩
    · cases more with
      | nil => exact h.length_le u [] hu (by rw [htext, List.append_nil, List.append_nil])
      | cons c more =>
        -- The other token would hold the character, so it would be that character alone.
        have hc : Apart c := hw c (by rw [hmore]; rfl)
        have hone := hc u hu (by simp [htext])
        rw [hone]
        exact List.length_pos_of_ne_nil (text_ne_nil h.wellFormed)
    · exact h.length_le u more hu hs

/-- A token does not grow when white space and periods stand behind the text: a period belongs to a
token only between two digits. -/
theorem append_period (h : Longest s t rest)
    (hw : ∀ c ∈ w, Text.isSpace c = true ∨ c = '.') : Longest (s ++ w) t (rest ++ w) where
  wellFormed := h.wellFormed
  eq_append := by rw [h.eq_append, List.append_assoc]
  length_le u rest' hu heq := by
    rcases List.append_eq_append_iff.1 heq with ⟨more, htext, hmore⟩ | ⟨more, hs, -⟩
    · rcases List.eq_nil_or_concat' more with rfl | ⟨more, c, rfl⟩
      · exact h.length_le u [] hu (by rw [htext, List.append_nil, List.append_nil])
      · -- The other token would end with white space or with a period.
        have hlast : u.text.toList.getLast? = some c := by
          rw [htext, ← List.append_assoc, List.getLast?_concat]
        rcases hw c (by simp [hmore]) with hspace | rfl
        · rw [isSpace_of_mem_text hu (List.mem_of_getLast? hlast)] at hspace
          cases hspace
        · exact absurd hlast (getLast?_text_ne_period hu)
    · exact h.length_le u more hu hs

theorem of_append (h : Longest (s ++ w) t (rest ++ w)) : Longest s t rest where
  wellFormed := h.wellFormed
  eq_append := by
    have heq := h.eq_append
    rwa [← List.append_assoc, List.append_left_inj] at heq
  length_le u rest' hu heq := h.length_le u (rest' ++ w) hu (by rw [heq, List.append_assoc])

end Longest

end Token

/-! ## Dividing and joining -/

namespace Tokenised

variable {s s' w : List Char} {ts us : List Token}

/-- A text of tokens is the first one behind blanks, and the others behind it. -/
theorem cons_iff_append {t : Token} :
    Tokenised s (t :: ts) ↔ ∃ blanks rest, (∀ c ∈ blanks, Text.isBlank c = true) ∧
      s = blanks ++ (t.text.toList ++ rest) ∧ t.Longest (t.text.toList ++ rest) rest ∧
        Tokenised rest ts := by
  constructor
  · intro h
    cases h with
    | @token _ rest _ _ hlongest hrest =>
      have heq := hlongest.eq_append
      refine ⟨s.takeWhile Text.isBlank, rest, fun c hc => List.mem_takeWhile_imp hc, ?_,
        heq ▸ hlongest, hrest⟩
      rw [← heq, List.takeWhile_append_dropWhile]
  · rintro ⟨blanks, rest, hblanks, rfl, hlongest, hrest⟩
    refine .token ?_ hrest
    rwa [List.dropWhile_append_of_pos hblanks,
      Token.dropWhile_isBlank_text hlongest.wellFormed]

theorem blank_append (hw : ∀ c ∈ w, Text.isBlank c = true) (h : Tokenised s ts) :
    Tokenised (w ++ s) ts := by
  rwa [← dropWhile_iff, List.dropWhile_append_of_pos hw, dropWhile_iff]

/-- Texts of tokens are joined in front of a character that goes on no token. -/
theorem append (hs : Tokenised s ts) (hs' : Tokenised s' us)
    (hjoint : ∀ c ∈ s'.head?, Token.Apart c) : Tokenised (s ++ s') (ts ++ us) := by
  induction ts generalizing s with
  | nil =>
    cases hs with
    | blank hblank => exact blank_append hblank hs'
  | cons t ts ih =>
    obtain ⟨blanks, rest, hblanks, rfl, hlongest, hrest⟩ := cons_iff_append.1 hs
    refine cons_iff_append.2 ⟨blanks, rest ++ s', hblanks, by simp only [List.append_assoc], ?_,
      ih hrest⟩
    rw [← List.append_assoc]
    exact hlongest.append hjoint

/-- A text of tokens is divided between any two of them. -/
theorem exists_append (h : Tokenised s (ts ++ us)) :
    ∃ a b, s = a ++ b ∧ Tokenised a ts ∧ Tokenised b us := by
  induction ts generalizing s with
  | nil => exact ⟨[], s, rfl, .blank (by simp), h⟩
  | cons t ts ih =>
    obtain ⟨blanks, rest, hblanks, rfl, hlongest, hrest⟩ := cons_iff_append.1 h
    obtain ⟨a, b, rfl, ha, hb⟩ := ih hrest
    rw [← List.append_assoc] at hlongest
    exact ⟨blanks ++ (t.text.toList ++ a), b, by simp only [List.append_assoc],
      cons_iff_append.2 ⟨blanks, a, hblanks, rfl, hlongest.of_append, ha⟩, hb⟩

theorem append_blank (h : Tokenised s ts) (hw : ∀ c ∈ w, Text.isBlank c = true) :
    Tokenised (s ++ w) ts := by
  have hjoint : ∀ c ∈ w.head?, Token.Apart c := fun c hc =>
    Token.apart_of_isSpace (Text.isSpace_of_isBlank (hw c (List.mem_of_mem_head? hc)))
  have happend := h.append (.blank hw) hjoint
  rwa [List.append_nil] at happend

/-! ## Commas and brackets -/

/-- A text is divided at any of its commas that is a token, and any comma is one. -/
theorem exists_comma (h : Tokenised s (ts ++ .comma :: us)) :
    ∃ a b, s = a ++ ',' :: b ∧ Tokenised a ts ∧ Tokenised b us := by
  obtain ⟨a, b, rfl, ha, hb⟩ := exists_append h
  obtain ⟨blanks, rest, hblanks, rfl, -, hrest⟩ := cons_iff_append.1 hb
  exact ⟨a ++ blanks, rest, (List.append_assoc ..).symm, ha.append_blank hblanks, hrest⟩

/-- A bracket, a comma or a bar may be put between any two texts of tokens. -/
theorem mark {t : Token} (ht : t.isMark = true) (hs : Tokenised s ts) (hs' : Tokenised s' us) :
    Tokenised (s ++ (t.text.toList ++ s')) (ts ++ t :: us) := by
  have hlongest := Token.scan?_eq_some_iff.1 (Token.scan?_mark ht s')
  have hdelimiter : ∀ c ∈ Token.markChars, Text.isDelimiter c = true :=
    List.all_iff_forall_prop.1 rfl
  obtain ⟨c, hc, htext⟩ := Token.mem_text_mark ht
  refine hs.append (.token ?_ hs') ?_
  · rwa [Token.dropWhile_isBlank_text hlongest.wellFormed]
  · rw [htext]
    rintro d ⟨⟩
    exact Token.apart_of_isDelimiter (hdelimiter c hc)

theorem comma (hs : Tokenised s ts) (hs' : Tokenised s' us) :
    Tokenised (s ++ ',' :: s') (ts ++ .comma :: us) :=
  mark (t := .comma) rfl hs hs'

/-! ## White space at the ends -/

theorem of_space_append (hw : ∀ c ∈ w, Text.isSpace c = true) (h : Tokenised (w ++ s) ts) :
    Tokenised s ts := by
  induction w with
  | nil => exact h
  | cons c w ih =>
    rw [List.forall_mem_cons] at hw
    cases ts with
    | nil =>
      cases h with
      | blank hblank =>
        exact .blank fun d hd => hblank d (by simp [hd])
    | cons t ts =>
      refine ih hw.2 ?_
      obtain ⟨blanks, rest, hblanks, heq, hlongest, hrest⟩ := cons_iff_append.1 h
      cases blanks with
      | nil =>
        obtain ⟨d, v, htext⟩ := List.exists_cons_of_ne_nil (Token.text_ne_nil hlongest.wellFormed)
        rw [htext, List.nil_append, List.cons_append, List.cons_append, List.cons.injEq] at heq
        have hd := Token.isSpace_of_mem_text hlongest.wellFormed (c := d) (by simp [htext])
        rw [← heq.1, hw.1] at hd
        cases hd
      | cons d blanks =>
        rw [List.cons_append, List.cons_append, List.cons.injEq] at heq
        exact cons_iff_append.2
          ⟨blanks, rest, (List.forall_mem_cons.1 hblanks).2, heq.2, hlongest, hrest⟩

theorem of_append_space (h : Tokenised (s ++ w) ts) (hw : ∀ c ∈ w, Text.isSpace c = true) :
    Tokenised s ts := by
  induction ts generalizing s with
  | nil =>
    cases h with
    | blank hblank => exact .blank (List.forall_mem_append.1 hblank).1
  | cons t ts ih =>
    obtain ⟨blanks, rest, hblanks, heq, hlongest, hrest⟩ := cons_iff_append.1 h
    obtain ⟨rest', rfl, rfl⟩ := Token.exists_append_of_space hlongest.wellFormed hw heq
    rw [← List.append_assoc] at hlongest
    exact cons_iff_append.2 ⟨blanks, rest', hblanks, rfl, hlongest.of_append, ih hrest⟩

/-- Trimming a text of tokens leaves all of them. -/
theorem trim (h : Tokenised s ts) : Tokenised (Text.trim s) ts := by
  obtain ⟨before, after, hbefore, hafter, heq⟩ := Text.exists_trim s
  rw [heq, List.append_assoc] at h
  exact (h.of_space_append hbefore).of_append_space hafter

/-- Only a text without tokens is white space. -/
theorem trim_eq_nil_iff (h : Tokenised s ts) : Text.trim s = [] ↔ ts = [] := by
  constructor
  · intro htrim
    have htrimmed := h.trim
    rw [htrim] at htrimmed
    exact htrimmed.unique (.blank (by simp))
  · rintro rfl
    cases h with
    | blank hblank => exact Text.trim_eq_nil_iff.2 fun c hc => Text.isSpace_of_isBlank (hblank c hc)

/-- What is trimmed from a text hides no token, and if it consists of blanks, it bars none. -/
theorem of_trim (hs : ∀ c ∈ s, Text.isSpace c = true → Text.isBlank c = true)
    (h : Tokenised (Text.trim s) ts) : Tokenised s ts := by
  obtain ⟨before, after, hbefore, hafter, heq⟩ := Text.exists_trim s
  have hbefore' : ∀ c ∈ before, Text.isBlank c = true := fun c hc =>
    hs c (by rw [heq]; simp [hc]) (hbefore c hc)
  have hafter' : ∀ c ∈ after, Text.isBlank c = true := fun c hc =>
    hs c (by rw [heq]; simp [hc]) (hafter c hc)
  rw [heq]
  exact (h.blank_append hbefore').append_blank hafter'

end Tokenised

end HornClauses
