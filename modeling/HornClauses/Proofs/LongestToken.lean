import HornClauses.Proofs.TokenForm
import Mathlib.Data.List.DropRight

/-!
# Longest tokens

A text is divided into tokens by skipping blanks and taking the longest token that stands there,
over and over. That is what the scanner does: the first character of a token fixes its kind, and the
token goes on as far as its kind allows.

* `Token.Longest`: the longest token at the front of a text.
* `Token.scan?_eq_some_iff`: the scanner takes the longest token.
* `Tokenised`: a text that consists of tokens and blanks, and its tokens.
* `tokenised_iff`: these are the tokens of a scan that leaves nothing.
-/

namespace HornClauses

namespace Token

open Text

/-- A token at the front of a text, as long as any that stands there, and what follows it. -/
structure Longest (s : List Char) (t : Token) (rest : List Char) : Prop where
  wellFormed : t.WellFormed
  eq_append : s = t.text.toList ++ rest
  length_le : ∀ (t' : Token) (rest' : List Char), t'.WellFormed → s = t'.text.toList ++ rest' →
    t'.text.toList.length ≤ t.text.toList.length

/-! ## Scanning by the class of the first character -/

section Classes

variable {c : Char}

theorem scan?_of_isVariableStart (h : isVariableStart c = true) (s : List Char) :
    scan? (c :: s) = some (var (String.ofList (c :: s.takeWhile isNameChar)),
      s.dropWhile isNameChar) := by
  rw [scan?, if_pos h]

theorem scan?_of_isLetter (hv : isVariableStart c = false) (h : isLetter c = true)
    (s : List Char) :
    scan? (c :: s) = some (ofWord (String.ofList (c :: s.takeWhile isNameChar)),
      s.dropWhile isNameChar) := by
  rw [scan?, hv, if_neg Bool.false_ne_true, if_pos h]

theorem scan?_of_isDigit (h : c.isDigit = true) (s : List Char) :
    scan? (c :: s) =
      some (scanNumber (c :: s.takeWhile Char.isDigit) (s.dropWhile Char.isDigit)) := by
  rw [scan?, isVariableStart_of_isDigit h, isLetter_of_isDigit h, if_neg Bool.false_ne_true,
    if_neg Bool.false_ne_true, if_pos h]

theorem scan?_of_isSymbolChar (h : isSymbolChar c = true) (s : List Char) :
    scan? (c :: s) = some (symbol (String.ofList (c :: s.takeWhile isSymbolChar)),
      s.dropWhile isSymbolChar) := by
  obtain ⟨hv, hl, hd⟩ := class_of_isSymbolChar h
  rw [scan?, hv, hl, hd, if_neg Bool.false_ne_true, if_neg Bool.false_ne_true,
    if_neg Bool.false_ne_true, if_pos h]

end Classes

/-- The text of an operator that is no word begins with no character of the other classes. -/
theorem scan?_operator_append {op : Operator} (his : op ≠ .is) (hdiv : op ≠ .div)
    (rest : List Char) :
    scan? (op.token.toList ++ rest) = scanMark? (op.token.toList ++ rest) := by
  cases op <;> first | contradiction | rfl

theorem isSome_scanMark? {op : Operator} (his : op ≠ .is) (hdiv : op ≠ .div)
    (rest : List Char) : (scanMark? (op.token.toList ++ rest)).isSome = true := by
  have hlong : ∀ c, c = '>' ∨ c = '\\' → (scanMark? (c :: rest)).isSome = true := by
    rintro c (rfl | rfl) <;> unfold scanMark? <;> split <;> simp_all
  cases op with
  | gt => exact hlong '>' (Or.inl rfl)
  | backslash => exact hlong '\\' (Or.inr rfl)
  | _ => first | contradiction | rfl

/-! ## Scanned tokens are longest -/

/-- Characters of one class at the front of a text are among all that stand there. -/
theorem length_le_takeWhile {p : Char → Bool} {w rest s : List Char} (hw : ∀ c ∈ w, p c = true)
    (h : s = w ++ rest) : w.length ≤ (s.takeWhile p).length := by
  rw [h, List.takeWhile_append_of_pos hw, List.length_append]
  omega

theorem takeWhile_append_cons {p : Char → Bool} {w : List Char} (hw : ∀ c ∈ w, p c = true)
    {d : Char} (hd : p d = false) (s : List Char) : (w ++ d :: s).takeWhile p = w := by
  rw [List.takeWhile_append_of_pos hw, List.takeWhile_cons, hd]
  simp

theorem dropWhile_append_cons {p : Char → Bool} {w : List Char} (hw : ∀ c ∈ w, p c = true)
    {d : Char} (hd : p d = false) (s : List Char) : (w ++ d :: s).dropWhile p = d :: s := by
  rw [List.dropWhile_append_of_pos hw, List.dropWhile_cons, hd]
  simp

theorem length_le_scanNumber (digits rest : List Char) :
    digits.length ≤ (scanNumber digits rest).1.text.toList.length := by
  unfold scanNumber
  split
  · split <;> simp [text]
  · simp [text]

section Lengths

variable {s rest rest' : List Char} {t : Token}

theorem length_pos_of_scan? (h : scan? s = some (t, rest)) : 0 < t.text.toList.length := by
  cases s with
  | nil => simp [scan?] at h
  | cons c s =>
    obtain ⟨more, ht, -⟩ := scan?_text h
    simp [ht]

theorem length_le_of_word {c : Char} {w : List Char} (hv : isVariableStart c = false)
    (hl : isLetter c = true) (hw : ∀ d ∈ w, isNameChar d = true)
    (h : scan? (c :: w ++ rest') = some (t, rest)) :
    (c :: w).length ≤ t.text.toList.length := by
  rw [List.cons_append, scan?_of_isLetter hv hl] at h
  cases h
  rw [text_ofWord, String.toList_ofList, List.length_cons, List.length_cons]
  exact Nat.succ_le_succ (length_le_takeWhile hw rfl)

theorem length_le_of_number {word : String} (hword : IsNumber word)
    (h : scan? (word.toList ++ rest') = some (t, rest)) :
    word.toList.length ≤ t.text.toList.length := by
  obtain ⟨c, w, fraction, ht, hc, hw, hf⟩ := hword
  rw [ht, List.cons_append, List.cons_append, scan?_of_isDigit hc, Option.some.injEq] at h
  rcases hf with rfl | ⟨d, v, rfl, hd, hv⟩
  · have hlength := length_le_scanNumber (c :: (w ++ [] ++ rest').takeWhile Char.isDigit)
      ((w ++ [] ++ rest').dropWhile Char.isDigit)
    rw [h, List.length_cons] at hlength
    rw [ht, List.append_nil, List.length_cons]
    rw [List.append_nil] at hlength
    exact (Nat.succ_le_succ (length_le_takeWhile hw rfl)).trans hlength
  · -- A fraction is taken once the digits before its period are.
    have hperiod : Char.isDigit '.' = false := by decide
    rw [List.append_assoc, List.cons_append, takeWhile_append_cons hw hperiod,
      dropWhile_append_cons hw hperiod, List.cons_append, scanNumber, if_pos hd] at h
    cases h
    have hlength := length_le_takeWhile hv (rfl : v ++ rest' = v ++ rest')
    simp only [text, ht, String.toList_ofList, List.length_cons, List.length_append]
    omega

theorem length_le_of_operator (op : Operator)
    (h : scan? (op.token.toList ++ rest') = some (t, rest)) :
    op.token.toList.length ≤ t.text.toList.length := by
  have hlong : scan? (op.token.toList ++ rest') = some (operator op, rest') →
      op.token.toList.length ≤ t.text.toList.length := by
    intro hscan
    rw [hscan] at h
    cases h
    exact Nat.le_refl _
  cases op with
  | is =>
    exact length_le_of_word (c := 'i') (w := ['s']) (by decide) (by decide)
      (List.all_eq_true.1 rfl) h
  | div =>
    exact length_le_of_word (c := 'd') (w := ['i', 'v']) (by decide) (by decide)
      (List.all_eq_true.1 rfl) h
  | ge => exact hlong rfl
  | le => exact hlong rfl
  | ne => exact hlong rfl
  | eq => exact hlong rfl
  | _ => exact length_pos_of_scan? h

/-- No token at the front of a text is longer than the one that is scanned. -/
theorem length_le_of_scan? (h : scan? s = some (t, rest)) {t' : Token} (ht' : t'.WellFormed)
    (hs : s = t'.text.toList ++ rest') : t'.text.toList.length ≤ t.text.toList.length := by
  subst hs
  cases t' with
  | name word =>
    obtain ⟨c, w, ht, hl, hv, hw, -⟩ := ht'
    rw [text, ht] at h ⊢
    exact length_le_of_word hv hl hw h
  | var word =>
    obtain ⟨c, w, ht, hv, hw⟩ := ht'
    rw [text, ht] at h ⊢
    rw [List.cons_append, scan?_of_isVariableStart hv] at h
    cases h
    rw [text, String.toList_ofList, List.length_cons, List.length_cons]
    exact Nat.succ_le_succ (length_le_takeWhile hw rfl)
  | number word => exact length_le_of_number ht' h
  | symbol word =>
    obtain ⟨c, w, ht, hc, hw⟩ := ht'
    rw [text, ht] at h ⊢
    rw [List.cons_append, scan?_of_isSymbolChar hc] at h
    cases h
    rw [text, String.toList_ofList, List.length_cons, List.length_cons]
    exact Nat.succ_le_succ (length_le_takeWhile hw rfl)
  | operator op => exact length_le_of_operator op h
  | _ => exact length_pos_of_scan? h

end Lengths

/-! ## Longest tokens are scanned -/

/-- Where a token stands, one is scanned. -/
theorem isSome_scan? {t : Token} (ht : t.WellFormed) (rest : List Char) :
    (scan? (t.text.toList ++ rest)).isSome = true := by
  cases t with
  | name word =>
    obtain ⟨c, w, ht, hl, hv, -⟩ := ht
    rw [text, ht, List.cons_append, scan?_of_isLetter hv hl]
    rfl
  | var word =>
    obtain ⟨c, w, ht, hv, -⟩ := ht
    rw [text, ht, List.cons_append, scan?_of_isVariableStart hv]
    rfl
  | number word =>
    obtain ⟨c, w, fraction, ht, hc, -⟩ := ht
    rw [text, ht, List.cons_append, List.cons_append, scan?_of_isDigit hc]
    rfl
  | symbol word =>
    obtain ⟨c, w, ht, hc, -⟩ := ht
    rw [text, ht, List.cons_append, scan?_of_isSymbolChar hc]
    rfl
  | operator op =>
    by_cases his : op = .is
    · subst his
      exact congrArg Option.isSome (scan?_of_isLetter (c := 'i') (by decide) (by decide) _)
    by_cases hdiv : op = .div
    · subst hdiv
      exact congrArg Option.isSome (scan?_of_isLetter (c := 'd') (by decide) (by decide) _)
    · rw [text, scan?_operator_append his hdiv]
      exact isSome_scanMark? his hdiv rest
  | _ => rfl

/-- The text of a token tells the token. -/
theorem eq_of_text_eq {t u : Token} (ht : t.WellFormed) (hu : u.WellFormed)
    (h : t.text.toList = u.text.toList) : t = u := by
  have hscan := scan?_of_wellFormed ht [] (Or.inr delimited_nil)
  rw [h, scan?_of_wellFormed hu [] (Or.inr delimited_nil)] at hscan
  cases hscan
  rfl

theorem Longest.unique {s rest rest' : List Char} {t t' : Token} (h : Longest s t rest)
    (h' : Longest s t' rest') : t = t' ∧ rest = rest' := by
  have hlength := Nat.le_antisymm (h'.length_le t rest h.wellFormed h.eq_append)
    (h.length_le t' rest' h'.wellFormed h'.eq_append)
  obtain ⟨htext, hrest⟩ := List.append_inj (h.eq_append.symm.trans h'.eq_append) hlength
  exact ⟨eq_of_text_eq h.wellFormed h'.wellFormed htext, hrest⟩

/-- The scanner takes the longest token. -/
theorem scan?_eq_some_iff {s rest : List Char} {t : Token} :
    scan? s = some (t, rest) ↔ Longest s t rest := by
  have hlongest : ∀ {t rest}, scan? s = some (t, rest) → Longest s t rest := fun h =>
    ⟨wellFormed_of_scan? h, scan?_append h, fun t' rest' ht' hs => length_le_of_scan? h ht' hs⟩
  constructor
  · exact hlongest
  · intro h
    have hsome := isSome_scan? h.wellFormed rest
    rw [← h.eq_append] at hsome
    obtain ⟨⟨t', rest'⟩, hscan⟩ := Option.isSome_iff_exists.1 hsome
    obtain ⟨rfl, rfl⟩ := h.unique (hlongest hscan)
    exact hscan

end Token

/-! ## Texts as tokens -/

/-- Tokens, each the longest where it stands after blanks, and blanks at the end. -/
inductive Tokenised : List Char → List Token → Prop where
  | blank {s : List Char} : (∀ c ∈ s, Text.isBlank c = true) → Tokenised s []
  | token {s rest : List Char} {t : Token} {ts : List Token} :
    Token.Longest (s.dropWhile Text.isBlank) t rest → Tokenised rest ts → Tokenised s (t :: ts)

/-- The tokens of a text are those of a scan that leaves nothing. -/
theorem tokenised_iff {s : List Char} {ts : List Token} :
    Tokenised s ts ↔ (Lexeme.scan (s.dropWhile Text.isBlank)).2 = [] ∧
      (Lexeme.scan (s.dropWhile Text.isBlank)).1.map Lexeme.token = ts := by
  constructor
  · intro h
    induction h with
    | @blank s hs =>
      rw [List.dropWhile_eq_nil_iff.2 hs, Lexeme.scan_none rfl]
      exact ⟨rfl, rfl⟩
    | @token s rest t ts hlongest _ ih =>
      rw [Lexeme.scan_some (Token.scan?_eq_some_iff.2 hlongest)]
      exact ⟨ih.1, congrArg (t :: ·) ih.2⟩
  · induction hu : s.dropWhile Text.isBlank using Lexeme.scan.induct generalizing s ts with
    | case1 u hscan =>
      rw [Lexeme.scan_none hscan]
      rintro ⟨rfl, rfl⟩
      exact .blank (List.dropWhile_eq_nil_iff.1 hu)
    | case2 u t rest hscan ih =>
      rw [Lexeme.scan_some hscan]
      rintro ⟨hrest, rfl⟩
      exact .token (hu ▸ Token.scan?_eq_some_iff.1 hscan) (ih rfl ⟨hrest, rfl⟩)

namespace Tokenised

variable {s : List Char} {ts us : List Token}

theorem unique (h : Tokenised s ts) (h' : Tokenised s us) : ts = us :=
  (tokenised_iff.1 h).2.symm.trans (tokenised_iff.1 h').2

theorem dropWhile_iff : Tokenised (s.dropWhile Text.isBlank) ts ↔ Tokenised s ts := by
  rw [tokenised_iff, tokenised_iff, List.dropWhile_idempotent]

theorem nil_iff : Tokenised s [] ↔ s.dropWhile Text.isBlank = [] := by
  rw [List.dropWhile_eq_nil_iff]
  constructor
  · intro h
    cases h with
    | blank hs => exact hs
  · exact .blank

theorem cons_iff {t : Token} :
    Tokenised s (t :: ts) ↔
      ∃ rest, Token.scan? (s.dropWhile Text.isBlank) = some (t, rest) ∧ Tokenised rest ts := by
  constructor
  · intro h
    cases h with
    | token ht hrest => exact ⟨_, Token.scan?_eq_some_iff.2 ht, hrest⟩
  · rintro ⟨rest, ht, hrest⟩
    exact .token (Token.scan?_eq_some_iff.1 ht) hrest

theorem wellFormed (h : Tokenised s ts) : ∀ t ∈ ts, t.WellFormed := by
  induction h with
  | blank _ => simp
  | token ht _ ih => exact List.forall_mem_cons.2 ⟨ht.wellFormed, ih⟩

end Tokenised

end HornClauses
