import HornClauses.Proofs.TokenForm
import Mathlib.Data.List.Basic

/-!
# The characters of tokens

A token that is no bracket, comma or bar consists of characters of words and of digits, periods,
symbol and operator characters. So tokens hold no white space and no percent sign, and brackets and
commas occur in a text as tokens only.

* `Token.mem_text`: the characters of a token.
* `Token.isSpace_of_mem_text`, `Token.ne_percent_of_mem_text`, `Token.isDelimiter_of_mem_text`: what
  they are not.
-/

namespace HornClauses

namespace Text

/-! ## White space -/

/-- Does a run lie between two neighbouring white space characters beyond ASCII? -/
def betweenSpaces (run : Nat × Nat) : Bool :=
  0x3000 < run.1 || (0x205F < run.1 && run.2 < 0x3000) || (0x1680 < run.1 && run.2 < 0x2000) ||
    (0xA0 < run.1 && run.2 < 0x1680)

theorem inRuns_of_isSpace {c : Char} (hc : isSpace c = true) (runs : List (Nat × Nat))
    (hr : runs.all betweenSpaces = true) : inRuns runs c = false := by
  rw [inRuns, List.any_eq_false]
  intro run hrun
  have hrun := List.all_eq_true.1 hr run hrun
  simp only [isSpace, betweenSpaces, Bool.or_eq_true, Bool.and_eq_true, decide_eq_true_eq]
    at hc hrun ⊢
  omega

theorem class_of_isSpace {c : Char} (h : isSpace c = true) :
    isNameChar c = false ∧ isVariableStart c = false := by
  by_cases hlt : c.toNat < 0x80
  · have hmem : c.toNat ∈ [9, 10, 11, 12, 13, 32] := by
      simp only [isSpace, Bool.or_eq_true, Bool.and_eq_true, decide_eq_true_eq] at h
      simp only [List.mem_cons, List.not_mem_nil, or_false]
      omega
    have hall : ∀ n ∈ [9, 10, 11, 12, 13, 32],
        isNameChar (Char.ofNat n) = false ∧ isVariableStart (Char.ofNat n) = false := by
      decide
    simpa using hall _ hmem
  · have hne : c ≠ '_' := by
      rintro rfl
      exact hlt (by decide)
    have hletter := inRuns_of_isSpace h letterRuns (by decide +kernel)
    have hmark := inRuns_of_isSpace h markRuns (by decide +kernel)
    have hdecimal := inRuns_of_isSpace h decimalRuns (by decide +kernel)
    have hupper := inRuns_of_isSpace h uppercaseRuns (by decide +kernel)
    have htitle := inRuns_of_isSpace h titlecaseRuns (by decide +kernel)
    simp [isNameChar, isVariableStart, isLetter, isMark, isDecimal, isUppercase, isTitlecase,
      inClass, hlt, hletter, hmark, hdecimal, hupper, htitle, hne]

end Text

namespace Token

open Text

/-! ## The characters of a token -/

theorem ne_of_class {p : Char → Bool} {c d : Char} (hc : p c = true) (hd : p d = false) :
    c ≠ d := by
  rintro rfl
  rw [hc] at hd
  cases hd

/-- The characters outside words that tokens are made of, the marks excepted. -/
def plainChars : List Char := "0123456789.!;@#$&?^~:<>=+-*/\\".toList

/-- The characters that are tokens by themselves. -/
def markChars : List Char := "()[],|".toList

def isWordChar (c : Char) : Bool := isNameChar c || isVariableStart c

theorem isWordChar_of_isNameChar {c : Char} (h : isNameChar c = true) : isWordChar c = true := by
  simp [isWordChar, h]

theorem mem_plainChars_of_isDigit {c : Char} (h : c.isDigit = true) : c ∈ plainChars := by
  have hall : ∀ d ∈ "0123456789".toList, d ∈ plainChars := List.all_iff_forall_prop.1 rfl
  exact hall c (mem_digits h)

theorem mem_plainChars_of_isSymbolChar {c : Char} (h : isSymbolChar c = true) :
    c ∈ plainChars := by
  have hall : ∀ d ∈ "!;@#$&?^~:".toList, d ∈ plainChars := List.all_iff_forall_prop.1 rfl
  exact hall c (mem_symbols h)

theorem mem_text_mark {t : Token} (h : t.isMark = true) :
    ∃ c ∈ markChars, t.text.toList = [c] := by
  cases t <;> first | exact ⟨_, by decide, rfl⟩ | cases h

/-! ## The characters of each kind -/

section Kinds

variable {text : String}

theorem IsName.forall_mem (h : IsName text) : ∀ c ∈ text.toList, isWordChar c = true := by
  obtain ⟨d, w, ht, hl, -, hw, -⟩ := h
  rw [ht, List.forall_mem_cons]
  refine ⟨?_, fun c hc => isWordChar_of_isNameChar (hw c hc)⟩
  simp [isWordChar, isNameChar, hl]

theorem IsVariable.forall_mem (h : IsVariable text) : ∀ c ∈ text.toList, isWordChar c = true := by
  obtain ⟨d, w, ht, hv, hw⟩ := h
  rw [ht, List.forall_mem_cons]
  refine ⟨?_, fun c hc => isWordChar_of_isNameChar (hw c hc)⟩
  simp [isWordChar, hv]

theorem IsNumber.forall_mem (h : IsNumber text) :
    ∀ c ∈ text.toList, c.isDigit = true ∨ c = '.' := by
  obtain ⟨d, w, fraction, ht, hd, hw, hf⟩ := h
  rw [ht, List.cons_append, List.forall_mem_cons, List.forall_mem_append]
  refine ⟨Or.inl hd, fun c hc => Or.inl (hw c hc), ?_⟩
  rcases hf with rfl | ⟨e, v, rfl, he, hv⟩
  · simp
  · rw [List.forall_mem_cons, List.forall_mem_cons]
    exact ⟨Or.inr rfl, Or.inl he, fun c hc => Or.inl (hv c hc)⟩

theorem IsSymbol.forall_mem (h : IsSymbol text) : ∀ c ∈ text.toList, isSymbolChar c = true := by
  obtain ⟨d, w, ht, hd, hw⟩ := h
  rw [ht, List.forall_mem_cons]
  exact ⟨hd, hw⟩

end Kinds

/-- A token that is no mark consists of characters of words and of plain characters. -/
theorem mem_text {t : Token} (h : t.WellFormed) (hm : t.isMark = false) {c : Char}
    (hc : c ∈ t.text.toList) : isWordChar c = true ∨ c ∈ plainChars := by
  cases t with
  | name text => exact Or.inl (IsName.forall_mem h c hc)
  | var text => exact Or.inl (IsVariable.forall_mem h c hc)
  | number text =>
    right
    rcases IsNumber.forall_mem h c hc with hd | rfl
    · exact mem_plainChars_of_isDigit hd
    · decide
  | symbol text => exact Or.inr (mem_plainChars_of_isSymbolChar (IsSymbol.forall_mem h c hc))
  | operator op =>
    have hall : ∀ d ∈ op.token.toList, isWordChar d = true ∨ d ∈ plainChars := by
      cases op <;> exact List.all_iff_forall_prop.1 rfl
    exact hall c hc
  | _ => cases hm

/-- What holds of all three groups of characters holds of every character of a token. -/
theorem forall_mem_text {p : Char → Prop} (hword : ∀ c, isWordChar c = true → p c)
    (hplain : ∀ c ∈ plainChars, p c) (hmark : ∀ c ∈ markChars, p c) {t : Token}
    (h : t.WellFormed) : ∀ c ∈ t.text.toList, p c := by
  intro c hc
  cases hm : t.isMark with
  | true =>
    obtain ⟨d, hd, ht⟩ := mem_text_mark hm
    rw [ht, List.mem_singleton] at hc
    exact hc ▸ hmark d hd
  | false =>
    rcases mem_text h hm hc with hc | hc
    · exact hword c hc
    · exact hplain c hc

theorem isSpace_of_mem_text {t : Token} (h : t.WellFormed) {c : Char} (hc : c ∈ t.text.toList) :
    isSpace c = false := by
  refine forall_mem_text (p := fun c => isSpace c = false) ?_ (List.all_iff_forall_prop.1 rfl)
    (List.all_iff_forall_prop.1 rfl) h c hc
  intro c hw
  by_contra hs
  obtain ⟨hn, hv⟩ := class_of_isSpace (by simpa using hs)
  simp [isWordChar, hn, hv] at hw

theorem ne_percent_of_mem_text {t : Token} (h : t.WellFormed) {c : Char}
    (hc : c ∈ t.text.toList) : c ≠ '%' := by
  refine forall_mem_text (p := (· ≠ '%')) ?_ (List.all_iff_forall_prop.1 rfl)
    (List.all_iff_forall_prop.1 rfl) h c hc
  rintro c hw rfl
  exact absurd hw (by decide)

/-- Only brackets, commas and bars hold delimiters. -/
theorem isDelimiter_of_mem_text {t : Token} (h : t.WellFormed) (hm : t.isMark = false) {c : Char}
    (hc : c ∈ t.text.toList) : isDelimiter c = false := by
  rcases mem_text h hm hc with hw | hp
  · by_contra hd
    rcases isDelimiter_iff.1 (by simpa using hd) with rfl | rfl | rfl | rfl | rfl | rfl | rfl <;>
      exact absurd hw (by decide)
  · have hall : ∀ d ∈ plainChars, isDelimiter d = false := List.all_iff_forall_prop.1 rfl
    exact hall c hp

theorem text_ne_nil {t : Token} (h : t.WellFormed) : t.text.toList ≠ [] := by
  have := scan?_of_wellFormed h [] (Or.inr delimited_nil)
  rw [List.append_nil] at this
  intro he
  rw [he] at this
  cases this

/-- A period stands inside a number only, between two digits. -/
theorem getLast?_text_ne_period {t : Token} (h : t.WellFormed) :
    t.text.toList.getLast? ≠ some '.' := by
  have hother : (∀ c ∈ t.text.toList, c ≠ '.') → t.text.toList.getLast? ≠ some '.' :=
    fun hall hlast => hall '.' (List.mem_of_getLast? hlast) rfl
  cases t with
  | name text => exact hother fun c hc => ne_of_class (IsName.forall_mem h c hc) (by decide)
  | var text => exact hother fun c hc => ne_of_class (IsVariable.forall_mem h c hc) (by decide)
  | number text =>
    obtain ⟨d, w, fraction, ht, hd, hw, hf⟩ := h
    have hdigits : ∀ {e : Char} {v : List Char}, e.isDigit = true → (∀ c ∈ v, c.isDigit = true) →
        (e :: v).getLast? ≠ some '.' := by
      intro e v he hv hlast
      rcases List.mem_cons.1 (List.mem_of_getLast? hlast) with rfl | hmem
      · exact absurd he (by decide)
      · exact absurd (hv '.' hmem) (by decide)
    rw [Token.text, ht]
    rcases hf with rfl | ⟨e, v, rfl, he, hv⟩
    · rw [List.append_nil]
      exact hdigits hd hw
    · rw [List.getLast?_append_of_ne_nil _ (by simp), List.getLast?_cons_cons]
      exact hdigits he hv
  | symbol text => exact hother fun c hc => ne_of_class (IsSymbol.forall_mem h c hc) (by decide)
  | operator op => cases op <;> decide
  | _ => decide

end Token

end HornClauses
