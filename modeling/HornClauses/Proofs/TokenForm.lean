import HornClauses.Token
import Mathlib.Data.Bool.AllAny
import Mathlib.Data.List.TakeWhile

/-!
# The form of tokens

What the text of a token of each kind looks like, and the two directions that tie it to the scanner:
every token that is scanned has the form of its kind, and a text of that form is scanned as the
token again, whatever follows, as long as the next character cannot prolong it.

* `Token.wellFormed_of_scan?`: scanned tokens are well formed.
* `Token.scan?_of_wellFormed`: well-formed tokens are scanned back before a delimiter.
-/

namespace HornClauses

namespace Text

/-! ## Characters that end a token -/

/-- A blank and the brackets, commas and bars that are tokens by themselves. -/
def isDelimiter (c : Char) : Bool :=
  c = ' ' || c = '(' || c = ')' || c = '[' || c = ']' || c = ',' || c = '|'

theorem isDelimiter_iff {c : Char} :
    isDelimiter c = true ↔
      c = ' ' ∨ c = '(' ∨ c = ')' ∨ c = '[' ∨ c = ']' ∨ c = ',' ∨ c = '|' := by
  simp only [isDelimiter, Bool.or_eq_true, decide_eq_true_eq, or_assoc]

theorem isNameChar_of_isDelimiter {c : Char} (h : isDelimiter c = true) :
    isNameChar c = false := by
  rcases isDelimiter_iff.1 h with rfl | rfl | rfl | rfl | rfl | rfl | rfl <;> decide

theorem isDigit_of_isDelimiter {c : Char} (h : isDelimiter c = true) : c.isDigit = false := by
  rcases isDelimiter_iff.1 h with rfl | rfl | rfl | rfl | rfl | rfl | rfl <;> decide

/-- Does a text end or go on with a delimiter? -/
def Delimited (s : List Char) : Prop := ∀ c, s.head? = some c → isDelimiter c = true

theorem delimited_nil : Delimited [] := fun _ h => by cases h

theorem delimited_cons {c : Char} (h : isDelimiter c = true) (s : List Char) :
    Delimited (c :: s) := by
  intro d hd
  cases hd
  exact h

/-- Taking characters stops at a delimiter of another class. -/
theorem takeWhile_of_delimited {p : Char → Bool} (hp : ∀ c, isDelimiter c = true → p c = false)
    {s : List Char} (hs : Delimited s) : s.takeWhile p = [] := by
  cases s with
  | nil => rfl
  | cons c s => simp [hp c (hs c rfl)]

theorem dropWhile_of_delimited {p : Char → Bool} (hp : ∀ c, isDelimiter c = true → p c = false)
    {s : List Char} (hs : Delimited s) : s.dropWhile p = s := by
  cases s with
  | nil => rfl
  | cons c s => simp [hp c (hs c rfl)]

theorem takeWhile_append_of_delimited {p : Char → Bool}
    (hp : ∀ c, isDelimiter c = true → p c = false) {w s : List Char} (hw : ∀ c ∈ w, p c = true)
    (hs : Delimited s) : (w ++ s).takeWhile p = w := by
  rw [List.takeWhile_append_of_pos hw, takeWhile_of_delimited hp hs, List.append_nil]

theorem dropWhile_append_of_delimited {p : Char → Bool}
    (hp : ∀ c, isDelimiter c = true → p c = false) {w s : List Char} (hw : ∀ c ∈ w, p c = true)
    (hs : Delimited s) : (w ++ s).dropWhile p = s := by
  rw [List.dropWhile_append_of_pos hw, dropWhile_of_delimited hp hs]

end Text

namespace Token

open Text

theorem isSymbolChar_of_isDelimiter {c : Char} (h : isDelimiter c = true) :
    isSymbolChar c = false := by
  rcases isDelimiter_iff.1 h with rfl | rfl | rfl | rfl | rfl | rfl | rfl <;> decide

/-! ## The form of each kind -/

/-- A word that begins with a letter, but begins no variable and is no operator. -/
def IsName (text : String) : Prop :=
  ∃ c w, text.toList = c :: w ∧ isLetter c = true ∧ isVariableStart c = false ∧
    (∀ d ∈ w, isNameChar d = true) ∧ text ≠ "is" ∧ text ≠ "div"

/-- A word that begins with an uppercase or titlecase letter or an underscore. -/
def IsVariable (text : String) : Prop :=
  ∃ c w, text.toList = c :: w ∧ isVariableStart c = true ∧ ∀ d ∈ w, isNameChar d = true

def IsNumber (text : String) : Prop :=
  ∃ c w fraction, text.toList = c :: w ++ fraction ∧ c.isDigit = true ∧
    (∀ d ∈ w, d.isDigit = true) ∧
    (fraction = [] ∨ ∃ d v, fraction = '.' :: d :: v ∧ d.isDigit = true ∧
      ∀ e ∈ v, e.isDigit = true)

def IsSymbol (text : String) : Prop :=
  ∃ c w, text.toList = c :: w ∧ isSymbolChar c = true ∧ ∀ d ∈ w, isSymbolChar d = true

def WellFormed : Token → Prop
  | name text => IsName text
  | var text => IsVariable text
  | number text => IsNumber text
  | symbol text => IsSymbol text
  | _ => True

/-- Is a token one of the characters that end every other token? -/
def isMark : Token → Bool
  | openParen | closeParen | openBracket | closeBracket | comma | bar => true
  | _ => false

/-! ## Classes of first characters -/

theorem mem_digits {c : Char} (h : c.isDigit = true) : c ∈ "0123456789".toList := by
  have hc : c.toNat ∈ List.range' 48 10 := by
    simp only [Char.isDigit, Bool.and_eq_true, decide_eq_true_eq, UInt32.le_iff_toNat_le] at h
    simp only [List.mem_range'_1]
    exact ⟨h.1, Nat.lt_succ_of_le h.2⟩
  have hall : ∀ n ∈ List.range' 48 10, Char.ofNat n ∈ "0123456789".toList := by decide
  simpa using hall _ hc

theorem isVariableStart_of_isDigit {c : Char} (h : c.isDigit = true) :
    isVariableStart c = false := by
  have hall : ∀ d ∈ "0123456789".toList, isVariableStart d = false :=
    List.all_iff_forall_prop.1 rfl
  exact hall c (mem_digits h)

theorem isLetter_of_isDigit {c : Char} (h : c.isDigit = true) : isLetter c = false := by
  have hall : ∀ d ∈ "0123456789".toList, isLetter d = false := List.all_iff_forall_prop.1 rfl
  exact hall c (mem_digits h)

theorem mem_symbols {c : Char} (h : isSymbolChar c = true) : c ∈ "!;@#$&?^~:".toList := by
  simpa [isSymbolChar, or_assoc] using h

/-- A symbol begins with no character that begins a token of another kind. -/
theorem class_of_isSymbolChar {c : Char} (h : isSymbolChar c = true) :
    isVariableStart c = false ∧ isLetter c = false ∧ c.isDigit = false := by
  have hall : ∀ d ∈ "!;@#$&?^~:".toList,
      isVariableStart d = false ∧ isLetter d = false ∧ d.isDigit = false :=
    List.all_iff_forall_prop.1 rfl
  exact hall c (mem_symbols h)

/-! ## Scanned tokens have their form -/

theorem wellFormed_ofWord {c : Char} {w : List Char} (hv : isVariableStart c = false)
    (hl : isLetter c = true) (hw : ∀ d ∈ w, isNameChar d = true) :
    (ofWord (String.ofList (c :: w))).WellFormed := by
  unfold ofWord
  split
  · trivial
  · rename_i h
    refine ⟨c, w, by simp, hl, hv, hw, ?_, ?_⟩
    · intro he
      rw [he] at h
      exact absurd h (by decide)
    · intro he
      rw [he] at h
      exact absurd h (by decide)

theorem wellFormed_scanNumber {c : Char} {w : List Char} (hc : c.isDigit = true)
    (hw : ∀ d ∈ w, d.isDigit = true) (rest : List Char) :
    (scanNumber (c :: w) rest).1.WellFormed := by
  unfold scanNumber
  split
  · rename_i d more
    split
    · rename_i hd
      exact ⟨c, w, '.' :: d :: more.takeWhile Char.isDigit, by simp, hc, hw,
        Or.inr ⟨d, _, rfl, hd, fun e he => List.mem_takeWhile_imp he⟩⟩
    · exact ⟨c, w, [], by simp, hc, hw, Or.inl rfl⟩
  · exact ⟨c, w, [], by simp, hc, hw, Or.inl rfl⟩

theorem wellFormed_of_scanMark? {s : List Char} {t : Token} {rest : List Char}
    (h : scanMark? s = some (t, rest)) : t.WellFormed := by
  unfold scanMark? at h
  split at h <;> simp_all <;> obtain ⟨rfl, -⟩ := h <;> trivial

theorem wellFormed_of_scan? {s : List Char} {t : Token} {rest : List Char}
    (h : scan? s = some (t, rest)) : t.WellFormed := by
  cases s with
  | nil => simp [scan?] at h
  | cons c s =>
    simp only [scan?] at h
    split at h
    · rename_i hv
      cases h
      exact ⟨c, s.takeWhile isNameChar, by simp, hv, fun d hd => List.mem_takeWhile_imp hd⟩
    · rename_i hv
      split at h
      · rename_i hl
        cases h
        exact wellFormed_ofWord (by simpa using hv) hl fun d hd => List.mem_takeWhile_imp hd
      · split at h
        · rename_i hd
          simp only [Option.some.injEq] at h
          have := wellFormed_scanNumber hd (w := s.takeWhile Char.isDigit)
            (fun e he => List.mem_takeWhile_imp he) (s.dropWhile Char.isDigit)
          rwa [h] at this
        · split at h
          · rename_i hs
            cases h
            exact ⟨c, s.takeWhile isSymbolChar, by simp, hs, fun d hd => List.mem_takeWhile_imp hd⟩
          · exact wellFormed_of_scanMark? h

/-! ## Well-formed tokens are scanned back -/

theorem ofToken?_of_isLetter {text : String} {c : Char} {w : List Char} (ht : text.toList = c :: w)
    (hc : isLetter c = true) (his : text ≠ "is") (hdiv : text ≠ "div") :
    Operator.ofToken? text = none := by
  cases h : Operator.ofToken? text with
  | none => rfl
  | some op =>
    have htok := Operator.token_of_ofToken? h
    -- Every operator but the two words begins with a character that is no letter.
    have hop : op = .is ∨ op = .div ∨ op.token.toList.head?.any isLetter = false := by
      cases op <;> decide
    rcases hop with rfl | rfl | hop
    · exact absurd htok.symm his
    · exact absurd htok.symm hdiv
    · rw [htok, ht, List.head?_cons, Option.any_some, hc] at hop
      cases hop

theorem scan?_name {text : String} (h : IsName text) {rest : List Char} (hr : Delimited rest) :
    scan? (text.toList ++ rest) = some (name text, rest) := by
  obtain ⟨c, w, ht, hl, hv, hw, his, hdiv⟩ := h
  have hback : String.ofList (c :: w) = text := by rw [← ht, String.ofList_toList]
  rw [ht, List.cons_append, scan?, hv, hl,
    takeWhile_append_of_delimited (fun d => isNameChar_of_isDelimiter) hw hr,
    dropWhile_append_of_delimited (fun d => isNameChar_of_isDelimiter) hw hr, hback, ofWord,
    ofToken?_of_isLetter ht hl his hdiv]
  rfl

theorem scan?_var {text : String} (h : IsVariable text) {rest : List Char} (hr : Delimited rest) :
    scan? (text.toList ++ rest) = some (var text, rest) := by
  obtain ⟨c, w, ht, hv, hw⟩ := h
  have hback : String.ofList (c :: w) = text := by rw [← ht, String.ofList_toList]
  rw [ht, List.cons_append, scan?, hv,
    takeWhile_append_of_delimited (fun d => isNameChar_of_isDelimiter) hw hr,
    dropWhile_append_of_delimited (fun d => isNameChar_of_isDelimiter) hw hr, hback]
  rfl

theorem scan?_symbol {text : String} (h : IsSymbol text) {rest : List Char}
    (hr : Delimited rest) : scan? (text.toList ++ rest) = some (symbol text, rest) := by
  obtain ⟨c, w, ht, hc, hw⟩ := h
  obtain ⟨hv, hl, hd⟩ := class_of_isSymbolChar hc
  have hback : String.ofList (c :: w) = text := by rw [← ht, String.ofList_toList]
  rw [ht, List.cons_append, scan?, hv, hl, hd, hc,
    takeWhile_append_of_delimited (fun d => isSymbolChar_of_isDelimiter) hw hr,
    dropWhile_append_of_delimited (fun d => isSymbolChar_of_isDelimiter) hw hr, hback]
  rfl

theorem scanNumber_of_delimited (digits : List Char) {rest : List Char} (hr : Delimited rest) :
    scanNumber digits rest = (number (String.ofList digits), rest) := by
  unfold scanNumber
  split
  · exact absurd (hr '.' rfl) (by decide)
  · rfl

theorem scan?_number {text : String} (h : IsNumber text) {rest : List Char}
    (hr : Delimited rest) : scan? (text.toList ++ rest) = some (number text, rest) := by
  obtain ⟨c, w, fraction, ht, hc, hw, hf⟩ := h
  have hback : String.ofList (c :: w ++ fraction) = text := by rw [← ht, String.ofList_toList]
  rw [ht, List.cons_append, List.cons_append, scan?, isVariableStart_of_isDigit hc,
    isLetter_of_isDigit hc, hc]
  rcases hf with rfl | ⟨d, v, rfl, hd, hv⟩
  · rw [List.append_nil] at hback ⊢
    rw [takeWhile_append_of_delimited (fun d => isDigit_of_isDelimiter) hw hr,
      dropWhile_append_of_delimited (fun d => isDigit_of_isDelimiter) hw hr,
      scanNumber_of_delimited _ hr, hback]
    rfl
  · have htake : (w ++ '.' :: d :: v ++ rest).takeWhile Char.isDigit = w := by
      rw [List.append_assoc, List.takeWhile_append_of_pos hw]
      simp
    have hdrop : (w ++ '.' :: d :: v ++ rest).dropWhile Char.isDigit = '.' :: d :: (v ++ rest) := by
      rw [List.append_assoc, List.dropWhile_append_of_pos hw]
      simp
    rw [htake, hdrop, scanNumber, hd,
      takeWhile_append_of_delimited (fun d => isDigit_of_isDelimiter) hv hr,
      dropWhile_append_of_delimited (fun d => isDigit_of_isDelimiter) hv hr, ← List.cons_append,
      hback]
    rfl

/-- A delimiter prolongs no operator that is no word. -/
theorem scanMark?_token {op : Operator} (his : op ≠ .is) (hdiv : op ≠ .div) {rest : List Char}
    (hr : Delimited rest) : scanMark? (op.token.toList ++ rest) = some (operator op, rest) := by
  cases rest with
  | nil => cases op <;> first | contradiction | rfl
  | cons d rest =>
    rcases isDelimiter_iff.1 (hr d rfl) with rfl | rfl | rfl | rfl | rfl | rfl | rfl <;>
      cases op <;> first | contradiction | rfl

/-- The operators that are words are scanned as words. -/
theorem scan?_word {op : Operator} {c : Char} {w : List Char} (hop : op.token.toList = c :: w)
    (hc : isVariableStart c = false ∧ isLetter c = true) (hw : ∀ e ∈ w, isNameChar e = true)
    {rest : List Char} (hr : Delimited rest) :
    scan? (op.token.toList ++ rest) = some (operator op, rest) := by
  have hback : String.ofList (c :: w) = op.token := by rw [← hop, String.ofList_toList]
  rw [hop, List.cons_append, scan?, hc.1, hc.2,
    takeWhile_append_of_delimited (fun d => isNameChar_of_isDelimiter) hw hr,
    dropWhile_append_of_delimited (fun d => isNameChar_of_isDelimiter) hw hr, hback, ofWord,
    Operator.ofToken?_token]
  rfl

theorem scan?_operator (op : Operator) {rest : List Char} (hr : Delimited rest) :
    scan? (op.token.toList ++ rest) = some (operator op, rest) := by
  by_cases his : op = .is
  · subst his
    exact scan?_word (c := 'i') (w := ['s']) rfl (by decide)
      (List.all_eq_true.1 rfl) hr
  by_cases hdiv : op = .div
  · subst hdiv
    exact scan?_word (c := 'd') (w := ['i', 'v']) rfl (by decide)
      (List.all_eq_true.1 rfl) hr
  · rw [← scanMark?_token his hdiv hr]
    cases op <;> first | contradiction | rfl

theorem scan?_mark {t : Token} (h : t.isMark = true) (rest : List Char) :
    scan? (t.text.toList ++ rest) = some (t, rest) := by
  cases t <;> first | rfl | cases h

/-- A well-formed token is scanned whole if nothing that follows can prolong it. -/
theorem scan?_of_wellFormed {t : Token} (h : t.WellFormed) (rest : List Char)
    (hr : t.isMark = true ∨ Delimited rest) : scan? (t.text.toList ++ rest) = some (t, rest) := by
  rcases hr with hm | hr
  · exact scan?_mark hm rest
  · cases t with
    | name text => exact scan?_name h hr
    | var text => exact scan?_var h hr
    | number text => exact scan?_number h hr
    | symbol text => exact scan?_symbol h hr
    | operator op => exact scan?_operator op hr
    | _ => exact scan?_mark rfl rest

end Token

end HornClauses
