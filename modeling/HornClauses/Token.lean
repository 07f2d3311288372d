import HornClauses.Operator
import HornClauses.Text.Category
import HornClauses.Text.Space

/-!
# Tokens

The first character of a token decides its kind, and the token runs as far as its kind allows. The
words `is` and `div` are operators; every other word is a name or, if it begins with an uppercase or
titlecase letter or an underscore, a variable. Between tokens blanks may stand.

* `Token.scan?_append`: a token and what follows it are the scanned text.
* `Lexeme.scan_append`: so are all tokens with their blanks and what is left unread.
-/

namespace HornClauses

inductive Token where
  | name (text : String)
  | var (text : String)
  | number (text : String)
  | symbol (text : String)
  | operator (op : Operator)
  | openParen
  | closeParen
  | openBracket
  | closeBracket
  | comma
  | bar
  deriving DecidableEq

namespace Token

def text : Token → String
  | name text => text
  | var text => text
  | number text => text
  | symbol text => text
  | operator op => op.token
  | openParen => "("
  | closeParen => ")"
  | openBracket => "["
  | closeBracket => "]"
  | comma => ","
  | bar => "|"

/-! ## Scanning one token -/

/-- The characters of symbols. No operator and no bracket contains one. -/
def isSymbolChar (c : Char) : Bool :=
  c = '!' || c = ';' || c = '@' || c = '#' || c = '$' || c = '&' || c = '?' || c = '^' ||
    c = '~' || c = ':'

/-- A word that begins with a letter: an operator if it is written like one, else a name. -/
def ofWord (word : String) : Token :=
  match Operator.ofToken? word with
  | some op => operator op
  | none => name word

/-- The number that begins with a digit: digits, and a fraction if a period and a digit follow. -/
def scanNumber (digits rest : List Char) : Token × List Char :=
  match rest with
  | '.' :: d :: more =>
    if d.isDigit then
      (number (String.ofList (digits ++ '.' :: d :: more.takeWhile Char.isDigit)),
        more.dropWhile Char.isDigit)
    else (number (String.ofList digits), rest)
  | _ => (number (String.ofList digits), rest)

/-- A bracket, a comma, a bar or an operator that is no word. Of two operators that fit, the longer
one is read. -/
def scanMark? : List Char → Option (Token × List Char)
  | '>' :: '=' :: rest => some (operator .ge, rest)
  | '=' :: '<' :: rest => some (operator .le, rest)
  | '\\' :: '=' :: rest => some (operator .ne, rest)
  | '=' :: '=' :: rest => some (operator .eq, rest)
  | '>' :: rest => some (operator .gt, rest)
  | '<' :: rest => some (operator .lt, rest)
  | '+' :: rest => some (operator .add, rest)
  | '-' :: rest => some (operator .sub, rest)
  | '*' :: rest => some (operator .mul, rest)
  | '/' :: rest => some (operator .slash, rest)
  | '\\' :: rest => some (operator .backslash, rest)
  | '(' :: rest => some (openParen, rest)
  | ')' :: rest => some (closeParen, rest)
  | '[' :: rest => some (openBracket, rest)
  | ']' :: rest => some (closeBracket, rest)
  | ',' :: rest => some (comma, rest)
  | '|' :: rest => some (bar, rest)
  | _ => none

/-- The token at the front of a text and what follows it. -/
def scan? : List Char → Option (Token × List Char)
  | [] => none
  | c :: rest =>
    if Text.isVariableStart c then
      some (var (String.ofList (c :: rest.takeWhile Text.isNameChar)),
        rest.dropWhile Text.isNameChar)
    else if Text.isLetter c then
      some (ofWord (String.ofList (c :: rest.takeWhile Text.isNameChar)),
        rest.dropWhile Text.isNameChar)
    else if c.isDigit then
      some (scanNumber (c :: rest.takeWhile Char.isDigit) (rest.dropWhile Char.isDigit))
    else if isSymbolChar c then
      some (symbol (String.ofList (c :: rest.takeWhile isSymbolChar)),
        rest.dropWhile isSymbolChar)
    else scanMark? (c :: rest)

theorem text_ofWord (word : String) : (ofWord word).text = word := by
  unfold ofWord
  split
  · rename_i op h
    exact Operator.token_of_ofToken? h
  · rfl

theorem scanNumber_text (c : Char) (digits rest : List Char) :
    ∃ more, (scanNumber (c :: digits) rest).1.text.toList = c :: more ∧
      digits ++ rest = more ++ (scanNumber (c :: digits) rest).2 := by
  unfold scanNumber
  split
  · rename_i d more
    split
    · exact ⟨digits ++ '.' :: d :: more.takeWhile Char.isDigit, by simp [text]⟩
    · exact ⟨digits, by simp [text]⟩
  · exact ⟨digits, by simp [text]⟩

theorem scanMark?_text {c : Char} {s : List Char} {t : Token} {rest : List Char}
    (h : scanMark? (c :: s) = some (t, rest)) :
    ∃ more, t.text.toList = c :: more ∧ s = more ++ rest := by
  unfold scanMark? at h
  split at h <;> simp_all <;> obtain ⟨rfl, rfl⟩ := h <;> simp [text, Operator.token]

/-- The first character belongs to the token, and what follows the token is left. -/
theorem scan?_text {c : Char} {s : List Char} {t : Token} {rest : List Char}
    (h : scan? (c :: s) = some (t, rest)) :
    ∃ more, t.text.toList = c :: more ∧ s = more ++ rest := by
  simp only [scan?] at h
  by_cases hv : Text.isVariableStart c = true
  · simp only [hv, if_true, Option.some.injEq, Prod.mk.injEq] at h
    obtain ⟨rfl, rfl⟩ := h
    exact ⟨s.takeWhile Text.isNameChar, by simp [text]⟩
  by_cases hl : Text.isLetter c = true
  · simp only [hv, hl, Bool.false_eq_true, if_true, if_false, Option.some.injEq,
      Prod.mk.injEq] at h
    obtain ⟨rfl, rfl⟩ := h
    exact ⟨s.takeWhile Text.isNameChar, by simp [text_ofWord]⟩
  by_cases hd : c.isDigit = true
  · simp only [hv, hl, hd, Bool.false_eq_true, if_true, if_false, Option.some.injEq] at h
    obtain ⟨more, hmore⟩ := scanNumber_text c (s.takeWhile Char.isDigit) (s.dropWhile Char.isDigit)
    rw [h] at hmore
    exact ⟨more, by simpa using hmore⟩
  by_cases hs : isSymbolChar c = true
  · simp only [hv, hl, hd, hs, Bool.false_eq_true, if_true, if_false, Option.some.injEq,
      Prod.mk.injEq] at h
    obtain ⟨rfl, rfl⟩ := h
    exact ⟨s.takeWhile isSymbolChar, by simp [text]⟩
  · simp only [hv, hl, hd, hs, Bool.false_eq_true, if_false] at h
    exact scanMark?_text h

theorem scan?_append {s : List Char} {t : Token} {rest : List Char}
    (h : scan? s = some (t, rest)) : s = t.text.toList ++ rest := by
  cases s with
  | nil => simp [scan?] at h
  | cons c s =>
    obtain ⟨more, ht, rfl⟩ := scan?_text h
    simp [ht]

theorem scan?_length {s : List Char} {t : Token} {rest : List Char}
    (h : scan? s = some (t, rest)) : rest.length < s.length := by
  cases s with
  | nil => simp [scan?] at h
  | cons c s =>
    obtain ⟨more, _, rfl⟩ := scan?_text h
    simp only [List.length_cons, List.length_append]
    omega

end Token

/-! ## All tokens of a text -/

/-- A token with the blanks that follow it. -/
structure Lexeme where
  token : Token
  gap : String
  deriving DecidableEq

namespace Lexeme

def length (l : Lexeme) : Nat := l.token.text.length + l.gap.length

/-- The tokens of a text that begins with one, and the rest from the first character that begins no
token. -/
def scan (s : List Char) : List Lexeme × List Char :=
  match _h : Token.scan? s with
  | none => ([], s)
  | some (token, rest) =>
    let later := scan (rest.dropWhile Text.isBlank)
    (⟨token, String.ofList (rest.takeWhile Text.isBlank)⟩ :: later.1, later.2)
termination_by s.length
decreasing_by
  have := Token.scan?_length ‹_›
  have := (rest.dropWhile_suffix Text.isBlank).length_le
  omega

theorem scan_none {s : List Char} (h : Token.scan? s = none) : scan s = ([], s) := by
  rw [scan]
  split
  · rfl
  · simp_all

theorem scan_some {s : List Char} {t : Token} {rest : List Char}
    (h : Token.scan? s = some (t, rest)) :
    scan s =
      (⟨t, String.ofList (rest.takeWhile Text.isBlank)⟩ ::
        (scan (rest.dropWhile Text.isBlank)).1, (scan (rest.dropWhile Text.isBlank)).2) := by
  rw [scan]
  split
  · simp_all
  · rename_i t' rest' h'
    rw [h] at h'
    simp only [Option.some.injEq, Prod.mk.injEq] at h'
    obtain ⟨rfl, rfl⟩ := h'
    rfl

def spell (ls : List Lexeme) : List Char :=
  ls.flatMap fun l => l.token.text.toList ++ l.gap.toList

theorem scan_append (s : List Char) : spell (scan s).1 ++ (scan s).2 = s := by
  induction hn : s.length using Nat.strongRecOn generalizing s with
  | ind n ih =>
    cases h : Token.scan? s with
    | none => simp [scan_none h, spell]
    | some r =>
      obtain ⟨t, rest⟩ := r
      have hlt := Token.scan?_length h
      have hle := (rest.dropWhile_suffix Text.isBlank).length_le
      have := ih _ (by omega) (rest.dropWhile Text.isBlank) rfl
      rw [scan_some h]
      simp only [spell, List.flatMap_cons, String.toList_ofList, List.append_assoc] at this ⊢
      rw [this, List.takeWhile_append_dropWhile, ← Token.scan?_append h]

end Lexeme

end HornClauses
