import HornClauses.Toml.Quoted

/-!
# Tokens of TOML

The whole text is divided into tokens before anything is read. Empty space is a token as well, since
some places ask for none. A word may turn out to be a key, a number, a date or a truth value.

* `Token.scanAll`: the tokens of a text.
-/

namespace HornClauses.Toml

inductive Token where
  | blank (text : List Char)
  | lineEnd
  | comment
  | equals
  | period
  | comma
  | colon
  | plus
  | openBrace
  | closeBrace
  | openBracket
  | closeBracket
  | word (text : List Char)
  | string (q : Quoted)
  deriving DecidableEq

namespace Token

def isBlank (c : Char) : Bool := c = ' ' || c = '\t'

def isWordChar (c : Char) : Bool := c.isAlphanum || c = '_' || c = '-'

def ofMark? : Char → Option Token
  | '\n' => some lineEnd
  | '=' => some equals
  | '.' => some period
  | ',' => some comma
  | ':' => some colon
  | '+' => some plus
  | '\x7b' => some openBrace
  | '\x7d' => some closeBrace
  | '[' => some openBracket
  | ']' => some closeBracket
  | _ => none

/-- The token that begins with a character, and what follows it. -/
def scan? (c : Char) (rest : List Char) : Option (Token × List Char) :=
  if isBlank c then some (blank (c :: rest.takeWhile isBlank), rest.dropWhile isBlank)
  else if c = '#' then
    some (comment, rest.dropWhile fun c => c = '\t' || 0x20 ≤ c.toNat)
  else if c = '"' || c = '\'' then (Quoted.scan? c rest).map fun found => (string found.1, found.2)
  else if isWordChar c then
    some (word (c :: rest.takeWhile isWordChar), rest.dropWhile isWordChar)
  else (ofMark? c).map fun token => (token, rest)

theorem scan?_length {c : Char} {s rest : List Char} {t : Token}
    (h : scan? c s = some (t, rest)) : rest.length ≤ s.length := by
  unfold scan? at h
  split at h
  · simp only [Option.some.injEq, Prod.mk.injEq] at h
    exact h.2 ▸ (s.dropWhile_suffix _).length_le
  split at h
  · simp only [Option.some.injEq, Prod.mk.injEq] at h
    exact h.2 ▸ (s.dropWhile_suffix _).length_le
  split at h
  · simp only [Option.map_eq_some_iff, Prod.mk.injEq] at h
    obtain ⟨found, hfound, _, rfl⟩ := h
    exact Quoted.scan?_length hfound
  split at h
  · simp only [Option.some.injEq, Prod.mk.injEq] at h
    exact h.2 ▸ (s.dropWhile_suffix _).length_le
  · simp only [Option.map_eq_some_iff, Prod.mk.injEq] at h
    obtain ⟨_, _, _, rfl⟩ := h
    exact Nat.le_refl _

/-- The tokens of a text, unless a character begins none or a string does not end. -/
def scanAll (s : List Char) : Option (List Token) :=
  match s with
  | [] => some []
  | c :: s =>
    match _h : scan? c s with
    | none => none
    | some (token, rest) => (scanAll rest).map (token :: ·)
termination_by s.length
decreasing_by
  have := scan?_length _h
  simp only [List.length_cons]
  omega

end Token

def unifyLineEnds : List Char → List Char
  | [] => []
  | '\r' :: '\n' :: rest => '\n' :: unifyLineEnds rest
  | c :: rest => c :: unifyLineEnds rest

/-- The tokens of a document. A byte order mark in front is passed over. -/
def tokens (source : List Char) : Option (List Token) :=
  match unifyLineEnds source with
  | '\uFEFF' :: rest => Token.scanAll rest
  | text => Token.scanAll text

end HornClauses.Toml
