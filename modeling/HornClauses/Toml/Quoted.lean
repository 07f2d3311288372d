/-!
# Quoted strings of TOML

A string stands between two quotes, or between two triple quotes if it may span lines. Between
double quotes a backslash begins an escape; between single quotes every character stands for itself.

* `Quoted.scan?`: the string at the front of a text and what follows it.
* `Quoted.scan?_length`: what follows is no longer than the text.
-/

namespace HornClauses.Toml

/-- The value of a quoted string. -/
structure Quoted where
  value : List Char
  multiline : Bool
  deriving DecidableEq

namespace Quoted

/-! ## Where a string ends -/

/-- After one quote that ends a string. -/
def endLine? (quote : Char) : List Char → Option (List Char × List Char)
  | [] => none
  | c :: rest => if c = quote then some ([], rest) else none

/-- After three quotes that end a string. Up to two more quotes still belong to the string. -/
def endLines? (quote : Char) : List Char → Option (List Char × List Char)
  | c₁ :: c₂ :: c₃ :: rest =>
    if c₁ = quote ∧ c₂ = quote ∧ c₃ = quote then
      some ((rest.takeWhile (· = quote)).take 2, rest.drop ((rest.takeWhile (· = quote)).take 2).length)
    else none
  | _ => none

/-- The text up to the end of a string, and what follows. If there are escapes, a backslash keeps
the next character from ending the string. -/
def body? (ending : List Char → Option (List Char × List Char)) (escapes : Bool) :
    List Char → Option (List Char × List Char)
  | [] => none
  | [c] => ending [c]
  | c :: d :: rest =>
    match ending (c :: d :: rest) with
    | some stop => some stop
    | none =>
      if escapes ∧ c = '\\' then
        (body? ending escapes rest).map fun found => (c :: d :: found.1, found.2)
      else (body? ending escapes (d :: rest)).map fun found => (c :: found.1, found.2)

theorem endLine?_length {quote : Char} {s : List Char} {found : List Char × List Char}
    (h : endLine? quote s = some found) : found.2.length ≤ s.length := by
  unfold endLine? at h
  split at h
  · simp at h
  · split at h
    · simp only [Option.some.injEq] at h
      simp [← h]
    · simp at h

theorem endLines?_length {quote : Char} {s : List Char} {found : List Char × List Char}
    (h : endLines? quote s = some found) : found.2.length ≤ s.length := by
  unfold endLines? at h
  split at h
  · split at h
    · simp only [Option.some.injEq] at h
      simp only [← h, List.length_drop, List.length_cons]
      omega
    · simp at h
  · simp at h

theorem body?_length {ending : List Char → Option (List Char × List Char)} {escapes : Bool}
    (hending : ∀ s found, ending s = some found → found.2.length ≤ s.length) {s : List Char}
    {found : List Char × List Char} (h : body? ending escapes s = some found) :
    found.2.length ≤ s.length := by
  fun_induction body? ending escapes s generalizing found with
  | case1 => simp at h
  | case2 c => exact hending _ _ h
  | case3 c d rest stop hstop =>
    rw [← Option.some.inj h]
    exact hending _ _ hstop
  | case4 c d rest _ _ ih =>
    obtain ⟨later, hlater, rfl⟩ := Option.map_eq_some_iff.1 h
    have := ih hlater
    simp only [List.length_cons]
    omega
  | case5 c d rest _ _ ih =>
    obtain ⟨later, hlater, rfl⟩ := Option.map_eq_some_iff.1 h
    have := ih hlater
    simp only [List.length_cons] at this ⊢
    omega

/-! ## What a string stands for -/

/-- The characters that may stand in a string or, but for the line feed, in one line of it. -/
def isText (multiline : Bool) (c : Char) : Bool :=
  c = '\t' || (0x20 ≤ c.toNat && c.toNat ≠ 0x7F) || (multiline && c = '\n')

def hexDigit? (c : Char) : Option Nat :=
  if c.isDigit then some (c.toNat - '0'.toNat)
  else if 'a' ≤ c ∧ c ≤ 'f' then some (c.toNat - 'a'.toNat + 10)
  else if 'A' ≤ c ∧ c ≤ 'F' then some (c.toNat - 'A'.toNat + 10)
  else none

/-- The character with a hexadecimal number, unless no character has it. -/
def hexChar? (digits : List Char) : Option Char := do
  let values ← digits.mapM hexDigit?
  let n := values.foldl (fun n d => 16 * n + d) 0
  if n.isValidChar then some (Char.ofNat n) else none

def escaped? : Char → Option Char
  | '"' => some '"'
  | '\\' => some '\\'
  | 'b' => some '\x08'
  | 'f' => some '\x0c'
  | 'n' => some '\n'
  | 'r' => some '\r'
  | 't' => some '\t'
  | _ => none

/-- What follows a backslash at the end of a line: empty space is skipped up to the next text. -/
def afterLineEnd? (s : List Char) : Option (List Char) :=
  match s.dropWhile fun c => c = ' ' || c = '\t' with
  | '\n' :: rest => some (rest.dropWhile fun c => c = ' ' || c = '\t' || c = '\n')
  | _ => none

theorem afterLineEnd?_length {s rest : List Char} (h : afterLineEnd? s = some rest) :
    rest.length < s.length := by
  unfold afterLineEnd? at h
  split at h
  · rename_i more heq
    have h₁ := (s.dropWhile_suffix fun c => c = ' ' || c = '\t').length_le
    have h₂ := (more.dropWhile_suffix fun c => c = ' ' || c = '\t' || c = '\n').length_le
    rw [heq] at h₁
    simp only [Option.some.injEq] at h
    rw [← h]
    simp only [List.length_cons] at h₁
    omega
  · simp at h

/-- The value of the text between double quotes. -/
def unescape? (multiline : Bool) (s : List Char) : Option (List Char) :=
  match s with
  | [] => some []
  | '\\' :: 'u' :: a :: b :: c :: d :: rest => do
    let first ← hexChar? [a, b, c, d]
    let more ← unescape? multiline rest
    return first :: more
  | '\\' :: 'U' :: a :: b :: c :: d :: e :: f :: g :: h :: rest => do
    let first ← hexChar? [a, b, c, d, e, f, g, h]
    let more ← unescape? multiline rest
    return first :: more
  | '\\' :: rest =>
    match _h : if multiline then afterLineEnd? rest else none with
    | some later => unescape? multiline later
    | none =>
      match rest with
      | [] => none
      | letter :: rest => do
        let first ← escaped? letter
        let more ← unescape? multiline rest
        return first :: more
  | c :: rest =>
    if isText multiline c then (unescape? multiline rest).map (c :: ·) else none
termination_by s.length
decreasing_by
  all_goals simp only [List.length_cons]
  all_goals try omega
  split at _h
  · have := afterLineEnd?_length _h
    omega
  · simp at _h

def value? (escapes multiline : Bool) (body : List Char) : Option (List Char) :=
  if escapes then unescape? multiline body
  else if body.all (isText multiline) then some body
  else none

/-! ## Scanning -/

/-- Read a string that begins after its opening quotes. -/
def scanBody? (quote : Char) (multiline : Bool) (s : List Char) : Option (Quoted × List Char) := do
  let escapes := quote = '"'
  let found ← body? (if multiline then endLines? quote else endLine? quote) escapes s
  let value ← value? escapes multiline found.1
  return (⟨value, multiline⟩, found.2)

/-- Read a string that begins after its first quote. A line feed right after triple quotes does not
belong to the string. -/
def scan? (quote : Char) : List Char → Option (Quoted × List Char)
  | c :: d :: rest =>
    if c = quote ∧ d = quote then
      match rest with
      | '\n' :: later => scanBody? quote true later
      | _ => scanBody? quote true rest
    else if c = quote then some (⟨[], false⟩, d :: rest)
    else scanBody? quote false (c :: d :: rest)
  | [c] => if c = quote then some (⟨[], false⟩, []) else none
  | [] => none

theorem scanBody?_length {quote : Char} {multiline : Bool} {s rest : List Char} {q : Quoted}
    (h : scanBody? quote multiline s = some (q, rest)) : rest.length ≤ s.length := by
  unfold scanBody? at h
  simp only [Option.bind_eq_bind, Option.bind_eq_some_iff, Option.pure_def, Option.some.injEq,
    Prod.mk.injEq] at h
  obtain ⟨found, hfound, _, _, _, rfl⟩ := h
  refine body?_length (fun s found hs => ?_) hfound
  split at hs
  · exact endLines?_length hs
  · exact endLine?_length hs

theorem scan?_length {quote : Char} {s rest : List Char} {q : Quoted}
    (h : scan? quote s = some (q, rest)) : rest.length ≤ s.length := by
  unfold scan? at h
  split at h
  · split at h
    · split at h
      · have := scanBody?_length h
        simp only [List.length_cons]
        omega
      · have := scanBody?_length h
        simp only [List.length_cons]
        omega
    · split at h
      · simp only [Option.some.injEq, Prod.mk.injEq] at h
        simp [← h.2]
      · exact scanBody?_length h
  · split at h
    · simp only [Option.some.injEq, Prod.mk.injEq] at h
      simp [← h.2]
    · simp at h
  · simp at h

end Quoted

end HornClauses.Toml
