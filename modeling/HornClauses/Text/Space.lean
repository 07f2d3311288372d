/-!
# White space, trimming and lines

Two notions of empty space meet in a clause text. Lines, clauses and goals are trimmed of every
character with the Unicode property `White_Space`; between the tokens of a term only the four blanks
of `isBlank` are skipped.

* `isSpace_of_isBlank`: a blank is white space.
* `trim_nil`, `trimEnd_eq_self`, `trimStart_eq_self`: where trimming changes nothing.
* `join_lines`: the lines of a text, joined with line feeds, are the text.
-/

namespace HornClauses.Text

/-! ## Classes -/

/-- The Unicode property `White_Space`. -/
def isSpace (c : Char) : Bool :=
  let n := c.toNat
  (0x9 ≤ n && n ≤ 0xD) || n = 0x20 || n = 0x85 || n = 0xA0 || n = 0x1680 ||
    (0x2000 ≤ n && n ≤ 0x200A) || n = 0x2028 || n = 0x2029 || n = 0x202F || n = 0x205F || n = 0x3000

/-- The characters that may stand between two tokens. -/
def isBlank (c : Char) : Bool :=
  c = ' ' || c = '\t' || c = '\r' || c = '\n'

theorem isSpace_of_isBlank {c : Char} (h : isBlank c = true) : isSpace c = true := by
  simp only [isBlank, Bool.or_eq_true, decide_eq_true_eq] at h
  rcases h with ((rfl | rfl) | rfl) | rfl <;> decide

/-! ## Trimming -/

def trimStart (s : List Char) : List Char := s.dropWhile isSpace

def trimEnd (s : List Char) : List Char := (s.reverse.dropWhile isSpace).reverse

def trim (s : List Char) : List Char := trimEnd (trimStart s)

@[simp] theorem trimStart_nil : trimStart [] = [] := rfl

@[simp] theorem trimEnd_nil : trimEnd [] = [] := rfl

@[simp] theorem trim_nil : trim [] = [] := rfl

theorem trimStart_eq_self {c : Char} {s : List Char} (h : isSpace c = false) :
    trimStart (c :: s) = c :: s := by
  simp [trimStart, h]

theorem trimEnd_eq_self {c : Char} {s : List Char} (h : isSpace c = false) :
    trimEnd (s ++ [c]) = s ++ [c] := by
  simp [trimEnd, h]

/-- Drop one period that ends the text. -/
def dropPeriod (s : List Char) : List Char :=
  if s.getLast? = some '.' then s.dropLast else s

/-! ## Lines -/

/-- The pieces between line feeds, one more than there are line feeds. -/
def lines : List Char → List (List Char)
  | [] => [[]]
  | c :: s =>
    if c = '\n' then [] :: lines s
    else match lines s with
      | [] => [[c]]
      | line :: rest => (c :: line) :: rest

def joinLines : List (List Char) → List Char
  | [] => []
  | [line] => line
  | line :: rest => line ++ '\n' :: joinLines rest

theorem lines_ne_nil (s : List Char) : lines s ≠ [] := by
  cases s with
  | nil => simp [lines]
  | cons c s =>
    simp only [lines]
    split
    · simp
    · split <;> simp

theorem join_lines (s : List Char) : joinLines (lines s) = s := by
  induction s with
  | nil => rfl
  | cons c s ih =>
    simp only [lines]
    cases hl : lines s with
    | nil => exact absurd hl (lines_ne_nil s)
    | cons line rest =>
      rw [hl] at ih
      by_cases hc : c = '\n'
      · simp [hc, joinLines, ih]
      · cases rest with
        | nil => simpa [hc, joinLines] using ih
        | cons next rest => simpa [hc, joinLines] using ih

end HornClauses.Text
