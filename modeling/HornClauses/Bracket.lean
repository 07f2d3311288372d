import HornClauses.Text.Space

/-!
# Brackets and splitting outside them

A text is scanned character by character with the brackets that are open. A closer must close the
innermost open bracket, and at the end none may be open. A separator counts only where no bracket is
open; a bracket is never a separator.

* `Bracket.check_eq_error_iff`: splitting and checking find the same fault.
* `Bracket.joinWith_splitFrom`: with the separators put back, the pieces are the text.
-/

namespace HornClauses

/-- A bracket without its partner, with the number of bytes before it. -/
structure BracketFault where
  offset : Nat
  bracket : Char
  deriving DecidableEq

namespace Bracket

def isOpener (c : Char) : Bool := c = '(' || c = '['

def isCloser (c : Char) : Bool := c = ')' || c = ']'

def isPair (opener closer : Char) : Bool :=
  (opener = '(' && closer = ')') || (opener = '[' && closer = ']')

/-- The brackets that are open, the innermost first, each with the number of bytes before it. -/
abbrev Stack := List (Nat × Char)

/-- The open brackets after one more character. -/
def step (stack : Stack) (offset : Nat) (c : Char) : Except BracketFault Stack :=
  if isOpener c then .ok ((offset, c) :: stack)
  else if isCloser c then
    match stack with
    | [] => .error ⟨offset, c⟩
    | (_, opener) :: rest => if isPair opener c then .ok rest else .error ⟨offset, c⟩
  else .ok stack

/-- The fault of a text that ends with these brackets open: the outermost one is blamed. -/
def atEnd (stack : Stack) : Except BracketFault Unit :=
  match stack.getLast? with
  | none => .ok ()
  | some (offset, c) => .error ⟨offset, c⟩

def consFirst (c : Char) : List (List Char) → List (List Char)
  | [] => [[c]]
  | piece :: rest => (c :: piece) :: rest

/-- The pieces of a text between separators outside all brackets, given the brackets that are open
where it begins. -/
def splitFrom (isSeparator : Char → Bool) (stack : Stack) (offset : Nat) :
    List Char → Except BracketFault (List (List Char))
  | [] => (atEnd stack).map fun _ => [[]]
  | c :: rest =>
    match step stack offset c with
    | .error fault => .error fault
    | .ok stack' =>
      (splitFrom isSeparator stack' (offset + c.utf8Size) rest).map fun pieces =>
        if stack.isEmpty && stack'.isEmpty && isSeparator c then [] :: pieces
        else consFirst c pieces

def split (isSeparator : Char → Bool) (text : List Char) :
    Except BracketFault (List (List Char)) :=
  splitFrom isSeparator [] 0 text

def check (text : List Char) : Except BracketFault Unit :=
  (split (fun _ => false) text).map fun _ => ()

def splitTrimmed (separator : Char) (text : List Char) : Except BracketFault (List (List Char)) :=
  (split (· = separator) text).map (List.map Text.trim)

/-! ## Laws -/

theorem splitFrom_congr_error (p q : Char → Bool) (stack : Stack) (offset : Nat) (text : List Char)
    (fault : BracketFault) :
    splitFrom p stack offset text = .error fault ↔ splitFrom q stack offset text = .error fault := by
  induction text generalizing stack offset with
  | nil =>
    simp only [splitFrom]
  | cons c rest ih =>
    simp only [splitFrom]
    cases hs : step stack offset c with
    | error f => simp
    | ok stack' =>
      have := ih stack' (offset + c.utf8Size)
      cases hp : splitFrom p stack' (offset + c.utf8Size) rest <;>
        cases hq : splitFrom q stack' (offset + c.utf8Size) rest <;>
        simp_all [Except.map]

theorem check_eq_error_iff (p : Char → Bool) (text : List Char) (fault : BracketFault) :
    check text = .error fault ↔ split p text = .error fault := by
  rw [split, splitFrom_congr_error p (fun _ => false)]
  unfold check split
  cases splitFrom (fun _ => false) [] 0 text <;> simp [Except.map]

/-- Pieces with one separator between any two of them. -/
def joinWith (separator : Char) : List (List Char) → List Char
  | [] => []
  | [piece] => piece
  | piece :: rest => piece ++ separator :: joinWith separator rest

theorem joinWith_cons {separator : Char} {rest : List (List Char)} (h : rest ≠ [])
    (piece : List Char) :
    joinWith separator (piece :: rest) = piece ++ separator :: joinWith separator rest := by
  cases rest with
  | nil => exact absurd rfl h
  | cons next rest => rfl

theorem splitFrom_ne_nil {p : Char → Bool} {stack : Stack} {offset : Nat} {text : List Char}
    {pieces : List (List Char)} (h : splitFrom p stack offset text = .ok pieces) :
    pieces ≠ [] := by
  cases text with
  | nil =>
    simp only [splitFrom] at h
    cases ha : atEnd stack with
    | error f => simp [ha, Except.map] at h
    | ok u =>
      simp only [ha, Except.map, Except.ok.injEq] at h
      simp [← h]
  | cons c rest =>
    simp only [splitFrom] at h
    cases hs : step stack offset c with
    | error f => simp [hs] at h
    | ok stack' =>
      simp only [hs] at h
      cases hr : splitFrom p stack' (offset + c.utf8Size) rest with
      | error f => simp [hr, Except.map] at h
      | ok tail =>
        simp only [hr, Except.map, Except.ok.injEq] at h
        rw [← h]
        split
        · simp
        · cases tail <;> simp [consFirst]

theorem joinWith_consFirst (separator c : Char) {pieces : List (List Char)} (h : pieces ≠ []) :
    joinWith separator (consFirst c pieces) = c :: joinWith separator pieces := by
  match pieces with
  | [] => exact absurd rfl h
  | [_] => rfl
  | _ :: _ :: _ => rfl

theorem joinWith_splitFrom {separator : Char} {stack : Stack} {offset : Nat} {text : List Char}
    {pieces : List (List Char)} (h : splitFrom (· = separator) stack offset text = .ok pieces) :
    joinWith separator pieces = text := by
  induction text generalizing stack offset pieces with
  | nil =>
    simp only [splitFrom] at h
    cases ha : atEnd stack with
    | error f => simp [ha, Except.map] at h
    | ok u =>
      simp only [ha, Except.map, Except.ok.injEq] at h
      simp [← h, joinWith]
  | cons c rest ih =>
    simp only [splitFrom] at h
    cases hs : step stack offset c with
    | error f => simp [hs] at h
    | ok stack' =>
      simp only [hs] at h
      cases hr : splitFrom (· = separator) stack' (offset + c.utf8Size) rest with
      | error f => simp [hr, Except.map] at h
      | ok tail =>
        have hne := splitFrom_ne_nil hr
        simp only [hr, Except.map, Except.ok.injEq] at h
        rw [← h]
        split
        · rename_i hsep
          simp only [Bool.and_eq_true, decide_eq_true_eq] at hsep
          cases tail with
          | nil => exact absurd rfl hne
          | cons piece more => simp [joinWith, ih hr, hsep.2]
        · rw [joinWith_consFirst separator c hne, ih hr]

end Bracket

end HornClauses
