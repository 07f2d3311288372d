import HornClauses.Text.CategoryRuns

/-!
# Character classes of names

Names are written in any script, so their characters are told apart by Unicode general category.
A letter, a mark, a decimal digit or an underscore continues a name; an uppercase or titlecase
letter or an underscore begins a variable. ASCII is decided by the core predicates and the rest by
the runs of `HornClauses.Text.CategoryRuns`.
-/

namespace HornClauses.Text

def inRuns (runs : List (Nat × Nat)) (c : Char) : Bool :=
  runs.any fun run => run.1 ≤ c.toNat && c.toNat ≤ run.2

/-- A class given by a test on ASCII and by runs beyond it. -/
def inClass (ascii : Char → Bool) (runs : List (Nat × Nat)) (c : Char) : Bool :=
  if c.toNat < 0x80 then ascii c else inRuns runs c

/-- General category `L`. -/
def isLetter : Char → Bool := inClass Char.isAlpha letterRuns

/-- General category `M`. -/
def isMark : Char → Bool := inClass (fun _ => false) markRuns

/-- General category `Nd`. -/
def isDecimal : Char → Bool := inClass Char.isDigit decimalRuns

/-- General category `Lu`. -/
def isUppercase : Char → Bool := inClass Char.isUpper uppercaseRuns

/-- General category `Lt`. -/
def isTitlecase : Char → Bool := inClass (fun _ => false) titlecaseRuns

/-- The characters that continue a name or a variable. -/
def isNameChar (c : Char) : Bool :=
  isLetter c || isMark c || isDecimal c || c = '_'

/-- The characters that begin a variable. -/
def isVariableStart (c : Char) : Bool :=
  isUppercase c || isTitlecase c || c = '_'

end HornClauses.Text
