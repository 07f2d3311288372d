/-!
# Terms, predicates and clauses

A term is an atom, a variable or a name applied to arguments. Lists and tuples are terms like any
other: a list cell bears the name `.` and a pair the name `,`. Numbers and runs of symbols are
atoms. A predicate is a name with arguments that stands as a goal or as the head of a clause.

* `Term.decEq`: equality of terms is decidable, argument by argument.
* `Predicate.toTerm_injective`: a predicate is determined by its term.
-/

namespace HornClauses

inductive Term where
  | atom (name : String)
  | var (name : String)
  | compound (name : String) (args : List Term)
  deriving Inhabited

/-- A name applied to arguments, as a goal or a head. -/
structure Predicate where
  name : String
  args : List Term
  deriving Inhabited

/-- A head that holds when every goal of the body does. -/
structure Clause where
  head : Predicate
  body : List Predicate
  deriving Inhabited

/-- The name of a list cell and of the empty list. -/
def cellName : String := "."

def pairName : String := ","

namespace Term

/-! ## Equality -/

mutual

def decEq : (t u : Term) → Decidable (t = u)
  | .atom a, .atom b => decidable_of_iff (a = b) (by simp)
  | .var a, .var b => decidable_of_iff (a = b) (by simp)
  | .compound a ts, .compound b us =>
    have := decEqList ts us
    decidable_of_iff (a = b ∧ ts = us) (by simp)
  | .atom _, .var _ => isFalse (by simp)
  | .atom _, .compound _ _ => isFalse (by simp)
  | .var _, .atom _ => isFalse (by simp)
  | .var _, .compound _ _ => isFalse (by simp)
  | .compound _ _, .atom _ => isFalse (by simp)
  | .compound _ _, .var _ => isFalse (by simp)

def decEqList : (ts us : List Term) → Decidable (ts = us)
  | [], [] => isTrue rfl
  | [], _ :: _ => isFalse (by simp)
  | _ :: _, [] => isFalse (by simp)
  | t :: ts, u :: us =>
    have := decEq t u
    have := decEqList ts us
    decidable_of_iff (t = u ∧ ts = us) (by simp)

end

instance : DecidableEq Term := decEq

/-! ## Parts of a term -/

def name : Term → String
  | atom n => n
  | var n => n
  | compound n _ => n

/-- The arguments at the root, none for an atom or a variable. -/
def args : Term → List Term
  | atom _ => []
  | var _ => []
  | compound _ ts => ts

def arity (t : Term) : Nat := t.args.length

/-- Is the root a list cell or the empty list? -/
def isCell : Term → Bool
  | compound n _ => n = cellName
  | _ => false

def nil : Term := compound cellName []

def cell (args : List Term) : Term := compound cellName args

def pair (left right : Term) : Term := compound pairName [left, right]

@[simp] theorem isCell_nil : nil.isCell = true := rfl

@[simp] theorem isCell_cell (args : List Term) : (cell args).isCell = true := rfl

end Term

/-! ## Predicates and clauses -/

namespace Predicate

deriving instance DecidableEq for Predicate

def toTerm (p : Predicate) : Term := .compound p.name p.args

theorem toTerm_injective {p q : Predicate} (h : p.toTerm = q.toTerm) : p = q := by
  cases p
  cases q
  simpa [toTerm] using h

end Predicate

namespace Clause

deriving instance DecidableEq for Clause

def isFact (c : Clause) : Bool := c.body.isEmpty

/-- The head and then the goals of the body. -/
def parts (c : Clause) : List Predicate := c.head :: c.body

end Clause

end HornClauses
