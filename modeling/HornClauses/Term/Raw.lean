import HornClauses.Term
import HornClauses.Term.Surface

/-!
# Terms written as trees

The raw form shows the tree without any list, tuple or operator notation: every predicate has its
parentheses, and a variable is marked with a dollar sign. Logs use it.
-/

namespace HornClauses

namespace Term

mutual

def raw : Term → String
  | atom name => name
  | var name => "$" ++ name
  | compound name args => name ++ "(" ++ commaJoin (rawArgs args) ++ ")"

def rawArgs : List Term → List String
  | [] => []
  | t :: ts => raw t :: rawArgs ts

end

end Term

def Predicate.raw (p : Predicate) : String := p.toTerm.raw

/-- The raw form of a clause: the head, and the goals in brackets if there are any. -/
def Clause.raw (c : Clause) : String :=
  c.head.raw
    ++ (if c.isFact then "" else " :- [" ++ commaJoin (c.body.map Predicate.raw) ++ "]")

end HornClauses
