import HornClauses.Term

/-!
# Terms written as a reader would

The surface form writes cells as list literals, pairs as tuples and predicates named by an operator
between their two arguments. Operator chains nest to the right, so only a left operand that is
itself such a predicate needs parentheses.

* `Term.isOperatorName`: the names that are written between two arguments.
* `Term.surface`, `Predicate.surface`, `Clause.surface`: the texts.
-/

namespace HornClauses

/-- Pieces with a comma and a blank between them. -/
def commaJoin (pieces : List String) : String := String.intercalate ", " pieces

namespace Term

/-- Is a name written between its two arguments? -/
def isOperatorName (name : String) : Bool :=
  name = "is" || (name ≠ "" && name.toList.all fun c => "+-*/\\<>=".toList.contains c)

def isOperation : Term → Bool
  | compound name [_, _] => isOperatorName name
  | _ => false

/-- A list literal with an explicit tail. -/
def openCells (elements : List String) (tail : String) : String :=
  "[" ++ commaJoin elements ++ " | " ++ tail ++ "]"

mutual

def surface : Term → String
  | atom name => name
  | var name => name
  | compound name args =>
    if name = cellName then surfaceCells [] args else surfaceCompound name args
termination_by structural t => t

def surfaceArgs : List Term → List String
  | [] => []
  | t :: ts => surface t :: surfaceArgs ts
termination_by structural ts => ts

/-- The surface form of a name that is no cell, applied to arguments. -/
def surfaceCompound (name : String) : List Term → String
  | [] => name
  | [left, right] =>
    if name = pairName then "(" ++ surface left ++ ", " ++ surface right ++ ")"
    else if isOperatorName name then
      (if left.isOperation then "(" ++ surface left ++ ")" else surface left)
        ++ " " ++ name ++ " " ++ surface right
    else name ++ "(" ++ surface left ++ ", " ++ surface right ++ ")"
  | t :: ts => name ++ "(" ++ commaJoin (surface t :: surfaceArgs ts) ++ ")"
termination_by structural ts => ts

/-- The surface form of a chain of cells, given the elements before it and the arguments of its
first cell. A cell that has more than two arguments is written alone, as a plain compound. -/
def surfaceCells (before : List String) : List Term → String
  | [] => "[" ++ commaJoin before ++ "]"
  | [last] => "[" ++ commaJoin (before ++ [surface last]) ++ "]"
  | [first, .compound name args] =>
    if name = cellName then surfaceCells (before ++ [surface first]) args
    else openCells (before ++ [surface first]) (surfaceCompound name args)
  | [first, .atom name] => openCells (before ++ [surface first]) name
  | [first, .var name] => openCells (before ++ [surface first]) name
  | t :: u :: ts => cellName ++ "(" ++ commaJoin (surface t :: surface u :: surfaceArgs ts) ++ ")"
termination_by structural ts => ts

end

end Term

def Predicate.surface (p : Predicate) : String := p.toTerm.surface

/-- The surface form of a clause, which ends in a period. -/
def Clause.surface (c : Clause) : String :=
  c.head.surface
    ++ (if c.isFact then "" else " :- " ++ commaJoin (c.body.map Predicate.surface)) ++ "."

end HornClauses
