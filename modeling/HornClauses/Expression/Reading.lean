import HornClauses.Expression.Chain
import HornClauses.Settings

/-!
# From expressions to terms

Operands become terms from left to right and from the inside out, and then the operators between
them are resolved. So the error that is reported is that of the first faulty expression in
post-order.

* `Expression.toTerm`: the term of an expression.
* `Expression.nodes`: an expression and all expressions inside it, in the order in which they are
  resolved.
* `Expression.resolutions`: the expressions with operators that are resolved before the first fault.
-/

namespace HornClauses

mutual

/-- The term in a slot, if there is one. -/
def Slot.toTerm (settings : Settings) (source : String) : Slot → Except ReadError (Option Term)
  | .hole => .ok none
  | .name text => .ok (some (.atom text))
  | .var text => .ok (some (.var text))
  | .number text => .ok (some (.atom text))
  | .symbol text => .ok (some (.atom text))
  | .compound name args => do
    let terms ← Expression.toTerms settings source args
    return some (.compound name terms)
  | .list elements => do
    let terms ← Expression.toTerms settings source elements
    return some (settings.lists.list terms none)
  | .listWithTail elements tail => do
    let terms ← Expression.toTerms settings source elements
    let last ← Expression.toTerm settings source tail
    return some (settings.lists.list terms (some last))
  | .tuple components => do
    let terms ← Expression.toTerms settings source components
    return some (.tuple terms)
termination_by structural slot => slot

def Expression.toTerm (settings : Settings) (source : String) : Expression → Except ReadError Term
  | .chain text links last => do
    let operands ← Expression.operands settings source links
    let operand ← Slot.toTerm settings source last
    settings.operators.resolve source text operands operand
termination_by structural e => e

def Expression.toTerms (settings : Settings) (source : String) :
    List Expression → Except ReadError (List Term)
  | [] => .ok []
  | e :: es => do
    let term ← Expression.toTerm settings source e
    let terms ← Expression.toTerms settings source es
    return term :: terms
termination_by structural es => es

/-- The terms in the slots of a chain, with the operators after them. -/
def Expression.operands (settings : Settings) (source : String) :
    List (Slot × Operator) → Except ReadError (List (Option Term × Operator))
  | [] => .ok []
  | (slot, op) :: links => do
    let operand ← Slot.toTerm settings source slot
    let operands ← Expression.operands settings source links
    return (operand, op) :: operands
termination_by structural links => links

end

/-! ## The order in which expressions are resolved -/

mutual

def Slot.nodes : Slot → List Expression
  | .compound _ args => Expression.nodesOfList args
  | .list elements => Expression.nodesOfList elements
  | .listWithTail elements tail => Expression.nodesOfList elements ++ Expression.nodes tail
  | .tuple components => Expression.nodesOfList components
  | _ => []
termination_by structural slot => slot

/-- An expression and the expressions inside it in post-order. -/
def Expression.nodes : Expression → List Expression
  | .chain text links last =>
    Expression.nodesOfLinks links ++ Slot.nodes last ++ [.chain text links last]
termination_by structural e => e

def Expression.nodesOfList : List Expression → List Expression
  | [] => []
  | e :: es => Expression.nodes e ++ Expression.nodesOfList es
termination_by structural es => es

def Expression.nodesOfLinks : List (Slot × Operator) → List Expression
  | [] => []
  | (slot, _) :: links => Slot.nodes slot ++ Expression.nodesOfLinks links
termination_by structural links => links

end

/-- An expression with operators, as it was written, and its term. -/
structure Resolution where
  text : String
  term : Term

def Expression.resolution? (settings : Settings) (source : String) (e : Expression) :
    Option Resolution :=
  match e.toTerm settings source with
  | .ok term => if e.operators.isEmpty then none else some ⟨e.text, term⟩
  | .error _ => none

/-- The resolutions of an expression and those inside it, up to the first fault. -/
def Expression.resolutions (settings : Settings) (source : String) (e : Expression) :
    List Resolution :=
  (e.nodes.takeWhile fun node => (node.toTerm settings source).isOk).filterMap
    (Expression.resolution? settings source)

end HornClauses
