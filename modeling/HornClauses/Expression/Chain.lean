import HornClauses.Operator
import HornClauses.ReadError
import HornClauses.Term

/-!
# Resolving chains of operators

A chain of operands and operators becomes one term: it is split at the operator that stands first in
the table, the left side has to be a single operand, and the right side is treated alike. So the
operators have to stand in the order of the table, and the term nests to the right.

* `OperatorTable.unlisted?`, `OperatorTable.conflict?`, `OperatorTable.nest`: the three things that
  can be wrong, in the order in which they are looked for.
* `OperatorTable.resolve`: the term of a chain.
-/

namespace HornClauses

namespace OperatorTable

def unlisted? (table : OperatorTable) (ops : List Operator) : Option Operator :=
  ops.find? fun op => (table.get? op).isNone

/-- The place of an operator in the check order, behind all others if it is not listed. -/
def rank (table : OperatorTable) (op : Operator) : Nat :=
  (table.priority? op).getD table.entries.length

/-- The operator that a chain is split at: the first in the check order. -/
def splitAt (table : OperatorTable) (op : Operator) : List Operator → Operator
  | [] => op
  | next :: rest =>
    if table.rank next < table.rank op then table.splitAt next rest else table.splitAt op rest

/-- The operator that a chain should be split at and the operator on its left that is in the way. -/
def conflict? (table : OperatorTable) : List Operator → Option (Operator × Operator)
  | [] => none
  | op :: rest =>
    if table.splitAt op rest = op then table.conflict? rest else some (table.splitAt op rest, op)

def nameOf (table : OperatorTable) (op : Operator) : String :=
  ((table.get? op).map OperatorEntry.name).getD op.token

/-- Nest a chain to the right. Of a hole the operator on its left is reported, or else the one on
its right, or none if it stands alone. -/
def nest (table : OperatorTable) (left? : Option Operator) :
    List (Option Term × Operator) → Option Term → Except (Option Operator) Term
  | [], none => .error left?
  | [], some last => .ok last
  | (none, op) :: _, _ => .error (left?.or (some op))
  | (some left, op) :: rest, last =>
    (table.nest (some op) rest last).map fun right => .compound (table.nameOf op) [left, right]

/-- The term of a chain. The errors show the text of the chain, or of all that is read for a hole. -/
def resolve (table : OperatorTable) (source text : String) (links : List (Option Term × Operator))
    (last : Option Term) : Except ReadError Term :=
  let ops := links.map Prod.snd
  match table.unlisted? ops with
  | some op => .error (.unlistedOperator text op.token)
  | none =>
    match table.conflict? ops with
    | some (first, nested) => .error (.ambiguousOperator text first.token nested.token)
    | none =>
      (table.nest none links last).mapError fun op? =>
        .missingOperand source (op?.map Operator.token)

end OperatorTable

end HornClauses
