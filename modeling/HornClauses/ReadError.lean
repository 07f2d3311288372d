import HornClauses.Bracket
import HornClauses.Diagnostic

/-!
# Why a text is not read

One value for each cause, with the text to which it applies. `ReadError.message` is the text that a
user sees.

* `ReadError.root`: the cause inside a clause of a program.
-/

namespace HornClauses

inductive ClauseDefect where
  | emptyHead
  | headConjunction
  | emptyBody
  | emptyGoal
  | emptyPredicate
  | variablePredicate
  /-- A defect in the words of whoever found it. -/
  | other (reason : String)
  deriving DecidableEq

def ClauseDefect.reason : ClauseDefect → String
  | emptyHead => "empty head"
  | headConjunction => "the head is a conjunction"
  | emptyBody => "empty body"
  | emptyGoal => "empty goal in the body"
  | emptyPredicate => "empty predicate"
  | variablePredicate => "a variable is not a predicate"
  | other reason => reason

inductive ReadError where
  | malformedClause (text : String) (defect : ClauseDefect)
  /-- A bracket has no partner. The offset counts bytes of the text. -/
  | unmatchedBracket (text : String) (offset : Nat) (bracket : Char)
  /-- The operator to be split at first has the other one on its left. -/
  | ambiguousOperator (text operator nested : String)
  /-- A hole beside the operator, or an expression that is nothing but a hole. -/
  | missingOperand (text : String) (operator : Option String)
  | unlistedOperator (text operator : String)
  | refused (text : String) (fault : SyntaxFault)
  /-- A clause of a program is not read. Clauses count from zero and lines from one. -/
  | inClause (index line : Nat) (cause : ReadError)
  /-- The reader itself is at fault, at this place of its text. -/
  | internal (file : String) (line : Nat)
  deriving DecidableEq

namespace ReadError

/-- The cause, without the clause in which it arose. -/
def root : ReadError → ReadError
  | inClause _ _ cause => cause.root
  | error => error

def clauseIndex? : ReadError → Option Nat
  | inClause index _ _ => some index
  | _ => none

def message : ReadError → String
  | malformedClause text defect => "malformed clause `" ++ text ++ "`: " ++ defect.reason
  | unmatchedBracket text offset bracket =>
    "unmatched `" ++ bracket.toString ++ "` at offset " ++ toString offset ++ " in `" ++ text ++ "`"
  | ambiguousOperator text operator nested =>
    "left operand of `" ++ operator ++ "` contains operator `" ++ nested ++ "` in `" ++ text
      ++ "`; try splitting the goal"
  | missingOperand text (some operator) =>
    "operator `" ++ operator ++ "` is missing an operand in `" ++ text ++ "`"
  | missingOperand text none => "empty term in `" ++ text ++ "`"
  | unlistedOperator text operator =>
    "operator `" ++ operator ++ "` is not in the operator table (in `" ++ text ++ "`)"
  | refused text fault => "could not parse `" ++ text ++ "`:\n" ++ fault.diagnostic text.toList
  | inClause index line cause =>
    "in clause " ++ toString index ++ " (line " ++ toString line ++ "): " ++ cause.message
  | internal file line => "internal error originated at " ++ file ++ ":" ++ toString line

/-- The text of what lies behind an error: the wrapped cause, or the diagnostic alone. -/
def cause? : ReadError → Option String
  | inClause _ _ cause => some cause.message
  | refused text fault => some (fault.diagnostic text.toList)
  | _ => none

end ReadError

end HornClauses
