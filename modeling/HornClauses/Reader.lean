import HornClauses.Expression.Reading

/-!
# Reading terms, goals and clauses

The functions here read a text that stands for one thing. A clause text is divided at its first
`:-` and its body at the commas outside brackets; each part is then read as a predicate, and a
predicate as a term. Brackets are checked before anything else is looked at.

* `Settings.readTerm`, `Settings.readTerms`, `Settings.readPredicate`, `Settings.readClause`.
* `Settings.clauseResolutions`: the expressions that are resolved while a clause is read.
-/

namespace HornClauses

def ReadError.ofBracketFault (text : List Char) (fault : BracketFault) : ReadError :=
  .unmatchedBracket (String.ofList text) fault.offset fault.bracket

def ReadError.ofSyntaxFault (text : List Char) (fault : SyntaxFault) : ReadError :=
  .refused (String.ofList text) fault

def splitGoals (text : List Char) : Except ReadError (List (List Char)) :=
  (Bracket.splitTrimmed ',' text).mapError (.ofBracketFault text)

/-! ## Terms -/

def readExpression (text : List Char) : Except ReadError Expression := do
  (Bracket.check text).mapError (.ofBracketFault text)
  (Grammar.readTerm text).mapError (.ofSyntaxFault text)

def readExpressions (text : List Char) : Except ReadError (List Expression) := do
  (Bracket.check text).mapError (.ofBracketFault text)
  (Grammar.readSequence text).mapError (.ofSyntaxFault text)

namespace Settings

def readTerm (settings : Settings) (text : List Char) : Except ReadError Term := do
  let e ← readExpression text
  e.toTerm settings (String.ofList (Text.trim text))

/-- Read a text as terms between commas, none if the text is empty. -/
def readTerms (settings : Settings) (text : List Char) : Except ReadError (List Term) :=
  if (Text.trim text).isEmpty then .ok []
  else do
    let es ← readExpressions text
    Expression.toTerms settings (String.ofList (Text.trim text)) es

/-! ## Predicates -/

end Settings

/-- What is read of the text of a predicate: one period at its end is ignored. -/
def predicateCore (text : List Char) : List Char :=
  Text.trimEnd (Text.dropPeriod (Text.trim text))

namespace Settings

/-- Read a text as a predicate. An atom is a predicate without arguments. -/
def readPredicate (settings : Settings) (text : List Char) : Except ReadError Predicate :=
  if (predicateCore text).isEmpty then
    .error (.malformedClause (String.ofList text) .emptyPredicate)
  else do
    match ← settings.readTerm (predicateCore text) with
    | .compound name args => return ⟨name, args⟩
    | .atom name => return ⟨name, []⟩
    | .var _ => .error (.malformedClause (String.ofList text) .variablePredicate)

/-! ## Clauses -/

end Settings

/-- Divide a text at the first `:-`. -/
def divideNeck : List Char → Option (List Char × List Char)
  | [] => none
  | ':' :: '-' :: body => some ([], body)
  | c :: rest => (divideNeck rest).map fun parts => (c :: parts.1, parts.2)

/-- The text of a head, and the text of a body if there is a `:-` before it. -/
structure ClauseText where
  head : List Char
  body : Option (List Char)

/-- Divide the text of a clause. One period at its end is ignored. -/
def ClauseText.divide (text : List Char) : ClauseText :=
  let core := Text.dropPeriod (Text.trim text)
  match divideNeck core with
  | some (head, body) => ⟨Text.trim head, some body⟩
  | none => ⟨Text.trim core, none⟩

namespace Settings

def readGoals (settings : Settings) (onEmpty : ReadError) :
    List (List Char) → Except ReadError (List Predicate)
  | [] => .ok []
  | goal :: goals =>
    if goal.isEmpty then .error onEmpty
    else do
      let first ← settings.readPredicate goal
      let rest ← settings.readGoals onEmpty goals
      return first :: rest

def readHead (settings : Settings) (malformed : ClauseDefect → ReadError) (head : List Char) :
    Except ReadError Predicate :=
  if head.isEmpty then .error (malformed .emptyHead)
  else do
    let pieces ← splitGoals head
    if pieces.length > 1 then .error (malformed .headConjunction)
    else settings.readPredicate head

def readBody (settings : Settings) (malformed : ClauseDefect → ReadError) :
    Option (List Char) → Except ReadError (List Predicate)
  | none => .ok []
  | some body =>
    if (Text.trim body).isEmpty then .error (malformed .emptyBody)
    else do
      let goals ← splitGoals body
      settings.readGoals (malformed .emptyGoal) goals

def readClause (settings : Settings) (text : List Char) : Except ReadError Clause := do
  let malformed := ReadError.malformedClause (String.ofList (Text.trim text))
  let parts := ClauseText.divide text
  let head ← settings.readHead malformed parts.head
  let body ← settings.readBody malformed parts.body
  return ⟨head, body⟩

/-! ## Resolutions on the way -/

def predicateResolutions (settings : Settings) (text : List Char) : List Resolution :=
  match readExpression (predicateCore text) with
  | .ok e => e.resolutions settings (String.ofList (predicateCore text))
  | .error _ => []

/-- The expressions that are resolved while goals are read, up to the first that is not read. -/
def goalsResolutions (settings : Settings) : List (List Char) → List Resolution
  | [] => []
  | goal :: goals =>
    if goal.isEmpty then []
    else settings.predicateResolutions goal ++
      if (settings.readPredicate goal).isOk then settings.goalsResolutions goals else []

def clauseResolutions (settings : Settings) (text : List Char) : List Resolution :=
  let malformed := ReadError.malformedClause (String.ofList (Text.trim text))
  let parts := ClauseText.divide text
  match splitGoals parts.head with
  | .ok [_] =>
    settings.predicateResolutions parts.head ++
      match (settings.readHead malformed parts.head).isOk, parts.body.map splitGoals with
      | true, some (.ok goals) => settings.goalsResolutions goals
      | _, _ => []
  | _ => []

end Settings

end HornClauses
