import HornClauses.Reader
import HornClauses.Segment
import HornClauses.Term.Surface

/-!
# Reading programs

A program is read clause by clause. An error in a clause tells which clause it is and where the
clause begins, and leaves the other clauses alone.

* `Settings.readClauses`: what every clause text is read into.
* `Settings.readProgram`: all clauses, or the error of the first that is not read.
-/

namespace HornClauses

namespace Settings

def readSegment (settings : Settings) (index : Nat) (s : Segment) : Except ReadError Clause :=
  (settings.readClause s.text).mapError (.inClause index s.line)

/-- Read clause texts, counting them from a first index. -/
def readSegmentsFrom (settings : Settings) (index : Nat) :
    List Segment → List (Except ReadError Clause)
  | [] => []
  | s :: rest => settings.readSegment index s :: settings.readSegmentsFrom (index + 1) rest

def readClauses (settings : Settings) (source : List Char) : List (Except ReadError Clause) :=
  settings.readSegmentsFrom 0 (segments source)

/-- Read a program, up to the first clause that is not read. -/
def readProgram (settings : Settings) (source : List Char) : Except ReadError (List Clause) :=
  (settings.readClauses source).mapM id

end Settings

/-- The surface forms of clauses, one on a line. -/
def renderProgram (clauses : List Clause) : String :=
  String.intercalate "\n" (clauses.map Clause.surface)

end HornClauses
