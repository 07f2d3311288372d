import HornClauses.Operator
import HornClauses.Term.Listing

/-!
# Settings

What a user can choose about the reading of clauses.
-/

namespace HornClauses

/-- How lists end, and which operators there are. -/
structure Settings where
  lists : ListStyle
  operators : OperatorTable
  deriving DecidableEq

def Settings.standard : Settings := ⟨.legacy, .standard⟩

instance : Inhabited Settings := ⟨.standard⟩

end HornClauses
