import HornClauses.Symbol.Table
import HornClauses.Term.Subterms

/-!
# Terms as sequences of ids

A term is encoded as the ids of its names, parents before children and arguments from left to right.
Encoding never adds to the table, so it fails at the first name that the table does not know.

* `SymbolTable.codes`: the ids of names up to the first unknown one.
* `SymbolTable.encodeTerm`, `SymbolTable.encodePredicate`, `SymbolTable.encodeAll`.
-/

namespace HornClauses

structure UnknownSymbol where
  name : String
  deriving DecidableEq

def UnknownSymbol.message (e : UnknownSymbol) : String := "unknown symbol `" ++ e.name ++ "`"

namespace SymbolTable

/-- The ids of names in order, up to the first name that is unknown, and that name. -/
def codes (table : SymbolTable) : List String → List UInt32 × Option UnknownSymbol
  | [] => ([], none)
  | name :: rest =>
    match table.id? name with
    | none => ([], some ⟨name⟩)
    | some id =>
      let later := table.codes rest
      (id :: later.1, later.2)

def encodeNames (table : SymbolTable) (names : List String) :
    Except UnknownSymbol (List UInt32) :=
  match table.codes names with
  | (ids, none) => .ok ids
  | (_, some e) => .error e

def encodeTerm (table : SymbolTable) (t : Term) : Except UnknownSymbol (List UInt32) :=
  table.encodeNames t.names

def encodePredicate (table : SymbolTable) (p : Predicate) : Except UnknownSymbol (List UInt32) :=
  table.encodeNames p.names

/-- The ids of several terms, up to the first that has an unknown name. -/
def encodeAll (table : SymbolTable) (ts : List Term) :
    Except UnknownSymbol (List (List UInt32)) :=
  ts.mapM table.encodeTerm

/-- Append the ids of a term to others. On failure the ids before the unknown name are kept. -/
def encodeOnto (table : SymbolTable) (t : Term) (before : List UInt32) :
    List UInt32 × Option UnknownSymbol :=
  let added := table.codes t.names
  (before ++ added.1, added.2)

end SymbolTable

end HornClauses
