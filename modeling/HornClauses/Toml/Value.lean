import HornClauses.Bindings

/-!
# Values of TOML

A table is a list of keys with values, in the order in which they stand in the document. A key may
stand in it twice. Tables differ in how they were written, since only those that dotted keys make
can be extended by more dotted keys.

* `Value.addEntry`: what a key with dots adds to a table.
-/

namespace HornClauses.Toml

inductive TableForm where
  | braces
  | dottedKeys
  | headers
  deriving DecidableEq

/-- A value of a document. No setting is a float or a date, so what these are is not kept. -/
inductive Value where
  | string (text : String)
  | integer (n : Int)
  | boolean (b : Bool)
  | float
  | date
  | array (elements : List Value)
  | table (form : TableForm) (entries : List (String × Value))

instance : Inhabited Value := ⟨.table .headers []⟩

abbrev Entries := List (String × Value)

namespace Value

/-- What a key holds as long as it can be extended by dotted keys. -/
def openEntries? (key : String) (entries : Entries) : Option Entries :=
  match Bindings.get? key entries with
  | none => some []
  | some (.table .dottedKeys inner) => some inner
  | some _ => none

/-- Add a key, with further keys after dots, and its value to a table. -/
def addEntry (entries : Entries) (key : String) : List String → Value → Option Entries
  | [], value => some (entries ++ [(key, value)])
  | next :: more, value => do
    let inner ← openEntries? key entries
    let extended ← addEntry inner next more value
    return Bindings.put key (.table .dottedKeys extended) entries

end Value

end HornClauses.Toml
