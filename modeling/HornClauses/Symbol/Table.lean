import HornClauses.Bindings

/-!
# Symbol tables

A symbol table gives names their ids, which are 32 bit words, and keeps for each id the name that
was bound to it last. The names stand in the order in which they were first inserted.

* `SymbolTable.id?_insert`, `SymbolTable.name?_insert`: what inserting does to the two look-ups.
* `SymbolTable.keys_insert`: a name that is inserted again keeps its place.
-/

namespace HornClauses

/-- Names with their ids, and ids with their names. -/
structure SymbolTable where
  /-- Every name with its id, in the order in which the names were first inserted. -/
  ids : List (String × UInt32)
  /-- Ids with the name that each was bound to last. -/
  names : List (UInt32 × String)
  deriving DecidableEq

namespace SymbolTable

def empty : SymbolTable := ⟨[], []⟩

instance : Inhabited SymbolTable := ⟨empty⟩

def id? (table : SymbolTable) (name : String) : Option UInt32 := Bindings.get? name table.ids

def name? (table : SymbolTable) (id : UInt32) : Option String := Bindings.get? id table.names

def size (table : SymbolTable) : Nat := table.ids.length

/-- Bind a name to an id. The id that the name had loses its name, unless that is another one by
now. -/
def insert (table : SymbolTable) (name : String) (id : UInt32) : SymbolTable where
  ids := Bindings.put name id table.ids
  names :=
    let kept :=
      match table.id? name with
      | some previous =>
        if table.name? previous = some name then Bindings.erase previous table.names else table.names
      | none => table.names
    Bindings.put id name kept

def exchange (table : SymbolTable) (name : String) (id : UInt32) : Option UInt32 × SymbolTable :=
  (table.id? name, table.insert name id)

def insertAll (table : SymbolTable) (pairs : List (String × UInt32)) : SymbolTable :=
  pairs.foldl (fun t pair => t.insert pair.1 pair.2) table

def ofPairs (pairs : List (String × UInt32)) : SymbolTable := empty.insertAll pairs

/-- Bind each name that is new to the number of names before it. -/
def addNames (table : SymbolTable) : List String → SymbolTable
  | [] => table
  | name :: rest =>
    if (table.id? name).isSome then table.addNames rest
    else (table.insert name (UInt32.ofNat table.size)).addNames rest

/-- The table that numbers the distinct names in order, from zero. -/
def ofNames (names : List String) : SymbolTable := empty.addNames names

/-- Do two tables give every name the same id and every id the same name? -/
def agrees (table other : SymbolTable) : Bool :=
  (table.ids ++ other.ids).all (fun pair => table.id? pair.1 = other.id? pair.1) &&
    (table.names ++ other.names).all (fun pair => table.name? pair.1 = other.name? pair.1)

/-! ## Laws -/

theorem id?_insert (table : SymbolTable) (name n : String) (id : UInt32) :
    (table.insert name id).id? n = if n = name then some id else table.id? n :=
  Bindings.get?_put name n id table.ids

theorem name?_insert (table : SymbolTable) (name : String) (id k : UInt32) :
    (table.insert name id).name? k =
      if k = id then some name
      else if table.id? name = some k ∧ table.name? k = some name then none
      else table.name? k := by
  simp only [insert, name?, Bindings.get?_put]
  split
  · rfl
  · cases hid : table.id? name with
    | none => simp
    | some previous =>
      by_cases hname : Bindings.get? previous table.names = some name
      · by_cases hk : k = previous
        · simp [Bindings.get?_erase, hname, hk]
        · simp [Bindings.get?_erase, hname, hk, Ne.symm hk]
      · by_cases hk : previous = k
        · subst hk
          simp [hname]
        · simp [hname, hk]

theorem keys_insert (table : SymbolTable) (name : String) (id : UInt32) :
    (table.insert name id).ids.map Prod.fst =
      if name ∈ table.ids.map Prod.fst then table.ids.map Prod.fst
      else table.ids.map Prod.fst ++ [name] :=
  Bindings.keys_put name id table.ids

end SymbolTable

end HornClauses
