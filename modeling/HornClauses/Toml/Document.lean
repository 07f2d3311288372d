import HornClauses.Toml.Line

/-!
# Documents of TOML

Headers divide a document into sections. Sections whose headers begin with the same key together
make the value of that key: a table, or an array of tables if its first header belongs to one. Every
header of the array then begins an element, to which the sections after it belong.

* `Document.read`: the sections of a text.
* `Document.items`: the top-level keys with their values in the order in which they first occur.
-/

namespace HornClauses.Toml

/-! ## Sections -/

structure Section where
  path : List String
  ofArray : Bool
  entries : Entries

/-- The entries before the first header, and the sections. -/
structure Document where
  entries : Entries
  sections : List Section

namespace Document

/-- Add a line to a document. An entry belongs to the last section. -/
def addLine (d : Document) : Line → Option Document
  | .header key ofArray => some { d with sections := d.sections ++ [⟨key.path, ofArray, []⟩] }
  | .entry key value =>
    match d.sections.getLast? with
    | none =>
      (Value.addEntry d.entries key.first key.more value).map fun entries =>
        { d with entries := entries }
    | some s =>
      (Value.addEntry s.entries key.first key.more value).map fun entries =>
        { d with sections := d.sections.dropLast ++ [{ s with entries := entries }] }

def read (source : List Char) : Option Document := do
  let ts ← tokens source
  let lines ← readLines ts
  lines.foldlM addLine ⟨[], []⟩

end Document

/-! ## The outline of headers -/

/-- A part of what headers with a common beginning hold. -/
inductive Part where
  | own (ofArray : Bool) (entries : Entries)
  | child (key : String) (parts : List Part)

namespace Part

/-- Does an element of an array of tables begin here? -/
def isElement : Part → Bool
  | own ofArray _ => ofArray
  | child _ _ => false

/-- Extend the parts under a key, if there are any in the last element. -/
def extend? (key : String) (f : List Part → List Part) : List Part → Option (List Part)
  | [] => none
  | part :: rest =>
    match extend? key f rest, part with
    | some extended, part => some (part :: extended)
    | none, child k parts =>
      if k = key ∧ !rest.any isElement then some (child k (f parts) :: rest) else none
    | none, own _ _ => none

/-- Add the entries under a header to the parts that the headers before it left. -/
def insert (ofArray : Bool) (entries : Entries) : List String → List Part → List Part
  | [], parts => parts ++ [own ofArray entries]
  | key :: path, parts =>
    (extend? key (insert ofArray entries path) parts).getD
      (parts ++ [child key (insert ofArray entries path [])])

mutual

/-- The value of parts, unless headers clash. -/
def toValue? (parts : List Part) : Option Value :=
  match parts with
  | own true entries :: rest => (elements? entries rest).map .array
  | parts => (entries? false parts).map (.table .headers)
termination_by (sizeOf parts, 1)

/-- The elements of an array of tables, given the entries of the one that is begun. -/
def elements? (begun : Entries) (parts : List Part) : Option (List Value) :=
  match parts with
  | [] => some [.table .headers begun]
  | own true entries :: rest => (elements? entries rest).map (.table .headers begun :: ·)
  | own false _ :: _ => none
  | child key inner :: rest => do
    let value ← toValue? inner
    elements? (begun ++ [(key, value)]) rest
termination_by (sizeOf parts, 0)

/-- The entries of a table. Its header may stand in a document only once. -/
def entries? (declared : Bool) (parts : List Part) : Option Entries :=
  match parts with
  | [] => some []
  | own true _ :: _ => none
  | own false entries :: rest =>
    if declared then none else (entries? true rest).map (entries ++ ·)
  | child key inner :: rest => do
    let value ← toValue? inner
    let entries ← entries? declared rest
    return (key, value) :: entries
termination_by (sizeOf parts, 0)

end

end Part

/-! ## Items -/

/-- A top-level key of a document. It has no value where the headers that begin with it clash. -/
structure Item where
  key : String
  value : Option Value

/-- The item of a part at the top level. Every header has a key, so all parts there have one. -/
def Item.ofPart? : Part → Option Item
  | .own _ _ => none
  | .child key parts => some ⟨key, Part.toValue? parts⟩

def Document.items (d : Document) : List Item :=
  d.entries.map (fun entry => ⟨entry.1, some entry.2⟩) ++
    (d.sections.foldl (fun parts s => Part.insert s.ofArray s.entries s.path parts) []).filterMap
      Item.ofPart?

end HornClauses.Toml
