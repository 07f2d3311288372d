import HornClauses.FileFault
import HornClauses.Settings
import HornClauses.Symbol.Table
import HornClauses.Toml.Document

/-!
# Configuration documents

Settings and symbol tables can be written as TOML documents. Settings have two keys, `lists` and
`operators`; all other keys are passed over. A symbol table has a key for every name, with the id as
its value.

* `Settings.ofText`, `SymbolTable.ofText`: what a document says.
* `ConfigurationError.message`: the text that a user sees when it says nothing.
-/

namespace HornClauses

inductive ConfigurationError where
  | unreadable (fault : FileFault)
  /-- The text is no document, or its values are not those that are needed. -/
  | invalid
  | operators (cause : OperatorTableError)
  deriving DecidableEq

def ConfigurationError.message : ConfigurationError → String
  | unreadable fault => "could not read configuration: " ++ fault.message
  | invalid => "invalid configuration: a document or a value is not as expected"
  | operators cause => "invalid configuration: " ++ cause.message

/-! ## List styles -/

def ListStyle.ofName? : String → Option ListStyle
  | "legacy" => some legacy
  | "canonical" => some canonical
  | _ => none

/-- The list style that a value names: by a string, or by the only key of a table in braces, whose
value is an empty table. -/
def ListStyle.ofValue? : Toml.Value → Option ListStyle
  | .string name => ofName? name
  | .table .braces [(name, .table _ [])] => ofName? name
  | _ => none

/-- The list style that the last key of a header names. This is read only of a document that is
nothing but that header. -/
def ListStyle.ofLoneHeader? (d : Toml.Document) : Option ListStyle :=
  match d.entries, d.sections with
  | [], [⟨"lists" :: next :: more, _, []⟩] => ofName? ((next :: more).getLastD next)
  | _, _ => none

/-! ## Operators -/

/-- The string at a key, if the key is there. A key must not be there twice. -/
def stringAt? (key : String) (entries : Toml.Entries) : Option (Option String) :=
  match entries.filter (·.1 = key) with
  | [] => some none
  | [(_, .string text)] => some (some text)
  | _ => none

/-- The token and the name of an operator: in a table by key, in an array by place. -/
def operatorOfValue? : Toml.Value → Option (String × Option String)
  | .table _ entries => do
    let token ← stringAt? "token" entries
    let name ← stringAt? "name" entries
    return (← token, name)
  | .array [.string token] => some (token, none)
  | .array [.string token, .string name] => some (token, some name)
  | _ => none

def OperatorTable.ofValue (value : Toml.Value) : Except ConfigurationError OperatorTable :=
  match value with
  | .array values =>
    match values.mapM operatorOfValue? with
    | some listed => (OperatorTable.ofList? listed).mapError .operators
    | none => .error .invalid
  | _ => .error .invalid

/-! ## Settings -/

namespace Settings

/-- The settings that items make, after those that items before them made. -/
def ofItems (lists : Option ListStyle) (operators : Option OperatorTable) :
    List Toml.Item → Except ConfigurationError Settings
  | [] => .ok ⟨lists.getD standard.lists, operators.getD standard.operators⟩
  | ⟨_, none⟩ :: _ => .error .invalid
  | ⟨key, some value⟩ :: rest =>
    if key = "lists" then
      match lists, ListStyle.ofValue? value with
      | none, some style => ofItems (some style) operators rest
      | _, _ => .error .invalid
    else if key = "operators" then
      if operators.isSome then .error .invalid
      else do
        let table ← OperatorTable.ofValue value
        ofItems lists (some table) rest
    else ofItems lists operators rest

/-- The settings in a text. What the text does not set is standard. -/
def ofText (source : List Char) : Except ConfigurationError Settings :=
  match Toml.Document.read source with
  | none => .error .invalid
  | some d =>
    match ListStyle.ofLoneHeader? d with
    | some style => .ok ⟨style, standard.operators⟩
    | none => ofItems none none d.items

def ofFile (file : Except FileFault String) : Except ConfigurationError Settings :=
  match file with
  | .error fault => .error (.unreadable fault)
  | .ok text => ofText text.toList

end Settings

/-! ## Symbol tables -/

namespace SymbolTable

def idOfValue? : Toml.Value → Option UInt32
  | .integer n => if 0 ≤ n ∧ n < UInt32.size then some (UInt32.ofNat n.toNat) else none
  | _ => none

def pairOfItem? (item : Toml.Item) : Option (String × UInt32) := do
  let value ← item.value
  let id ← idOfValue? value
  return (item.key, id)

/-- The symbol table in a text. A name that is there twice keeps its first place and has its last
id. -/
def ofText (source : List Char) : Except ConfigurationError SymbolTable :=
  match (Toml.Document.read source).bind fun d => d.items.mapM pairOfItem? with
  | none => .error .invalid
  | some pairs =>
    .ok (ofPairs (pairs.foldl (fun bound pair => Bindings.put pair.1 pair.2 bound) []))

def ofFile (file : Except FileFault String) : Except ConfigurationError SymbolTable :=
  match file with
  | .error fault => .error (.unreadable fault)
  | .ok text => ofText text.toList

end SymbolTable

end HornClauses
