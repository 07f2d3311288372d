/-!
# Operators and operator tables

The grammar reads thirteen operators. An operator table lists some of them in check order and may
give each another name for the tree. Of several operators in one expression the one that stands
first in the table is split at first.

* `Operator.ofToken?_token`: every operator is read back from its token.
* `OperatorTable.ofList?`: a table holds operators of the grammar only, each at most once.
-/

namespace HornClauses

inductive Operator where
  | is | div | ge | le | ne | eq | gt | lt | add | sub | mul | slash | backslash
  deriving DecidableEq

namespace Operator

/-- Every operator, in the order in which the grammar tries their tokens. -/
def all : List Operator :=
  [is, div, ge, le, ne, eq, gt, lt, add, sub, mul, slash, backslash]

theorem mem_all (op : Operator) : op ∈ all := by
  cases op <;> decide

def token : Operator → String
  | is => "is"
  | div => "div"
  | ge => ">="
  | le => "=<"
  | ne => "\\="
  | eq => "=="
  | gt => ">"
  | lt => "<"
  | add => "+"
  | sub => "-"
  | mul => "*"
  | slash => "/"
  | backslash => "\\"

def ofToken? (text : String) : Option Operator := all.find? fun op => op.token = text

theorem ofToken?_token (op : Operator) : ofToken? op.token = some op := by
  cases op <;> decide

theorem token_of_ofToken? {text : String} {op : Operator} (h : ofToken? text = some op) :
    op.token = text := by
  simpa using List.find?_some h

end Operator

/-- An operator in a table, with the name it has in the tree when that is not its token. -/
structure OperatorEntry where
  operator : Operator
  rename : Option String
  deriving DecidableEq

def OperatorEntry.name (e : OperatorEntry) : String := e.rename.getD e.operator.token

/-- Operators in check order, each listed at most once. -/
structure OperatorTable where
  entries : List OperatorEntry
  distinct : (entries.map OperatorEntry.operator).Nodup
  deriving DecidableEq

inductive OperatorTableError where
  | unknown (token : String)
  | duplicate (token : String)
  deriving DecidableEq

namespace OperatorTableError

def message : OperatorTableError → String
  | unknown token => "`" ++ token ++ "` is not an operator the grammar can read"
  | duplicate token => "operator `" ++ token ++ "` is listed more than once"

end OperatorTableError

namespace OperatorTable

/-! ## Building -/

/-- Extend a table by the listed tokens and names, up to the first that is unknown or repeated. -/
def extend (table : OperatorTable) :
    List (String × Option String) → Except OperatorTableError OperatorTable
  | [] => .ok table
  | (token, rename) :: rest =>
    match Operator.ofToken? token with
    | none => .error (.unknown token)
    | some op =>
      if h : op ∈ table.entries.map OperatorEntry.operator then .error (.duplicate token)
      else
        extend ⟨table.entries ++ [⟨op, rename⟩], by
          simpa [List.nodup_append, table.distinct] using
            fun e he heq => h (List.mem_map.2 ⟨e, he, heq⟩)⟩ rest

def empty : OperatorTable := ⟨[], List.nodup_nil⟩

/-- The table that lists these tokens and names in this order. -/
def ofList? : List (String × Option String) → Except OperatorTableError OperatorTable :=
  empty.extend

/-- Comparisons before arithmetic. Integer division shares the name of division. -/
def standard : OperatorTable where
  entries :=
    [⟨.is, some "is"⟩, ⟨.gt, some ">"⟩, ⟨.lt, some "<"⟩, ⟨.ge, some ">="⟩, ⟨.le, some "=<"⟩,
      ⟨.ne, some "\\="⟩, ⟨.eq, some "=="⟩, ⟨.add, some "+"⟩, ⟨.sub, some "-"⟩,
      ⟨.mul, some "*"⟩, ⟨.slash, some "/"⟩, ⟨.backslash, some "\\"⟩, ⟨.div, some "/"⟩]
  distinct := by decide

instance : Inhabited OperatorTable := ⟨standard⟩

/-! ## Looking up -/

def get? (table : OperatorTable) (op : Operator) : Option OperatorEntry :=
  table.entries.find? fun e => e.operator = op

/-- The place of an operator in the check order, from zero. -/
def priority? (table : OperatorTable) (op : Operator) : Option Nat :=
  table.entries.findIdx? fun e => e.operator = op

theorem isSome_get?_iff (table : OperatorTable) (op : Operator) :
    (table.get? op).isSome ↔ op ∈ table.entries.map OperatorEntry.operator := by
  simp [get?, List.find?_isSome]

theorem isSome_priority? (table : OperatorTable) (op : Operator) :
    (table.priority? op).isSome = (table.get? op).isSome := by
  rw [Bool.eq_iff_iff]
  simp [get?, priority?]

end OperatorTable

end HornClauses
