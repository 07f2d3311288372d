import HornClauses.Bindings
import HornClauses.FileFault

/-!
# Trees of files

A path is followed name by name from the root of a tree, or from a folder in it if the path does not
begin with a slash. Only a directory can be gone on from, so a path that ends in a slash never leads
to a file. An empty name and a point stay where they are, two points go back to the parent.

* `FileTree.insert`: a tree with one file more.
* `FileTree.read`: the files that a run of the command in some folder finds.
-/

namespace HornClauses

/-- A file, with what reading it gives, or a directory. -/
inductive FileTree where
  | file (text : Except FileFault String)
  | directory (entries : List (String × FileTree))

namespace FileTree

def empty : FileTree := .directory []

/-! ## Building -/

/-- What a name stands for in a directory; nothing lies in a file. -/
def entry? (name : String) : FileTree → Option FileTree
  | .file _ => none
  | .directory entries => Bindings.get? name entries

/-- Bind a name in a directory. A file gives way to a directory. -/
def bindEntry (t : FileTree) (name : String) (value : FileTree) : FileTree :=
  match t with
  | .file _ => .directory [(name, value)]
  | .directory entries => .directory (Bindings.put name value entries)

/-- Put a tree at the end of a row of names, with the directories that lead there. -/
def insert (t value : FileTree) : List String → FileTree
  | [] => value
  | name :: rest => t.bindEntry name (insert ((t.entry? name).getD empty) value rest)

/-! ## Following a path -/

def longestName : Nat := 255

def longestPath : Nat := 4095

/-- Go from a tree, below its parents, along a row of names. -/
def follow (parents : List FileTree) (here : FileTree) : List String → Except FileFault FileTree
  | [] => .ok here
  | name :: rest =>
    match here with
    | .file _ => .error .notDirectory
    | .directory entries =>
      if name = "" ∨ name = "." then follow parents here rest
      else if name = ".." then
        match parents with
        | [] => follow [] here rest
        | parent :: above => follow above parent rest
      else if longestName < name.utf8ByteSize then .error .nameTooLong
      else
        match Bindings.get? name entries with
        | none => .error .missing
        | some next => follow (here :: parents) next rest

/-- The names between the slashes of a path that goes on from the beginning of a name. -/
def namesFrom (name : List Char) : List Char → List String
  | [] => [String.ofList name]
  | c :: rest =>
    if c = '/' then String.ofList name :: namesFrom [] rest else namesFrom (name ++ [c]) rest

/-- What reading the file at a path gives, in a tree and from a folder in it. -/
def read (root : FileTree) (folder : List String) (path : String) : Except FileFault String :=
  let names := namesFrom [] path.toList
  if path = "" then .error .missing
  else if longestPath < path.utf8ByteSize then .error .nameTooLong
  else
    match root.follow [] (if names.head? = some "" then names else folder ++ names) with
    | .error fault => .error fault
    | .ok (.directory _) => .error .isDirectory
    | .ok (.file text) => text

end FileTree

end HornClauses
