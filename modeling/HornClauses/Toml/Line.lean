import HornClauses.Toml.Number

/-!
# Lines of TOML

A document consists of headers and of keys with values. An array may run over several lines, so a
line here may take several lines of the text.

* `readKey`: a key, and further keys after dots.
* `readValue`: a value of any kind.
* `readLines`: the headers and entries of a document.
-/

namespace HornClauses.Toml

/-- A key with the keys that follow it after dots. -/
structure Key where
  first : String
  more : List String

def Key.path (key : Key) : List String := key.first :: key.more

/-- A line that is neither empty nor a comment. -/
inductive Line where
  /-- The header of a table or of one element of an array of tables. -/
  | header (key : Key) (ofArray : Bool)
  | entry (key : Key) (value : Value)

/-! ## Empty space -/

def isBlank : Token → Bool
  | .blank _ => true
  | _ => false

/-- Is a token nothing but empty space, a comment or the end of a line? -/
def isLayout : Token → Bool
  | .blank _ => true
  | .lineEnd => true
  | .comment => true
  | _ => false

/-- Pass over the end of a line, with a comment before it. -/
def endLine? (ts : List Token) : Option (List Token) :=
  match ts.dropWhile isBlank with
  | .comment :: .lineEnd :: later => some later
  | .lineEnd :: later => some later
  | [.comment] => some []
  | [] => some []
  | _ => none

/-! ## Keys -/

/-- The part of a key that a token stands for. A part does not span lines. -/
def keyPart? : Token → Option String
  | .word text => some (String.ofList text)
  | .string q => if q.multiline then none else some (String.ofList q.value)
  | _ => none

def isKeyToken : Token → Bool
  | .word _ => true
  | .string _ => true
  | .period => true
  | .blank _ => true
  | _ => false

/-- The key that is written so, with a dot between any two parts. -/
def Key.ofTokens? : List Token → Option Key
  | [part] => (keyPart? part).map (⟨·, []⟩)
  | part :: .period :: rest => do
    let first ← keyPart? part
    let key ← Key.ofTokens? rest
    return ⟨first, key.path⟩
  | _ => none

def readKey (ts : List Token) : Option (Key × List Token) :=
  (Key.ofTokens? ((ts.takeWhile isKeyToken).filter (!isBlank ·))).map
    (·, ts.dropWhile isKeyToken)

/-! ## Values -/

def isNumeric (word : List Char) : Bool :=
  word = ['i', 'n', 'f'] || word = ['n', 'a', 'n'] ||
    word.head?.any fun c => c = '-' || c.isDigit

mutual

/-- Read a value, spending fuel on every value and every pair or element of one. -/
def readValue : Nat → List Token → Option (Value × List Token)
  | 0, _ => none
  | _ + 1, .string q :: ts => some (.string (String.ofList q.value), ts)
  | _ + 1, .word word :: ts =>
    if word = ['t', 'r', 'u', 'e'] then some (.boolean true, ts)
    else if word = ['f', 'a', 'l', 's', 'e'] then some (.boolean false, ts)
    else if isNumeric word then readNumberOrDate word ts
    else none
  | _ + 1, .plus :: .word word :: ts => readNumber word ts
  | fuel + 1, .openBracket :: ts => readElements fuel [] (ts.dropWhile isLayout)
  | fuel + 1, .openBrace :: ts =>
    match ts.dropWhile isBlank with
    | .closeBrace :: ts => some (.table .braces [], ts)
    | ts => readPairs fuel [] ts
  | _ + 1, _ => none

/-- Read the elements of an array after the first ones. -/
def readElements : Nat → List Value → List Token → Option (Value × List Token)
  | 0, _, _ => none
  | _ + 1, elements, .closeBracket :: ts => some (.array elements, ts)
  | fuel + 1, elements, ts => do
    let (value, ts) ← readValue fuel ts
    match ts.dropWhile isLayout with
    | .comma :: ts => readElements fuel (elements ++ [value]) (ts.dropWhile isLayout)
    | .closeBracket :: ts => some (.array (elements ++ [value]), ts)
    | _ => none

/-- Read the pairs of a table between braces after the first ones. -/
def readPairs : Nat → Entries → List Token → Option (Value × List Token)
  | 0, _, _ => none
  | fuel + 1, entries, ts => do
    let (key, ts) ← readKey ts
    let .equals :: ts := ts | none
    let (value, ts) ← readValue fuel (ts.dropWhile isBlank)
    let entries ← Value.addEntry entries key.first key.more value
    match ts.dropWhile isBlank with
    | .comma :: ts => readPairs fuel entries (ts.dropWhile isBlank)
    | .closeBrace :: ts => some (.table .braces entries, ts)
    | _ => none

end

/-! ## Lines -/

def readHeader (ts : List Token) : Option (Line × List Token) :=
  match ts with
  | .openBracket :: ts => do
    let (key, ts) ← readKey ts
    let .closeBracket :: .closeBracket :: ts := ts | none
    return (.header key true, ts)
  | ts => do
    let (key, ts) ← readKey ts
    let .closeBracket :: ts := ts | none
    return (.header key false, ts)

def readEntry (fuel : Nat) (ts : List Token) : Option (Line × List Token) := do
  let (key, ts) ← readKey ts
  let .equals :: ts := ts | none
  let (value, ts) ← readValue fuel (ts.dropWhile isBlank)
  return (.entry key value, ts)

def readLinesWith : Nat → List Token → Option (List Line)
  | 0, _ => none
  | fuel + 1, ts =>
    match ts.dropWhile isLayout with
    | [] => some []
    | .openBracket :: ts => do
      let (line, ts) ← readHeader ts
      let ts ← endLine? ts
      let lines ← readLinesWith fuel ts
      return line :: lines
    | ts => do
      let (line, ts) ← readEntry fuel ts
      let ts ← endLine? ts
      let lines ← readLinesWith fuel ts
      return line :: lines

/-- Read the lines of a document. Every line takes a token, and so does every second step inside a
value, so that the fuel suffices. -/
def readLines (ts : List Token) : Option (List Line) :=
  readLinesWith (3 * ts.length + 3) ts

end HornClauses.Toml
