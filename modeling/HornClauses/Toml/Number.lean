import HornClauses.Toml.Token
import HornClauses.Toml.Value

/-!
# Numbers and dates of TOML

A word that begins like a number may be only the first part of one: the fraction of a float, the
sign of an exponent and the parts of a time of day are tokens of their own.

* `Digits.scan?`: digits with single underscores between them.
* `readNumber`: an integer that fits into 64 bits, or a float that is finite unless it is written
  `inf` or `nan`.
* `readNumberOrDate`: dates are recognised by their shape and not looked at further.
-/

namespace HornClauses.Toml

/-! ## Digits -/

/-- Digits with a sign, and what follows them in a word. -/
structure Digits where
  negative : Bool
  digits : List Nat
  rest : List Char

namespace Digits

def digit? (base : Nat) (c : Char) : Option Nat :=
  (Quoted.hexDigit? c).filter (· < base)

def isSeparated (run : List Char) : Bool :=
  run.head? ≠ some '_' && run.getLast? ≠ some '_' && (run.zip run.tail).all (· ≠ ('_', '_'))

/-- The digits at the front of a word, at least one. A minus sign and zeros in front are read only
where they may stand. -/
def scan? (base : Nat) (signs zeros : Bool) (word : List Char) : Option Digits :=
  let negative := signs && word.head? = some '-'
  let body := if negative then word.tail else word
  let isDigit := fun c => c = '_' || (digit? base c).isSome
  let run := body.takeWhile isDigit
  let digits := run.filterMap (digit? base)
  if digits.isEmpty || !isSeparated run then none
  else if !zeros && digits.head? = some 0 && digits.length > 1 then none
  else some ⟨negative, digits, body.dropWhile isDigit⟩

def toNat (base : Nat) (ds : List Nat) : Nat := ds.foldl (fun n d => base * n + d) 0

end Digits

/-! ## Integers -/

def signed (negative : Bool) (n : Nat) : Int := if negative then -n else n

/-- An integer that is a whole word. It has to fit into 64 bits. -/
def readInteger (base : Nat) (word : List Char) : Option Value := do
  let found ← Digits.scan? base (base = 10) (base ≠ 10) word
  let n := signed found.negative (Digits.toNat base found.digits)
  if found.rest.isEmpty && Int64.minValue.toInt ≤ n && n ≤ Int64.maxValue.toInt then
    some (.integer n)
  else none

/-! ## Floats -/

/-- Is `digits * 10 ^ exponent` rounded to a finite double? The bound lies half a unit above the
greatest double. -/
def isFinite (digits : List Nat) (exponent : Int) : Bool :=
  let n := Digits.toNat 10 digits
  let magnitude := (Nat.toDigits 10 n).length + exponent
  if n = 0 || magnitude < 300 then true
  else if magnitude > 310 then false
  else n * Nat.pow 10 exponent.toNat <
    (Nat.pow 2 1024 - Nat.pow 2 970) * Nat.pow 10 (-exponent).toNat

/-- The exponent of a float, from the `e` on. After a lone `e` it stands in the next word, and a
plus sign may stand between them. -/
def readExponent (suffix : List Char) (ts : List Token) : Option (Int × List Token) := do
  let (found, later) ← match suffix, ts with
    | [_], .plus :: .word word :: later => (Digits.scan? 10 false true word).map (·, later)
    | [_], .word word :: later => (Digits.scan? 10 false true word).map (·, later)
    | [_], _ => none
    | _, _ => (Digits.scan? 10 true true suffix.tail).map (·, ts)
  if found.rest.isEmpty then
    some (signed found.negative (Digits.toNat 10 found.digits), later)
  else none

/-- The end of a float after the digits before its exponent. The last of them, as many as the
fraction has, stand after the point. -/
def readFloatEnd (digits : List Nat) (fraction : Nat) (suffix : List Char) (ts : List Token) :
    Option (Value × List Token) := do
  let (exponent, later) ←
    if suffix.isEmpty then some (0, ts)
    else if suffix.head? = some 'e' || suffix.head? = some 'E' then readExponent suffix ts
    else none
  if isFinite digits (exponent - fraction) then some (.float, later) else none

/-! ## Numbers and dates -/

def hasExponentSign (word : List Char) : Bool :=
  (word.zip word.tail).any fun p => (p.1 = 'e' || p.1 = 'E') && p.2 = '-'

def readNumber (word : List Char) (ts : List Token) : Option (Value × List Token) :=
  match word with
  | '0' :: 'x' :: rest => (readInteger 16 rest).map (·, ts)
  | '0' :: 'o' :: rest => (readInteger 8 rest).map (·, ts)
  | '0' :: 'b' :: rest => (readInteger 2 rest).map (·, ts)
  | _ =>
    if word.contains 'e' || word.contains 'E' then do
      let whole ← Digits.scan? 10 true false word
      readFloatEnd whole.digits 0 whole.rest ts
    else
      match ts with
      | .period :: .word after :: later => do
        let whole ← Digits.scan? 10 true false word
        let fraction ← Digits.scan? 10 false true after
        if whole.rest.isEmpty then
          readFloatEnd (whole.digits ++ fraction.digits) fraction.digits.length fraction.rest later
        else none
      | .period :: _ => none
      | _ =>
        if ["inf", "-inf", "nan", "-nan"].contains (String.ofList word) then some (.float, ts)
        else (readInteger 10 word).map (·, ts)

def skipPart? (mark : Token) : List Token → Option (List Token)
  | token :: ts =>
    if token = mark then
      match ts with
      | .word _ :: later => some later
      | _ => none
    else some (token :: ts)
  | [] => some []

/-- The rest of a time of day after its first colon. -/
def readTime : List Token → Option (Value × List Token)
  | .word _ :: .colon :: .word _ :: ts => do
    let ts ← skipPart? .period ts
    let ts ← skipPart? .plus ts
    let ts ← skipPart? .colon ts
    return (.date, ts)
  | _ => none

/-- The rest of a date after its first word. A single blank may stand before the time of day. -/
def readDate (ts : List Token) : Option (Value × List Token) :=
  let ts := match ts with
    | .blank [' '] :: .word _ :: later => later
    | _ => ts
  match ts with
  | .colon :: later => readTime later
  | _ => some (.date, ts)

/-- Does a word look like a date? A `T` makes it one, and so does a minus sign inside it that
belongs to no exponent. -/
def isDate (word : List Char) : Bool :=
  word.contains 'T' || word.contains 't' ||
    (word.tail.contains '-' && !hasExponentSign word)

def readNumberOrDate (word : List Char) (ts : List Token) : Option (Value × List Token) :=
  if isDate word then readDate ts
  else
    match ts with
    | .colon :: later => readTime later
    | _ => readNumber word ts

end HornClauses.Toml
