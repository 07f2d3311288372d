import HornClauses.Text.Space

/-!
# Dividing a program into clause texts

A percent sign begins a comment that runs to the end of its line. Lines are trimmed, lines without
code are passed over, and lines of code are joined with a blank until one ends in a period.

* `codeLines`: the lines of code with their numbers.
* `Segment.ofLines`: the runs of lines that end in a period.
* `segments`: the clause texts of a program.
-/

namespace HornClauses

/-- The text of one clause and the line on which it begins, counted from one. -/
structure Segment where
  line : Nat
  text : List Char
  deriving DecidableEq

/-- The code of a line: what stands before a comment, trimmed. -/
def codeOf (line : List Char) : List Char :=
  Text.trim (line.takeWhile (· ≠ '%'))

/-- Number lines from a first number, and keep those with code. -/
def numberCode (first : Nat) : List (List Char) → List Segment
  | [] => []
  | line :: rest =>
    if (codeOf line).isEmpty then numberCode (first + 1) rest
    else ⟨first, codeOf line⟩ :: numberCode (first + 1) rest

def codeLines (source : List Char) : List Segment := numberCode 1 (Text.lines source)

namespace Segment

def isComplete (s : Segment) : Bool := s.text.getLast? = some '.'

def join : Option Segment → Segment → Segment
  | none, code => code
  | some s, code => ⟨s.line, s.text ++ ' ' :: code.text⟩

/-- Group lines into clauses, given the clause that is begun. A clause that is begun and not
complete at the end is a clause as well. -/
def ofLines (begun : Option Segment) : List Segment → List Segment
  | [] => begun.toList
  | code :: rest =>
    if code.isComplete then join begun code :: ofLines none rest
    else ofLines (some (join begun code)) rest

end Segment

def segments (source : List Char) : List Segment := Segment.ofLines none (codeLines source)

end HornClauses
