import HornClauses.Grammar

/-!
# Diagnostics of refused texts

A diagnostic shows the line of a refused text in which the offending place lies, a mark under that
place and what could have stood there.

* `SyntaxFault.line`, `SyntaxFault.column`: where the place is, both from one. Every character but a
  line feed takes one column.
* `SyntaxFault.expected`: what could have stood there.
* `SyntaxFault.diagnostic`: the six lines of the diagnostic.
-/

namespace HornClauses

def Goal.word : Goal → String
  | .term => "source"
  | .sequence => "sequence"

namespace SyntaxFault

def line (fault : SyntaxFault) (text : List Char) : Nat :=
  (text.take fault.position).count '\n' + 1

/-- What stands before the place in its line. -/
def lineBefore (fault : SyntaxFault) (text : List Char) : List Char :=
  ((text.take fault.position).reverse.takeWhile (· ≠ '\n')).reverse

def column (fault : SyntaxFault) (text : List Char) : Nat := (fault.lineBefore text).length + 1

/-- The line of the place as it is shown, without carriage returns. -/
def shownLine (fault : SyntaxFault) (text : List Char) : List Char :=
  (fault.lineBefore text ++ (text.drop fault.position).takeWhile (· ≠ '\n')).filter (· ≠ '\r')

/-- What could have stood at the place. At the very beginning that is the whole text. -/
def expected (fault : SyntaxFault) : String :=
  if fault.position = 0 then fault.goal.word
  else if fault.afterOperand then if fault.inBracket then "infix" else "EOI or infix"
  else (if fault.inBracket then "" else "EOI, ") ++
    "name, variable, number, symbol, infix, list, or tuple"

/-- The blanks that bring the mark under the place. Tabs stay tabs. -/
def indent (fault : SyntaxFault) (text : List Char) : List Char :=
  ((fault.shownLine text).take (fault.column text - 1)).map fun c => if c = '\t' then '\t' else ' '

def diagnostic (fault : SyntaxFault) (text : List Char) : String :=
  let number := toString (fault.line text)
  let margin := String.ofList (List.replicate number.length ' ')
  String.intercalate "\n"
    [margin ++ "--> " ++ number ++ ":" ++ toString (fault.column text),
      margin ++ " |",
      number ++ " | " ++ String.ofList (fault.shownLine text),
      margin ++ " | " ++ String.ofList (fault.indent text) ++ "^---",
      margin ++ " |",
      margin ++ " = expected " ++ fault.expected]

end SyntaxFault

end HornClauses
