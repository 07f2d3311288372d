import HornClauses.Proofs.ParsingExpression
import HornClauses.Token

/-!
# The grammar as parsing expressions

The grammar of terms as rules over the characters of a text. The rules up to `operator` match single
tokens and take the characters as they come. In the rules after it blanks may stand between any two
parts. Operands are optional, so an expression may match nothing.

* `Rule.body`: the rules.
* `Rule.Accepts`, `Rule.Matches`: the texts that a rule accepts and those that it matches whole.
-/

namespace HornClauses

inductive Rule where
  | blank
  | nameChar
  | variableStart
  | reserved
  | name
  | var
  | number
  | symbol
  | operator
  | compound
  | args
  | list
  | elements
  | tail
  | tuple
  | operand
  | expression
  | term
  | sequence
  deriving DecidableEq

namespace Rule

open Peg

def oneOf (e : Peg Rule) : List (Peg Rule) → Peg Rule
  | [] => e
  | f :: fs => .choice e (oneOf f fs)

/-- One character of a class and all characters of it that follow. -/
def run (p : Char → Bool) : Peg Rule := .seq (.char p) (.many (.char p))

def blanks : Peg Rule := .many (.rule .blank)

/-- Two parts with blanks between them. -/
def spaced (e f : Peg Rule) : Peg Rule := .seq e (.seq blanks f)

/-- Any number of parts with blanks between any two of them. -/
def spacedMany (e : Peg Rule) : Peg Rule := .optional (.seq e (.many (.seq blanks e)))

/-- Parts with a comma between any two of them. -/
def separated (e : Peg Rule) : Peg Rule := spaced e (spacedMany (spaced (.literal [',']) e))

def body : Rule → Peg Rule
  | blank => .char Text.isBlank
  | nameChar => .char Text.isNameChar
  | variableStart => .char Text.isVariableStart
  | reserved =>
    .seq (.choice (.literal ['i', 's']) (.literal ['d', 'i', 'v'])) (.reject (.rule nameChar))
  | name =>
    .seq (.reject (.rule reserved)) (.seq (.reject (.rule variableStart))
      (.seq (.char Text.isLetter) (.many (.rule nameChar))))
  | var => .seq (.rule variableStart) (.many (.rule nameChar))
  | number => .seq (run Char.isDigit) (.optional (.seq (.literal ['.']) (run Char.isDigit)))
  | symbol => run Token.isSymbolChar
  | operator =>
    oneOf (.literal ['>', '=']) [.literal ['=', '<'], .literal ['\\', '='], .literal ['=', '='],
      .literal ['>'], .literal ['<'], .literal ['+'], .literal ['-'], .literal ['*'],
      .literal ['/'], .literal ['\\'], .rule reserved]
  | compound => spaced (.rule name) (spaced (.literal ['(']) (spaced (.rule args) (.literal [')'])))
  | args => separated (.rule expression)
  | list =>
    .choice (spaced (.literal ['[']) (.literal [']']))
      (spaced (.literal ['[']) (spaced (.rule elements)
        (spaced (.optional (spaced (.literal ['|']) (.rule tail))) (.literal [']']))))
  | elements => separated (.rule expression)
  | tail => .rule expression
  | tuple => spaced (.literal ['(']) (spaced (.rule elements) (.literal [')']))
  | operand =>
    oneOf (.rule compound) [.rule list, .rule tuple, .rule var, .rule number, .rule name,
      .rule symbol]
  | expression =>
    spaced (.optional (.rule operand))
      (spacedMany (spaced (.rule operator) (.optional (.rule operand))))
  | term => .seq blanks (spaced (.rule expression) .atEnd)
  | sequence => .seq blanks (spaced (.rule args) .atEnd)

/-- A rule accepts a text if it matches a beginning of it. -/
def Accepts (r : Rule) (s : List Char) : Prop := ∃ rest, Outcome body (.rule r) s (some rest)

/-- A rule matches a text from its beginning to its end. -/
def Matches (r : Rule) (s : List Char) : Prop := Outcome body (.rule r) s (some [])

end Rule

end HornClauses
