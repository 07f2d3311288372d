import HornClauses.Expression
import HornClauses.Token

/-!
# Reading tokens into expressions

A text is read token by token. The state is a stack of frames, one for the text as a whole and one
for each bracket that is open; a frame holds the expressions that are complete and a draft of the
one being read. Each token either fits the state, which fixes what it does, or is refused, and then
the whole text is.

* `Reading.step`: what one token does.
* `Reading.run_append`: reading two runs of tokens is reading the first and then the second.
* `Grammar.readTerm`, `Grammar.readSequence`: the expressions of a text.
-/

namespace HornClauses

inductive Goal where
  | term
  | sequence
  deriving DecidableEq

/-- Why a text is refused: at this place no token could stand that stands there. -/
structure SyntaxFault where
  goal : Goal
  position : Nat
  afterOperand : Bool
  inBracket : Bool
  deriving DecidableEq

structure Draft where
  /-- What was read for it, up to the end of its last token. -/
  text : String
  /-- The blanks after its last token. -/
  gap : String
  links : List (Slot × Operator)
  slot : Slot

/-- What the expressions of a frame are for. -/
inductive Place where
  | top (goal : Goal)
  | args (name : String)
  | tuple
  | elements
  | tail (elements : List Expression)

/-- The expressions between two brackets, or between the ends of the text. -/
structure Frame where
  place : Place
  before : String
  finished : List Expression
  draft : Draft

structure Reading where
  frame : Frame
  outer : List Frame

namespace Draft

def fresh : Draft := ⟨"", "", [], .hole⟩

def isFresh (d : Draft) : Bool := d.links.isEmpty && d.slot.isHole

/-- Add what was read for one more token. -/
def append (d : Draft) (written gap : String) : Draft :=
  { d with text := d.text ++ d.gap ++ written, gap }

/-- The expression that was read. Blanks at its end belong to it after an operator only. -/
def finish (d : Draft) : Expression :=
  .chain (if d.slot.isHole then d.text ++ d.gap else d.text) d.links d.slot

end Draft

namespace Frame

def fresh (place : Place) : Frame := ⟨place, "", [], .fresh⟩

def text (f : Frame) : String := f.before ++ f.draft.text ++ f.draft.gap

def expressions (f : Frame) : List Expression := f.finished ++ [f.draft.finish]

def closeParen? (f : Frame) : Option Slot :=
  match f.place with
  | .args name => some (.compound name f.expressions)
  | .tuple => some (.tuple f.expressions)
  | _ => none

/-- The operand that a closing bracket completes. Brackets around nothing are the empty list. -/
def closeBracket? (f : Frame) : Option Slot :=
  match f.place with
  | .elements =>
    if f.finished.isEmpty && f.draft.isFresh then some (.list []) else some (.list f.expressions)
  | .tail elements => some (.listWithTail elements f.draft.finish)
  | _ => none

/-- May a comma separate the expressions of a frame? -/
def allowsComma (f : Frame) : Bool :=
  match f.place with
  | .top .term => false
  | .tail _ => false
  | _ => true

def nextExpression (f : Frame) (gap : String) : Frame :=
  { f with before := f.text ++ "," ++ gap, finished := f.expressions, draft := .fresh }

end Frame

namespace Reading

def start (goal : Goal) : Reading := ⟨.fresh (.top goal), []⟩

def fault (r : Reading) (goal : Goal) (position : Nat) : SyntaxFault where
  goal
  position
  afterOperand := !r.frame.draft.slot.isHole
  inBracket := !r.outer.isEmpty

def withDraft (r : Reading) (draft : Draft) : Reading :=
  { r with frame := { r.frame with draft } }

def operand (r : Reading) (l : Lexeme) (slot : Slot) : Option Reading :=
  if r.frame.draft.slot.isHole then
    some (r.withDraft { r.frame.draft.append l.token.text l.gap with slot })
  else none

/-- Put an operator after the slot, whether it holds an operand or not. -/
def operator (r : Reading) (l : Lexeme) (op : Operator) : Reading :=
  let d := r.frame.draft.append l.token.text l.gap
  r.withDraft { d with links := d.links ++ [(d.slot, op)], slot := .hole }

def openBracket (r : Reading) (l : Lexeme) (place : Place) : Reading :=
  let d := r.frame.draft.append l.token.text l.gap
  ⟨.fresh place, { r.frame with draft := { d with slot := .hole } } :: r.outer⟩

/-- Close the innermost bracket and put the operand that it completes into the frame around it. -/
def closeBracket (r : Reading) (l : Lexeme) (slot? : Option Slot) : Option Reading :=
  match slot?, r.outer with
  | some slot, f :: outer =>
    let d := (f.draft.append r.frame.text "").append l.token.text l.gap
    some ⟨{ f with draft := { d with slot } }, outer⟩
  | _, _ => none

/-- What a token does, unless it is refused. -/
def step (r : Reading) (l : Lexeme) : Option Reading :=
  match l.token with
  | .name text => r.operand l (.name text)
  | .var text => r.operand l (.var text)
  | .number text => r.operand l (.number text)
  | .symbol text => r.operand l (.symbol text)
  | .operator op => some (r.operator l op)
  | .openParen =>
    match r.frame.draft.slot with
    | .hole => some (r.openBracket l .tuple)
    | .name text => some (r.openBracket l (.args text))
    | _ => none
  | .openBracket =>
    if r.frame.draft.slot.isHole then some (r.openBracket l .elements) else none
  | .closeParen => r.closeBracket l r.frame.closeParen?
  | .closeBracket => r.closeBracket l r.frame.closeBracket?
  | .comma =>
    if r.frame.allowsComma then some { r with frame := r.frame.nextExpression l.gap } else none
  | .bar =>
    match r.frame.place with
    | .elements =>
      some { r with
        frame := { Frame.fresh (.tail r.frame.expressions) with
          before := r.frame.text ++ "|" ++ l.gap } }
    | _ => none

/-- Read tokens until one is refused, and count the characters that were read. -/
def run (goal : Goal) (r : Reading) (position : Nat) :
    List Lexeme → Except SyntaxFault (Reading × Nat)
  | [] => .ok (r, position)
  | l :: ls =>
    match r.step l with
    | none => .error (r.fault goal position)
    | some r' => run goal r' (position + l.length) ls

theorem run_append (goal : Goal) (r : Reading) (position : Nat) (ls ms : List Lexeme) :
    run goal r position (ls ++ ms) =
      (run goal r position ls).bind fun s => run goal s.1 s.2 ms := by
  induction ls generalizing r position with
  | nil => rfl
  | cons l ls ih =>
    simp only [List.cons_append, run]
    cases r.step l with
    | none => rfl
    | some r' => exact ih r' _

end Reading

namespace Grammar

def readFrame (goal : Goal) (text : List Char) : Except SyntaxFault Frame :=
  let tokens := Lexeme.scan (text.dropWhile Text.isBlank)
  match Reading.run goal (.start goal) (text.takeWhile Text.isBlank).length tokens.1 with
  | .error fault => .error fault
  | .ok (r, position) =>
    if tokens.2.isEmpty && r.outer.isEmpty then .ok r.frame else .error (r.fault goal position)

def readTerm (text : List Char) : Except SyntaxFault Expression :=
  (readFrame .term text).map fun frame => frame.draft.finish

/-- Read a text as expressions with a comma between any two of them. -/
def readSequence (text : List Char) : Except SyntaxFault (List Expression) :=
  (readFrame .sequence text).map Frame.expressions

end Grammar

end HornClauses
