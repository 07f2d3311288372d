import HornClauses.Expression.Reading
import HornClauses.Proofs.TokenForm

/-!
# The form of expressions

An expression is written with certain tokens, and the grammar reads only expressions of a certain
form: a compound has arguments, and brackets that hold nothing are the empty list. The texts that an
expression carries serve error messages and can be erased.

* `Expression.tokens`: the tokens that an expression is written with.
* `Expression.WellFormed`: what the grammar reads.
* `Expression.erase`: an expression without its texts.
-/

namespace HornClauses

/-! ## Tokens -/

mutual

/-- The tokens that a slot is written with. -/
def Slot.tokens : Slot → List Token
  | .hole => []
  | .name text => [.name text]
  | .var text => [.var text]
  | .number text => [.number text]
  | .symbol text => [.symbol text]
  | .compound name args =>
    .name name :: .openParen :: (Expression.tokensOfList args ++ [.closeParen])
  | .list elements => .openBracket :: (Expression.tokensOfList elements ++ [.closeBracket])
  | .listWithTail elements tail =>
    .openBracket :: (Expression.tokensOfList elements ++
      .bar :: (Expression.tokens tail ++ [.closeBracket]))
  | .tuple components => .openParen :: (Expression.tokensOfList components ++ [.closeParen])
termination_by structural slot => slot

def Expression.tokens : Expression → List Token
  | .chain _ links last => Expression.tokensOfLinks links ++ Slot.tokens last
termination_by structural e => e

/-- The tokens of expressions with a comma between any two of them. -/
def Expression.tokensOfList : List Expression → List Token
  | [] => []
  | [e] => Expression.tokens e
  | e :: f :: es => Expression.tokens e ++ .comma :: Expression.tokensOfList (f :: es)
termination_by structural es => es

/-- The tokens of slots with the operators after them. -/
def Expression.tokensOfLinks : List (Slot × Operator) → List Token
  | [] => []
  | (slot, op) :: links => Slot.tokens slot ++ .operator op :: Expression.tokensOfLinks links
termination_by structural links => links

end

namespace Expression

theorem tokensOfList_cons {es : List Expression} (hes : es ≠ []) (e : Expression) :
    tokensOfList (e :: es) = e.tokens ++ .comma :: tokensOfList es := by
  cases es with
  | nil => exact absurd rfl hes
  | cons f es => rw [tokensOfList]

theorem tokensOfList_append {es fs : List Expression} (hes : es ≠ []) (hfs : fs ≠ []) :
    tokensOfList (es ++ fs) = tokensOfList es ++ .comma :: tokensOfList fs := by
  induction es with
  | nil => exact absurd rfl hes
  | cons e es ih =>
    cases es with
    | nil => rw [List.singleton_append, tokensOfList_cons hfs, tokensOfList]
    | cons f es =>
      have hne : f :: es ≠ [] := by simp
      have hne' : f :: es ++ fs ≠ [] := by simp
      rw [List.cons_append, tokensOfList_cons hne', ih hne, tokensOfList_cons hne,
        List.append_assoc, List.cons_append]

end Expression

/-! ## What the grammar reads -/

mutual

inductive Slot.WellFormed : Slot → Prop where
  | hole : Slot.WellFormed .hole
  | name {text : String} : Token.IsName text → Slot.WellFormed (.name text)
  | var {text : String} : Token.IsVariable text → Slot.WellFormed (.var text)
  | number {text : String} : Token.IsNumber text → Slot.WellFormed (.number text)
  | symbol {text : String} : Token.IsSymbol text → Slot.WellFormed (.symbol text)
  | compound {name : String} {args : List Expression} : Token.IsName name → args ≠ [] →
    (∀ e ∈ args, Expression.WellFormed e) → Slot.WellFormed (.compound name args)
  | nil : Slot.WellFormed (.list [])
  | list {elements : List Expression} : Expression.tokensOfList elements ≠ [] →
    (∀ e ∈ elements, Expression.WellFormed e) → Slot.WellFormed (.list elements)
  | listWithTail {elements : List Expression} {tail : Expression} : elements ≠ [] →
    (∀ e ∈ elements, Expression.WellFormed e) → Expression.WellFormed tail →
    Slot.WellFormed (.listWithTail elements tail)
  | tuple {components : List Expression} : components ≠ [] →
    (∀ e ∈ components, Expression.WellFormed e) → Slot.WellFormed (.tuple components)

inductive Expression.WellFormed : Expression → Prop where
  | chain {text : String} {links : List (Slot × Operator)} {last : Slot} :
    (∀ link ∈ links, Slot.WellFormed link.1) → Slot.WellFormed last →
    Expression.WellFormed (.chain text links last)

end

/-! ## Expressions without their texts -/

mutual

def Slot.erase : Slot → Slot
  | .compound name args => .compound name (Expression.eraseList args)
  | .list elements => .list (Expression.eraseList elements)
  | .listWithTail elements tail =>
    .listWithTail (Expression.eraseList elements) (Expression.erase tail)
  | .tuple components => .tuple (Expression.eraseList components)
  | slot => slot
termination_by structural slot => slot

/-- An expression without its text and those inside it. -/
def Expression.erase : Expression → Expression
  | .chain _ links last => .chain "" (Expression.eraseLinks links) (Slot.erase last)
termination_by structural e => e

def Expression.eraseList : List Expression → List Expression
  | [] => []
  | e :: es => Expression.erase e :: Expression.eraseList es
termination_by structural es => es

def Expression.eraseLinks : List (Slot × Operator) → List (Slot × Operator)
  | [] => []
  | (slot, op) :: links => (Slot.erase slot, op) :: Expression.eraseLinks links
termination_by structural links => links

end

namespace Expression

theorem eraseList_append (es fs : List Expression) :
    eraseList (es ++ fs) = eraseList es ++ eraseList fs := by
  induction es with
  | nil => simp [eraseList]
  | cons e es ih => simp [eraseList, ih]

theorem eraseLinks_append (links more : List (Slot × Operator)) :
    eraseLinks (links ++ more) = eraseLinks links ++ eraseLinks more := by
  induction links with
  | nil => simp [eraseLinks]
  | cons link links ih =>
    obtain ⟨slot, op⟩ := link
    simp [eraseLinks, ih]

end Expression

end HornClauses
