import HornClauses.Operator

/-!
# Expressions

What the grammar reads from a text, before operators are resolved. An expression is a chain of slots
with an operator between any two of them. A slot holds an operand or is a hole, so that an operator
without an operand can be blamed by name. Holes are no error yet.
-/

namespace HornClauses

mutual

/-- A place for an operand. -/
inductive Slot where
  | hole
  | name (text : String)
  | var (text : String)
  | number (text : String)
  | symbol (text : String)
  | compound (name : String) (args : List Expression)
  | list (elements : List Expression)
  | listWithTail (elements : List Expression) (tail : Expression)
  | tuple (components : List Expression)

/-- Slots with an operator after each but the last, and the text that was read for them. -/
inductive Expression where
  | chain (text : String) (links : List (Slot × Operator)) (last : Slot)

end

instance : Inhabited Slot := ⟨.hole⟩

instance : Inhabited Expression := ⟨.chain "" [] .hole⟩

def Slot.isHole : Slot → Bool
  | hole => true
  | _ => false

namespace Expression

def text : Expression → String
  | chain text _ _ => text

def operators : Expression → List Operator
  | chain _ links _ => links.map Prod.snd

def slots : Expression → List Slot
  | chain _ links last => links.map Prod.fst ++ [last]

/-- There is one more slot than there are operators. -/
theorem length_slots (e : Expression) : e.slots.length = e.operators.length + 1 := by
  cases e
  simp [slots, operators]

end Expression

end HornClauses
