import HornClauses.Term

/-!
# Lists and tuples as terms

A list literal becomes a chain of cells named `.`, one cell for each element. Two conventions exist
for the end of a list without an explicit tail, and `ListStyle` names them. A tuple becomes pairs
that nest to the right.

* `ListStyle.list_append`: a list whose tail is a list is the list of all elements.
-/

namespace HornClauses

/-- How a list without an explicit tail ends. -/
inductive ListStyle where
  /-- The last cell holds one argument, and a last element that is itself a cell is the last cell. -/
  | legacy
  /-- The last cell holds the last element and the empty list. -/
  | canonical
  deriving DecidableEq, Inhabited

namespace ListStyle

/-- The cell that ends a list without an explicit tail. -/
def lastCell : ListStyle → Term → Term
  | legacy, last => if last.isCell then last else .cell [last]
  | canonical, last => .cell [last, .nil]

/-- The term of a list literal. The empty list has no use for a tail. -/
def list (style : ListStyle) : List Term → Option Term → Term
  | [], _ => .nil
  | [last], some tail => .cell [last, tail]
  | [last], none => style.lastCell last
  | first :: second :: rest, tail => .cell [first, style.list (second :: rest) tail]

theorem list_append (style : ListStyle) {ts us : List Term} (hts : ts ≠ []) (hus : us ≠ [])
    (tail : Option Term) :
    style.list (ts ++ us) tail = style.list ts (some (style.list us tail)) := by
  induction ts with
  | nil => exact absurd rfl hts
  | cons t ts ih =>
    cases ts with
    | nil =>
      cases us with
      | nil => exact absurd rfl hus
      | cons u us => simp [list]
    | cons t' ts =>
      have := ih (by simp)
      simp only [List.cons_append, list] at this ⊢
      rw [this]

end ListStyle

/-- The term of a tuple literal: pairs that nest to the right, or the single component itself. -/
def Term.tuple : List Term → Term
  | [] => .compound pairName []
  | [t] => t
  | t :: u :: rest => .pair t (Term.tuple (u :: rest))

end HornClauses
