import HornClauses.Proofs.Distortion
import HornClauses.Proofs.TokenForm
import HornClauses.Term.Surface
import Mathlib.Data.List.Basic

/-!
# The surface form, construct by construct

A name of the grammar is neither that of a cell, of a pair nor of an operation, so a compound with
such a name is written as a name before its arguments. A cell is written as one element more of the
list that its second argument is written as.

* `Term.surface_compound`, `Term.surface_pair`, `Term.surface_operation`: three kinds of compounds.
* `Term.surfaceCells_cell`, `Term.surfaceCells_tail`, `Term.surfaceCells_many`: kinds of cells.
-/

namespace HornClauses

/-! ## Names of the grammar -/

namespace Token.IsName

variable {name : String}

/-- A name begins with a letter, and an operator that does is a word. -/
theorem ne_of_notLetter (h : IsName name) {other : String}
    (ho : other.toList.head?.any Text.isLetter = false) : name ≠ other := by
  rintro rfl
  obtain ⟨c, w, ht, hl, -⟩ := h
  rw [ht, List.head?_cons, Option.any_some, hl] at ho
  cases ho

theorem ne_cellName (h : IsName name) : name ≠ cellName := h.ne_of_notLetter (by decide)

theorem ne_pairName (h : IsName name) : name ≠ pairName := h.ne_of_notLetter (by decide)

theorem isOperatorName_eq_false (h : IsName name) : Term.isOperatorName name = false := by
  obtain ⟨c, w, ht, hl, -, -, his, -⟩ := h
  have hall : ∀ d ∈ "+-*/\\<>=".toList, Text.isLetter d = false :=
    List.all_iff_forall_prop.1 rfl
  have hc : "+-*/\\<>=".toList.contains c = false := by
    rw [← Bool.not_eq_true, List.contains_iff_mem]
    intro hmem
    rw [hall c hmem] at hl
    cases hl
  rw [Term.isOperatorName, ht, List.all_cons, hc, Bool.false_and, Bool.and_false, Bool.or_false]
  exact decide_eq_false his

theorem not_mem_standard (h : IsName name) :
    name ∉ OperatorTable.standard.entries.map OperatorEntry.name := by
  have hall : ∀ n ∈ OperatorTable.standard.entries.map OperatorEntry.name,
      n = "is" ∨ n.toList.head?.any Text.isLetter = false := by decide
  intro hmem
  rcases hall name hmem with his | hletter
  · obtain ⟨-, -, -, -, -, -, hne, -⟩ := h
    exact hne his
  · exact h.ne_of_notLetter hletter rfl

end Token.IsName

namespace Term

/-! ## Operations -/

theorem operator?_compound {name : String}
    (h : name ∉ OperatorTable.standard.entries.map OperatorEntry.name) (args : List Term) :
    (compound name args).operator? = none := by
  unfold operator?
  split
  · rename_i heq
    cases heq
    exact if_neg h
  · rfl

theorem operator?_cell (args : List Term) : (cell args).operator? = none :=
  operator?_compound (by decide) args

theorem operator?_pair (left right : Term) : (pair left right).operator? = none :=
  operator?_compound (by decide) [left, right]

theorem operator?_operation {op : Operator} (hop : op ≠ .div) (left right : Term) :
    (compound op.token [left, right]).operator? = some op := by
  have hmem : op.token ∈ OperatorTable.standard.entries.map OperatorEntry.name := by
    cases op <;> first | contradiction | decide
  exact (if_pos hmem).trans (Operator.ofToken?_token op)

theorem isOperatorName_token {op : Operator} (hop : op ≠ .div) :
    isOperatorName op.token = true := by
  cases op <;> first | contradiction | decide

/-! ## Compounds -/

theorem surfaceArgs_eq_map (ts : List Term) : surfaceArgs ts = ts.map surface := by
  induction ts with
  | nil => rfl
  | cons t ts ih => rw [surfaceArgs, ih, List.map_cons]

theorem surface_of_name_ne_cell {name : String} (h : name ≠ cellName) (args : List Term) :
    (compound name args).surface = surfaceCompound name args := by
  rw [surface, if_neg h]

/-- A left operand, in parentheses if it is an operation. -/
def leftSurface (t : Term) : String :=
  if t.isOperation then "(" ++ t.surface ++ ")" else t.surface

theorem surfaceCompound_pair (name : String) (left right : Term) :
    surfaceCompound name [left, right] =
      if name = pairName then "(" ++ left.surface ++ ", " ++ right.surface ++ ")"
      else if isOperatorName name then left.leftSurface ++ " " ++ name ++ " " ++ right.surface
      else name ++ "(" ++ commaJoin ([left, right].map surface) ++ ")" := by
  rw [surfaceCompound, ← leftSurface]
  simp [commaJoin, String.append_assoc]

theorem surfaceCompound_applied (name : String) {args : List Term} (hne : args ≠ [])
    (hlength : args.length ≠ 2) :
    surfaceCompound name args = name ++ "(" ++ commaJoin (args.map surface) ++ ")" := by
  rw [← surfaceArgs_eq_map]
  match args with
  | [] => exact absurd rfl hne
  | [t] => rfl
  | [left, right] => exact absurd rfl hlength
  | t :: u :: v :: ts => rfl

theorem surface_compound {name : String} (h : Token.IsName name) {args : List Term}
    (hne : args ≠ []) :
    (compound name args).surface = name ++ "(" ++ commaJoin (args.map surface) ++ ")" := by
  rw [surface_of_name_ne_cell h.ne_cellName]
  by_cases hlength : args.length = 2
  · obtain ⟨left, right, rfl⟩ := List.length_eq_two.1 hlength
    rw [surfaceCompound_pair, if_neg h.ne_pairName, h.isOperatorName_eq_false,
      if_neg Bool.false_ne_true]
  · exact surfaceCompound_applied name hne hlength

theorem surface_pair (left right : Term) :
    (pair left right).surface = "(" ++ left.surface ++ ", " ++ right.surface ++ ")" := by
  have hcell : pairName ≠ cellName := by decide
  rw [pair, surface_of_name_ne_cell hcell, surfaceCompound_pair, if_pos rfl]

theorem surface_operation {op : Operator} (hop : op ≠ .div) (left right : Term) :
    (compound op.token [left, right]).surface =
      left.leftSurface ++ " " ++ op.token ++ " " ++ right.surface := by
  have hcell : op.token ≠ cellName := by cases op <;> decide
  have hpair : op.token ≠ pairName := by cases op <;> decide
  rw [surface_of_name_ne_cell hcell, surfaceCompound_pair, if_neg hpair,
    if_pos (isOperatorName_token hop)]

/-! ## Cells -/

theorem surface_cell (args : List Term) : (cell args).surface = surfaceCells [] args := by
  rw [cell, surface, if_pos rfl]

/-- A cell before another one is an element of the same list. -/
theorem surfaceCells_cell (before : List String) (first : Term) (args : List Term) :
    surfaceCells before [first, cell args] = surfaceCells (before ++ [first.surface]) args := by
  rw [cell, surfaceCells, if_pos rfl]

/-- A cell before any other term ends the list with a tail. -/
theorem surfaceCells_tail (before : List String) (first : Term) {tail : Term}
    (h : tail.isCell = false) :
    surfaceCells before [first, tail] = openCells (before ++ [first.surface]) tail.surface := by
  cases tail with
  | atom name => rw [surfaceCells, surface]
  | var name => rw [surfaceCells, surface]
  | compound name args =>
    have hname : name ≠ cellName := by simpa [isCell] using h
    rw [surfaceCells, if_neg hname, surface_of_name_ne_cell hname]

/-- A cell with more than two arguments is written alone, whatever comes before it. -/
theorem surfaceCells_many (before : List String) (x y z : Term) (ts : List Term) :
    surfaceCells before (x :: y :: z :: ts) =
      cellName ++ "(" ++ commaJoin ((x :: y :: z :: ts).map surface) ++ ")" := by
  rw [← surfaceArgs_eq_map, surfaceCells]
  · rfl
  all_goals simp

end Term

end HornClauses
