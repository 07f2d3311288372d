import HornClauses.Expression.Chain
import HornClauses.Proofs.Outcome
import Mathlib.Data.List.Basic

/-!
# When a chain of operators has a term

A chain resolves to a term when all its operators are listed, stand in the order of the table and
have an operand on either side. So the chain with one more operator in front resolves when the rest
does and no operator of the rest stands before the new one in the table.

* `OperatorTable.conflict?_eq_none_iff`: no conflict means that the ranks do not decrease.
* `OperatorTable.resolve_nil`, `OperatorTable.resolve_cons`: the term of a chain, link by link.
* `OperatorTable.Sound`, `OperatorTable.exists_resolve_iff`: which chains have a term.
* `OperatorTable.nest_eq_error_iff`: the operator that is blamed for a hole.
-/

namespace HornClauses.OperatorTable

variable {table : OperatorTable}

/-! ## Order -/

/-- The listed operators in check order. -/
def operators (table : OperatorTable) : List Operator := table.entries.map OperatorEntry.operator

theorem mem_operators_iff {op : Operator} : op ∈ table.operators ↔ (table.get? op).isSome :=
  (table.isSome_get?_iff op).symm

theorem rank_eq_idxOf (table : OperatorTable) (op : Operator) :
    table.rank op = table.operators.idxOf op := by
  rw [rank, priority?, ← List.findIdx_eq_getD_findIdx?, operators, List.idxOf, List.findIdx_map]
  rfl

/-- Two operators of the same rank are the same if one of them is listed. -/
theorem eq_of_rank_eq {op op' : Operator} (hop : op ∈ table.operators)
    (h : table.rank op = table.rank op') : op = op' := by
  rw [rank_eq_idxOf, rank_eq_idxOf] at h
  exact (List.idxOf_inj hop).1 h

theorem splitAt_mem (table : OperatorTable) (op : Operator) (ops : List Operator) :
    table.splitAt op ops ∈ op :: ops := by
  induction ops generalizing op with
  | nil => exact List.mem_cons_self
  | cons next rest ih =>
    rw [splitAt]
    split
    · exact List.mem_cons_of_mem op (ih next)
    · exact List.cons_subset_cons op (List.subset_cons_self next rest) (ih op)

/-- None of its operators stands before the one that a chain is split at. -/
theorem rank_splitAt_le (table : OperatorTable) (op : Operator) (ops : List Operator) :
    ∀ o ∈ op :: ops, table.rank (table.splitAt op ops) ≤ table.rank o := by
  induction ops generalizing op with
  | nil => simp [splitAt]
  | cons next rest ih =>
    simp only [List.forall_mem_cons] at ih ⊢
    rw [splitAt]
    split
    · rename_i hlt
      exact ⟨Nat.le_trans (ih next).1 (Nat.le_of_lt hlt), ih next⟩
    · rename_i hge
      exact ⟨(ih op).1, Nat.le_trans (ih op).1 (by omega), (ih op).2⟩

/-- A chain is split at its first operator when no other stands before that in the table. -/
theorem splitAt_eq_self_iff {op : Operator} {ops : List Operator} :
    table.splitAt op ops = op ↔ ∀ o ∈ ops, table.rank op ≤ table.rank o := by
  induction ops with
  | nil => simp [splitAt]
  | cons next rest ih =>
    rw [splitAt, List.forall_mem_cons]
    split
    · rename_i hlt
      constructor
      · intro heq
        have hle := rank_splitAt_le table next rest next List.mem_cons_self
        rw [heq] at hle
        exact absurd hlt (by omega)
      · intro h
        exact absurd hlt (by omega)
    · rename_i hge
      rw [ih]
      exact ⟨fun h => ⟨by omega, h⟩, fun h => h.2⟩

theorem conflict?_cons {op : Operator} {ops : List Operator} :
    table.conflict? (op :: ops) = none ↔
      (∀ o ∈ ops, table.rank op ≤ table.rank o) ∧ table.conflict? ops = none := by
  rw [conflict?, ← splitAt_eq_self_iff]
  split
  · rename_i h
    simp [h]
  · rename_i h
    simp [h]

/-- A chain has no conflict when its operators stand in the order of the table. -/
theorem conflict?_eq_none_iff {ops : List Operator} :
    table.conflict? ops = none ↔ ops.Pairwise fun op o => table.rank op ≤ table.rank o := by
  induction ops with
  | nil => simp [conflict?]
  | cons op ops ih => rw [conflict?_cons, List.pairwise_cons, ih]

/-! ## Operands -/

/-- The operator that would be blamed for a hole in front makes no difference to a success. -/
theorem nest_eq_ok_congr {left? left?' : Option Operator}
    {links : List (Option Term × Operator)} {last : Option Term} {t : Term} :
    table.nest left? links last = .ok t ↔ table.nest left?' links last = .ok t := by
  cases links with
  | nil => cases last <;> simp [nest]
  | cons link links =>
    obtain ⟨operand, op⟩ := link
    cases operand <;> simp [nest]

theorem nest_cons {left? : Option Operator} {operand : Option Term} {op : Operator}
    {links : List (Option Term × Operator)} {last : Option Term} {t : Term} :
    table.nest left? ((operand, op) :: links) last = .ok t ↔
      ∃ left right, operand = some left ∧ table.nest none links last = .ok right ∧
        .compound (table.nameOf op) [left, right] = t := by
  cases operand with
  | none => simp [nest]
  | some left =>
    rw [nest, map_eq_ok]
    constructor
    · rintro ⟨right, hright, rfl⟩
      exact ⟨left, right, rfl, nest_eq_ok_congr.1 hright, rfl⟩
    · rintro ⟨left', right, heq, hright, rfl⟩
      cases heq
      exact ⟨right, nest_eq_ok_congr.1 hright, rfl⟩

/-! ## Resolution -/

theorem resolve_eq_ok_iff {source text : String} {links : List (Option Term × Operator)}
    {last : Option Term} {t : Term} :
    table.resolve source text links last = .ok t ↔
      table.unlisted? (links.map Prod.snd) = none ∧ table.conflict? (links.map Prod.snd) = none ∧
        table.nest none links last = .ok t := by
  unfold resolve
  cases hu : table.unlisted? (links.map Prod.snd) with
  | some op => simp [hu]
  | none =>
    cases hc : table.conflict? (links.map Prod.snd) with
    | some ops => simp [hu, hc]
    | none => simp [hu, hc, mapError_eq_ok]

theorem resolve_nil {source text : String} {last : Option Term} {t : Term} :
    table.resolve source text [] last = .ok t ↔ last = some t := by
  cases last <;> simp [resolve_eq_ok_iff, unlisted?, conflict?, nest]

/-- The texts of a chain make no difference to a success. -/
theorem resolve_congr {source text : String} (source' text' : String)
    {links : List (Option Term × Operator)} {last : Option Term} {t : Term} :
    table.resolve source text links last = .ok t ↔
      table.resolve source' text' links last = .ok t := by
  rw [resolve_eq_ok_iff, resolve_eq_ok_iff]

theorem resolve_cons {source text : String} {operand : Option Term} {op : Operator}
    {links : List (Option Term × Operator)} {last : Option Term} {t : Term} :
    table.resolve source text ((operand, op) :: links) last = .ok t ↔
      (table.get? op).isSome ∧ (∀ o ∈ links.map Prod.snd, table.rank op ≤ table.rank o) ∧
        ∃ left right, operand = some left ∧ table.resolve source text links last = .ok right ∧
          .compound (table.nameOf op) [left, right] = t := by
  have hunlisted : table.unlisted? (op :: links.map Prod.snd) = none ↔
      (table.get? op).isSome ∧ table.unlisted? (links.map Prod.snd) = none := by
    rw [unlisted?, List.find?_cons]
    cases table.get? op <;> simp [unlisted?]
  rw [resolve_eq_ok_iff, List.map_cons, hunlisted, conflict?_cons, nest_cons]
  simp only [resolve_eq_ok_iff]
  constructor
  · rintro ⟨⟨hop, hu⟩, ⟨hle, hc⟩, left, right, hleft, hright, ht⟩
    exact ⟨hop, hle, left, right, hleft, ⟨hu, hc, hright⟩, ht⟩
  · rintro ⟨hop, hle, left, right, hleft, ⟨hu, hc, hright⟩, ht⟩
    exact ⟨⟨hop, hu⟩, ⟨hle, hc⟩, left, right, hleft, hright, ht⟩

/-! ## Which chains have a term -/

/-- Which slots of a chain are holes. -/
def holes (links : List (Option Term × Operator)) (last : Option Term) : List Bool :=
  links.map (fun link => link.1.isNone) ++ [last.isNone]

theorem holes_cons {operand : Option Term} {op : Operator}
    {links : List (Option Term × Operator)} {last : Option Term} :
    holes ((operand, op) :: links) last = operand.isNone :: holes links last := rfl

/-- What the operators and the holes of a chain have to be like for it to have a term. -/
structure Sound (table : OperatorTable) (ops : List Operator) (holes : List Bool) : Prop where
  listed : ∀ op ∈ ops, op ∈ table.operators
  ordered : (ops.map table.rank).Pairwise (· ≤ ·)
  filled : true ∉ holes

theorem unlisted?_eq_none_iff {ops : List Operator} :
    table.unlisted? ops = none ↔ ∀ op ∈ ops, op ∈ table.operators := by
  simp [unlisted?, mem_operators_iff, Option.isSome_iff_ne_none]

theorem exists_nest_iff {left? : Option Operator} {links : List (Option Term × Operator)}
    {last : Option Term} :
    (∃ t, table.nest left? links last = .ok t) ↔ true ∉ holes links last := by
  induction links generalizing left? with
  | nil => cases last <;> simp [nest, holes]
  | cons link links ih =>
    obtain ⟨operand, op⟩ := link
    simp only [nest_cons, holes_cons]
    cases operand with
    | none => simp
    | some left =>
      rw [List.mem_cons, not_or, ← @ih none]
      constructor
      · rintro ⟨t, left', right, -, hright, -⟩
        exact ⟨by simp, right, hright⟩
      · rintro ⟨-, right, hright⟩
        exact ⟨_, left, right, rfl, hright, rfl⟩

theorem exists_resolve_iff {source text : String} {links : List (Option Term × Operator)}
    {last : Option Term} :
    (∃ t, table.resolve source text links last = .ok t) ↔
      table.Sound (links.map Prod.snd) (holes links last) := by
  simp only [resolve_eq_ok_iff, exists_and_left, exists_nest_iff, unlisted?_eq_none_iff,
    conflict?_eq_none_iff]
  constructor
  · rintro ⟨hlisted, hordered, hfilled⟩
    exact ⟨hlisted, List.pairwise_map.2 hordered, hfilled⟩
  · rintro ⟨hlisted, hordered, hfilled⟩
    exact ⟨hlisted, List.pairwise_map.1 hordered, hfilled⟩

/-! ## Holes -/

/-- The operator that is blamed for a hole in this place: the one on its left, or in front of all
operators the one on its right. -/
def blamed (ops : List Operator) : Nat → Option Operator
  | 0 => ops.head?
  | i + 1 => ops[i]?

theorem nest_some_eq_error_iff {left : Operator} {links : List (Option Term × Operator)}
    {last : Option Term} {op? : Option Operator} :
    table.nest (some left) links last = .error op? ↔
      ∃ i, (holes links last).idxOf? true = some i ∧ (left :: links.map Prod.snd)[i]? = op? := by
  induction links generalizing left with
  | nil => cases last <;> simp [nest, holes, List.idxOf?_cons]
  | cons link links ih =>
    obtain ⟨operand, op⟩ := link
    rw [holes_cons, List.idxOf?_cons]
    cases operand with
    | none => simp [nest]
    | some operand =>
      rw [nest, map_eq_error, ih]
      simp

/-- The first hole of a chain is the one that is reported. -/
theorem nest_eq_error_iff {links : List (Option Term × Operator)} {last : Option Term}
    {op? : Option Operator} :
    table.nest none links last = .error op? ↔
      ∃ i, (holes links last).idxOf? true = some i ∧ blamed (links.map Prod.snd) i = op? := by
  cases links with
  | nil => cases last <;> simp [nest, holes, List.idxOf?_cons, blamed]
  | cons link links =>
    obtain ⟨operand, op⟩ := link
    rw [holes_cons, List.idxOf?_cons]
    cases operand with
    | none => simp [nest, blamed]
    | some operand =>
      rw [nest, map_eq_error, nest_some_eq_error_iff]
      simp [blamed]

/-! ## The standard table -/

theorem isSome_get?_standard (op : Operator) : (standard.get? op).isSome = true := by
  cases op <;> decide

theorem nameOf_standard_of_ne_div {op : Operator} (hop : op ≠ .div) :
    standard.nameOf op = op.token := by
  cases op <;> first | contradiction | decide

end HornClauses.OperatorTable
