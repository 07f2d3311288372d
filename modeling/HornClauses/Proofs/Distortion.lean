import HornClauses.Expression.Chain
import HornClauses.Proofs.Subterms
import HornClauses.Term.Listing
import Mathlib.Algebra.GroupWithZero.Nat
import Mathlib.Algebra.Order.BigOperators.Group.List
import Mathlib.Algebra.Order.Group.Nat

/-!
# What writing a term loses

The surface form writes operations without parentheses on the right, and a chain of cells without
the empty list that ends it. The first makes a text that is not read when the operations stand
against the order of the table; the second makes a list that ends in the way of the list style.

* `Term.isDisordered`: an operation whose right argument should have been split at first.
* `Term.endsEmpty`: a cell before the empty list.
* `Term.reread`: the term with the end of every list in the way of the list style.
* `Term.reread_canonical`, `Term.reread_legacy_eq_self_iff`: when that is the term itself.
-/

namespace HornClauses

theorem map_eq_self_iff {α : Type} {f : α → α} {l : List α} : l.map f = l ↔ ∀ a ∈ l, f a = a := by
  have hinj : l.map f = l.map id ↔ ∀ a ∈ l, f a = id a := List.map_inj_left
  rwa [List.map_id] at hinj

namespace Term

/-! ## Order -/

/-- The standard operator that a predicate of two arguments is named after. -/
def operator? : Term → Option Operator
  | compound name [_, _] =>
    if name ∈ OperatorTable.standard.entries.map OperatorEntry.name then Operator.ofToken? name
    else none
  | _ => none

/-- Is a term an operation on another one whose operator comes first in the table? -/
def isDisordered : Term → Bool
  | compound name [left, right] =>
    match (compound name [left, right]).operator?, right.operator? with
    | some own, some inner =>
      OperatorTable.standard.rank inner < OperatorTable.standard.rank own
    | _, _ => false
  | _ => false

/-- Does no operation in a term stand against the order of the table? -/
def IsOrdered (t : Term) : Prop := ∀ u ∈ t.preorder, u.isDisordered = false

theorem isOrdered_compound {name : String} {args : List Term} :
    (compound name args).IsOrdered ↔
      (compound name args).isDisordered = false ∧ ∀ t ∈ args, t.IsOrdered :=
  forall_mem_preorder

theorem isOrdered_atom (name : String) : (atom name).IsOrdered :=
  forall_mem_preorder.2 ⟨rfl, by simp [args]⟩

theorem isOrdered_var (name : String) : (var name).IsOrdered :=
  forall_mem_preorder.2 ⟨rfl, by simp [args]⟩

theorem isDisordered_of_operator? {t : Term} (h : t.operator? = none) : t.isDisordered = false := by
  unfold isDisordered
  split
  · rw [h]
  · rfl

theorem isOrdered_of_operator? {name : String} {args : List Term}
    (h : (compound name args).operator? = none) :
    (compound name args).IsOrdered ↔ ∀ t ∈ args, t.IsOrdered := by
  rw [isOrdered_compound]
  exact and_iff_right (isDisordered_of_operator? h)

/-! ## Ends of lists -/

/-- Is a term a cell before the empty list? -/
def endsEmpty : Term → Bool
  | compound name [_, compound last []] => name = cellName && last = cellName
  | _ => false

theorem endsEmpty_iff {t : Term} : t.endsEmpty = true ↔ ∃ x, t = cell [x, nil] := by
  unfold endsEmpty
  split
  · rename_i name x last
    simp [cell, nil]
  · rename_i h
    simp only [Bool.false_eq_true, false_iff]
    rintro ⟨x, rfl⟩
    exact h cellName x cellName rfl

mutual

/-- The term with the end of every list in the way of the list style. -/
def reread (style : ListStyle) : Term → Term
  | atom name => atom name
  | var name => var name
  | compound name args =>
    if (compound name args).endsEmpty then style.lastCell ((rereadList style args).headD nil)
    else compound name (rereadList style args)
termination_by structural t => t

def rereadList (style : ListStyle) : List Term → List Term
  | [] => []
  | t :: ts => reread style t :: rereadList style ts
termination_by structural ts => ts

end

variable {style : ListStyle}

theorem rereadList_eq_map (ts : List Term) : rereadList style ts = ts.map (reread style) := by
  induction ts with
  | nil => rfl
  | cons t ts ih => rw [rereadList, ih, List.map_cons]

theorem reread_atom (name : String) : (atom name).reread style = atom name := by
  rw [reread]

theorem reread_var (name : String) : (var name).reread style = var name := by
  rw [reread]

theorem reread_compound {name : String} {args : List Term}
    (h : (compound name args).endsEmpty = false) :
    (compound name args).reread style = compound name (args.map (reread style)) := by
  rw [reread, h, rereadList_eq_map]
  rfl

theorem reread_cell_nil (x : Term) :
    (cell [x, nil]).reread style = style.lastCell (x.reread style) := by
  have hempty : (compound cellName [x, nil]).endsEmpty = true := rfl
  rw [cell, reread, hempty, rereadList]
  rfl

theorem reread_nil : nil.reread style = nil := reread_compound rfl

theorem isCell_iff {t : Term} : t.isCell = true ↔ ∃ args, t = cell args := by
  cases t <;> simp [isCell, cell]

theorem isCell_lastCell (style : ListStyle) (t : Term) : (style.lastCell t).isCell = true := by
  cases style with
  | legacy =>
    rw [ListStyle.lastCell]
    split
    · assumption
    · rfl
  | canonical => rfl

theorem isCell_reread (t : Term) : (t.reread style).isCell = t.isCell := by
  cases t with
  | atom name => rw [reread_atom]
  | var name => rw [reread_var]
  | compound name args =>
    cases h : (compound name args).endsEmpty with
    | true =>
      obtain ⟨x, hx⟩ := endsEmpty_iff.1 h
      rw [hx, reread_cell_nil, isCell_lastCell, isCell_cell]
    | false =>
      rw [reread_compound h]
      rfl

/-! ## Terms that stay the same -/

theorem reread_eq_self {t : Term} (h : ∀ u ∈ t.preorder, u.endsEmpty = false) :
    t.reread style = t := by
  induction t using induct with
  | atom name => exact reread_atom name
  | var name => exact reread_var name
  | compound name args ih =>
    obtain ⟨hself, hargs⟩ := forall_mem_preorder.1 h
    rw [reread_compound hself, map_eq_self_iff.2 fun t ht => ih t ht (hargs t ht)]

/-- Canonical lists end with an explicit empty list. -/
theorem reread_canonical (t : Term) : t.reread .canonical = t := by
  induction t using induct with
  | atom name => exact reread_atom name
  | var name => exact reread_var name
  | compound name args ih =>
    cases h : (compound name args).endsEmpty with
    | true =>
      obtain ⟨x, hx⟩ := endsEmpty_iff.1 h
      have hmem : x ∈ args := by
        cases hx
        exact List.mem_cons_self
      rw [hx, reread_cell_nil, ih x hmem]
      rfl
    | false => rw [reread_compound h, map_eq_self_iff.2 ih]

/-! ## Legacy lists shrink -/

def nodeCount (t : Term) : Nat := t.preorder.length

theorem nodeCount_compound (name : String) (args : List Term) :
    (compound name args).nodeCount = (args.map nodeCount).sum + 1 := by
  have hlist : ∀ ts : List Term, (preorderList ts).length = (ts.map nodeCount).sum := by
    intro ts
    induction ts with
    | nil => rfl
    | cons t ts ih =>
      rw [preorderList, List.length_append, ih, List.map_cons, List.sum_cons, nodeCount]
  rw [nodeCount, preorder, List.length_cons, hlist]

theorem nodeCount_cell_nil (x : Term) : (cell [x, nil]).nodeCount = x.nodeCount + 2 := by
  rw [cell, nodeCount_compound]
  rfl

theorem nodeCount_lastCell_legacy (t : Term) :
    (ListStyle.legacy.lastCell t).nodeCount ≤ t.nodeCount + 1 := by
  rw [ListStyle.lastCell]
  split
  · omega
  · rw [cell, nodeCount_compound]
    simp

theorem nodeCount_reread_le (t : Term) : (t.reread .legacy).nodeCount ≤ t.nodeCount := by
  induction t using induct with
  | atom name => rw [reread_atom]
  | var name => rw [reread_var]
  | compound name args ih =>
    cases h : (compound name args).endsEmpty with
    | true =>
      obtain ⟨x, hx⟩ := endsEmpty_iff.1 h
      have hmem : x ∈ args := by
        cases hx
        exact List.mem_cons_self
      have hlast := nodeCount_lastCell_legacy (x.reread .legacy)
      have hle := ih x hmem
      rw [hx, reread_cell_nil, nodeCount_cell_nil]
      omega
    | false =>
      have hsum : ((args.map (reread .legacy)).map nodeCount).sum ≤ (args.map nodeCount).sum := by
        rw [List.map_map]
        exact List.sum_le_sum ih
      rw [reread_compound h, nodeCount_compound, nodeCount_compound]
      omega

/-- Each legacy list with an explicit empty list at its end loses nodes. -/
theorem nodeCount_reread_lt {t : Term} (h : ∃ u ∈ t.preorder, u.endsEmpty = true) :
    (t.reread .legacy).nodeCount < t.nodeCount := by
  induction t using induct with
  | atom name =>
    obtain ⟨u, hu, hempty⟩ := h
    rw [List.mem_singleton.1 hu] at hempty
    cases hempty
  | var name =>
    obtain ⟨u, hu, hempty⟩ := h
    rw [List.mem_singleton.1 hu] at hempty
    cases hempty
  | compound name args ih =>
    cases hself : (compound name args).endsEmpty with
    | true =>
      obtain ⟨x, hx⟩ := endsEmpty_iff.1 hself
      have hlast := nodeCount_lastCell_legacy (x.reread .legacy)
      have hle := nodeCount_reread_le x
      rw [hx, reread_cell_nil, nodeCount_cell_nil]
      omega
    | false =>
      obtain ⟨u, hu, hempty⟩ := h
      rcases mem_preorder.1 hu with rfl | ⟨v, hv, hu⟩
      · rw [hself] at hempty
        cases hempty
      · have hsum : ((args.map (reread .legacy)).map nodeCount).sum < (args.map nodeCount).sum := by
          rw [List.map_map]
          exact List.sum_lt_sum _ _ (fun t _ => nodeCount_reread_le t)
            ⟨v, hv, ih v hv ⟨u, hu, hempty⟩⟩
        rw [reread_compound hself, nodeCount_compound, nodeCount_compound]
        omega

theorem reread_legacy_ne {t : Term} (h : ∃ u ∈ t.preorder, u.endsEmpty = true) :
    t.reread .legacy ≠ t := by
  intro heq
  have hlt := nodeCount_reread_lt h
  rw [heq] at hlt
  omega

theorem reread_legacy_eq_self_iff {t : Term} :
    t.reread .legacy = t ↔ ∀ u ∈ t.preorder, u.endsEmpty = false := by
  constructor
  · intro heq u hu
    rw [← Bool.not_eq_true]
    intro hempty
    exact reread_legacy_ne ⟨u, hu, hempty⟩ heq
  · exact reread_eq_self

theorem reread_eq_compound (style : ListStyle) (name : String) (args : List Term) :
    ∃ name' args', (compound name args).reread style = compound name' args' := by
  cases h : (compound name args).endsEmpty with
  | true =>
    obtain ⟨x, hx⟩ := endsEmpty_iff.1 h
    obtain ⟨args', hcell⟩ := isCell_iff.1 (isCell_lastCell style (x.reread style))
    exact ⟨cellName, args', by rw [hx, reread_cell_nil, hcell, cell]⟩
  | false => exact ⟨name, _, reread_compound h⟩

end Term

/-! ## Predicates and clauses -/

namespace Predicate

def reread (style : ListStyle) (p : Predicate) : Predicate :=
  ⟨(p.toTerm.reread style).name, (p.toTerm.reread style).args⟩

theorem toTerm_reread (style : ListStyle) (p : Predicate) :
    (p.reread style).toTerm = p.toTerm.reread style := by
  obtain ⟨name, args, h⟩ := Term.reread_eq_compound style p.name p.args
  rw [toTerm, reread, toTerm, h]
  rfl

theorem eq_reread_iff {style : ListStyle} {p q : Predicate} :
    q = p.reread style ↔ q.toTerm = p.toTerm.reread style := by
  rw [← toTerm_reread]
  exact ⟨congrArg toTerm, toTerm_injective⟩

theorem reread_eq_self_iff {style : ListStyle} {p : Predicate} :
    p.reread style = p ↔ p.toTerm.reread style = p.toTerm := by
  rw [eq_comm, eq_reread_iff, eq_comm]

end Predicate

namespace Clause

def reread (style : ListStyle) (c : Clause) : Clause :=
  ⟨c.head.reread style, c.body.map (Predicate.reread style)⟩

theorem reread_eq_self_iff {style : ListStyle} {c : Clause} :
    c.reread style = c ↔ ∀ p ∈ c.parts, p.toTerm.reread style = p.toTerm := by
  obtain ⟨head, body⟩ := c
  simp only [reread, parts, Clause.mk.injEq, List.forall_mem_cons, map_eq_self_iff,
    Predicate.reread_eq_self_iff]

end Clause

/-- All terms in clauses: the heads, the goals, and the terms inside them. -/
def programTerms (cs : List Clause) : List Term :=
  cs.flatMap fun c => c.parts.flatMap fun p => p.toTerm.preorder

theorem forall_mem_programTerms {cs : List Clause} {P : Term → Prop} :
    (∀ t ∈ programTerms cs, P t) ↔ ∀ c ∈ cs, ∀ p ∈ c.parts, ∀ t ∈ p.toTerm.preorder, P t := by
  simp only [programTerms, List.forall_mem_flatMap]

theorem map_reread_canonical (cs : List Clause) : cs.map (Clause.reread .canonical) = cs :=
  map_eq_self_iff.2 fun _ _ => Clause.reread_eq_self_iff.2 fun p _ => p.toTerm.reread_canonical

theorem map_reread_legacy_eq_self_iff {cs : List Clause} :
    cs.map (Clause.reread .legacy) = cs ↔ ∀ t ∈ programTerms cs, t.endsEmpty = false := by
  simp only [map_eq_self_iff, forall_mem_programTerms, Clause.reread_eq_self_iff,
    Term.reread_legacy_eq_self_iff]

end HornClauses
