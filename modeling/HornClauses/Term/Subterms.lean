import HornClauses.Term

/-!
# The subterms of a term in order

A term comes before its arguments and the arguments from left to right. `Term.preorder` is that
order by recursion on the term; `Walk` visits the same nodes one at a time and keeps the terms it
has still to enter on a stack.

* `Walk.next_nil`, `Walk.next_cons`: one step of a walk.
* `Walk.weight_next`: each step leaves fewer nodes to visit, so a walk ends.
-/

namespace HornClauses

/-! ## Recursive order -/

namespace Term

mutual

/-- A term and all its subterms, parents before children. -/
def preorder : Term → List Term
  | atom n => [atom n]
  | var n => [var n]
  | compound n ts => compound n ts :: preorderList ts

def preorderList : List Term → List Term
  | [] => []
  | t :: ts => preorder t ++ preorderList ts

end

def names (t : Term) : List String := t.preorder.map name

theorem preorderList_append (ts us : List Term) :
    preorderList (ts ++ us) = preorderList ts ++ preorderList us := by
  induction ts with
  | nil => rfl
  | cons t ts ih => simp [preorderList, ih]

theorem preorder_eq (t : Term) : t.preorder = t :: preorderList t.args := by
  cases t <;> rfl

end Term

namespace Predicate

/-- The name of a predicate and of all subterms of its arguments in order. -/
def names (p : Predicate) : List String :=
  p.name :: p.args.flatMap Term.names

end Predicate

namespace Clause

def names (c : Clause) : List String := c.parts.flatMap Predicate.names

end Clause

/-! ## Step by step -/

/-- The terms that a walk has still to enter, the next one first. -/
structure Walk where
  pending : List Term

namespace Walk

def start (t : Term) : Walk := ⟨[t]⟩

/-- Enter the next term and put its arguments in front of what is pending. -/
def next (w : Walk) : Option (Term × Walk) :=
  match w.pending with
  | [] => none
  | t :: rest => some (t, ⟨t.args ++ rest⟩)

/-- How many nodes a walk has still to visit. -/
def weight (w : Walk) : Nat := (Term.preorderList w.pending).length

@[simp] theorem next_nil : next ⟨[]⟩ = none := rfl

@[simp] theorem next_cons (t : Term) (rest : List Term) :
    next ⟨t :: rest⟩ = some (t, ⟨t.args ++ rest⟩) := rfl

theorem weight_next {w w' : Walk} {t : Term} (h : w.next = some (t, w')) :
    w.weight = w'.weight + 1 := by
  obtain ⟨pending⟩ := w
  cases pending with
  | nil => simp at h
  | cons u rest =>
    simp only [next_cons, Option.some.injEq, Prod.mk.injEq] at h
    obtain ⟨rfl, rfl⟩ := h
    simp only [weight, Term.preorderList, Term.preorder_eq u, Term.preorderList_append,
      List.cons_append, List.length_cons, List.length_append]

def terms (w : Walk) : List Term :=
  match _h : w.next with
  | none => []
  | some (t, w') => t :: w'.terms
termination_by w.weight
decreasing_by
  have := weight_next ‹_›
  omega

/-- How many terms are pending before each step of a walk, the last one of which finds none. -/
def sizes (w : Walk) : List Nat :=
  match _h : w.next with
  | none => [w.pending.length]
  | some (_, w') => w.pending.length :: w'.sizes
termination_by w.weight
decreasing_by
  have := weight_next ‹_›
  omega

end Walk

end HornClauses
