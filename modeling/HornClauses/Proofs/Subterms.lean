import HornClauses.Term.Subterms

/-!
# Induction on terms, and their subterms

A property holds of all terms if it passes from the arguments of each term to the term. A walk
enters the subterms of a term in the same order as the recursion on the term.

* `Term.induct`: induction on terms with a hypothesis for each argument.
* `Term.mem_preorder`: the subterms of a term are the term and those of its arguments.
* `Term.map_preorder`, `Term.names_eq`: what stands at the nodes, argument by argument.
* `Walk.induct`: induction on the steps that a walk has still to take.
* `Walk.terms_start`: a walk enters the subterms in order.
-/

namespace HornClauses

namespace Term

@[elab_as_elim]
theorem induct {motive : Term → Prop} (atom : ∀ name, motive (.atom name))
    (var : ∀ name, motive (.var name))
    (compound : ∀ name args, (∀ t ∈ args, motive t) → motive (.compound name args)) (t : Term) :
    motive t :=
  @Term.rec motive (fun ts => ∀ t ∈ ts, motive t) atom var compound (by simp)
    (fun _ _ ht hts => List.forall_mem_cons.2 ⟨ht, hts⟩) t

/-- Induction on terms, the same for all kinds of terms. -/
@[elab_as_elim]
theorem induct_args {motive : Term → Prop} (step : ∀ t, (∀ v ∈ t.args, motive v) → motive t)
    (t : Term) : motive t := by
  induction t using induct with
  | atom name => exact step _ (by simp [args])
  | var name => exact step _ (by simp [args])
  | compound name ts ih => exact step _ ih

theorem mem_preorderList {u : Term} {ts : List Term} :
    u ∈ preorderList ts ↔ ∃ t ∈ ts, u ∈ t.preorder := by
  induction ts with
  | nil => simp [preorderList]
  | cons t ts ih => simp [preorderList, ih]

theorem mem_preorder {t u : Term} : u ∈ t.preorder ↔ u = t ∨ ∃ v ∈ t.args, u ∈ v.preorder := by
  rw [preorder_eq, List.mem_cons, mem_preorderList]

theorem self_mem_preorder (t : Term) : t ∈ t.preorder := by
  rw [preorder_eq]
  exact List.mem_cons_self

/-- What holds of all subterms of a term holds of it and of all subterms of its arguments. -/
theorem forall_mem_preorder {t : Term} {p : Term → Prop} :
    (∀ u ∈ t.preorder, p u) ↔ p t ∧ ∀ v ∈ t.args, ∀ u ∈ v.preorder, p u := by
  constructor
  · intro h
    exact ⟨h t t.self_mem_preorder, fun v hv u hu => h u (mem_preorder.2 (Or.inr ⟨v, hv, hu⟩))⟩
  · rintro ⟨ht, hargs⟩ u hu
    rcases mem_preorder.1 hu with rfl | ⟨v, hv, hu⟩
    · exact ht
    · exact hargs v hv u hu

theorem map_preorder {α : Type} (f : Term → α) (t : Term) :
    t.preorder.map f = f t :: t.args.flatMap fun v => v.preorder.map f := by
  have hlist : ∀ ts : List Term,
      (preorderList ts).map f = ts.flatMap fun v => v.preorder.map f := by
    intro ts
    induction ts with
    | nil => rfl
    | cons t ts ih => rw [preorderList, List.map_append, ih, List.flatMap_cons]
  rw [preorder_eq, List.map_cons, hlist]

theorem names_eq (t : Term) : t.names = t.name :: t.args.flatMap names := map_preorder name t

end Term

theorem Predicate.names_toTerm (p : Predicate) : p.toTerm.names = p.names := p.toTerm.names_eq

namespace Walk

/-- Induction on walks: a walk that is not at its end has one step fewer to take after a step. -/
@[elab_as_elim]
theorem induct {motive : Walk → Prop} (nil : motive ⟨[]⟩)
    (cons : ∀ t rest, motive ⟨t.args ++ rest⟩ → motive ⟨t :: rest⟩) (w : Walk) : motive w := by
  induction hn : w.weight using Nat.strongRecOn generalizing w with
  | ind n ih =>
    obtain ⟨pending⟩ := w
    cases pending with
    | nil => exact nil
    | cons t rest =>
      refine cons t rest (ih _ ?_ _ rfl)
      have := weight_next (next_cons t rest)
      omega

theorem terms_nil : terms ⟨[]⟩ = [] := by
  rw [terms]
  rfl

theorem terms_cons (t : Term) (rest : List Term) :
    terms ⟨t :: rest⟩ = t :: terms ⟨t.args ++ rest⟩ := by
  rw [terms]
  rfl

theorem terms_eq (w : Walk) : w.terms = Term.preorderList w.pending := by
  induction w using induct with
  | nil => rw [terms_nil, Term.preorderList]
  | cons t rest ih =>
    rw [terms_cons, ih, Term.preorderList, Term.preorder_eq, Term.preorderList_append,
      List.cons_append]

theorem terms_start (t : Term) : (start t).terms = t.preorder := by
  rw [terms_eq, start, Term.preorderList, Term.preorderList, List.append_nil]

end Walk

end HornClauses
