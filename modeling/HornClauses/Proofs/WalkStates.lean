import HornClauses.Proofs.Subterms

/-!
# The states of a walk

A walk takes the term from the top of its stack and puts the arguments of that term there, the last
of them first. What it has still to enter are the subterms of all pending terms, one term after the
other; a step takes the first of these away, so this is kept through a whole walk and leaves nothing
at its end. Each pending term is itself still to be entered, so there are never more pending terms
than steps to come.

* `Walk.next_eq_push`: one step, as what it does to the stack.
* `Walk.Visits.preorderList_pending`: what was entered and what is still to be entered.
* `Walk.visits_start`: a walk enters the subterms in order, and how many terms are pending then.
-/

namespace HornClauses

namespace Term

/-- Every term is the first of its subterms. -/
theorem length_le_length_preorderList (ts : List Term) :
    ts.length ≤ (preorderList ts).length := by
  induction ts with
  | nil => exact Nat.le_refl 0
  | cons t ts ih =>
    rw [preorderList, preorder_eq, List.cons_append, List.length_cons, List.length_cons,
      List.length_append]
    omega

theorem preorderList_eq_nil_iff {ts : List Term} : preorderList ts = [] ↔ ts = [] := by
  cases ts with
  | nil => simp [preorderList]
  | cons t ts => simp [preorderList, preorder_eq]

end Term

namespace Walk

/-! ## One step -/

/-- Put terms on the stack one at a time. -/
def push (w : Walk) (ts : List Term) : Walk := ts.foldl (fun w u => ⟨u :: w.pending⟩) w

theorem push_reverse (rest ts : List Term) : push ⟨rest⟩ ts.reverse = ⟨ts ++ rest⟩ := by
  rw [push, List.foldl_reverse]
  induction ts with
  | nil => rfl
  | cons t ts ih => rw [List.foldr_cons, ih, List.cons_append]

/-- The arguments are put on the stack from the last to the first. -/
theorem next_eq_push (t : Term) (rest : List Term) :
    next ⟨t :: rest⟩ = some (t, push ⟨rest⟩ t.args.reverse) := by
  rw [push_reverse, next_cons]

/-- A step takes the first away of what is still to be entered. -/
theorem preorderList_of_next {w w' : Walk} {t : Term} (h : w.next = some (t, w')) :
    Term.preorderList w.pending = t :: Term.preorderList w'.pending := by
  obtain ⟨pending⟩ := w
  cases pending with
  | nil => cases h
  | cons u rest =>
    cases h
    rw [Term.preorderList, Term.preorder_eq, Term.preorderList_append, List.cons_append]

/-! ## Many steps -/

/-- On the way from one state to another a walk enters these terms one after the other. -/
inductive Visits : Walk → List Term → Walk → Prop where
  | stay (w : Walk) : Visits w [] w
  | step {w w' w'' : Walk} {t : Term} {ts : List Term} : w.next = some (t, w') →
    Visits w' ts w'' → Visits w (t :: ts) w''

namespace Visits

variable {w w' : Walk} {ts us : List Term}

theorem preorderList_pending (h : Visits w ts w') :
    Term.preorderList w.pending = ts ++ Term.preorderList w'.pending := by
  induction h with
  | stay w => rfl
  | step hnext _ ih => rw [preorderList_of_next hnext, ih, List.cons_append]

/-- A walk passes through a state after each of the terms. -/
theorem split (h : Visits w (ts ++ us) w') : ∃ v, Visits w ts v ∧ Visits v us w' := by
  induction ts generalizing w with
  | nil => exact ⟨w, .stay w, h⟩
  | cons t ts ih =>
    cases h with
    | step hnext hrest =>
      obtain ⟨v, hts, hus⟩ := ih hrest
      exact ⟨v, .step hnext hts, hus⟩

end Visits

/-- A walk comes to its end, and before that it enters all that was still to be entered. -/
theorem visits_preorderList (w : Walk) : Visits w (Term.preorderList w.pending) ⟨[]⟩ := by
  induction w using induct with
  | nil => exact .stay _
  | cons t rest ih =>
    rw [preorderList_of_next (next_cons t rest)]
    exact .step (next_cons t rest) ih

/-! ## How many terms are pending -/

theorem sizes_nil : sizes ⟨[]⟩ = [0] := by
  rw [sizes]
  rfl

theorem sizes_cons (t : Term) (rest : List Term) :
    sizes ⟨t :: rest⟩ = (rest.length + 1) :: sizes ⟨t.args ++ rest⟩ := by
  rw [sizes]
  rfl

theorem length_sizes (w : Walk) :
    w.sizes.length = (Term.preorderList w.pending).length + 1 := by
  induction w using induct with
  | nil =>
    rw [sizes_nil]
    rfl
  | cons t rest ih =>
    rw [sizes_cons, List.length_cons, ih, preorderList_of_next (next_cons t rest),
      List.length_cons]

theorem Visits.getElem?_sizes {w w' : Walk} {ts : List Term} (h : Visits w ts w') :
    w.sizes[ts.length]? = some w'.pending.length := by
  induction h with
  | stay w =>
    obtain ⟨pending⟩ := w
    cases pending with
    | nil =>
      rw [sizes_nil]
      rfl
    | cons t rest =>
      rw [sizes_cons]
      rfl
  | @step w _ _ t _ hnext _ ih =>
    obtain ⟨pending⟩ := w
    cases pending with
    | nil => cases hnext
    | cons u rest =>
      cases hnext
      rw [sizes_cons, List.length_cons, List.getElem?_cons_succ, ih]

/-- The sizes are those of the states that a walk passes through, in order. -/
theorem getElem?_sizes_iff {w : Walk} {i n : Nat} :
    w.sizes[i]? = some n ↔
      ∃ ts w', Visits w ts w' ∧ ts.length = i ∧ w'.pending.length = n := by
  constructor
  · intro h
    have hi : i ≤ (Term.preorderList w.pending).length := by
      have hlt := (List.getElem?_eq_some_iff.1 h).1
      rw [length_sizes] at hlt
      exact Nat.le_of_lt_succ hlt
    have hall := visits_preorderList w
    rw [← List.take_append_drop i (Term.preorderList w.pending)] at hall
    obtain ⟨v, hvisits, -⟩ := hall.split
    have hlength : ((Term.preorderList w.pending).take i).length = i :=
      List.length_take_of_le hi
    have hsize := hvisits.getElem?_sizes
    rw [hlength, h, Option.some.injEq] at hsize
    exact ⟨_, v, hvisits, hlength, hsize.symm⟩
  · rintro ⟨ts, w', hvisits, rfl, rfl⟩
    exact hvisits.getElem?_sizes

/-- A walk takes terms from its stack and puts their arguments there in reverse. Through a term it
comes to its end, and until then it enters the term and then what walks through its arguments enter
from left to right. In every state on the way the rest of these is still to be entered; the number
of pending terms is no greater than the number of terms in this rest, and it is zero only when none
is left. -/
theorem visits_start (t : Term) :
    (∀ u rest, next ⟨u :: rest⟩ = some (u, push ⟨rest⟩ u.args.reverse)) ∧
    t.preorder = t :: t.args.flatMap Term.preorder ∧
    Visits (start t) t.preorder ⟨[]⟩ ∧ next ⟨[]⟩ = none ∧ (start t).terms = t.preorder ∧
    (∀ ts w, Visits (start t) ts w → ∃ rest, t.preorder = ts ++ rest ∧ Visits w rest ⟨[]⟩ ∧
      w.pending.length ≤ rest.length ∧ (w.pending.length = 0 ↔ rest = [])) ∧
    ∀ i n, (start t).sizes[i]? = some n ↔
      ∃ ts w, Visits (start t) ts w ∧ ts.length = i ∧ w.pending.length = n := by
  have hstart : Term.preorderList (start t).pending = t.preorder := List.append_nil _
  refine ⟨next_eq_push, ?_, ?_, next_nil, terms_start t, fun ts w h => ?_,
    fun i n => getElem?_sizes_iff⟩
  · simpa using Term.map_preorder id t
  · rw [← hstart]
    exact visits_preorderList (start t)
  · refine ⟨Term.preorderList w.pending, ?_, visits_preorderList w,
      Term.length_le_length_preorderList w.pending, ?_⟩
    · rw [← hstart, h.preorderList_pending]
    · rw [Term.preorderList_eq_nil_iff, List.length_eq_zero_iff]

/-- After the first two of the seven nodes of `p([a | X], q(Y, b))` three terms are pending. -/
theorem visits_start_afterCell :
    let cell := Term.cell [.atom "a", .var "X"]
    let last := Term.compound "q" [.var "Y", .atom "b"]
    let term := Term.compound "p" [cell, last]
    Visits (start term) [term, cell] ⟨[.atom "a", .var "X", last]⟩ ∧
      (start term).sizes = [1, 2, 3, 2, 1, 2, 1, 0] ∧
      ∃ rest, term.preorder = [term, cell] ++ rest ∧ 3 ≤ rest.length ∧ rest ≠ [] := by
  intro cell last term
  have hvisits : Visits (start term) [term, cell] ⟨[.atom "a", .var "X", last]⟩ :=
    .step rfl (.step rfl (.stay _))
  have hsizes : (start term).sizes = [1, 2, 3, 2, 1, 2, 1, 0] := by
    simp only [start, sizes_cons, sizes_nil, term, cell, last, Term.cell, Term.args,
      List.cons_append, List.nil_append, List.length_cons, List.length_nil]
  obtain ⟨-, -, -, -, -, hstates, -⟩ := visits_start term
  obtain ⟨rest, hrest, -, hle, hzero⟩ := hstates _ _ hvisits
  refine ⟨hvisits, hsizes, rest, hrest, hle, fun hnil => ?_⟩
  exact absurd (hzero.2 hnil) (by decide)

end Walk

end HornClauses
