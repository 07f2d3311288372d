import HornClauses.Proofs.Outcome
import HornClauses.Proofs.Subterms
import HornClauses.Symbol.Code
import Mathlib.Data.List.Forall2

/-!
# Codes of terms

A term is coded as the ids of its names in the order in which a walk enters its subterms. The code
says nothing on how many arguments a name has; together with the kinds of the nodes it determines
the term.

* `SymbolTable.encodeWalk_eq`, `SymbolTable.encodeInTurn_eq`: coding the nodes that a walk enters is
  coding the term, and coding the arguments in turn is coding the predicate.
* `SymbolTable.encodeNames_eq_ok`, `SymbolTable.encodeNames_append`: what codes look like.
* `Term.map_preorder_append_inj`: the names and the kinds of its nodes determine a term.
-/

namespace HornClauses

/-! ## Kinds of nodes -/

/-- What a node is: an atom, a variable or a name with a number of arguments. -/
inductive Term.Kind where
  | atom
  | var
  | compound (arity : Nat)
  deriving DecidableEq

namespace Term

def kind : Term → Kind
  | atom _ => .atom
  | var _ => .var
  | compound _ ts => .compound ts.length

theorem eq_of_kind_of_args {t u : Term} (hname : t.name = u.name) (hkind : t.kind = u.kind)
    (hargs : t.args = u.args) : t = u := by
  cases t <;> cases u <;> simp_all [name, kind, args]

theorem length_args_of_kind {t u : Term} (hkind : t.kind = u.kind) :
    t.args.length = u.args.length := by
  cases t <;> cases u <;> simp_all [kind, args]

/-- Words that are no beginnings of one another are told apart one after another. -/
theorem flatMap_append_inj {α : Type} {g : Term → List α} {ts us : List Term} {s s' : List α}
    (hg : ∀ v ∈ ts, ∀ w ∈ us, ∀ {s s'}, g v ++ s = g w ++ s' → v = w ∧ s = s')
    (hlength : ts.length = us.length) (h : ts.flatMap g ++ s = us.flatMap g ++ s') :
    ts = us ∧ s = s' := by
  induction ts generalizing us with
  | nil =>
    rw [List.eq_nil_of_length_eq_zero hlength.symm] at h ⊢
    exact ⟨rfl, h⟩
  | cons v ts ih =>
    cases us with
    | nil => cases hlength
    | cons w us =>
      rw [List.flatMap_cons, List.flatMap_cons, List.append_assoc, List.append_assoc] at h
      obtain ⟨rfl, hrest⟩ := hg v List.mem_cons_self w List.mem_cons_self h
      have hg' : ∀ v' ∈ ts, ∀ w' ∈ us, ∀ {s s'}, g v' ++ s = g w' ++ s' → v' = w' ∧ s = s' :=
        fun v' hv' w' hw' => hg v' (List.mem_cons_of_mem v hv') w' (List.mem_cons_of_mem v hw')
      obtain ⟨rfl, hs⟩ := ih hg' (Nat.succ.inj hlength) hrest
      exact ⟨rfl, hs⟩

/-- No term can be mistaken for the beginning of another one by labels of its nodes in order, if the
labels tell the names and the kinds of the nodes. -/
theorem map_preorder_append_inj {α : Type} {f : Term → α} {t u : Term} {s s' : List α}
    (hf : ∀ v ∈ t.preorder, ∀ w ∈ u.preorder, f v = f w → v.name = w.name ∧ v.kind = w.kind)
    (h : t.preorder.map f ++ s = u.preorder.map f ++ s') : t = u ∧ s = s' := by
  induction t using induct_args generalizing u s s' with
  | step t ih =>
    rw [map_preorder f t, map_preorder f u, List.cons_append, List.cons_append,
      List.cons.injEq] at h
    obtain ⟨hlabel, hrest⟩ := h
    obtain ⟨hname, hkind⟩ := hf t t.self_mem_preorder u u.self_mem_preorder hlabel
    have hlabels : ∀ v ∈ t.args, ∀ w ∈ u.args, ∀ v' ∈ v.preorder, ∀ w' ∈ w.preorder,
        f v' = f w' → v'.name = w'.name ∧ v'.kind = w'.kind := fun v hv w hw v' hv' w' hw' =>
      hf v' (mem_preorder.2 (Or.inr ⟨v, hv, hv'⟩)) w' (mem_preorder.2 (Or.inr ⟨w, hw, hw'⟩))
    obtain ⟨hargs, hs⟩ := flatMap_append_inj (g := fun v => v.preorder.map f)
      (fun v hv w hw => ih v hv (hlabels v hv w hw)) (length_args_of_kind hkind) hrest
    exact ⟨eq_of_kind_of_args hname hkind hargs, hs⟩

end Term

/-! ## Codes -/

namespace SymbolTable

variable {table : SymbolTable}

theorem encodeNames_nil (table : SymbolTable) : table.encodeNames [] = .ok [] := rfl

theorem encodeNames_cons (table : SymbolTable) (name : String) (names : List String) :
    table.encodeNames (name :: names) =
      match table.id? name with
      | none => .error ⟨name⟩
      | some id => (table.encodeNames names).map fun ids => id :: ids := by
  rw [encodeNames, codes]
  cases table.id? name with
  | none => rfl
  | some id =>
    rw [encodeNames]
    cases table.codes names with
    | mk ids e => cases e <;> rfl

theorem encodeNames_eq_ok {names : List String} {ids : List UInt32} :
    table.encodeNames names = .ok ids ↔ names.map table.id? = ids.map some := by
  induction names generalizing ids with
  | nil => cases ids <;> simp [encodeNames_nil]
  | cons name names ih =>
    rw [encodeNames_cons, List.map_cons]
    cases table.id? name with
    | none => cases ids <;> simp
    | some id =>
      rw [map_eq_ok]
      cases ids with
      | nil => simp
      | cons id' ids =>
        rw [List.map_cons, List.cons.injEq, Option.some.injEq, ← ih]
        constructor
        · rintro ⟨rest, hrest, heq⟩
          cases heq
          exact ⟨rfl, hrest⟩
        · rintro ⟨rfl, hrest⟩
          exact ⟨ids, hrest, rfl⟩

theorem encodeNames_append (table : SymbolTable) (names more : List String) :
    table.encodeNames (names ++ more) =
      (table.encodeNames names).bind fun ids =>
        (table.encodeNames more).map fun ids' => ids ++ ids' := by
  induction names with
  | nil =>
    rw [List.nil_append, encodeNames_nil]
    cases table.encodeNames more <;> rfl
  | cons name names ih =>
    rw [List.cons_append, encodeNames_cons, encodeNames_cons, ih]
    cases table.id? name with
    | none => rfl
    | some id =>
      cases table.encodeNames names with
      | error e => rfl
      | ok ids => cases table.encodeNames more <;> rfl

theorem encodeNames_congr {other : SymbolTable} {names : List String}
    (h : ∀ n ∈ names, table.id? n = other.id? n) :
    table.encodeNames names = other.encodeNames names := by
  induction names with
  | nil => rfl
  | cons name names ih =>
    rw [List.forall_mem_cons] at h
    rw [encodeNames_cons, encodeNames_cons, h.1, ih h.2]

/-- The code of a term, name by name as a walk enters its subterms. -/
def encodeWalk (table : SymbolTable) (t : Term) : Except UnknownSymbol (List UInt32) :=
  table.encodeNames ((Walk.start t).terms.map Term.name)

theorem encodeWalk_eq (table : SymbolTable) (t : Term) :
    table.encodeWalk t = table.encodeTerm t := by
  rw [encodeWalk, Walk.terms_start, encodeTerm, Term.names]

/-- The code of a predicate: the id of its name, and behind it the code of each argument in turn as
a walk enters its subterms. -/
def encodeInTurn (table : SymbolTable) (p : Predicate) : Except UnknownSymbol (List UInt32) := do
  let id ← table.encodeNames [p.name]
  p.args.foldlM (fun ids t => (table.encodeWalk t).map fun ids' => ids ++ ids') id

theorem encodeInTurn_eq (table : SymbolTable) (p : Predicate) :
    table.encodeInTurn p = table.encodePredicate p := by
  have hargs : ∀ (ts : List Term) (before : List UInt32),
      ts.foldlM (fun ids t => (table.encodeWalk t).map fun ids' => ids ++ ids') before =
        (table.encodeNames (ts.flatMap Term.names)).map fun ids' => before ++ ids' := by
    intro ts
    induction ts with
    | nil =>
      intro before
      rw [List.flatMap_nil, encodeNames_nil, List.foldlM_nil, Except.map, List.append_nil]
      rfl
    | cons t ts ih =>
      intro before
      rw [List.foldlM_cons, List.flatMap_cons, encodeNames_append, encodeWalk_eq, encodeTerm]
      cases table.encodeNames t.names with
      | error e => rfl
      | ok ids =>
        refine (ih (before ++ ids)).trans ?_
        cases table.encodeNames (ts.flatMap Term.names) with
        | error e => rfl
        | ok ids' => exact congrArg Except.ok (List.append_assoc before ids ids')
  have hnames : p.names = [p.name] ++ p.args.flatMap Term.names := rfl
  rw [encodeInTurn, encodePredicate, hnames, encodeNames_append]
  cases table.encodeNames [p.name] with
  | error e => rfl
  | ok id => exact hargs p.args id

end SymbolTable

end HornClauses
