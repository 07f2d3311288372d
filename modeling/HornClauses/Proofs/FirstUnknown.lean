import HornClauses.Proofs.TermCode

/-!
# The first unknown name

A term is coded in several ways: from the names of its subterms, node by node in the course of a
walk, or, if it is a predicate, as its name and then argument by argument. The same names are looked
up in the same order by all of them, so they give the same ids and stop at the same name, the first
that the table does not know. The ids of the names before it have been appended by then.

* `SymbolTable.CodedUpTo`: names in order, their ids, and the name that ends them.
* `SymbolTable.codes_eq_iff`: what is looked up of names in order.
* `SymbolTable.encodeFrom_eq`: ids that are appended in the course of a walk.
* `SymbolTable.encodeAll_flatten`: the codes of several terms are the code of all their names.
* `SymbolTable.encoders_codedUpTo`: all ways of coding, and where they stop.
-/

namespace HornClauses.SymbolTable

variable {table : SymbolTable} {names : List String} {ids : List UInt32}
  {failure : Option UnknownSymbol}

/-! ## Names in order -/

/-- What is looked up of names in order: the ids of all of them, or the ids of those before the
first that the table does not know, and that name. -/
inductive CodedUpTo (table : SymbolTable) (names : List String) (ids : List UInt32) :
    Option UnknownSymbol → Prop where
  | all : names.map table.id? = ids.map some → CodedUpTo table names ids none
  | unknown {before after : List String} {name : String} : names = before ++ name :: after →
    before.map table.id? = ids.map some → table.id? name = none →
    CodedUpTo table names ids (some ⟨name⟩)

theorem codedUpTo_nil : table.CodedUpTo [] ids failure ↔ ids = [] ∧ failure = none := by
  constructor
  · intro h
    cases h with
    | all hids => exact ⟨List.map_eq_nil_iff.1 hids.symm, rfl⟩
    | unknown hsplit _ _ => simp at hsplit
  · rintro ⟨rfl, rfl⟩
    exact .all rfl

theorem codedUpTo_unknown {name : String} (hname : table.id? name = none) :
    table.CodedUpTo (name :: names) ids failure ↔ ids = [] ∧ failure = some ⟨name⟩ := by
  constructor
  · intro h
    cases h with
    | all hids => cases ids <;> simp [hname] at hids
    | @unknown before _ _ hsplit hids _ =>
      cases before with
      | nil =>
        cases hsplit
        exact ⟨List.map_eq_nil_iff.1 hids.symm, rfl⟩
      | cons n before =>
        cases hsplit
        cases ids <;> simp [hname] at hids
  · rintro ⟨rfl, rfl⟩
    exact .unknown (List.nil_append _).symm rfl hname

theorem codedUpTo_known {name : String} {id : UInt32} (hname : table.id? name = some id) :
    table.CodedUpTo (name :: names) ids failure ↔
      ∃ later, ids = id :: later ∧ table.CodedUpTo names later failure := by
  have hcons : ∀ {ns : List String}, (name :: ns).map table.id? = ids.map some →
      ∃ later, ids = id :: later ∧ ns.map table.id? = later.map some := by
    intro ns hids
    cases ids with
    | nil => cases hids
    | cons id' later =>
      rw [List.map_cons, List.map_cons, hname, List.cons.injEq, Option.some.injEq] at hids
      obtain ⟨rfl, hlater⟩ := hids
      exact ⟨later, rfl, hlater⟩
  constructor
  · intro h
    cases h with
    | all hids =>
      obtain ⟨later, rfl, hlater⟩ := hcons hids
      exact ⟨later, rfl, .all hlater⟩
    | @unknown before _ _ hsplit hids hnone =>
      cases before with
      | nil =>
        cases hsplit
        rw [hname] at hnone
        cases hnone
      | cons n before =>
        cases hsplit
        obtain ⟨later, rfl, hlater⟩ := hcons hids
        exact ⟨later, rfl, .unknown rfl hlater hnone⟩
  · rintro ⟨later, rfl, h⟩
    cases h with
    | all hids => exact .all (by rw [List.map_cons, List.map_cons, hname, hids])
    | unknown hsplit hids hnone =>
      subst hsplit
      refine .unknown (List.cons_append ..).symm ?_ hnone
      rw [List.map_cons, List.map_cons, hname, hids]

theorem codes_eq_iff : table.codes names = (ids, failure) ↔ table.CodedUpTo names ids failure := by
  induction names generalizing ids with
  | nil => rw [codes, codedUpTo_nil, Prod.mk.injEq, eq_comm, @eq_comm _ none]
  | cons name names ih =>
    rw [codes]
    cases hname : table.id? name with
    | none => rw [codedUpTo_unknown hname, Prod.mk.injEq, eq_comm, @eq_comm _ (some _)]
    | some id =>
      rw [codedUpTo_known hname]
      simp only [← ih, Prod.ext_iff]
      constructor
      · rintro ⟨rfl, hfailure⟩
        exact ⟨_, rfl, rfl, hfailure⟩
      · rintro ⟨later, rfl, rfl, hfailure⟩
        exact ⟨rfl, hfailure⟩

theorem encodeNames_eq_ok_iff :
    table.encodeNames names = .ok ids ↔ table.CodedUpTo names ids none := by
  rw [← codes_eq_iff, encodeNames]
  cases table.codes names with
  | mk ids' failure => cases failure <;> simp

theorem encodeNames_eq_error_iff {e : UnknownSymbol} :
    table.encodeNames names = .error e ↔ ∃ ids, table.CodedUpTo names ids (some e) := by
  simp only [← codes_eq_iff, encodeNames]
  cases table.codes names with
  | mk ids failure => cases failure <;> simp

/-- There is a code if all names are known. -/
theorem exists_encodeNames_iff :
    (∃ ids, table.encodeNames names = .ok ids) ↔ ∀ n ∈ names, (table.id? n).isSome := by
  induction names with
  | nil => simp [encodeNames_nil]
  | cons name names ih =>
    rw [List.forall_mem_cons, ← ih, encodeNames_cons]
    cases table.id? name with
    | none => simp
    | some id => simp [exists_map_eq_ok]

/-! ## Several ways -/

/-- The id of one name. -/
def lookup (table : SymbolTable) (name : String) : Except UnknownSymbol UInt32 :=
  match table.id? name with
  | none => .error ⟨name⟩
  | some id => .ok id

theorem encodeNames_eq_mapM (table : SymbolTable) (names : List String) :
    table.encodeNames names = names.mapM table.lookup := by
  induction names with
  | nil => rfl
  | cons name names ih =>
    rw [encodeNames_cons, List.mapM_cons, ← ih, lookup]
    cases table.id? name with
    | none => rfl
    | some id => cases table.encodeNames names <;> rfl

/-- Append the ids of the terms that a walk enters, one at a time. -/
def encodeFrom (table : SymbolTable) (w : Walk) (ids : List UInt32) :
    List UInt32 × Option UnknownSymbol :=
  match _h : w.next with
  | none => (ids, none)
  | some (t, w') =>
    match table.id? t.name with
    | none => (ids, some ⟨t.name⟩)
    | some id => table.encodeFrom w' (ids ++ [id])
termination_by w.weight
decreasing_by
  have := Walk.weight_next ‹_›
  omega

theorem encodeFrom_nil (table : SymbolTable) (ids : List UInt32) :
    table.encodeFrom ⟨[]⟩ ids = (ids, none) := by
  rw [encodeFrom]
  rfl

theorem encodeFrom_cons (table : SymbolTable) (t : Term) (rest : List Term) (ids : List UInt32) :
    table.encodeFrom ⟨t :: rest⟩ ids =
      match table.id? t.name with
      | none => (ids, some ⟨t.name⟩)
      | some id => table.encodeFrom ⟨t.args ++ rest⟩ (ids ++ [id]) := by
  rw [encodeFrom]
  rfl

/-- Ids that stand there already are left alone. -/
theorem encodeFrom_eq (table : SymbolTable) (w : Walk) (ids : List UInt32) :
    table.encodeFrom w ids =
      (ids ++ (table.codes (w.terms.map Term.name)).1,
        (table.codes (w.terms.map Term.name)).2) := by
  induction w using Walk.induct generalizing ids with
  | nil => rw [encodeFrom_nil, Walk.terms_nil, List.map_nil, codes, List.append_nil]
  | cons t rest ih =>
    rw [encodeFrom_cons, Walk.terms_cons, List.map_cons, codes]
    cases table.id? t.name with
    | none => rw [List.append_nil]
    | some id =>
      refine (ih (ids ++ [id])).trans ?_
      rw [List.append_assoc, List.singleton_append]

theorem encodeOnto_eq_encodeFrom (table : SymbolTable) (t : Term) (ids : List UInt32) :
    table.encodeOnto t ids = table.encodeFrom (Walk.start t) ids := by
  rw [encodeFrom_eq, Walk.terms_start]
  rfl

/-! ## Several terms -/

theorem encodeAll_flatten (table : SymbolTable) (ts : List Term) :
    (table.encodeAll ts).map List.flatten = table.encodeNames (ts.flatMap Term.names) := by
  induction ts with
  | nil => rfl
  | cons t ts ih =>
    rw [List.flatMap_cons, encodeNames_append, ← ih, encodeAll, encodeAll, List.mapM_cons,
      encodeTerm]
    cases table.encodeNames t.names with
    | error e => rfl
    | ok ids => cases ts.mapM table.encodeTerm <;> rfl

/-- All ways of coding a predicate or a term agree, whether they look up the names of the subterms
in order, take the arguments in turn or append the ids node by node to others. There is a code if
the table knows all names of the subterms; otherwise the first of them that it does not know is
reported, and the ids of those before it, and no others, have been appended. Of several terms the
first unknown name in the order of the terms is reported. -/
theorem encoders_codedUpTo (table : SymbolTable) :
    (∀ p : Predicate, table.encodePredicate p = table.encodeTerm p.toTerm ∧
      table.encodePredicate p = table.encodeInTurn p ∧
      table.encodePredicate p = p.names.mapM table.lookup) ∧
    (∀ t : Term, table.encodeTerm t = table.encodeWalk t ∧
      (∀ ids, table.encodeTerm t = .ok ids ↔ table.CodedUpTo t.names ids none) ∧
      (∀ e, table.encodeTerm t = .error e ↔ ∃ ids, table.CodedUpTo t.names ids (some e)) ∧
      ((∃ ids, table.encodeTerm t = .ok ids) ↔ ∀ n ∈ t.names, (table.id? n).isSome)) ∧
    (∀ (t : Term) (before : List UInt32),
      table.encodeOnto t before = table.encodeFrom (Walk.start t) before ∧
      ∃ ids failure, table.encodeOnto t before = (before ++ ids, failure) ∧
        table.CodedUpTo t.names ids failure) ∧
    ∀ ts : List Term,
      (∀ codes, table.encodeAll ts = .ok codes ↔
        List.Forall₂ (fun t ids => table.encodeTerm t = .ok ids) ts codes) ∧
      ∀ e, table.encodeAll ts = .error e ↔
        ∃ ids, table.CodedUpTo (ts.flatMap Term.names) ids (some e) := by
  refine ⟨fun p => ⟨?_, (encodeInTurn_eq table p).symm, encodeNames_eq_mapM table p.names⟩,
    fun t => ⟨(encodeWalk_eq table t).symm, fun ids => encodeNames_eq_ok_iff,
      fun e => encodeNames_eq_error_iff, exists_encodeNames_iff⟩,
    fun t before => ⟨encodeOnto_eq_encodeFrom table t before, _, _, rfl, codes_eq_iff.1 rfl⟩,
    fun ts => ⟨fun codes => mapM_eq_ok, fun e => ?_⟩⟩
  · rw [encodePredicate, encodeTerm, p.names_toTerm]
  · rw [← encodeNames_eq_error_iff, ← encodeAll_flatten, map_eq_error]

example : (ofNames ["p", "a", "X"]).encodeOnto
    (.compound "p" [.var "X", .compound "q" [.atom "a"], .atom "b"]) [7] =
      ([7, 0, 2], some ⟨"q"⟩) := by decide

end HornClauses.SymbolTable
