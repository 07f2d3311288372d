import HornClauses.Proofs.ExpressionTerm
import HornClauses.Proofs.ReaderOutcome

/-!
# The terms that are read

Under the standard operators only certain terms are read: names are words of the grammar, compounds
have arguments, the name of an operator stands before two arguments only, and a cell has two
arguments or, under legacy lists, one that is no cell itself.

* `Term.Readable`: these terms, by the constructs that make them.
* `Expression.readable`: the term of a well-formed expression is one of them.
* `Settings.readable_of_readPredicate`, `Settings.readable_of_readProgram`: so are the predicates of a
  program that is read.
-/

namespace HornClauses

def Token.IsAtom (text : String) : Prop := IsName text ∨ IsNumber text ∨ IsSymbol text

/-- The terms that are read under the standard operators. -/
inductive Term.Readable (style : ListStyle) : Term → Prop where
  | atom {name : String} : Token.IsAtom name → Term.Readable style (.atom name)
  | var {name : String} : Token.IsVariable name → Term.Readable style (.var name)
  | compound {name : String} {args : List Term} : Token.IsName name → args ≠ [] →
    (∀ t ∈ args, Term.Readable style t) → Term.Readable style (.compound name args)
  | pair {left right : Term} : Term.Readable style left → Term.Readable style right →
    Term.Readable style (.pair left right)
  | operation {op : Operator} {left right : Term} : op ≠ .div → Term.Readable style left →
    Term.Readable style right → Term.Readable style (.compound op.token [left, right])
  | nil : Term.Readable style .nil
  | cell {first rest : Term} : Term.Readable style first → Term.Readable style rest →
    Term.Readable style (.cell [first, rest])
  | last {last : Term} : style = .legacy → last.isCell = false → Term.Readable style last →
    Term.Readable style (.cell [last])

namespace Term.Readable

variable {style : ListStyle}

/-! ## Lists, tuples and chains -/

theorem lastCell {t : Term} (ht : t.Readable style) : (style.lastCell t).Readable style := by
  cases style with
  | legacy =>
    rw [ListStyle.lastCell]
    split
    · exact ht
    · rename_i hcell
      exact .last rfl (by simpa using hcell) ht
  | canonical => exact .cell ht .nil

theorem list {ts : List Term} {tail : Option Term} (hts : ∀ t ∈ ts, t.Readable style)
    (htail : ∀ u, tail = some u → u.Readable style) : (style.list ts tail).Readable style := by
  induction ts with
  | nil => exact .nil
  | cons t ts ih =>
    rw [List.forall_mem_cons] at hts
    cases ts with
    | nil =>
      cases tail with
      | none => exact hts.1.lastCell
      | some u => exact .cell hts.1 (htail u rfl)
    | cons t' ts => exact .cell hts.1 (ih hts.2)

theorem tuple {ts : List Term} (hne : ts ≠ []) (hts : ∀ t ∈ ts, t.Readable style) :
    (Term.tuple ts).Readable style := by
  induction ts with
  | nil => exact absurd rfl hne
  | cons t ts ih =>
    rw [List.forall_mem_cons] at hts
    cases ts with
    | nil => exact hts.1
    | cons t' ts => exact .pair hts.1 (ih (by simp) hts.2)

/-- Every name of the standard table is the token of an operator. -/
theorem nameOf_standard (op : Operator) :
    ∃ op' : Operator, op' ≠ .div ∧ OperatorTable.standard.nameOf op = op'.token := by
  by_cases hdiv : op = .div
  · subst hdiv
    exact ⟨.slash, by decide, by decide⟩
  · exact ⟨op, hdiv, OperatorTable.nameOf_standard_of_ne_div hdiv⟩

theorem resolve {source text : String} {links : List (Option Term × Operator)}
    {last : Option Term} {t : Term}
    (hlinks : ∀ link ∈ links, ∀ u, link.1 = some u → u.Readable style)
    (hlast : ∀ u, last = some u → u.Readable style)
    (h : OperatorTable.standard.resolve source text links last = .ok t) : t.Readable style := by
  induction links generalizing t with
  | nil => exact hlast t (OperatorTable.resolve_nil.1 h)
  | cons link links ih =>
    obtain ⟨operand, op⟩ := link
    rw [List.forall_mem_cons] at hlinks
    obtain ⟨-, -, left, right, hleft, hright, rfl⟩ := OperatorTable.resolve_cons.1 h
    obtain ⟨op', hop', hname⟩ := nameOf_standard op
    rw [hname]
    exact .operation hop' (hlinks.1 left hleft) (ih hlinks.2 hright)

end Term.Readable

/-! ## Expressions -/

variable {style : ListStyle} {source : String}

mutual

theorem Slot.readable (slot : Slot) (h : slot.WellFormed) {t : Term}
    (ht : slot.toTerm ⟨style, .standard⟩ source = .ok (some t)) : t.Readable style := by
  cases slot with
  | hole => cases ht
  | name text =>
    cases h with
    | name hname =>
      cases ht
      exact .atom (Or.inl hname)
  | var text =>
    cases h with
    | var hvar =>
      cases ht
      exact .var hvar
  | number text =>
    cases h with
    | number hnumber =>
      cases ht
      exact .atom (Or.inr (Or.inl hnumber))
  | symbol text =>
    cases h with
    | symbol hsymbol =>
      cases ht
      exact .atom (Or.inr (Or.inr hsymbol))
  | compound name args =>
    cases h with
    | compound hname hne hargs =>
      obtain ⟨ts, hts, heq⟩ := Slot.toTerm_compound.1 ht
      cases heq
      refine .compound hname ?_ (Expression.readable_list args hargs hts)
      rintro rfl
      exact hne (List.length_eq_zero_iff.1 (Expression.length_of_toTerms hts).symm)
  | list elements =>
    obtain ⟨ts, hts, heq⟩ := Slot.toTerm_list.1 ht
    cases heq
    have hes : ∀ e ∈ elements, e.WellFormed := by
      cases h with
      | nil => simp
      | list _ hes => exact hes
    exact .list (Expression.readable_list elements hes hts) (by simp)
  | listWithTail elements tail =>
    cases h with
    | listWithTail hne hes htail =>
      obtain ⟨ts, hts, u, hu, heq⟩ := Slot.toTerm_listWithTail.1 ht
      cases heq
      refine .list (Expression.readable_list elements hes hts) fun v hv => ?_
      cases hv
      exact Expression.readable tail htail hu
  | tuple components =>
    cases h with
    | tuple hne hes =>
      obtain ⟨ts, hts, heq⟩ := Slot.toTerm_tuple.1 ht
      cases heq
      refine .tuple ?_ (Expression.readable_list components hes hts)
      rintro rfl
      exact hne (List.length_eq_zero_iff.1 (Expression.length_of_toTerms hts).symm)
termination_by structural slot

theorem Expression.readable (e : Expression) (h : e.WellFormed) {t : Term}
    (ht : e.toTerm ⟨style, .standard⟩ source = .ok t) : t.Readable style := by
  obtain ⟨text, links, last⟩ := e
  cases h with
  | chain hlinks hlast =>
    obtain ⟨os, hos, o, ho, hresolve⟩ := Expression.toTerm_chain.1 ht
    refine .resolve (Expression.readable_operands links hlinks hos) (fun u hu => ?_) hresolve
    subst hu
    exact Slot.readable last hlast ho
termination_by structural e

theorem Expression.readable_list (es : List Expression) (h : ∀ e ∈ es, e.WellFormed)
    {ts : List Term} (hts : Expression.toTerms ⟨style, .standard⟩ source es = .ok ts) :
    ∀ t ∈ ts, t.Readable style := by
  cases es with
  | nil =>
    rw [Expression.toTerms_nil.1 hts]
    simp
  | cons e es =>
    obtain ⟨u, hu, us, hus, rfl⟩ := Expression.toTerms_cons.1 hts
    rw [List.forall_mem_cons] at h ⊢
    exact ⟨Expression.readable e h.1 hu, Expression.readable_list es h.2 hus⟩
termination_by structural es

theorem Expression.readable_operands (links : List (Slot × Operator))
    (h : ∀ link ∈ links, link.1.WellFormed) {os : List (Option Term × Operator)}
    (hos : Expression.operands ⟨style, .standard⟩ source links = .ok os) :
    ∀ o ∈ os, ∀ t, o.1 = some t → t.Readable style := by
  cases links with
  | nil =>
    rw [Expression.operands_nil.1 hos]
    simp
  | cons link links =>
    obtain ⟨slot, op⟩ := link
    obtain ⟨o, ho, more, hmore, rfl⟩ := Expression.operands_cons.1 hos
    rw [List.forall_mem_cons] at h ⊢
    refine ⟨fun t ht => ?_, Expression.readable_operands links h.2 hmore⟩
    cases ht
    exact Slot.readable slot h.1 ho
termination_by structural links

end

/-! ## Texts -/

namespace Settings

theorem readable_of_readTerm {text : List Char} {t : Term}
    (h : Settings.readTerm ⟨style, .standard⟩ text = .ok t) : t.Readable style := by
  obtain ⟨e, he, ht⟩ := readTerm_eq_ok.1 h
  exact Expression.readable e (Grammar.wellFormed_of_readTerm he) ht

end Settings

def Predicate.Readable (style : ListStyle) (p : Predicate) : Prop :=
  (p.args = [] ∧ Token.IsAtom p.name) ∨ p.toTerm.Readable style

namespace Settings

theorem readable_of_readPredicate {text : List Char} {p : Predicate}
    (h : Settings.readPredicate ⟨style, .standard⟩ text = .ok p) : p.Readable style := by
  obtain ⟨-, t, ht, hp⟩ := readPredicate_eq_ok.1 h
  have hread := readable_of_readTerm ht
  rcases hp with rfl | ⟨rfl, hargs⟩
  · exact Or.inr hread
  · cases hread with
    | atom hatom => exact Or.inl ⟨hargs, hatom⟩

theorem readable_of_readGoals {onEmpty : ReadError} {goals : List (List Char)} {ps : List Predicate}
    (h : Settings.readGoals ⟨style, .standard⟩ onEmpty goals = .ok ps) :
    ∀ p ∈ ps, p.Readable style := by
  have hgoals := readGoals_eq_ok.1 h
  induction hgoals with
  | nil => simp
  | cons hgoal hrest ih =>
    rw [List.forall_mem_cons]
    exact ⟨readable_of_readPredicate hgoal.2, ih (readGoals_eq_ok.2 hrest)⟩

theorem readable_of_readClause {text : List Char} {c : Clause}
    (h : Settings.readClause ⟨style, .standard⟩ text = .ok c) :
    ∀ p ∈ c.parts, p.Readable style := by
  obtain ⟨hhead, hbody⟩ := readClause_eq_ok.1 h
  obtain ⟨-, -, hp⟩ := readHead_eq_ok.1 hhead
  rw [Clause.parts, List.forall_mem_cons]
  refine ⟨readable_of_readPredicate hp, ?_⟩
  cases hb : (ClauseText.divide text).body with
  | none =>
    rw [hb] at hbody
    rw [readBody_none.1 hbody]
    simp
  | some body =>
    rw [hb] at hbody
    obtain ⟨-, goals, -, hgoals⟩ := readBody_some.1 hbody
    exact readable_of_readGoals hgoals

/-- So are those of all clauses of a program that is read. -/
theorem readable_of_readProgram {source : List Char} {cs : List Clause}
    (h : Settings.readProgram ⟨style, .standard⟩ source = .ok cs) :
    ∀ c ∈ cs, ∀ p ∈ c.parts, p.Readable style := by
  have hclauses := readProgram_eq_ok.1 h
  generalize segments source = texts at hclauses
  clear h
  induction hclauses with
  | nil => simp
  | cons hc hrest ih =>
    rw [List.forall_mem_cons]
    exact ⟨readable_of_readClause hc, ih⟩

end Settings

end HornClauses
