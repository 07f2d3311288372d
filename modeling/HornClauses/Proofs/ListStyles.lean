import HornClauses.Proofs.Subterms
import HornClauses.Proofs.TwoSettings

/-!
# What the list style changes

The two list styles end a list in different ways, with an empty list or without one, and a last
element that is a cell itself may be the last cell. So the terms of one text differ in cells only:
without the names of cells they have the same names in the same order, and an atom or a variable is
the same one. Which texts are read and which fault a text has does not depend on the list style.

* `Term.AlikeBesideCells`: terms that differ in cells only.
* `ListStyle.carries_alikeBesideCells`: the two list styles make such terms.
* `Settings.readClauses_listStyle`: a program in both list styles.
-/

namespace HornClauses

/-! ## Names beside cells -/

/-- The names in a term in order, without those of cells. -/
def Term.namesBesideCells (t : Term) : List String := t.names.filter (· ≠ cellName)

def Predicate.namesBesideCells (p : Predicate) : List String := p.names.filter (· ≠ cellName)

namespace Term

theorem namesBesideCells_compound (name : String) (args : List Term) :
    (compound name args).namesBesideCells =
      [name].filter (· ≠ cellName) ++ args.flatMap namesBesideCells := by
  have hargs : (args.flatMap names).filter (· ≠ cellName) = args.flatMap namesBesideCells :=
    List.filter_flatMap
  rw [namesBesideCells, names_eq, ← List.singleton_append, List.filter_append]
  exact congrArg _ hargs

/-- The names in a cell are those in its arguments. -/
theorem namesBesideCells_cell (args : List Term) :
    (cell args).namesBesideCells = args.flatMap namesBesideCells :=
  namesBesideCells_compound cellName args

/-- Two terms that are atoms or variables only if they are the same one, and have the same names in
the same order beside those of cells. -/
inductive AlikeBesideCells : Term → Term → Prop where
  | atom (name : String) : AlikeBesideCells (.atom name) (.atom name)
  | var (name : String) : AlikeBesideCells (.var name) (.var name)
  | compound {name name' : String} {args args' : List Term} :
    (compound name args).namesBesideCells = (compound name' args').namesBesideCells →
    AlikeBesideCells (.compound name args) (.compound name' args')

namespace AlikeBesideCells

variable {t u : Term} {ts us : List Term}

theorem names_eq (h : AlikeBesideCells t u) : t.namesBesideCells = u.namesBesideCells := by
  cases h with
  | atom name => rfl
  | var name => rfl
  | compound hnames => exact hnames

theorem flatMap_eq (h : List.Forall₂ AlikeBesideCells ts us) :
    ts.flatMap namesBesideCells = us.flatMap namesBesideCells := by
  induction h with
  | nil => rfl
  | cons hfirst _ ih => rw [List.flatMap_cons, List.flatMap_cons, hfirst.names_eq, ih]

end AlikeBesideCells

end Term

theorem Predicate.namesBesideCells_eq (p : Predicate) :
    p.namesBesideCells = p.toTerm.namesBesideCells := by
  rw [namesBesideCells, Term.namesBesideCells, Term.names_eq]
  rfl

/-! ## The two list styles -/

/-- Building terms in the legacy and in the canonical list style keeps them alike beside cells. -/
theorem ListStyle.carries_alikeBesideCells :
    ListStyle.Carries .legacy .canonical Term.AlikeBesideCells where
  atom := .atom
  var := .var
  compound name ts us h := by
    apply Term.AlikeBesideCells.compound
    rw [Term.namesBesideCells_compound, Term.namesBesideCells_compound,
      Term.AlikeBesideCells.flatMap_eq h]
  lastCell {t u} h := by
    have hcanonical : (ListStyle.canonical.lastCell u).namesBesideCells = u.namesBesideCells := by
      rw [ListStyle.lastCell, Term.namesBesideCells_cell, List.flatMap_cons, List.flatMap_singleton]
      exact List.append_nil _
    have hnames := h.names_eq.trans hcanonical.symm
    rw [ListStyle.lastCell]
    split
    · -- A last element that is a cell stands for the cell around it and for the end of the list.
      rename_i hcell
      cases h with
      | atom name => cases hcell
      | var name => cases hcell
      | compound _ => exact .compound hnames
    · have hlegacy : (Term.cell [t]).namesBesideCells = t.namesBesideCells := by
        rw [Term.namesBesideCells_cell, List.flatMap_singleton]
      exact .compound (hlegacy.trans hnames)

/-! ## Predicates -/

/-- A text is a predicate in both list styles or has the same fault in both. -/
theorem Settings.sameOutcome_readPredicate_listStyle (operators : OperatorTable)
    (text : List Char) :
    SameOutcome (fun p q => p.namesBesideCells = q.namesBesideCells)
      (Settings.readPredicate ⟨.legacy, operators⟩ text)
      (Settings.readPredicate ⟨.canonical, operators⟩ text) := by
  have hterm : SameOutcome Term.AlikeBesideCells
      (Settings.readTerm ⟨.legacy, operators⟩ (predicateCore text))
      (Settings.readTerm ⟨.canonical, operators⟩ (predicateCore text)) :=
    Settings.sameOutcome_readTerm ListStyle.carries_alikeBesideCells
      (OperatorTable.AgreeOn.refl operators Operator.all) fun _ _ op _ => op.mem_all
  rw [readPredicate, readPredicate]
  split
  · exact .error _
  · apply hterm.bind
    intro t u htu
    cases htu with
    | atom name => exact .ok rfl
    | var name => exact .error _
    | compound hnames =>
      apply SameOutcome.ok
      rw [Predicate.namesBesideCells_eq, Predicate.namesBesideCells_eq]
      exact hnames

/-! ## Programs -/

/-- Two clauses with the same names in the same order in their heads and in every one of their
goals, beside those of cells. -/
structure Clause.AlikeBesideCells (c d : Clause) : Prop where
  head : c.head.namesBesideCells = d.head.namesBesideCells
  length : c.body.length = d.body.length
  body : c.body.map Predicate.namesBesideCells = d.body.map Predicate.namesBesideCells

/-- A program has as many clauses in both list styles, each is read in both or has the same fault in
both, and what is read differs in cells only. -/
theorem Settings.readClauses_listStyle (operators : OperatorTable) (source : List Char) :
    List.Forall₂ (SameOutcome Clause.AlikeBesideCells)
      (Settings.readClauses ⟨.legacy, operators⟩ source)
      (Settings.readClauses ⟨.canonical, operators⟩ source) := by
  apply (sameOutcome_readClauses (sameOutcome_readPredicate_listStyle operators) source).imp
  intro result result' hresult
  apply hresult.mono
  intro c d hcd
  have hbody : c.body.map Predicate.namesBesideCells = d.body.map Predicate.namesBesideCells := by
    rw [← List.forall₂_eq_eq_eq, List.forall₂_map_left_iff, List.forall₂_map_right_iff]
    exact hcd.body
  exact ⟨hcd.head, hcd.body.length_eq, hbody⟩

end HornClauses
