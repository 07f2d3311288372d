import HornClauses.Proofs.NameTemplate
import HornClauses.Proofs.SurfaceForm
import HornClauses.Term.Subterms
import Mathlib.Data.List.Basic

/-!
# The atoms and variables in the surface form

The elements of a chain of cells are written once its end is found. A chain that ends in a cell with
more than two arguments has no list literal: the last cell is written alone, and the elements before
it are dropped. Everything else of a term is written, whatever its atoms and variables are named.

* `Term.dropped?`: the element that a cell is written without.
* `Term.hasTemplate_surface`: the surface form is a template for the atoms and variables that are
  not dropped.
* `Term.forall_relabel_occurInOrder_iff`: all atoms and variables are written exactly when no
  dropped element has any.
-/

namespace HornClauses

/-! ## Parts of lists -/

section Sublist

variable {α β : Type} {f g : α → List β} {l : List α}

theorem flatMap_sublist_flatMap (h : ∀ a ∈ l, (f a).Sublist (g a)) :
    (l.flatMap f).Sublist (l.flatMap g) := by
  induction l with
  | nil => exact List.Sublist.refl _
  | cons a l ih =>
    obtain ⟨ha, hl⟩ := List.forall_mem_cons.1 h
    rw [List.flatMap_cons, List.flatMap_cons]
    exact ha.append (ih hl)

/-- Parts of two lists join to all of both only if each part is all of its list. -/
theorem append_eq_append_iff_of_sublist {l₁ l₂ r₁ r₂ : List β} (hl : l₁.Sublist l₂)
    (hr : r₁.Sublist r₂) : l₁ ++ r₁ = l₂ ++ r₂ ↔ l₁ = l₂ ∧ r₁ = r₂ := by
  constructor
  · intro h
    have hlength := congrArg List.length h
    rw [List.length_append, List.length_append] at hlength
    have hl' := hl.length_le
    have hr' := hr.length_le
    exact ⟨hl.eq_of_length (by omega), hr.eq_of_length (by omega)⟩
  · rintro ⟨rfl, rfl⟩
    rfl

theorem flatMap_eq_flatMap_iff (h : ∀ a ∈ l, (f a).Sublist (g a)) :
    l.flatMap f = l.flatMap g ↔ ∀ a ∈ l, f a = g a := by
  induction l with
  | nil => simp
  | cons a l ih =>
    obtain ⟨ha, hl⟩ := List.forall_mem_cons.1 h
    rw [List.flatMap_cons, List.flatMap_cons,
      append_eq_append_iff_of_sublist ha (flatMap_sublist_flatMap hl), ih hl, List.forall_mem_cons]

end Sublist

namespace Term

/-! ## Atoms and variables -/

def leafName? : Term → Option String
  | atom name => some name
  | var name => some name
  | compound _ _ => none

/-- The names of the atoms and variables of a term in order. -/
def leaves (t : Term) : List String := t.preorder.filterMap leafName?

mutual

/-- The term with other names for its atoms and variables. -/
def relabel (ρ : String → String) : Term → Term
  | atom name => atom (ρ name)
  | var name => var (ρ name)
  | compound name args => compound name (relabelList ρ args)
termination_by structural t => t

def relabelList (ρ : String → String) : List Term → List Term
  | [] => []
  | t :: ts => relabel ρ t :: relabelList ρ ts
termination_by structural ts => ts

end

variable {t x next : Term} {name : String} {args : List Term} {ρ : String → String}

theorem leaves_compound (name : String) (args : List Term) :
    (compound name args).leaves = args.flatMap leaves := by
  have hlist : ∀ ts : List Term,
      (preorderList ts).filterMap leafName? = ts.flatMap leaves := by
    intro ts
    induction ts with
    | nil => rfl
    | cons t ts ih => rw [preorderList, List.filterMap_append, ih, List.flatMap_cons, leaves]
  exact hlist args

theorem relabelList_eq_map (ts : List Term) : relabelList ρ ts = ts.map (relabel ρ) := by
  induction ts with
  | nil => rfl
  | cons t ts ih => rw [relabelList, ih, List.map_cons]

theorem relabel_compound (name : String) (args : List Term) :
    (compound name args).relabel ρ = compound name (args.map (relabel ρ)) := by
  rw [relabel, relabelList_eq_map]

theorem relabel_cell (args : List Term) :
    (cell args).relabel ρ = cell (args.map (relabel ρ)) :=
  relabel_compound cellName args

theorem relabel_id (t : Term) : t.relabel id = t := by
  induction t using induct with
  | atom name => rfl
  | var name => rfl
  | compound name args ih => rw [relabel_compound, map_eq_self_iff.2 ih]

theorem leaves_relabel (t : Term) : (t.relabel ρ).leaves = t.leaves.map ρ := by
  induction t using induct with
  | atom name => rfl
  | var name => rfl
  | compound name args ih =>
    rw [relabel_compound, leaves_compound, leaves_compound, List.flatMap_map, List.map_flatMap]
    exact List.flatMap_congr ih

theorem isCell_relabel (t : Term) : (t.relabel ρ).isCell = t.isCell := by
  cases t with
  | atom name => rfl
  | var name => rfl
  | compound name args => rw [relabel_compound, isCell, isCell]

theorem isOperation_relabel (t : Term) : (t.relabel ρ).isOperation = t.isOperation := by
  match t with
  | atom name => rfl
  | var name => rfl
  | compound name [] => rfl
  | compound name [_] => rfl
  | compound name [_, _] => rfl
  | compound name (_ :: _ :: _ :: _) => rfl

/-! ## Dropped elements -/

/-- Is a term a chain of cells whose last one has more than two arguments? -/
def isOverfull : Term → Bool
  | compound name [_, next] => name = cellName && next.isOverfull
  | compound name (_ :: _ :: _ :: _) => name = cellName
  | _ => false
termination_by structural t => t

theorem isOverfull_cell_pair (x next : Term) : (cell [x, next]).isOverfull = next.isOverfull := by
  rw [cell, isOverfull, decide_eq_true rfl, Bool.true_and]

theorem isOverfull_of_not_isCell (h : t.isCell = false) : t.isOverfull = false := by
  cases t with
  | atom name => rfl
  | var name => rfl
  | compound name args =>
    have hname : decide (name = cellName) = false := h
    match args with
    | [] => rfl
    | [_] => rfl
    | [_, next] => rw [isOverfull, hname, Bool.false_and]
    | _ :: _ :: _ :: _ => rw [isOverfull, hname]

/-- The element of a cell that is not written, for the chain of cells after it ends in one with more
than two arguments. -/
def dropped? : Term → Option Term
  | compound name [x, next] => if name = cellName && next.isOverfull then some x else none
  | _ => none

theorem dropped?_cell_pair (x next : Term) :
    (cell [x, next]).dropped? = if next.isOverfull then some x else none := by
  rw [cell, dropped?, decide_eq_true rfl, Bool.true_and]

/-- Only a cell before an overfull chain is written without an element. -/
theorem dropped?_eq_some_iff :
    t.dropped? = some x ↔ ∃ next, t = cell [x, next] ∧ next.isOverfull = true := by
  constructor
  · intro h
    unfold dropped? at h
    split at h
    · rename_i name y next
      split at h
      · rename_i hcond
        obtain ⟨hname, hover⟩ := Bool.and_eq_true_iff.1 hcond
        cases h
        exact ⟨next, by rw [of_decide_eq_true hname, cell], hover⟩
      · cases h
    · cases h
  · rintro ⟨next, rfl, hover⟩
    rw [dropped?_cell_pair, if_pos hover]

/-! ## What is shown of a term -/

mutual

/-- The names of the atoms and variables of a term in order, less those in dropped elements. -/
def shownLeaves : Term → List String
  | atom name => [name]
  | var name => [name]
  | compound name args =>
    if (compound name args).dropped?.isSome then (shownLeavesList args).tail.flatten
    else (shownLeavesList args).flatten
termination_by structural t => t

def shownLeavesList : List Term → List (List String)
  | [] => []
  | t :: ts => shownLeaves t :: shownLeavesList ts
termination_by structural ts => ts

end

theorem shownLeavesList_eq_map (ts : List Term) : shownLeavesList ts = ts.map shownLeaves := by
  induction ts with
  | nil => rfl
  | cons t ts ih => rw [shownLeavesList, ih, List.map_cons]

theorem shownLeaves_compound (h : (compound name args).dropped? = none) :
    (compound name args).shownLeaves = args.flatMap shownLeaves := by
  rw [shownLeaves, h, shownLeavesList_eq_map, List.flatMap_def]
  rfl

theorem shownLeaves_cell_pair (h : next.isOverfull = true) :
    (cell [x, next]).shownLeaves = next.shownLeaves := by
  have hdropped : (compound cellName [x, next]).dropped? = some x :=
    dropped?_eq_some_iff.2 ⟨next, rfl, h⟩
  rw [cell, shownLeaves, hdropped, shownLeavesList_eq_map]
  simp

theorem shownLeaves_sublist (t : Term) : t.shownLeaves.Sublist t.leaves := by
  induction t using induct with
  | atom name => exact List.Sublist.refl _
  | var name => exact List.Sublist.refl _
  | compound name args ih =>
    rw [leaves_compound]
    cases h : (compound name args).dropped? with
    | none =>
      rw [shownLeaves_compound h]
      exact flatMap_sublist_flatMap ih
    | some x =>
      obtain ⟨next, hcell, hover⟩ := dropped?_eq_some_iff.1 h
      cases hcell
      rw [← cell, shownLeaves_cell_pair hover]
      simpa using (ih next (by simp)).trans (List.sublist_append_right x.leaves next.leaves)

/-- Nothing is lost of the atoms and variables exactly when no dropped element has any. -/
theorem shownLeaves_eq_leaves_iff :
    t.shownLeaves = t.leaves ↔ ∀ u ∈ t.preorder, ∀ x ∈ u.dropped?, x.leaves = [] := by
  induction t using induct with
  | atom name => simp [preorder, dropped?, shownLeaves, leaves, leafName?]
  | var name => simp [preorder, dropped?, shownLeaves, leaves, leafName?]
  | compound name args ih =>
    rw [forall_mem_preorder, leaves_compound, Term.args]
    cases h : (compound name args).dropped? with
    | none =>
      rw [shownLeaves_compound h, flatMap_eq_flatMap_iff fun t _ => t.shownLeaves_sublist]
      simpa using forall₂_congr ih
    | some x =>
      obtain ⟨next, hcell, hover⟩ := dropped?_eq_some_iff.1 h
      cases hcell
      have hdropped : x.leaves = [] → x.shownLeaves = x.leaves := by
        intro hempty
        have hsublist := x.shownLeaves_sublist
        rw [hempty] at hsublist ⊢
        exact List.sublist_nil.1 hsublist
      have hpair := append_eq_append_iff_of_sublist (List.nil_sublist x.leaves)
        next.shownLeaves_sublist
      rw [List.nil_append, eq_comm (a := [])] at hpair
      rw [← cell, shownLeaves_cell_pair hover, List.flatMap_cons, List.flatMap_singleton, hpair,
        List.forall_mem_cons, List.forall_mem_singleton, ← ih x (by simp), ← ih next (by simp)]
      simp only [Option.mem_some_iff, forall_eq']
      exact and_congr_right fun hempty => (and_iff_right (hdropped hempty)).symm

/-! ## The surface form as a template -/

/-- The text of elements and a last term, as one list if the term is a chain of cells. -/
def chainSurface (before : List String) (t : Term) : String :=
  if t.isCell then surfaceCells before t.args else openCells before t.surface

theorem chainSurface_cell (before : List String) (args : List Term) :
    chainSurface before (cell args) = surfaceCells before args := by
  rw [chainSurface, isCell_cell, if_pos rfl, cell, Term.args]

theorem surfaceCells_pair (before : List String) (x next : Term) :
    surfaceCells before [x, next] = chainSurface (before ++ [x.surface]) next := by
  rw [chainSurface]
  split
  · rename_i h
    obtain ⟨args, rfl⟩ := isCell_iff.1 h
    exact surfaceCells_cell before x args
  · rename_i h
    exact surfaceCells_tail before x (Bool.eq_false_of_not_eq_true h)

/-- Is the surface form of a term a template for what is shown of it? -/
def Shows (t : Term) : Prop := HasTemplate t.shownLeaves fun ρ => (t.relabel ρ).surface

theorem hasTemplate_commaJoin {ts : List Term} (h : ∀ t ∈ ts, t.Shows) :
    HasTemplate (ts.flatMap shownLeaves) fun ρ =>
      commaJoin ((ts.map (relabel ρ)).map surface) := by
  induction ts with
  | nil => exact HasTemplate.const ""
  | cons t ts ih =>
    obtain ⟨ht, hts⟩ := List.forall_mem_cons.1 h
    cases ts with
    | nil =>
      rw [Shows] at ht
      simpa [commaJoin] using ht
    | cons u us =>
      have hcomma := (ht.append_const ", ").append (ih hts)
      simpa [commaJoin, String.intercalate_cons_cons] using hcomma

/-- A name before its arguments shows what the arguments show. -/
theorem hasTemplate_applied (name : String) (h : ∀ t ∈ args, t.Shows) :
    HasTemplate (args.flatMap shownLeaves) fun ρ =>
      name ++ "(" ++ commaJoin ((args.map (relabel ρ)).map surface) ++ ")" :=
  ((hasTemplate_commaJoin h).const_append (name ++ "(")).append_const ")"

theorem hasTemplate_leftSurface (h : t.Shows) :
    HasTemplate t.shownLeaves fun ρ => (t.relabel ρ).leftSurface := by
  simp only [leftSurface, isOperation_relabel]
  split
  · exact (h.const_append "(").append_const ")"
  · exact h

theorem hasTemplate_surfaceCompound (h : ∀ t ∈ args, t.Shows) :
    HasTemplate (args.flatMap shownLeaves) fun ρ =>
      surfaceCompound name (args.map (relabel ρ)) := by
  by_cases hlength : args.length = 2
  · obtain ⟨left, right, rfl⟩ := List.length_eq_two.1 hlength
    have hleft : left.Shows := h left (by simp)
    have hright : right.Shows := h right (by simp)
    have happlied := hasTemplate_applied name h
    rw [List.flatMap_cons, List.flatMap_singleton] at happlied ⊢
    simp only [List.map_cons, List.map_nil, surfaceCompound_pair] at happlied ⊢
    split
    · exact (((hleft.const_append "(").append_const ", ").append hright).append_const ")"
    · split
      · exact ((((hasTemplate_leftSurface hleft).append_const " ").append_const name).append_const
          " ").append hright
      · exact happlied
  · by_cases hne : args = []
    · subst hne
      exact HasTemplate.const name
    · have happlied : ∀ ρ : String → String, surfaceCompound name (args.map (relabel ρ)) =
          name ++ "(" ++ commaJoin ((args.map (relabel ρ)).map surface) ++ ")" := fun ρ =>
        surfaceCompound_applied name (by simpa using hne) (by simpa using hlength)
      simp only [happlied]
      exact hasTemplate_applied name h

theorem shows_of_name_ne_cell (hname : name ≠ cellName) (h : ∀ t ∈ args, t.Shows) :
    (compound name args).Shows := by
  have hdropped : (compound name args).dropped? = none := by
    rw [Option.eq_none_iff_forall_ne_some]
    intro x hx
    obtain ⟨next, hcell, -⟩ := dropped?_eq_some_iff.1 hx
    cases hcell
    exact hname rfl
  rw [Shows, shownLeaves_compound hdropped]
  simp only [relabel_compound, surface_of_name_ne_cell hname]
  exact hasTemplate_surfaceCompound h

/-- What is shown of elements and a last term: nothing of the elements if it is a chain of cells
without a list literal. -/
def shownAfter (before : List Term) (t : Term) : List String :=
  (if t.isOverfull then [] else before.flatMap shownLeaves) ++ t.shownLeaves

theorem shownAfter_of_isOverfull (h : t.isOverfull = true) (before : List Term) :
    shownAfter before t = t.shownLeaves := by
  rw [shownAfter, if_pos h, List.nil_append]

theorem shownAfter_of_not_isOverfull (h : t.isOverfull = false) (before : List Term) :
    shownAfter before t = before.flatMap shownLeaves ++ t.shownLeaves := by
  rw [shownAfter, h, if_neg Bool.false_ne_true]

theorem shownAfter_cell_pair (before : List Term) (x next : Term) :
    shownAfter before (cell [x, next]) = shownAfter (before ++ [x]) next := by
  have hpair := isOverfull_cell_pair x next
  cases h : next.isOverfull with
  | true =>
    rw [shownAfter_of_isOverfull (hpair.trans h), shownAfter_of_isOverfull h,
      shownLeaves_cell_pair h]
  | false =>
    have hdropped : (cell [x, next]).dropped? = none := by
      rw [dropped?_cell_pair, h, if_neg Bool.false_ne_true]
    rw [shownAfter_of_not_isOverfull (hpair.trans h), shownAfter_of_not_isOverfull h, cell,
      shownLeaves_compound hdropped]
    simp

/-- A term after elements, as one list or after a bar, is a template for what is shown of both. -/
def ShowsAfter (t : Term) : Prop :=
  ∀ before : List Term, (∀ b ∈ before, b.Shows) →
    HasTemplate (shownAfter before t) fun ρ =>
      chainSurface ((before.map (relabel ρ)).map surface) (t.relabel ρ)

theorem showsAfter_of_not_isCell (hcell : t.isCell = false) (h : t.Shows) : t.ShowsAfter := by
  intro before hbefore
  rw [shownAfter_of_not_isOverfull (isOverfull_of_not_isCell hcell)]
  simp only [chainSurface, isCell_relabel, hcell, Bool.false_eq_true, if_false, openCells]
  have helements := ((hasTemplate_commaJoin hbefore).const_append "[").append_const " | "
  exact (helements.append h).append_const "]"

/-- The end of the chain decides what becomes of the elements before it. -/
theorem showsAfter_cell (h : ∀ t ∈ args, t.Shows ∧ t.ShowsAfter) : (cell args).ShowsAfter := by
  intro before hbefore
  simp only [relabel_cell, chainSurface_cell]
  match args with
  | [] =>
    have hnil : (cell []).isOverfull = false := rfl
    have hshown : (cell []).shownLeaves = [] := rfl
    rw [shownAfter_of_not_isOverfull hnil, hshown, List.append_nil]
    exact ((hasTemplate_commaJoin hbefore).const_append "[").append_const "]"
  | [last] =>
    have hlast : (cell [last]).isOverfull = false := rfl
    have hdropped : (cell [last]).dropped? = none := rfl
    have hall : ∀ b ∈ before ++ [last], b.Shows := by
      simpa [or_imp, forall_and] using ⟨hbefore, (h last (by simp)).1⟩
    have helements := ((hasTemplate_commaJoin hall).const_append "[").append_const "]"
    rw [shownAfter_of_not_isOverfull hlast, cell, shownLeaves_compound hdropped,
      ← List.flatMap_append]
    simp only [List.map_append, List.map_cons, List.map_nil] at helements ⊢
    exact helements
  | [x, next] =>
    have hall : ∀ b ∈ before ++ [x], b.Shows := by
      simpa [or_imp, forall_and] using ⟨hbefore, (h x (by simp)).1⟩
    have hafter := (h next (by simp)).2 (before ++ [x]) hall
    rw [shownAfter_cell_pair]
    simp only [List.map_append, List.map_cons, List.map_nil, surfaceCells_pair] at hafter ⊢
    exact hafter
  | x :: y :: z :: ts =>
    have hmany : (cell (x :: y :: z :: ts)).isOverfull = true := by
      rw [cell, isOverfull]
      exact decide_eq_true rfl
    have hdropped : (cell (x :: y :: z :: ts)).dropped? = none := rfl
    rw [shownAfter_of_isOverfull hmany, cell, shownLeaves_compound hdropped]
    simp only [List.map_cons, surfaceCells_many]
    exact hasTemplate_applied cellName fun t ht => (h t ht).1

theorem shows_cell (h : (cell args).ShowsAfter) : (cell args).Shows := by
  have hnil := h [] (by simp)
  rw [shownAfter, List.flatMap_nil, ite_self, List.nil_append] at hnil
  simp only [List.map_nil, relabel_cell, chainSurface_cell] at hnil
  simpa only [Shows, relabel_cell, surface_cell] using hnil

theorem shows_and_showsAfter (t : Term) : t.Shows ∧ t.ShowsAfter := by
  -- The elements before a chain of cells grow while it is written, so both parts are carried along.
  induction t using induct with
  | atom name =>
    have hshows : (atom name).Shows := HasTemplate.name name
    exact ⟨hshows, showsAfter_of_not_isCell rfl hshows⟩
  | var name =>
    have hshows : (var name).Shows := HasTemplate.name name
    exact ⟨hshows, showsAfter_of_not_isCell rfl hshows⟩
  | compound name args ih =>
    by_cases hname : name = cellName
    · subst hname
      have hafter := showsAfter_cell ih
      exact ⟨shows_cell hafter, hafter⟩
    · have hshows := shows_of_name_ne_cell hname fun t ht => (ih t ht).1
      exact ⟨hshows, showsAfter_of_not_isCell (by simpa [isCell] using hname) hshows⟩

/-- The surface form of a term is a template for the atoms and variables that are not dropped. -/
theorem hasTemplate_surface (t : Term) :
    HasTemplate t.shownLeaves fun ρ => (t.relabel ρ).surface :=
  t.shows_and_showsAfter.1

/-! ## What is written of a term -/

/-- The atoms and variables of a term are written one after another, but for those in dropped
elements. -/
theorem occurInOrder_shownLeaves (t : Term) : OccurInOrder t.shownLeaves t.surface.toList := by
  obtain ⟨template, hplaces, hfill⟩ := t.hasTemplate_surface
  have hid : t.surface.toList = template.fill id := by simpa only [relabel_id] using hfill id
  rw [hid, ← hplaces]
  simpa only [List.map_id] using template.occurInOrder_fill id

/-- The surface form of a term has the names of all its atoms and variables one after another,
whatever they are, exactly when no element that the term drops has an atom or a variable. -/
theorem forall_relabel_occurInOrder_iff (t : Term) :
    (∀ ρ, OccurInOrder (t.relabel ρ).leaves (t.relabel ρ).surface.toList) ↔
      ∀ u ∈ t.preorder, ∀ x ∈ u.dropped?, x.leaves = [] := by
  obtain ⟨template, hplaces, hfill⟩ := t.hasTemplate_surface
  rw [← shownLeaves_eq_leaves_iff]
  constructor
  · intro h
    simp only [leaves_relabel, hfill] at h
    have hlength := template.length_le_of_occurInOrder h
    rw [hplaces] at hlength
    exact t.shownLeaves_sublist.eq_of_length_le hlength
  · intro h ρ
    rw [leaves_relabel, hfill, ← h, ← hplaces]
    exact template.occurInOrder_fill ρ

/-- The cell before a cell with three arguments is written without its element. -/
theorem not_occurInOrder_overfull : ¬∀ t : Term, OccurInOrder t.leaves t.surface.toList := by
  intro h
  have hsublist := (h (cell [atom "a", cell [atom "x", atom "y", atom "z"]])).sublist
  revert hsublist
  decide

end Term

end HornClauses
