import HornClauses.Proofs.ExpressionTerm
import HornClauses.Proofs.Layout
import HornClauses.Proofs.Readable
import HornClauses.Proofs.SurfaceForm
import Mathlib.Data.List.Forall2

/-!
# Surface forms as expressions

The surface form of a readable term is a layout of the tokens of an expression. That expression has a
term when no operation in the readable term is disordered, and the term is then the readable one with
the end of every list in the way of the list style.

* `Term.Spelling`: an expression that a term is written as, and its term.
* `Term.SlotSpelling`: the same of an operand.
* `Term.Spelling.operation`: an operation is the chain of its left operand and its right argument.
* `Term.Readable.spelling`: every readable term is written as an expression.
-/

namespace HornClauses

namespace Term

variable {style : ListStyle}

/-- A text writes an operand whose term is the given one up to the ends of lists. -/
structure SlotSpelling (style : ListStyle) (t : Term) (text : String) (slot : Slot) : Prop where
  wellFormed : slot.WellFormed
  layout : Layout text.toList slot.tokens
  toTerm : ∀ source u, slot.toTerm ⟨style, .standard⟩ source = .ok (some u) ↔
    t.IsOrdered ∧ u = t.reread style

/-- The surface form writes an expression whose term is the given one up to the ends of lists. -/
structure Spelling (style : ListStyle) (t : Term) (e : Expression) : Prop where
  wellFormed : e.WellFormed
  layout : Layout t.surface.toList e.tokens
  operators : e.operators.head? = t.operator?
  toTerm : ∀ source u, e.toTerm ⟨style, .standard⟩ source = .ok u ↔
    t.IsOrdered ∧ u = t.reread style

def Spellable (style : ListStyle) (t : Term) : Prop := ∃ e, Spelling style t e

theorem SlotSpelling.spelling {t : Term} {slot : Slot} (h : SlotSpelling style t t.surface slot)
    (ht : t.operator? = none) : Spelling style t (.chain "" [] slot) where
  wellFormed := .chain (by simp) h.wellFormed
  layout := by
    rw [Expression.tokens, Expression.tokensOfLinks, List.nil_append]
    exact h.layout
  operators := ht.symm
  toTerm source u := by
    rw [Expression.toTerm_single]
    exact h.toTerm source u

/-! ## Atoms and variables -/

theorem spelling_leaf {t : Term} (slot : Slot) (hslot : slot.WellFormed)
    (hlayout : Layout t.surface.toList slot.tokens)
    (hterm : ∀ source, slot.toTerm ⟨style, .standard⟩ source = .ok (some t))
    (hop : t.operator? = none) (hordered : t.IsOrdered) (hreread : t.reread style = t) :
    Spellable style t := by
  refine ⟨_, SlotSpelling.spelling ⟨hslot, hlayout, fun source u => ?_⟩ hop⟩
  rw [hterm, Except.ok.injEq, Option.some.injEq, hreread, eq_comm, and_iff_right hordered]

theorem spelling_atom {name : String} (h : Token.IsAtom name) :
    Spellable style (.atom name) := by
  rcases h with h | h | h
  · exact spelling_leaf (.name name) (.name h) (Layout.one (t := .name name) h)
      (fun _ => rfl) rfl (isOrdered_atom name) (reread_atom name)
  · exact spelling_leaf (.number name) (.number h) (Layout.one (t := .number name) h)
      (fun _ => rfl) rfl (isOrdered_atom name) (reread_atom name)
  · exact spelling_leaf (.symbol name) (.symbol h) (Layout.one (t := .symbol name) h)
      (fun _ => rfl) rfl (isOrdered_atom name) (reread_atom name)

theorem spelling_var {name : String} (h : Token.IsVariable name) :
    Spellable style (.var name) :=
  spelling_leaf (.var name) (.var h) (Layout.one (t := .var name) h) (fun _ => rfl) rfl
    (isOrdered_var name) (reread_var name)

/-! ## Terms between commas -/

def SpellingAll (style : ListStyle) (ts : List Term) (es : List Expression) : Prop :=
  List.Forall₂ (Spelling style) ts es

namespace SpellingAll

variable {ts : List Term} {es : List Expression}

theorem exists_of_forall (h : ∀ t ∈ ts, Spellable style t) : ∃ es, SpellingAll style ts es := by
  induction ts with
  | nil => exact ⟨[], .nil⟩
  | cons t ts ih =>
    rw [List.forall_mem_cons] at h
    obtain ⟨e, he⟩ := h.1
    obtain ⟨es, hes⟩ := ih h.2
    exact ⟨e :: es, .cons he hes⟩

theorem ne_nil (h : SpellingAll style ts es) (hts : ts ≠ []) : es ≠ [] := by
  cases h with
  | nil => exact absurd rfl hts
  | cons _ _ => simp

theorem wellFormed (h : SpellingAll style ts es) : ∀ e ∈ es, e.WellFormed := by
  induction h with
  | nil => simp
  | cons he _ ih => exact List.forall_mem_cons.2 ⟨he.wellFormed, ih⟩

theorem layout (h : SpellingAll style ts es) (hts : ts ≠ []) :
    Layout (commaJoin (ts.map surface)).toList (Expression.tokensOfList es) := by
  induction h with
  | nil => exact absurd rfl hts
  | @cons t e ts es he hes ih =>
    cases hes with
    | nil =>
      rw [Expression.tokensOfList]
      simpa [commaJoin] using he.layout
    | @cons t' e' ts es he' hes =>
      have hjoin : (commaJoin ((t :: t' :: ts).map surface)).toList =
          t.surface.toList ++ ',' :: ' ' :: (commaJoin ((t' :: ts).map surface)).toList := by
        simp [commaJoin]
      rw [hjoin, Expression.tokensOfList]
      exact he.layout.separated (ih (by simp))

theorem toTerms (h : SpellingAll style ts es) (source : String) (us : List Term) :
    Expression.toTerms ⟨style, .standard⟩ source es = .ok us ↔
      (∀ t ∈ ts, t.IsOrdered) ∧ us = ts.map (reread style) := by
  induction h generalizing us with
  | nil => simp [Expression.toTerms_nil]
  | cons he _ ih =>
    simp only [Expression.toTerms_cons, he.toTerm, ih, List.forall_mem_cons, List.map_cons]
    constructor
    · rintro ⟨u, ⟨ht, rfl⟩, us, ⟨hts, rfl⟩, rfl⟩
      exact ⟨⟨ht, hts⟩, rfl⟩
    · rintro ⟨⟨ht, hts⟩, rfl⟩
      exact ⟨_, ⟨ht, rfl⟩, _, ⟨hts, rfl⟩, rfl⟩

end SpellingAll

/-! ## Compounds and pairs -/

/-- A compound is what its arguments are put together as. -/
theorem SpellingAll.compound_iff {name : String} {args : List Term} {es : List Expression}
    (hes : SpellingAll style args es) (hop : (compound name args).operator? = none)
    (hempty : (compound name args).endsEmpty = false) {f : List Term → Term}
    (hf : f (args.map (reread style)) = compound name (args.map (reread style)))
    (source : String) (u : Term) :
    (∃ us, Expression.toTerms ⟨style, .standard⟩ source es = .ok us ∧ some (f us) = some u) ↔
      (compound name args).IsOrdered ∧ u = (compound name args).reread style := by
  rw [isOrdered_of_operator? hop, reread_compound hempty, ← hf]
  simp only [hes.toTerms, Option.some.injEq]
  constructor
  · rintro ⟨us, ⟨hordered, rfl⟩, rfl⟩
    exact ⟨hordered, rfl⟩
  · rintro ⟨hordered, rfl⟩
    exact ⟨_, ⟨hordered, rfl⟩, rfl⟩

theorem spelling_compound {name : String} (h : Token.IsName name) {args : List Term}
    (hne : args ≠ []) (hargs : ∀ t ∈ args, Spellable style t) :
    Spellable style (.compound name args) := by
  obtain ⟨es, hes⟩ := SpellingAll.exists_of_forall hargs
  have hop : (compound name args).operator? = none := operator?_compound h.not_mem_standard args
  have hempty : (compound name args).endsEmpty = false := by
    rw [← Bool.not_eq_true, endsEmpty_iff]
    rintro ⟨x, hx⟩
    cases hx
    exact h.ne_cellName rfl
  have hslot : SlotSpelling style (.compound name args) (compound name args).surface
      (.compound name es) := by
    refine ⟨.compound h (hes.ne_nil hne) hes.wellFormed, ?_, fun source u => ?_⟩
    · rw [surface_compound h hne, Slot.tokens]
      have hlayout := (Layout.one (t := .name name) h).glue (hes.layout hne).parenthesized
        (Or.inr ⟨_, _, rfl, rfl⟩)
      simpa [Token.text] using hlayout
    · rw [Slot.toTerm_compound]
      exact hes.compound_iff hop hempty rfl source u
  exact ⟨_, hslot.spelling hop⟩

theorem spelling_pair {left right : Term} (hl : Spellable style left)
    (hr : Spellable style right) : Spellable style (.pair left right) := by
  have hargs : ∀ t ∈ [left, right], Spellable style t := by simp [hl, hr]
  obtain ⟨es, hes⟩ := SpellingAll.exists_of_forall hargs
  have hop := operator?_pair left right
  have hempty : (pair left right).endsEmpty = false := by
    rw [← Bool.not_eq_true, endsEmpty_iff]
    rintro ⟨x, hx⟩
    injection hx with hname
    exact absurd hname (by decide)
  have hslot : SlotSpelling style (pair left right) (pair left right).surface (.tuple es) := by
    refine ⟨.tuple (hes.ne_nil (by simp)) hes.wellFormed, ?_, fun source u => ?_⟩
    · rw [surface_pair, Slot.tokens]
      simpa [commaJoin] using (hes.layout (by simp)).parenthesized
    · rw [Slot.toTerm_tuple]
      exact hes.compound_iff (f := Term.tuple) hop hempty rfl source u
  exact ⟨_, hslot.spelling hop⟩

/-! ## Operations -/

/-- The surface form decides by its characters what is an operation. -/
theorem isOperation_eq {t : Term} (h : t.Readable style) : t.isOperation = t.operator?.isSome := by
  cases h with
  | atom _ => rfl
  | var _ => rfl
  | @compound name args hname hne hargs =>
    rw [operator?_compound hname.not_mem_standard args]
    unfold isOperation
    split
    · rename_i heq
      cases heq
      exact hname.isOperatorName_eq_false
    · rfl
  | pair hl hr =>
    rw [operator?_pair]
    rfl
  | operation hop hl hr =>
    rw [operator?_operation hop]
    exact isOperatorName_token hop
  | nil => rfl
  | cell hl hr =>
    rw [operator?_cell]
    rfl
  | last _ _ _ => rfl

/-- A left operand is the slot of its expression, or the expression in parentheses. -/
theorem Spelling.leftOperand {t : Term} {e : Expression} (he : Spelling style t e)
    (ht : t.isOperation = t.operator?.isSome) :
    ∃ slot, SlotSpelling style t t.leftSurface slot := by
  cases hop : t.operator? with
  | some op =>
    rw [hop] at ht
    refine ⟨.tuple [e], .tuple (by simp) (by simp [he.wellFormed]), ?_, fun source u => ?_⟩
    · rw [leftSurface, ht, Slot.tokens, Expression.tokensOfList]
      simpa using he.layout.parenthesized
    · rw [Slot.toTerm_tuple, ← he.toTerm source u]
      simp only [Expression.toTerms_cons, Expression.toTerms_nil]
      constructor
      · rintro ⟨_, ⟨v, hv, _, rfl, rfl⟩, heq⟩
        cases heq
        exact hv
      · intro hu
        exact ⟨[u], ⟨u, hu, [], rfl, rfl⟩, rfl⟩
  | none =>
    rw [hop] at ht
    obtain ⟨text, links, last⟩ := e
    have hlinks : links = [] := by
      have hhead := he.operators
      rw [hop, List.head?_eq_none_iff] at hhead
      exact List.map_eq_nil_iff.1 hhead
    subst hlinks
    refine ⟨last, ?_, ?_, fun source u => ?_⟩
    · cases he.wellFormed with
      | chain _ hlast => exact hlast
    · rw [leftSurface, ht]
      exact he.layout
    · rw [← he.toTerm source u, Expression.toTerm_single]

/-- The right argument fits behind an operator when its own operator does not come first. -/
theorem forall_rank_le_iff {op : Operator} (hop : op ≠ .div) (left : Term) {right : Term}
    {ops : List Operator} (hhead : ops.head? = right.operator?)
    (hops : ops.Pairwise fun op o =>
      OperatorTable.standard.rank op ≤ OperatorTable.standard.rank o) :
    (∀ o ∈ ops, OperatorTable.standard.rank op ≤ OperatorTable.standard.rank o) ↔
      (compound op.token [left, right]).isDisordered = false := by
  rw [isDisordered, operator?_operation hop]
  cases ops with
  | nil =>
    rw [← hhead]
    simp
  | cons inner ops =>
    rw [← hhead, List.forall_mem_cons]
    have hrest := (List.pairwise_cons.1 hops).1
    simp only [List.head?_cons, decide_eq_false_iff_not, Nat.not_lt]
    exact ⟨fun h => h.1, fun h => ⟨h, fun o ho => Nat.le_trans h (hrest o ho)⟩⟩

theorem spelling_operation {op : Operator} (hop : op ≠ .div) {left right : Term}
    (hleft : left.isOperation = left.operator?.isSome) (hl : Spellable style left)
    (hr : Spellable style right) : Spellable style (.compound op.token [left, right]) := by
  obtain ⟨el, hel⟩ := hl
  obtain ⟨slot, hslot⟩ := hel.leftOperand hleft
  obtain ⟨⟨text, links, last⟩, her⟩ := hr
  have hempty : (compound op.token [left, right]).endsEmpty = false := by
    rw [← Bool.not_eq_true, endsEmpty_iff]
    rintro ⟨x, hx⟩
    injection hx with hname
    cases op <;> exact absurd hname (by decide)
  have hname := OperatorTable.nameOf_standard_of_ne_div hop
  have hlisted := OperatorTable.isSome_get?_standard op
  refine ⟨.chain text ((slot, op) :: links) last, ?_, ?_, ?_, fun source u => ?_⟩
  · cases her.wellFormed with
    | chain hlinks hlast => exact .chain (List.forall_mem_cons.2 ⟨hslot.wellFormed, hlinks⟩) hlast
  · have hlayout := hslot.layout.space ((Layout.one (t := .operator op) trivial).space her.layout)
    rw [surface_operation hop]
    simpa [Expression.tokens, Expression.tokensOfLinks, Token.text] using hlayout
  · rw [operator?_operation hop]
    rfl
  · have hrank := fun h : (Expression.chain text links last).toTerm ⟨style, .standard⟩ source =
        .ok (right.reread style) =>
      forall_rank_le_iff hop left her.operators (Expression.pairwise_of_toTerm h)
    rw [Expression.toTerm_cons, isOrdered_compound, reread_compound hempty, hname]
    simp only [hslot.toTerm, List.forall_mem_cons]
    constructor
    · rintro ⟨-, hle, _, right', ⟨hleft, rfl⟩, hright, rfl⟩
      obtain ⟨hordered, rfl⟩ := (her.toTerm source right').1 hright
      exact ⟨⟨(hrank hright).1 hle, hleft, hordered, by simp⟩, rfl⟩
    · rintro ⟨⟨hself, hleft, hordered, -⟩, rfl⟩
      have hright := (her.toTerm source (right.reread style)).2 ⟨hordered, rfl⟩
      exact ⟨hlisted, (hrank hright).2 hself, _, _, ⟨hleft, rfl⟩, hright, rfl⟩

/-! ## Lists -/

/-- Cells in front of a term, one for each element. -/
def cells (front : List Term) (t : Term) : Term := front.foldr (fun x y => cell [x, y]) t

theorem cells_append (front : List Term) (x t : Term) :
    cells (front ++ [x]) t = cells front (cell [x, t]) := by
  simp [cells]

theorem isOrdered_cell {args : List Term} : (cell args).IsOrdered ↔ ∀ t ∈ args, t.IsOrdered :=
  isOrdered_of_operator? (operator?_cell args)

theorem isOrdered_cells {front : List Term} {t : Term} :
    (cells front t).IsOrdered ↔ (∀ x ∈ front, x.IsOrdered) ∧ t.IsOrdered := by
  induction front with
  | nil => simp [cells]
  | cons x front ih =>
    have hcons : cells (x :: front) t = cell [x, cells front t] := rfl
    rw [hcons, isOrdered_cell, List.forall_mem_cons, List.forall_mem_singleton, ih,
      List.forall_mem_cons, and_assoc]

theorem reread_cell {x y : Term} (hy : y ≠ nil) :
    (cell [x, y]).reread style = cell [x.reread style, y.reread style] := by
  apply reread_compound
  rw [← Bool.not_eq_true, endsEmpty_iff]
  rintro ⟨x', hx⟩
  cases hx
  exact hy rfl

theorem reread_cells {front : List Term} {t : Term} (ht : t ≠ nil) :
    (cells front t).reread style = cells (front.map (reread style)) (t.reread style) := by
  induction front with
  | nil => rfl
  | cons x front ih =>
    have hne : cells front t ≠ nil := by
      cases front with
      | nil => exact ht
      | cons y front => simp [cells, cell, nil]
    have hcons : cells (x :: front) t = cell [x, cells front t] := rfl
    rw [hcons, reread_cell hne, ih]
    rfl

theorem list_some (style : ListStyle) {ts : List Term} (hts : ts ≠ []) (u : Term) :
    style.list ts (some u) = cells ts u := by
  induction ts with
  | nil => exact absurd rfl hts
  | cons t ts ih =>
    cases ts with
    | nil => rfl
    | cons t' ts =>
      rw [ListStyle.list, ih (by simp)]
      rfl

theorem list_none (style : ListStyle) (ts : List Term) (u : Term) :
    style.list (ts ++ [u]) none = cells ts (style.lastCell u) := by
  cases ts with
  | nil => rfl
  | cons t ts =>
    rw [style.list_append (by simp) (by simp), list_some style (by simp)]
    rfl

/-- Cells can be written, also behind other elements of a list. -/
def ListSpellable (style : ListStyle) (args : List Term) : Prop :=
  ∀ front, (∀ x ∈ front, Spellable style x) →
    ∃ slot,
      SlotSpelling style (cells front (cell args)) (surfaceCells (front.map surface) args) slot

theorem ListSpellable.spellable {args : List Term} (h : ListSpellable style args) :
    Spellable style (cell args) := by
  obtain ⟨slot, hslot⟩ := h [] (by simp)
  have hs : SlotSpelling style (cell args) (cell args).surface slot := by
    rw [surface_cell]
    exact hslot
  exact ⟨_, hs.spelling (operator?_cell args)⟩

theorem forall_mem_snoc {front : List Term} {x : Term} (hfront : ∀ t ∈ front, Spellable style t)
    (hx : Spellable style x) : ∀ t ∈ front ++ [x], Spellable style t :=
  List.forall_mem_append.2 ⟨hfront, List.forall_mem_singleton.2 hx⟩

/-- A list without a tail ends in the way of the list style. -/
theorem slotSpelling_list {front : List Term} {x last : Term} {text : String}
    (hall : ∀ t ∈ front ++ [x], Spellable style t)
    (htext : text = "[" ++ commaJoin ((front ++ [x]).map surface) ++ "]")
    (hordered : last.IsOrdered ↔ x.IsOrdered) (hne : last ≠ nil)
    (hlast : last.reread style = style.lastCell (x.reread style)) :
    ∃ slot, SlotSpelling style (cells front last) text slot := by
  obtain ⟨es, hes⟩ := SpellingAll.exists_of_forall hall
  have hlayout := hes.layout (by simp)
  refine ⟨.list es, .list hlayout.ne_nil hes.wellFormed, ?_, fun source u => ?_⟩
  · rw [htext, Slot.tokens]
    simpa using hlayout.bracketed
  · rw [Slot.toTerm_list, isOrdered_cells, hordered, reread_cells hne, hlast]
    simp only [hes.toTerms, List.forall_mem_append, List.forall_mem_singleton, List.map_append,
      List.map_singleton]
    constructor
    · rintro ⟨us, ⟨hxs, rfl⟩, heq⟩
      cases heq
      exact ⟨hxs, list_none style _ _⟩
    · rintro ⟨hxs, rfl⟩
      exact ⟨_, ⟨hxs, rfl⟩, congrArg some (list_none style _ _)⟩

/-- An empty list at the end of a chain of cells is not written. -/
theorem listSpellable_nil : ListSpellable style [] := by
  intro front hfront
  have hnil : nil.IsOrdered := isOrdered_cell.2 (by simp)
  rcases List.eq_nil_or_concat' front with rfl | ⟨front, x, rfl⟩
  · refine ⟨.list [], .nil, ?_, fun source u => ?_⟩
    · exact (Layout.one (t := .openBracket) trivial).glue (Layout.one (t := .closeBracket) trivial)
        (Or.inl ⟨[], .openBracket, rfl, rfl⟩)
    · have hcells : cells [] (cell []) = nil := rfl
      rw [Slot.toTerm_list, hcells, reread_nil, and_iff_right hnil]
      simp only [Expression.toTerms_nil, exists_eq_left]
      rw [ListStyle.list, Option.some.injEq, eq_comm]
  · have hordered : (cell [x, nil]).IsOrdered ↔ x.IsOrdered := by
      rw [isOrdered_cell, List.forall_mem_cons, List.forall_mem_singleton, and_iff_left hnil]
    rw [cells_append]
    exact slotSpelling_list hfront rfl hordered (by simp [cell, nil]) (reread_cell_nil x)

/-- The one argument of the last cell of a legacy list is its last element. -/
theorem listSpellable_last {x : Term} (hx : x.isCell = false) (hs : Spellable .legacy x) :
    ListSpellable .legacy [x] := by
  intro front hfront
  have hordered : (cell [x]).IsOrdered ↔ x.IsOrdered := by
    rw [isOrdered_cell, List.forall_mem_singleton]
  have htext : surfaceCells (front.map surface) [x] =
      "[" ++ commaJoin ((front ++ [x]).map surface) ++ "]" := by
    rw [surfaceCells, List.map_append, List.map_singleton]
  have hterm : (cell [x]).reread .legacy = cell [x.reread .legacy] := reread_compound rfl
  refine slotSpelling_list (forall_mem_snoc hfront hs) htext hordered (by simp [cell, nil]) ?_
  rw [hterm, ListStyle.lastCell, isCell_reread, hx]
  rfl

/-- A list with a tail that is no list. -/
theorem listSpellable_tail {x tail : Term} (htail : tail.isCell = false)
    (hs : Spellable style x) (ht : Spellable style tail) : ListSpellable style [x, tail] := by
  intro front hfront
  obtain ⟨es, hes⟩ := SpellingAll.exists_of_forall (forall_mem_snoc hfront hs)
  obtain ⟨e, he⟩ := ht
  have hlayout := hes.layout (by simp)
  have hne : tail ≠ nil := by
    rintro rfl
    cases htail
  refine ⟨.listWithTail es e, .listWithTail (hes.ne_nil (by simp)) hes.wellFormed he.wellFormed, ?_,
    fun source u => ?_⟩
  · rw [surfaceCells_tail _ _ htail, Slot.tokens]
    have hbar := (Layout.one (t := .bar) trivial).space he.layout
    simpa [openCells, Token.text] using (hlayout.space hbar).bracketed
  · rw [Slot.toTerm_listWithTail, ← cells_append, isOrdered_cells, reread_cells hne]
    simp only [hes.toTerms, he.toTerm]
    constructor
    · rintro ⟨us, ⟨hxs, rfl⟩, v, ⟨htail, rfl⟩, heq⟩
      cases heq
      exact ⟨⟨hxs, htail⟩, list_some style (by simp) _⟩
    · rintro ⟨⟨hxs, htail⟩, rfl⟩
      exact ⟨_, ⟨hxs, rfl⟩, _, ⟨htail, rfl⟩, congrArg some (list_some style (by simp) _)⟩

/-- A list goes on with the elements of its tail if that is a list. -/
theorem listSpellable_cell {x : Term} {args : List Term} (hs : Spellable style x)
    (hargs : ListSpellable style args) : ListSpellable style [x, cell args] := by
  intro front hfront
  have hslot := hargs (front ++ [x]) (forall_mem_snoc hfront hs)
  rwa [cells_append, List.map_append, List.map_singleton, ← surfaceCells_cell] at hslot

/-! ## All readable terms -/

/-- Readable terms can be written, and cells also behind other elements of a list. -/
theorem spellable_of_readable {t : Term} (h : t.Readable style) :
    Spellable style t ∧ ∀ args, t = cell args → ListSpellable style args := by
  -- A cell is written as a list, so the second part is the one to prove for it.
  have hlist : ∀ {args : List Term}, ListSpellable style args →
      Spellable style (cell args) ∧
        ∀ args', cell args = cell args' → ListSpellable style args' := by
    intro args hargs
    refine ⟨hargs.spellable, ?_⟩
    rintro args' heq
    cases heq
    exact hargs
  induction h with
  | atom hatom => exact ⟨spelling_atom hatom, by rintro _ ⟨⟩⟩
  | var hvar => exact ⟨spelling_var hvar, by rintro _ ⟨⟩⟩
  | @compound name args hname hne _ ih =>
    refine ⟨spelling_compound hname hne fun t ht => (ih t ht).1, ?_⟩
    intro args' heq
    injection heq with hcellname
    exact absurd hcellname hname.ne_cellName
  | pair _ _ ihl ihr =>
    refine ⟨spelling_pair ihl.1 ihr.1, ?_⟩
    intro args' heq
    injection heq with hcellname
    exact absurd hcellname (by decide)
  | @operation op left right hop hl hr ihl ihr =>
    refine ⟨spelling_operation hop (isOperation_eq hl) ihl.1 ihr.1, ?_⟩
    intro args' heq
    injection heq with hcellname
    cases op <;> exact absurd hcellname (by decide)
  | nil => exact hlist listSpellable_nil
  | @cell first rest _ _ ihfirst ihrest =>
    cases hc : rest.isCell with
    | false => exact hlist (listSpellable_tail hc ihfirst.1 ihrest.1)
    | true =>
      obtain ⟨args, rfl⟩ := isCell_iff.1 hc
      exact hlist (listSpellable_cell ihfirst.1 (ihrest.2 args rfl))
  | last hstyle hc _ ih =>
    subst hstyle
    exact hlist (listSpellable_last hc ih.1)

end Term

end HornClauses
