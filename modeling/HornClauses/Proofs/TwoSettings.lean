import HornClauses.Program
import HornClauses.Proofs.ExpressionForm
import HornClauses.Proofs.Outcome
import Mathlib.Data.List.Forall2

/-!
# Reading under two settings

One expression is resolved under two settings, side by side. Nothing but the operators that the
expression is written with decides which fault is found, so tables that agree on these find the same
one. When there is none, the two terms are built alike, and every relation between terms that the
building preserves holds between them.

* `OperatorTable.AgreeOn`: two tables make no difference to some operators.
* `OperatorTable.AgreeOn.resolve`: a chain of operators under two such tables.
* `ListStyle.Carries`: a relation that the building of terms in two list styles preserves.
* `Expression.sameOutcome_toTerm`: an expression under two settings.
* `Settings.sameOutcome_readTerm`, `Settings.sameOutcome_readClauses`: the text of a term, and a
  program.
-/

namespace HornClauses

variable {R : Term → Term → Prop}

/-! ## Tables -/

namespace OperatorTable

/-- The same of these operators are listed in two tables, each that is listed has the same name in
both, and any two that are listed stand in the same order. -/
structure AgreeOn (table other : OperatorTable) (ops : List Operator) : Prop where
  listed : ∀ op ∈ ops, (table.get? op).isSome = (other.get? op).isSome
  name : ∀ op ∈ ops, (table.get? op).isSome → table.nameOf op = other.nameOf op
  order : ∀ op ∈ ops, ∀ o ∈ ops, (table.get? op).isSome → (table.get? o).isSome →
    (table.rank op < table.rank o ↔ other.rank op < other.rank o)

/-- Links of two chains that bear one operator, behind operands that are related. -/
def SameLink (R : Term → Term → Prop) (link link' : Option Term × Operator) : Prop :=
  Option.Rel R link.1 link'.1 ∧ link.2 = link'.2

theorem map_snd_of_sameLink {links links' : List (Option Term × Operator)}
    (h : List.Forall₂ (SameLink R) links links') : links.map Prod.snd = links'.map Prod.snd := by
  induction h with
  | nil => rfl
  | cons hlink _ ih => rw [List.map_cons, List.map_cons, hlink.2, ih]

namespace AgreeOn

variable {table other : OperatorTable} {ops : List Operator}

theorem refl (table : OperatorTable) (ops : List Operator) : table.AgreeOn table ops :=
  ⟨fun _ _ => rfl, fun _ _ _ => rfl, fun _ _ _ _ _ _ => Iff.rfl⟩

theorem mono (h : table.AgreeOn other ops) {chain : List Operator} (hchain : chain ⊆ ops) :
    table.AgreeOn other chain where
  listed op hop := h.listed op (hchain hop)
  name op hop := h.name op (hchain hop)
  order op hop o ho := h.order op (hchain hop) o (hchain ho)

theorem of_cons {op : Operator} (h : table.AgreeOn other (op :: ops)) : table.AgreeOn other ops :=
  h.mono (List.subset_cons_self op ops)

theorem unlisted? (h : table.AgreeOn other ops) : table.unlisted? ops = other.unlisted? ops := by
  induction ops with
  | nil => rfl
  | cons op ops ih =>
    have hop : (table.get? op).isNone = (other.get? op).isNone := by
      rw [← Option.not_isSome, ← Option.not_isSome, h.listed op List.mem_cons_self]
    have hrest : (ops.find? fun o => (table.get? o).isNone) =
        ops.find? fun o => (other.get? o).isNone := ih h.of_cons
    rw [OperatorTable.unlisted?, OperatorTable.unlisted?, List.find?_cons, List.find?_cons, hop,
      hrest]

theorem splitAt {op : Operator} (h : table.AgreeOn other (op :: ops))
    (hlisted : ∀ o ∈ op :: ops, (table.get? o).isSome) :
    table.splitAt op ops = other.splitAt op ops := by
  induction ops generalizing op with
  | nil => rfl
  | cons next rest ih =>
    have hnext : next ∈ op :: next :: rest := by simp
    have hop : op ∈ op :: next :: rest := List.mem_cons_self
    have horder := h.order next hnext op hop (hlisted next hnext) (hlisted op hop)
    have hskip : op :: rest ⊆ op :: next :: rest := by simp
    have hfromNext := ih h.of_cons (List.forall_mem_cons.1 hlisted).2
    have hfromOp := ih (h.mono hskip) fun o ho => hlisted o (hskip ho)
    rw [OperatorTable.splitAt, OperatorTable.splitAt, hfromNext, hfromOp]
    simp only [horder]

theorem conflict? (h : table.AgreeOn other ops) (hlisted : ∀ o ∈ ops, (table.get? o).isSome) :
    table.conflict? ops = other.conflict? ops := by
  induction ops with
  | nil => rfl
  | cons op ops ih =>
    rw [OperatorTable.conflict?, OperatorTable.conflict?, h.splitAt hlisted,
      ih h.of_cons (List.forall_mem_cons.1 hlisted).2]

/-- Operands that are related nest to terms that are related, and the same hole is blamed. -/
theorem nest (hR : ∀ name {left left' right right' : Term}, R left left' → R right right' →
      R (.compound name [left, right]) (.compound name [left', right']))
    {left? : Option Operator} {links links' : List (Option Term × Operator)}
    (h : table.AgreeOn other (links.map Prod.snd))
    (hlisted : ∀ o ∈ links.map Prod.snd, (table.get? o).isSome)
    (hlinks : List.Forall₂ (SameLink R) links links') {last last' : Option Term}
    (hlast : Option.Rel R last last') :
    SameOutcome R (table.nest left? links last) (other.nest left? links' last') := by
  induction hlinks generalizing left? with
  | nil =>
    cases hlast with
    | some hterm => exact .ok hterm
    | none => exact .error left?
  | @cons link link' rest rest' hlink _ ih =>
    obtain ⟨operand, op⟩ := link
    obtain ⟨operand', op'⟩ := link'
    obtain ⟨hoperand, rfl⟩ := hlink
    cases hoperand with
    | none => exact .error _
    | some hleft =>
      have hname := h.name op List.mem_cons_self (hlisted op List.mem_cons_self)
      rw [OperatorTable.nest, OperatorTable.nest, hname]
      exact (ih h.of_cons (List.forall_mem_cons.1 hlisted).2).map fun _ _ => hR _ hleft

/-- A chain has the same fault under both tables, or terms that are related. -/
theorem resolve (hR : ∀ name {left left' right right' : Term}, R left left' → R right right' →
      R (.compound name [left, right]) (.compound name [left', right']))
    {links links' : List (Option Term × Operator)}
    (h : table.AgreeOn other (links.map Prod.snd))
    (hlinks : List.Forall₂ (SameLink R) links links') {last last' : Option Term}
    (hlast : Option.Rel R last last') (source text : String) :
    SameOutcome R (table.resolve source text links last)
      (other.resolve source text links' last') := by
  simp only [OperatorTable.resolve, ← map_snd_of_sameLink hlinks, ← h.unlisted?]
  cases hunlisted : table.unlisted? (links.map Prod.snd) with
  | some op => exact .error _
  | none =>
    have hlisted : ∀ o ∈ links.map Prod.snd, (table.get? o).isSome := by
      intro o ho
      have hnone := List.find?_eq_none.1 hunlisted o ho
      rwa [← Option.not_isSome, Bool.not_eq_true, Bool.not_eq_false'] at hnone
    rw [← h.conflict? hlisted]
    cases table.conflict? (links.map Prod.snd) with
    | some ops => exact .error _
    | none => exact (nest hR h hlisted hlinks hlast).mapError _

end AgreeOn

end OperatorTable

/-! ## Terms -/

/-- A relation between terms of two list styles that holds where the parts are related. -/
structure ListStyle.Carries (style style' : ListStyle) (R : Term → Term → Prop) : Prop where
  atom : ∀ name, R (.atom name) (.atom name)
  var : ∀ name, R (.var name) (.var name)
  compound : ∀ name {ts us : List Term}, List.Forall₂ R ts us →
    R (.compound name ts) (.compound name us)
  lastCell : ∀ {t u : Term}, R t u → R (style.lastCell t) (style'.lastCell u)

namespace ListStyle.Carries

variable {style style' : ListStyle}

theorem eq (style : ListStyle) : style.Carries style Eq where
  atom _ := rfl
  var _ := rfl
  compound _ _ _ h := by
    rw [List.forall₂_eq_eq_eq] at h
    rw [h]
  lastCell h := by rw [h]

theorem operation (hR : style.Carries style' R) (name : String) {left left' right right' : Term}
    (hleft : R left left') (hright : R right right') :
    R (.compound name [left, right]) (.compound name [left', right']) :=
  hR.compound name (.cons hleft (.cons hright .nil))

theorem list (hR : style.Carries style' R) {ts us : List Term} (h : List.Forall₂ R ts us)
    {tail tail' : Option Term} (htail : Option.Rel R tail tail') :
    R (style.list ts tail) (style'.list us tail') := by
  induction h with
  | nil => exact hR.compound cellName .nil
  | @cons t u ts us hfirst hrest ih =>
    cases hrest with
    | nil =>
      cases htail with
      | none => exact hR.lastCell hfirst
      | some hterm => exact hR.operation cellName hfirst hterm
    | cons _ _ => exact hR.operation cellName hfirst ih

theorem tuple (hR : style.Carries style' R) {ts us : List Term} (h : List.Forall₂ R ts us) :
    R (.tuple ts) (.tuple us) := by
  induction h with
  | nil => exact hR.compound pairName .nil
  | @cons t u ts us hfirst hrest ih =>
    cases hrest with
    | nil => exact hfirst
    | cons _ _ => exact hR.operation pairName hfirst ih

end ListStyle.Carries

/-! ## Expressions -/

theorem Expression.mem_tokensOfList_head {e : Expression} {es : List Expression} {t : Token}
    (h : t ∈ e.tokens) : t ∈ tokensOfList (e :: es) := by
  cases es with
  | nil => exact h
  | cons f es =>
    rw [tokensOfList]
    exact List.mem_append_left _ h

theorem Expression.mem_tokensOfList_tail {e : Expression} {es : List Expression} {t : Token}
    (h : t ∈ tokensOfList es) : t ∈ tokensOfList (e :: es) := by
  cases es with
  | nil => cases h
  | cons f es =>
    rw [tokensOfList]
    exact List.mem_append_right _ (List.mem_cons_of_mem _ h)

section TwoSettings

variable {style style' : ListStyle} {table other : OperatorTable} {ops : List Operator}

mutual

theorem Slot.sameOutcome_toTerm (hR : style.Carries style' R) (h : table.AgreeOn other ops)
    (source : String) (slot : Slot) (hops : ∀ op, .operator op ∈ slot.tokens → op ∈ ops) :
    SameOutcome (Option.Rel R) (slot.toTerm ⟨style, table⟩ source)
      (slot.toTerm ⟨style', other⟩ source) := by
  cases slot with
  | hole => exact .ok .none
  | name text => exact .ok (.some (hR.atom text))
  | var text => exact .ok (.some (hR.var text))
  | number text => exact .ok (.some (hR.atom text))
  | symbol text => exact .ok (.some (hR.atom text))
  | compound name args =>
    have hargs := Expression.sameOutcome_toTerms hR h source args fun op hop =>
      hops op (by simp [Slot.tokens, hop])
    rw [Slot.toTerm, Slot.toTerm]
    exact hargs.bind fun _ _ hterms => .ok (.some (hR.compound name hterms))
  | list elements =>
    have helements := Expression.sameOutcome_toTerms hR h source elements fun op hop =>
      hops op (by simp [Slot.tokens, hop])
    rw [Slot.toTerm, Slot.toTerm]
    exact helements.bind fun _ _ hterms => .ok (.some (hR.list hterms .none))
  | listWithTail elements tail =>
    have helements := Expression.sameOutcome_toTerms hR h source elements fun op hop =>
      hops op (by simp [Slot.tokens, hop])
    have htail := Expression.sameOutcome_toTerm hR h source tail fun op hop =>
      hops op (by simp [Slot.tokens, hop])
    rw [Slot.toTerm, Slot.toTerm]
    exact helements.bind fun _ _ hterms =>
      htail.bind fun _ _ hlast => .ok (.some (hR.list hterms (.some hlast)))
  | tuple components =>
    have hcomponents := Expression.sameOutcome_toTerms hR h source components fun op hop =>
      hops op (by simp [Slot.tokens, hop])
    rw [Slot.toTerm, Slot.toTerm]
    exact hcomponents.bind fun _ _ hterms => .ok (.some (hR.tuple hterms))
termination_by structural slot

/-- An expression has the same fault under both settings, or terms that are related. -/
theorem Expression.sameOutcome_toTerm (hR : style.Carries style' R) (h : table.AgreeOn other ops)
    (source : String) (e : Expression) (hops : ∀ op, .operator op ∈ e.tokens → op ∈ ops) :
    SameOutcome R (e.toTerm ⟨style, table⟩ source) (e.toTerm ⟨style', other⟩ source) := by
  obtain ⟨text, links, last⟩ := e
  have hlinks := Expression.sameOutcome_operands hR h source links fun op hop =>
    hops op (by simp [Expression.tokens, hop])
  have hlast := Slot.sameOutcome_toTerm hR h source last fun op hop =>
    hops op (by simp [Expression.tokens, hop])
  rw [Expression.toTerm, Expression.toTerm]
  refine hlinks.bind fun operands _ hoperands => hlast.bind fun _ _ hoperand => ?_
  have hchain := h.mono hoperands.2
  exact hchain.resolve hR.operation hoperands.1 hoperand source text
termination_by structural e

theorem Expression.sameOutcome_toTerms (hR : style.Carries style' R)
    (h : table.AgreeOn other ops) (source : String) (es : List Expression)
    (hops : ∀ op, .operator op ∈ Expression.tokensOfList es → op ∈ ops) :
    SameOutcome (List.Forall₂ R) (Expression.toTerms ⟨style, table⟩ source es)
      (Expression.toTerms ⟨style', other⟩ source es) := by
  cases es with
  | nil => exact .ok .nil
  | cons e es =>
    have hfirst := Expression.sameOutcome_toTerm hR h source e fun op hop =>
      hops op (Expression.mem_tokensOfList_head hop)
    have hrest := Expression.sameOutcome_toTerms hR h source es fun op hop =>
      hops op (Expression.mem_tokensOfList_tail hop)
    rw [Expression.toTerms, Expression.toTerms]
    exact hfirst.bind fun _ _ hterm => hrest.bind fun _ _ hterms => .ok (.cons hterm hterms)
termination_by structural es

theorem Expression.sameOutcome_operands (hR : style.Carries style' R)
    (h : table.AgreeOn other ops) (source : String) (links : List (Slot × Operator))
    (hops : ∀ op, .operator op ∈ Expression.tokensOfLinks links → op ∈ ops) :
    SameOutcome (fun os os' => List.Forall₂ (OperatorTable.SameLink R) os os' ∧
        os.map Prod.snd ⊆ ops) (Expression.operands ⟨style, table⟩ source links)
      (Expression.operands ⟨style', other⟩ source links) := by
  cases links with
  | nil => exact .ok ⟨.nil, by simp⟩
  | cons link links =>
    obtain ⟨slot, op⟩ := link
    have hslot := Slot.sameOutcome_toTerm hR h source slot fun o ho =>
      hops o (by simp [Expression.tokensOfLinks, ho])
    have hrest := Expression.sameOutcome_operands hR h source links fun o ho =>
      hops o (by simp [Expression.tokensOfLinks, ho])
    have hop : op ∈ ops := hops op (by simp [Expression.tokensOfLinks])
    rw [Expression.operands, Expression.operands]
    refine hslot.bind fun _ _ hoperand => hrest.bind fun _ _ hoperands => .ok ⟨?_, ?_⟩
    · exact .cons ⟨hoperand, rfl⟩ hoperands.1
    · exact List.cons_subset.2 ⟨hop, hoperands.2⟩
termination_by structural links

end

namespace Settings

/-! ## Terms and sequences of terms -/

theorem sameOutcome_readTerm (hR : style.Carries style' R) (h : table.AgreeOn other ops)
    {text : List Char} (hops : ∀ e, readExpression text = .ok e →
      ∀ op, .operator op ∈ e.tokens → op ∈ ops) :
    SameOutcome R (readTerm ⟨style, table⟩ text) (readTerm ⟨style', other⟩ text) := by
  rw [readTerm, readTerm]
  cases he : readExpression text with
  | error e => exact .error e
  | ok e => exact Expression.sameOutcome_toTerm hR h _ e (hops e he)

theorem sameOutcome_readTerms (hR : style.Carries style' R) (h : table.AgreeOn other ops)
    {text : List Char} (hops : ∀ es, readExpressions text = .ok es →
      ∀ op, .operator op ∈ Expression.tokensOfList es → op ∈ ops) :
    SameOutcome (List.Forall₂ R) (readTerms ⟨style, table⟩ text)
      (readTerms ⟨style', other⟩ text) := by
  rw [readTerms, readTerms]
  split
  · exact .ok .nil
  · cases hes : readExpressions text with
    | error e => exact .error e
    | ok es => exact Expression.sameOutcome_toTerms hR h _ es (hops es hes)

end Settings

end TwoSettings

/-! ## Clauses and programs -/

/-- The heads are related and so are the goals, one by one. -/
structure Clause.Related (P : Predicate → Predicate → Prop) (c d : Clause) : Prop where
  head : P c.head d.head
  body : List.Forall₂ P c.body d.body

namespace Settings

variable {settings other : Settings} {P : Predicate → Predicate → Prop}

section

variable (h : ∀ goal, SameOutcome P (settings.readPredicate goal) (other.readPredicate goal))

include h

theorem sameOutcome_readGoals (onEmpty : ReadError) (goals : List (List Char)) :
    SameOutcome (List.Forall₂ P) (settings.readGoals onEmpty goals)
      (other.readGoals onEmpty goals) := by
  induction goals with
  | nil => exact .ok .nil
  | cons goal goals ih =>
    rw [readGoals, readGoals]
    split
    · exact .error onEmpty
    · exact (h goal).bind fun _ _ hgoal => ih.bind fun _ _ hrest => .ok (.cons hgoal hrest)

theorem sameOutcome_readHead (malformed : ClauseDefect → ReadError) (head : List Char) :
    SameOutcome P (settings.readHead malformed head) (other.readHead malformed head) := by
  rw [readHead, readHead]
  split
  · exact .error _
  · apply (SameOutcome.refl (fun _ => rfl) (splitGoals head)).bind
    intro pieces _ heq
    subst heq
    split
    · exact .error _
    · exact h head

theorem sameOutcome_readBody (malformed : ClauseDefect → ReadError) (body : Option (List Char)) :
    SameOutcome (List.Forall₂ P) (settings.readBody malformed body)
      (other.readBody malformed body) := by
  cases body with
  | none => exact .ok .nil
  | some body =>
    rw [readBody, readBody]
    split
    · exact .error _
    · apply (SameOutcome.refl (fun _ => rfl) (splitGoals body)).bind
      intro goals _ heq
      subst heq
      exact sameOutcome_readGoals h _ goals

/-- Nothing but its predicates can make a difference to a clause. -/
theorem sameOutcome_readClause (text : List Char) :
    SameOutcome (Clause.Related P) (settings.readClause text) (other.readClause text) := by
  rw [readClause, readClause]
  apply (sameOutcome_readHead h _ _).bind
  intro p q hhead
  apply (sameOutcome_readBody h _ _).bind
  intro ps qs hbody
  exact .ok ⟨hhead, hbody⟩

theorem sameOutcome_readSegmentsFrom (index : Nat) (ss : List Segment) :
    List.Forall₂ (SameOutcome (Clause.Related P)) (settings.readSegmentsFrom index ss)
      (other.readSegmentsFrom index ss) := by
  induction ss generalizing index with
  | nil => exact .nil
  | cons s ss ih => exact .cons ((sameOutcome_readClause h s.text).mapError _) (ih (index + 1))

/-- Two settings under which predicates have the same outcome divide a program into the same clauses
and find the same faults in them. -/
theorem sameOutcome_readClauses (source : List Char) :
    List.Forall₂ (SameOutcome (Clause.Related P)) (settings.readClauses source)
      (other.readClauses source) :=
  sameOutcome_readSegmentsFrom h 0 (segments source)

end

end Settings

end HornClauses
