import HornClauses.Proofs.ChainResolution
import HornClauses.Proofs.ExpressionForm

/-!
# When an expression has a term

An expression has a term when all its parts have and its chain of operators resolves. The texts that
an expression carries and the text that it is read from occur in errors only.

* `Expression.toTerm_chain`, `Slot.toTerm_compound` and their companions: success, part by part.
* `Expression.toTerm_cons`: success of a chain, link by link.
* `Expression.toTerm_erase`, `Expression.toTerm_congr`: the term does not depend on texts.
-/

namespace HornClauses

variable {settings : Settings} {source source' : String}

/-! ## Success of the parts -/

namespace Slot

variable {operand : Option Term}

theorem toTerm_compound {name : String} {args : List Expression} :
    (Slot.compound name args).toTerm settings source = .ok operand ↔
      ∃ ts, Expression.toTerms settings source args = .ok ts ∧
        some (.compound name ts) = operand := by
  simp only [toTerm, bind_eq_ok, pure_eq_ok]

theorem toTerm_list {elements : List Expression} :
    (Slot.list elements).toTerm settings source = .ok operand ↔
      ∃ ts, Expression.toTerms settings source elements = .ok ts ∧
        some (settings.lists.list ts none) = operand := by
  simp only [toTerm, bind_eq_ok, pure_eq_ok]

theorem toTerm_listWithTail {elements : List Expression} {tail : Expression} :
    (Slot.listWithTail elements tail).toTerm settings source = .ok operand ↔
      ∃ ts, Expression.toTerms settings source elements = .ok ts ∧
        ∃ t, tail.toTerm settings source = .ok t ∧
          some (settings.lists.list ts (some t)) = operand := by
  simp only [toTerm, bind_eq_ok, pure_eq_ok]

theorem toTerm_tuple {components : List Expression} :
    (Slot.tuple components).toTerm settings source = .ok operand ↔
      ∃ ts, Expression.toTerms settings source components = .ok ts ∧
        some (.tuple ts) = operand := by
  simp only [toTerm, bind_eq_ok, pure_eq_ok]

end Slot

namespace Expression

theorem toTerm_chain {text : String} {links : List (Slot × Operator)} {last : Slot} {t : Term} :
    (Expression.chain text links last).toTerm settings source = .ok t ↔
      ∃ os, operands settings source links = .ok os ∧
        ∃ o, last.toTerm settings source = .ok o ∧
          settings.operators.resolve source text os o = .ok t := by
  simp only [toTerm, bind_eq_ok]

theorem toTerms_nil {ts : List Term} :
    toTerms settings source [] = .ok ts ↔ ts = [] := by
  simp [toTerms, eq_comm]

theorem toTerms_cons {e : Expression} {es : List Expression} {ts : List Term} :
    toTerms settings source (e :: es) = .ok ts ↔
      ∃ u, e.toTerm settings source = .ok u ∧
        ∃ us, toTerms settings source es = .ok us ∧ u :: us = ts := by
  simp only [toTerms, bind_eq_ok, pure_eq_ok]

theorem length_of_toTerms {es : List Expression} {ts : List Term}
    (h : toTerms settings source es = .ok ts) : ts.length = es.length := by
  induction es generalizing ts with
  | nil =>
    rw [toTerms_nil.1 h]
    rfl
  | cons e es ih =>
    obtain ⟨u, -, us, hus, rfl⟩ := toTerms_cons.1 h
    simp [ih hus]

theorem operands_nil {os : List (Option Term × Operator)} :
    operands settings source [] = .ok os ↔ os = [] := by
  simp [operands, eq_comm]

theorem operands_cons {slot : Slot} {op : Operator} {links : List (Slot × Operator)}
    {os : List (Option Term × Operator)} :
    operands settings source ((slot, op) :: links) = .ok os ↔
      ∃ o, slot.toTerm settings source = .ok o ∧
        ∃ more, operands settings source links = .ok more ∧ (o, op) :: more = os := by
  simp only [operands, bind_eq_ok, pure_eq_ok]

theorem map_snd_of_operands {links : List (Slot × Operator)} {os : List (Option Term × Operator)}
    (h : operands settings source links = .ok os) : os.map Prod.snd = links.map Prod.snd := by
  induction links generalizing os with
  | nil =>
    rw [operands_nil.1 h]
    rfl
  | cons link links ih =>
    obtain ⟨slot, op⟩ := link
    obtain ⟨o, -, more, hmore, rfl⟩ := operands_cons.1 h
    simp [ih hmore]

end Expression

/-! ## Chains link by link -/

namespace Expression

variable {text : String} {links : List (Slot × Operator)} {last : Slot} {t : Term}

theorem toTerm_single :
    (Expression.chain text [] last).toTerm settings source = .ok t ↔
      last.toTerm settings source = .ok (some t) := by
  rw [toTerm_chain]
  constructor
  · rintro ⟨os, hos, o, ho, ht⟩
    rw [operands_nil.1 hos, OperatorTable.resolve_nil] at ht
    rw [ho, ht]
  · intro h
    exact ⟨[], operands_nil.2 rfl, some t, h, OperatorTable.resolve_nil.2 rfl⟩

theorem toTerm_cons {slot : Slot} {op : Operator} :
    (Expression.chain text ((slot, op) :: links) last).toTerm settings source = .ok t ↔
      (settings.operators.get? op).isSome ∧
        (∀ o ∈ links.map Prod.snd, settings.operators.rank op ≤ settings.operators.rank o) ∧
        ∃ left right, slot.toTerm settings source = .ok (some left) ∧
          (Expression.chain text links last).toTerm settings source = .ok right ∧
          .compound (settings.operators.nameOf op) [left, right] = t := by
  constructor
  · intro h
    obtain ⟨os, hos, o, ho, ht⟩ := toTerm_chain.1 h
    obtain ⟨operand, hoperand, more, hmore, rfl⟩ := operands_cons.1 hos
    obtain ⟨hop, hle, left, right, rfl, hright, rfl⟩ := OperatorTable.resolve_cons.1 ht
    rw [map_snd_of_operands hmore] at hle
    exact ⟨hop, hle, left, right, hoperand, toTerm_chain.2 ⟨more, hmore, o, ho, hright⟩, rfl⟩
  · rintro ⟨hop, hle, left, right, hleft, hright, rfl⟩
    obtain ⟨more, hmore, o, ho, hresolve⟩ := toTerm_chain.1 hright
    rw [← map_snd_of_operands hmore] at hle
    exact toTerm_chain.2 ⟨_, operands_cons.2 ⟨some left, hleft, more, hmore, rfl⟩, o, ho,
      OperatorTable.resolve_cons.2 ⟨hop, hle, left, right, rfl, hresolve, rfl⟩⟩

/-- The operators of an expression that has a term stand in the order of the table. -/
theorem pairwise_of_toTerm {e : Expression} (h : e.toTerm settings source = .ok t) :
    e.operators.Pairwise fun op o => settings.operators.rank op ≤ settings.operators.rank o := by
  obtain ⟨text, links, last⟩ := e
  obtain ⟨os, hos, o, -, ht⟩ := toTerm_chain.1 h
  have hconflict := (OperatorTable.resolve_eq_ok_iff.1 ht).2.1
  rw [map_snd_of_operands hos] at hconflict
  exact OperatorTable.conflict?_eq_none_iff.1 hconflict

end Expression

/-! ## Texts make no difference -/

mutual

theorem Slot.toTerm_erase (slot : Slot) (operand : Option Term) :
    slot.erase.toTerm settings source' = .ok operand ↔
      slot.toTerm settings source = .ok operand := by
  cases slot with
  | compound name args =>
    rw [Slot.erase]
    simp only [Slot.toTerm_compound, Expression.toTerms_eraseList args]
  | list elements =>
    rw [Slot.erase]
    simp only [Slot.toTerm_list, Expression.toTerms_eraseList elements]
  | listWithTail elements tail =>
    rw [Slot.erase]
    simp only [Slot.toTerm_listWithTail, Expression.toTerms_eraseList elements,
      Expression.toTerm_erase tail]
  | tuple components =>
    rw [Slot.erase]
    simp only [Slot.toTerm_tuple, Expression.toTerms_eraseList components]
  | _ => simp only [Slot.erase, Slot.toTerm]
termination_by structural slot

theorem Expression.toTerm_erase (e : Expression) (t : Term) :
    e.erase.toTerm settings source' = .ok t ↔ e.toTerm settings source = .ok t := by
  obtain ⟨text, links, last⟩ := e
  rw [Expression.erase]
  simp only [Expression.toTerm_chain, Expression.operands_eraseLinks links,
    Slot.toTerm_erase last]
  simp only [OperatorTable.resolve_congr source text]
termination_by structural e

theorem Expression.toTerms_eraseList (es : List Expression) (ts : List Term) :
    Expression.toTerms settings source' (Expression.eraseList es) = .ok ts ↔
      Expression.toTerms settings source es = .ok ts := by
  cases es with
  | nil => rfl
  | cons e es =>
    rw [Expression.eraseList]
    simp only [Expression.toTerms_cons, Expression.toTerm_erase e,
      Expression.toTerms_eraseList es]
termination_by structural es

theorem Expression.operands_eraseLinks (links : List (Slot × Operator))
    (os : List (Option Term × Operator)) :
    Expression.operands settings source' (Expression.eraseLinks links) = .ok os ↔
      Expression.operands settings source links = .ok os := by
  cases links with
  | nil => rfl
  | cons link links =>
    obtain ⟨slot, op⟩ := link
    rw [Expression.eraseLinks]
    simp only [Expression.operands_cons, Slot.toTerm_erase slot,
      Expression.operands_eraseLinks links]
termination_by structural links

end

/-- Expressions that differ in texts only have the same term. -/
theorem Expression.toTerm_congr {e e' : Expression} (h : e'.erase = e.erase) (t : Term) :
    e'.toTerm settings source' = .ok t ↔ e.toTerm settings source = .ok t := by
  have herase := @Expression.toTerm_erase settings source' source e' t
  rw [← herase, h]
  exact Expression.toTerm_erase e t

theorem Expression.toTerms_congr {es es' : List Expression} (h : eraseList es' = eraseList es)
    (ts : List Term) :
    toTerms settings source' es' = .ok ts ↔ toTerms settings source es = .ok ts := by
  have herase := @Expression.toTerms_eraseList settings source' source es' ts
  rw [← herase, h]
  exact Expression.toTerms_eraseList es ts

end HornClauses
