import HornClauses.Proofs.Readable
import HornClauses.Proofs.Rereading
import HornClauses.Proofs.RuleTokens
import HornClauses.Proofs.Subterms
import HornClauses.Proofs.SurfaceForm

/-!
# All terms that can be read

Under the standard operators the readable terms are not only all that are read; each of them is read
from some text. The surface form does not do, since it leaves out the parentheses of right operands
and the ends of lists. With every operation in parentheses and every cell as a list of its own, the
order of operators makes no difference, and a term is written part by part.

* `Term.Shaped`: what is required of each single subterm, stated with the rules of the grammar.
* `Term.readable_iff_forall_shaped`: a term is readable if this holds of all its subterms.
* `Term.writable_of_readable`: every readable term is written by some text.
* `Settings.exists_readTerm_iff_forall_shaped`: the terms that are read from some text.
-/

namespace HornClauses

/-! ## Words that a rule matches whole -/

namespace Rule

theorem matches_iff_wellFormed {r : Rule} {k : Terminal} (hk : k.peg = .rule r)
    (make : String → Token) (htext : ∀ w, (make w).text = w) (hmake : ∀ w, (make w).terminal = k)
    (honly : ∀ t : Token, t.terminal = k → t = make t.text) (w : String) :
    Matches r w.toList ↔ (make w).WellFormed := by
  rw [Matches, ← hk, Terminal.matches_iff]
  constructor
  · rintro ⟨t, ht, hterminal, heq⟩
    rw [honly t hterminal, String.toList_inj.1 heq] at ht
    exact ht
  · intro h
    exact ⟨make w, h, hmake w, by rw [htext]⟩

theorem matches_name_iff (w : String) : Matches .name w.toList ↔ Token.IsName w :=
  matches_iff_wellFormed (k := .name) rfl .name (fun _ => rfl) (fun _ => rfl)
    (fun t ht => by cases t <;> first | rfl | cases ht) w

theorem matches_var_iff (w : String) : Matches .var w.toList ↔ Token.IsVariable w :=
  matches_iff_wellFormed (k := .var) rfl .var (fun _ => rfl) (fun _ => rfl)
    (fun t ht => by cases t <;> first | rfl | cases ht) w

theorem matches_number_iff (w : String) : Matches .number w.toList ↔ Token.IsNumber w :=
  matches_iff_wellFormed (k := .number) rfl .number (fun _ => rfl) (fun _ => rfl)
    (fun t ht => by cases t <;> first | rfl | cases ht) w

theorem matches_symbol_iff (w : String) : Matches .symbol w.toList ↔ Token.IsSymbol w :=
  matches_iff_wellFormed (k := .symbol) rfl .symbol (fun _ => rfl) (fun _ => rfl)
    (fun t ht => by cases t <;> first | rfl | cases ht) w

end Rule

namespace Term

variable {style : ListStyle}

/-! ## Subterm by subterm -/

/-- The name of a term fits its kind and its arguments: a word for an atom, a variable and a name
before arguments, and otherwise the name of a pair, of an operation or of a cell. -/
def Shaped (style : ListStyle) : Term → Prop
  | .atom name =>
    Rule.Matches .name name.toList ∨ Rule.Matches .number name.toList ∨
      Rule.Matches .symbol name.toList
  | .var name => Rule.Matches .var name.toList
  | .compound name args =>
    Rule.Matches .name name.toList ∧ args ≠ [] ∨
    name = pairName ∧ args.length = 2 ∨
    name ∈ OperatorTable.standard.entries.map OperatorEntry.name ∧ args.length = 2 ∨
    name = cellName ∧ (args.length = 0 ∨ args.length = 2 ∨
      style = .legacy ∧ ∃ last, args = [last] ∧ last.isCell = false)

theorem mem_standard_iff {name : String} :
    name ∈ OperatorTable.standard.entries.map OperatorEntry.name ↔
      ∃ op : Operator, op ≠ .div ∧ op.token = name := by
  constructor
  · have hall : ∀ n ∈ OperatorTable.standard.entries.map OperatorEntry.name,
        ∃ op ∈ Operator.all, op ≠ .div ∧ op.token = n := by decide
    intro h
    obtain ⟨op, -, hop, hname⟩ := hall name h
    exact ⟨op, hop, hname⟩
  · rintro ⟨op, hop, rfl⟩
    cases op <;> first | contradiction | decide

/-- A term is readable if its root fits and its arguments are readable. -/
theorem readable_iff {t : Term} :
    t.Readable style ↔ t.Shaped style ∧ ∀ v ∈ t.args, v.Readable style := by
  constructor
  · intro h
    cases h with
    | atom hatom =>
      refine ⟨?_, by simp [args]⟩
      rwa [Shaped, Rule.matches_name_iff, Rule.matches_number_iff, Rule.matches_symbol_iff]
    | var hvar => exact ⟨(Rule.matches_var_iff _).2 hvar, by simp [args]⟩
    | compound hname hne hargs =>
      exact ⟨Or.inl ⟨(Rule.matches_name_iff _).2 hname, hne⟩, hargs⟩
    | pair hl hr => exact ⟨Or.inr (Or.inl ⟨rfl, rfl⟩), by simp [pair, args, hl, hr]⟩
    | operation hop hl hr =>
      exact ⟨Or.inr (Or.inr (Or.inl ⟨mem_standard_iff.2 ⟨_, hop, rfl⟩, rfl⟩)),
        by simp [args, hl, hr]⟩
    | nil => exact ⟨Or.inr (Or.inr (Or.inr ⟨rfl, Or.inl rfl⟩)), by simp [nil, args]⟩
    | cell hfirst hrest =>
      exact ⟨Or.inr (Or.inr (Or.inr ⟨rfl, Or.inr (Or.inl rfl)⟩)),
        by simp [cell, args, hfirst, hrest]⟩
    | last hstyle hcell hlast =>
      exact ⟨Or.inr (Or.inr (Or.inr ⟨rfl, Or.inr (Or.inr ⟨hstyle, _, rfl, hcell⟩)⟩)),
        by simp [cell, args, hlast]⟩
  · rintro ⟨hshaped, hargs⟩
    cases t with
    | atom name =>
      rw [Shaped, Rule.matches_name_iff, Rule.matches_number_iff,
        Rule.matches_symbol_iff] at hshaped
      exact .atom hshaped
    | var name => exact .var ((Rule.matches_var_iff name).1 hshaped)
    | compound name ts =>
      change ∀ v ∈ ts, v.Readable style at hargs
      rcases hshaped with ⟨hname, hne⟩ | ⟨rfl, hlength⟩ | ⟨hname, hlength⟩ | ⟨rfl, hlength⟩
      · exact .compound ((Rule.matches_name_iff name).1 hname) hne hargs
      · obtain ⟨left, right, rfl⟩ := List.length_eq_two.1 hlength
        exact .pair (hargs left (by simp)) (hargs right (by simp))
      · obtain ⟨left, right, rfl⟩ := List.length_eq_two.1 hlength
        obtain ⟨op, hop, rfl⟩ := mem_standard_iff.1 hname
        exact .operation hop (hargs left (by simp)) (hargs right (by simp))
      · rcases hlength with hlength | hlength | ⟨hstyle, last, rfl, hcell⟩
        · rw [List.length_eq_zero_iff.1 hlength]
          exact .nil
        · obtain ⟨first, rest, rfl⟩ := List.length_eq_two.1 hlength
          exact .cell (hargs first (by simp)) (hargs rest (by simp))
        · exact .last hstyle hcell (hargs last (by simp))

theorem readable_iff_forall_shaped {t : Term} :
    t.Readable style ↔ ∀ u ∈ t.preorder, u.Shaped style := by
  induction t using induct_args with
  | step t ih =>
    rw [readable_iff, forall_mem_preorder]
    exact and_congr_right fun _ => forall₂_congr ih

/-! ## A text for every readable term -/

/-- An operand that some text writes, and whose term is the given one. -/
structure WrittenAs (style : ListStyle) (t : Term) (slot : Slot) : Prop where
  wellFormed : slot.WellFormed
  layout : ∃ text, Layout text slot.tokens
  toTerm : ∀ source, slot.toTerm ⟨style, .standard⟩ source = .ok (some t)

namespace WrittenAs

variable {t : Term} {slot : Slot}

theorem expression_wellFormed (h : WrittenAs style t slot) :
    (Expression.chain "" [] slot).WellFormed :=
  .chain (by simp) h.wellFormed

theorem expression_toTerm (h : WrittenAs style t slot) (source : String) :
    (Expression.chain "" [] slot).toTerm ⟨style, .standard⟩ source = .ok t :=
  Expression.toTerm_single.2 (h.toTerm source)

end WrittenAs

def Writable (style : ListStyle) (t : Term) : Prop := ∃ slot, WrittenAs style t slot

/-- Expressions that some text writes with commas between them, and their terms. -/
structure AllWrittenAs (style : ListStyle) (ts : List Term) (es : List Expression) : Prop where
  ne_nil : es ≠ []
  wellFormed : ∀ e ∈ es, e.WellFormed
  layout : ∃ text, Layout text (Expression.tokensOfList es)
  toTerms : ∀ source, Expression.toTerms ⟨style, .standard⟩ source es = .ok ts

theorem writable_token {t : Term} (token : Token) (slot : Slot) (htoken : token.WellFormed)
    (hslot : slot.WellFormed) (htokens : slot.tokens = [token])
    (hterm : ∀ source, slot.toTerm ⟨style, .standard⟩ source = .ok (some t)) :
    Writable style t := by
  refine ⟨slot, hslot, ⟨token.text.toList, ?_⟩, hterm⟩
  rw [htokens]
  exact .one htoken

theorem writable_atom {name : String} (h : Token.IsAtom name) : Writable style (.atom name) := by
  rcases h with h | h | h
  · exact writable_token (.name name) (.name name) h (.name h) rfl fun _ => rfl
  · exact writable_token (.number name) (.number name) h (.number h) rfl fun _ => rfl
  · exact writable_token (.symbol name) (.symbol name) h (.symbol h) rfl fun _ => rfl

theorem exists_allWrittenAs {ts : List Term} (hne : ts ≠ []) (h : ∀ t ∈ ts, Writable style t) :
    ∃ es, AllWrittenAs style ts es := by
  induction ts with
  | nil => exact absurd rfl hne
  | cons t ts ih =>
    rw [List.forall_mem_cons] at h
    obtain ⟨slot, hslot⟩ := h.1
    obtain ⟨text, htext⟩ := hslot.layout
    have hchain := hslot.expression_wellFormed
    have hterm := hslot.expression_toTerm
    by_cases hts : ts = []
    · subst hts
      exact ⟨[.chain "" [] slot], by simp, by simp [hchain], ⟨text, htext⟩,
        fun source => Expression.toTerms_cons.2 ⟨t, hterm source, [], rfl, rfl⟩⟩
    · obtain ⟨es, hes⟩ := ih hts h.2
      obtain ⟨text', htext'⟩ := hes.layout
      refine ⟨.chain "" [] slot :: es, by simp, List.forall_mem_cons.2 ⟨hchain, hes.wellFormed⟩,
        ⟨text ++ ',' :: ' ' :: text', ?_⟩,
        fun source => Expression.toTerms_cons.2 ⟨t, hterm source, ts, hes.toTerms source, rfl⟩⟩
      rw [Expression.tokensOfList_cons hes.ne_nil]
      exact htext.separated htext'

theorem exists_allWrittenOne {t : Term} (h : Writable style t) :
    ∃ es, AllWrittenAs style [t] es :=
  exists_allWrittenAs (by simp) (by simpa using h)

theorem writable_compound {name : String} {args : List Term} (h : Token.IsName name)
    (hne : args ≠ []) (hargs : ∀ t ∈ args, Writable style t) :
    Writable style (.compound name args) := by
  obtain ⟨es, hes⟩ := exists_allWrittenAs hne hargs
  obtain ⟨text, htext⟩ := hes.layout
  have hlayout := (Layout.one (t := .name name) h).glue htext.parenthesized
    (Or.inr ⟨_, _, rfl, rfl⟩)
  exact ⟨.compound name es, .compound h hes.ne_nil hes.wellFormed, ⟨_, hlayout⟩, fun source =>
    Slot.toTerm_compound.2 ⟨args, hes.toTerms source, rfl⟩⟩

theorem writable_tuple {ts : List Term} (hne : ts ≠ []) (hts : ∀ t ∈ ts, Writable style t) :
    Writable style (.tuple ts) := by
  obtain ⟨es, hes⟩ := exists_allWrittenAs hne hts
  obtain ⟨text, htext⟩ := hes.layout
  exact ⟨.tuple es, .tuple hes.ne_nil hes.wellFormed, ⟨_, htext.parenthesized⟩, fun source =>
    Slot.toTerm_tuple.2 ⟨ts, hes.toTerms source, rfl⟩⟩

/-- An operation is written in parentheses, so that no other operator is beside it. -/
theorem writable_operation {op : Operator} (hop : op ≠ .div) {left right : Term}
    (hl : Writable style left) (hr : Writable style right) :
    Writable style (.compound op.token [left, right]) := by
  obtain ⟨l, hl⟩ := hl
  obtain ⟨r, hr⟩ := hr
  obtain ⟨ltext, hltext⟩ := hl.layout
  obtain ⟨rtext, hrtext⟩ := hr.layout
  have hname := OperatorTable.nameOf_standard_of_ne_div hop
  have hchain : (Expression.chain "" [(l, op)] r).WellFormed :=
    .chain (by simp [hl.wellFormed]) hr.wellFormed
  have hlayout := hltext.space ((Layout.one (t := .operator op) trivial).space hrtext)
  have htokens : (Slot.tuple [.chain "" [(l, op)] r]).tokens = .openParen ::
      (l.tokens ++ ([.operator op] ++ r.tokens) ++ [.closeParen]) := by
    simp [Slot.tokens, Expression.tokensOfList, Expression.tokens, Expression.tokensOfLinks]
  refine ⟨.tuple [.chain "" [(l, op)] r], .tuple (by simp) (by simp [hchain]),
    ⟨_, htokens ▸ hlayout.parenthesized⟩, fun source => ?_⟩
  have hterm : (Expression.chain "" [(l, op)] r).toTerm ⟨style, .standard⟩ source =
      .ok (.compound op.token [left, right]) :=
    Expression.toTerm_cons.2 ⟨OperatorTable.isSome_get?_standard op, by simp, left, right,
      hl.toTerm source, hr.expression_toTerm source, by rw [hname]⟩
  exact Slot.toTerm_tuple.2 ⟨_, Expression.toTerms_cons.2 ⟨_, hterm, [], rfl, rfl⟩, rfl⟩

theorem writable_nil : Writable style nil :=
  ⟨.list [], .nil, ⟨_, Layout.mark_glue (m := .openBracket) rfl trivial
    (.one (t := .closeBracket) trivial)⟩, fun _ => rfl⟩

theorem writable_cell {first rest : Term} (hf : Writable style first)
    (hr : Writable style rest) : Writable style (.cell [first, rest]) := by
  obtain ⟨es, hes⟩ := exists_allWrittenOne hf
  obtain ⟨text, htext⟩ := hes.layout
  obtain ⟨slot, hslot⟩ := hr
  obtain ⟨text', htext'⟩ := hslot.layout
  have hlayout := htext.space ((Layout.one (t := .bar) trivial).space htext')
  have htokens : (Slot.listWithTail es (.chain "" [] slot)).tokens = .openBracket ::
      (Expression.tokensOfList es ++ ([.bar] ++ slot.tokens) ++ [.closeBracket]) := by
    simp [Slot.tokens, Expression.tokens, Expression.tokensOfLinks]
  exact ⟨.listWithTail es (.chain "" [] slot), .listWithTail hes.ne_nil hes.wellFormed
    hslot.expression_wellFormed, ⟨_, htokens ▸ hlayout.bracketed⟩, fun source =>
      Slot.toTerm_listWithTail.2 ⟨[first], hes.toTerms source, rest,
        hslot.expression_toTerm source, rfl⟩⟩

theorem writable_last {last : Term} (hcell : last.isCell = false)
    (h : Writable .legacy last) : Writable .legacy (.cell [last]) := by
  obtain ⟨es, hes⟩ := exists_allWrittenOne h
  obtain ⟨text, htext⟩ := hes.layout
  refine ⟨.list es, .list htext.ne_nil hes.wellFormed, ⟨_, htext.bracketed⟩, fun source =>
    Slot.toTerm_list.2 ⟨[last], hes.toTerms source, ?_⟩⟩
  rw [ListStyle.list, ListStyle.lastCell, hcell]
  rfl

theorem writable_of_readable {t : Term} (h : t.Readable style) : Writable style t := by
  induction h with
  | atom hatom => exact writable_atom hatom
  | @var name hvar =>
    exact writable_token (.var name) (.var name) hvar (.var hvar) rfl fun _ => rfl
  | compound hname hne _ ih => exact writable_compound hname hne ih
  | @pair left right _ _ ihl ihr =>
    have hboth : ∀ t ∈ [left, right], Writable style t := by simp [ihl, ihr]
    exact writable_tuple (by simp) hboth
  | operation hop _ _ ihl ihr => exact writable_operation hop ihl ihr
  | nil => exact writable_nil
  | cell _ _ ihfirst ihrest => exact writable_cell ihfirst ihrest
  | last hstyle hcell _ ih =>
    subst hstyle
    exact writable_last hcell ih

end Term

namespace Settings

variable {style : ListStyle}

theorem exists_readTerm_of_writable {t : Term} (h : t.Writable style) :
    ∃ text, Settings.readTerm ⟨style, .standard⟩ text = .ok t := by
  obtain ⟨slot, hslot⟩ := h
  obtain ⟨text, htext⟩ := hslot.layout
  obtain ⟨e, he, herase⟩ := Grammar.readTerm_of_layout (e := .chain "" [] slot) htext
    hslot.expression_wellFormed
  exact ⟨text, readTerm_eq_ok.2 ⟨e, he,
    (Expression.toTerm_congr herase t).2 (hslot.expression_toTerm "")⟩⟩

/-- Under the standard operators a term is read from some text exactly if each of its subterms has
one of the shapes. -/
theorem exists_readTerm_iff_forall_shaped (style : ListStyle) (t : Term) :
    (∃ text, Settings.readTerm ⟨style, .standard⟩ text = .ok t) ↔
      ∀ u ∈ t.preorder, u.Shaped style := by
  rw [← Term.readable_iff_forall_shaped]
  constructor
  · rintro ⟨text, h⟩
    exact readable_of_readTerm h
  · exact fun h => exists_readTerm_of_writable (Term.writable_of_readable h)

end Settings

end HornClauses
