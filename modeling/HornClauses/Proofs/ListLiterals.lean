import HornClauses.Proofs.TopLevelCommas
import Mathlib.Data.Set.Function

/-!
# List literals

A list literal is read as the list of the terms that its elements and its tail are read as. So a
literal whose tail is a literal stands for the list of all elements, whatever the elements are and
however the last cell is built. Without a tail the elements can be told from the list, except that a
legacy list may end in an element that is a cell and then is the end of the list itself.

* `ListStyle.list_injOn`: when the elements can be told from the list.
* `Settings.readTerm_listLiteral`, `Settings.readTerm_listLiteral_tail`: what literals are read as.
* `Settings.readTerm_listLiteral_append`: literals nest by concatenation.
-/

namespace HornClauses

/-! ## Elements of a list -/

namespace ListStyle

variable {style : ListStyle}

/-- The last element is not taken for the end of the list. -/
def EndsPlain (style : ListStyle) (ts : List Term) : Prop :=
  style = .legacy → ∀ last ∈ ts.getLast?, last.isCell = false

theorem EndsPlain.tail {t : Term} {ts : List Term} (h : style.EndsPlain (t :: ts)) :
    style.EndsPlain ts := by
  intro hstyle last hlast
  cases ts with
  | nil => cases hlast
  | cons u us => exact h hstyle last (by rwa [List.getLast?_cons_cons])

/-- What a cell holds behind an element: the list of the elements that follow, unless there is none
and lists are legacy lists. -/
def cellRest (style : ListStyle) (ts : List Term) : List Term :=
  if style = .legacy ∧ ts = [] then [] else [style.list ts none]

theorem list_cons {t : Term} {ts : List Term} (h : style.EndsPlain (t :: ts)) :
    style.list (t :: ts) none = .cell (t :: style.cellRest ts) := by
  cases ts with
  | nil =>
    cases style with
    | legacy =>
      have hcell : t.isCell = false := h rfl t rfl
      rw [list, lastCell, hcell]
      rfl
    | canonical => rfl
  | cons u us =>
    rw [cellRest, if_neg (by simp)]
    rfl

/-- Elements can be told from their list unless the list is a legacy list and the last element is a
cell. -/
theorem list_injOn (style : ListStyle) :
    Set.InjOn (fun ts => style.list ts none) {ts | style.EndsPlain ts} := by
  intro ts hts us hus h
  change style.list ts none = style.list us none at h
  induction ts generalizing us with
  | nil =>
    cases us with
    | nil => rfl
    | cons u us =>
      rw [list_cons hus] at h
      cases h
  | cons t ts ih =>
    cases us with
    | nil =>
      rw [list_cons hts] at h
      cases h
    | cons u us =>
      rw [list_cons hts, list_cons hus, Term.cell, Term.cell, Term.compound.injEq,
        List.cons.injEq] at h
      obtain ⟨-, rfl, hrest⟩ := h
      rw [cellRest, cellRest] at hrest
      split at hrest <;> split at hrest
      · rename_i hnil hnil'
        rw [hnil.2, hnil'.2]
      · cases hrest
      · cases hrest
      · rw [ih hts.tail hus.tail (List.singleton_inj.1 hrest)]

end ListStyle

/-! ## Texts of literals -/

/-- The text of a list literal: the elements with commas between them, and the tail behind a bar. -/
def listLiteral (elements : List (List Char)) : Option (List Char) → List Char
  | none => '[' :: (Bracket.joinWith ',' elements ++ [']'])
  | some tail => '[' :: (Bracket.joinWith ',' elements ++ ' ' :: '|' :: ' ' :: (tail ++ [']']))

namespace Tokenised

variable {s s' : List Char} {ts us : List Token}

theorem brackets (h : Tokenised s ts) :
    Tokenised ('[' :: (s ++ [']'])) (.openBracket :: (ts ++ [.closeBracket])) := by
  have hnil : Tokenised [] [] := .blank (by simp)
  exact mark (t := .openBracket) rfl hnil (mark (t := .closeBracket) rfl h hnil)

theorem bar (h : Tokenised s ts) (h' : Tokenised s' us) :
    Tokenised (s ++ ' ' :: '|' :: ' ' :: s') (ts ++ .bar :: us) := by
  have hblank : ∀ c ∈ [' '], Text.isBlank c = true := by simp [Text.isBlank]
  have hmark := mark (t := .bar) rfl (h.append_blank hblank) (h'.blank_append hblank)
  rwa [List.append_assoc] at hmark

end Tokenised

namespace Expression

variable {settings : Settings} {source : String}

/-- An expression that has a term is not written with nothing. -/
theorem tokens_ne_nil_of_toTerm {e : Expression} {t : Term}
    (h : e.toTerm settings source = .ok t) : e.tokens ≠ [] := by
  obtain ⟨text, links, last⟩ := e
  cases links with
  | nil =>
    have hlast := toTerm_single.1 h
    cases last with
    | hole => cases hlast
    | _ => simp [tokens, tokensOfLinks, Slot.tokens]
  | cons link links => simp [tokens, tokensOfLinks]

theorem tokensOfList_ne_nil_of_toTerms {es : List Expression} (hne : es ≠ []) {ts : List Term}
    (h : toTerms settings source es = .ok ts) : tokensOfList es ≠ [] := by
  obtain ⟨e, es, rfl⟩ := List.exists_cons_of_ne_nil hne
  obtain ⟨t, ht, -⟩ := toTerms_cons.1 h
  by_cases hrest : es = []
  · subst hrest
    rw [tokensOfList]
    exact tokens_ne_nil_of_toTerm ht
  · simp [tokensOfList_cons hrest]

end Expression

/-! ## Literals that are read -/

theorem ne_nil_of_forall₂ {α β : Type} {R : α → β → Prop} {l : List α} {l' : List β}
    (h : List.Forall₂ R l l') (hne : l ≠ []) : l' ≠ [] := by
  rintro rfl
  exact hne (List.forall₂_nil_right_iff.1 h)

namespace Settings

variable {settings : Settings} {xs ys : List (List Char)} {ts us : List Term}

theorem readTerm_listLiteral (hne : xs ≠ [])
    (h : List.Forall₂ (fun x t => settings.readTerm x = .ok t) xs ts) :
    settings.readTerm (listLiteral xs none) = .ok (settings.lists.list ts none) := by
  obtain ⟨es, hwell, htexts, hts⟩ := (forall₂_readTerm_iff "").1 h
  have hes : es ≠ [] := ne_nil_of_forall₂ htexts hne
  have hlist : (Slot.list es).WellFormed :=
    .list (Expression.tokensOfList_ne_nil_of_toTerms hes hts) hwell
  exact (readTerm_iff_tokenised "").2 ⟨.chain "" [] (.list es), .chain (by simp) hlist,
    (Expression.tokenised_joinWith hes htexts).brackets,
    Expression.toTerm_single.2 (Slot.toTerm_list.2 ⟨ts, hts, rfl⟩)⟩

theorem readTerm_listLiteral_tail (hne : xs ≠ [])
    (h : List.Forall₂ (fun x t => settings.readTerm x = .ok t) xs ts) {tail : List Char} {t : Term}
    (htail : settings.readTerm tail = .ok t) :
    settings.readTerm (listLiteral xs (some tail)) = .ok (settings.lists.list ts (some t)) := by
  obtain ⟨es, hwell, htexts, hts⟩ := (forall₂_readTerm_iff "").1 h
  obtain ⟨e, he, htext, ht⟩ := (readTerm_iff_tokenised "").1 htail
  have hes : es ≠ [] := ne_nil_of_forall₂ htexts hne
  have hlist : (Slot.listWithTail es e).WellFormed := .listWithTail hes hwell he
  have htokens := ((Expression.tokenised_joinWith hes htexts).bar htext).brackets
  refine (readTerm_iff_tokenised "").2 ⟨.chain "" [] (.listWithTail es e), .chain (by simp) hlist,
    ?_, Expression.toTerm_single.2 (Slot.toTerm_listWithTail.2 ⟨ts, hts, t, ht, rfl⟩)⟩
  simpa [listLiteral, Expression.tokens, Expression.tokensOfLinks, Slot.tokens] using htokens

theorem exists_forall₂_readTerm (h : ∀ x ∈ xs, ∃ t, settings.readTerm x = .ok t) :
    ∃ ts, List.Forall₂ (fun x t => settings.readTerm x = .ok t) xs ts := by
  induction xs with
  | nil => exact ⟨[], .nil⟩
  | cons x xs ih =>
    rw [List.forall_mem_cons] at h
    obtain ⟨t, ht⟩ := h.1
    obtain ⟨ts, hts⟩ := ih h.2
    exact ⟨t :: ts, .cons ht hts⟩

/-- A literal whose tail is a literal is read as the literal of all elements, with the same tail or
without one; such lists are equal for any elements. Without a tail, canonical lists of different
elements differ, and so do legacy lists whose last element is no cell. -/
theorem readTerm_listLiteral_append (settings : Settings) :
    (∀ (xs ys : List (List Char)) (tail : Option (List Char)), xs ≠ [] → ys ≠ [] →
      (∀ x ∈ xs ++ ys ++ tail.toList, ∃ t, settings.readTerm x = .ok t) →
        ∃ t, settings.readTerm (listLiteral (xs ++ ys) tail) = .ok t ∧
          settings.readTerm (listLiteral xs (some (listLiteral ys tail))) = .ok t) ∧
      (∀ (style : ListStyle) (ts us : List Term) (tail : Option Term), ts ≠ [] → us ≠ [] →
        style.list (ts ++ us) tail = style.list ts (some (style.list us tail))) ∧
      (Function.Injective fun ts => ListStyle.canonical.list ts none) ∧
      Set.InjOn (fun ts => ListStyle.legacy.list ts none)
        {ts | ∀ last ∈ ts.getLast?, last.isCell = false} := by
  refine ⟨fun xs ys tail hxs hys hread => ?_, fun style ts us tail hts hus =>
    style.list_append hts hus tail, ?_, ?_⟩
  · rw [List.forall_mem_append, List.forall_mem_append] at hread
    obtain ⟨ts, hts⟩ := exists_forall₂_readTerm hread.1.1
    obtain ⟨us, hus⟩ := exists_forall₂_readTerm hread.1.2
    have hts' : ts ≠ [] := ne_nil_of_forall₂ hts hxs
    have hus' : us ≠ [] := ne_nil_of_forall₂ hus hys
    have hne : xs ++ ys ≠ [] := List.append_ne_nil_of_left_ne_nil hxs ys
    have hall := List.rel_append hts hus
    cases tail with
    | none =>
      refine ⟨_, readTerm_listLiteral hne hall, ?_⟩
      rw [ListStyle.list_append _ hts' hus']
      exact readTerm_listLiteral_tail hxs hts (readTerm_listLiteral hys hus)
    | some tail =>
      obtain ⟨t, ht⟩ := hread.2 tail (by simp)
      refine ⟨_, readTerm_listLiteral_tail hne hall ht, ?_⟩
      rw [ListStyle.list_append _ hts' hus']
      exact readTerm_listLiteral_tail hxs hts (readTerm_listLiteral_tail hys hus ht)
  · intro ts us h
    exact ListStyle.list_injOn .canonical (fun h => by cases h) (fun h => by cases h) h
  · intro ts hts us hus h
    exact ListStyle.list_injOn .legacy (fun _ => hts) (fun _ => hus) h

/-- Under the standard operators, elements that are a sum and a list, before a tail. -/
theorem readTerm_listLiteral_append_tail :
    (∀ x ∈ ["a".toList, "b + c".toList] ++ ["[d]".toList] ++ (some "T".toList).toList,
        ∃ t, Settings.standard.readTerm x = .ok t) ∧
      Settings.standard.readTerm "[a,b + c,[d] | T]".toList =
        .ok (.cell [.atom "a", .cell [.compound "+" [.atom "b", .atom "c"],
          .cell [.cell [.atom "d"], .var "T"]]]) ∧
      Settings.standard.readTerm "[a,b + c | [[d] | T]]".toList =
        .ok (.cell [.atom "a", .cell [.compound "+" [.atom "b", .atom "c"],
          .cell [.cell [.atom "d"], .var "T"]]]) ∧
      ListStyle.legacy.list [.atom "a"] none ≠ ListStyle.legacy.list [.var "A"] none := by
  obtain ⟨hnest, -, -, hinj⟩ := readTerm_listLiteral_append .standard
  have hread : ∀ x ∈ ["a".toList, "b + c".toList] ++ ["[d]".toList] ++ (some "T".toList).toList,
      ∃ t, Settings.standard.readTerm x = .ok t := by
    change ∀ x ∈ ["a".toList, "b + c".toList, "[d]".toList, "T".toList],
      ∃ t, Settings.standard.readTerm x = .ok t
    simp only [List.forall_mem_cons, List.not_mem_nil, false_imp_iff, implies_true, and_true]
    exact ⟨⟨.atom "a", by decide +kernel⟩,
      ⟨.compound "+" [.atom "b", .atom "c"], by decide +kernel⟩,
      ⟨.cell [.atom "d"], by decide +kernel⟩, ⟨.var "T", by decide +kernel⟩⟩
  have hflat : Settings.standard.readTerm "[a,b + c,[d] | T]".toList =
      .ok (.cell [.atom "a", .cell [.compound "+" [.atom "b", .atom "c"],
        .cell [.cell [.atom "d"], .var "T"]]]) := by decide +kernel
  obtain ⟨t, ht, ht'⟩ := hnest _ _ _ (by simp) (by simp) hread
  cases hflat.symm.trans ht
  refine ⟨hread, hflat, ht', fun heq => ?_⟩
  have hplain : ∀ t : Term, t.isCell = false → ∀ last ∈ [t].getLast?, last.isCell = false := by
    rintro t ht last ⟨⟩
    exact ht
  cases hinj (hplain (.atom "a") rfl) (hplain (.var "A") rfl) heq

/-- A legacy list may be its own last element. -/
example : ListStyle.legacy.list [.cell [.atom "a"]] none =
    ListStyle.legacy.list [.atom "a"] none := rfl

end Settings

end HornClauses
