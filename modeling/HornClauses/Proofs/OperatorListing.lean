import HornClauses.Proofs.ChainResolution
import Mathlib.Data.List.Nodup

/-!
# Lists of operators

A list of tokens makes a table if it holds tokens of the grammar only and none of them twice. Of
several items that are at fault the first one is reported; an item whose token the grammar does not
know is at fault for that, wherever else its token stands. In a table an operator is looked up by
its token, and the entry that is found is the one that stands in the place which is found.

* `OperatorTable.ItemFault`: what is wrong with an item of a list.
* `OperatorTable.ofList?_eq_ok_iff`, `OperatorTable.exists_ofList?_iff`,
  `OperatorTable.ofList?_eq_error_iff`: the tables that are made of lists, and the faults.
* `OperatorTable.LooksUp`, `OperatorTable.looksUp`: entries and places.
* `OperatorTable.ListsAll`, `OperatorTable.exists_listsAll_of_perm`: tables that list every token.
-/

namespace HornClauses

namespace Operator

/-- The tokens of all operators, in the order in which the grammar tries them. -/
def tokens : List String := all.map token

theorem token_mem_tokens (op : Operator) : op.token ∈ tokens := List.mem_map_of_mem (mem_all op)

theorem ofToken?_eq_some_iff {text : String} {op : Operator} :
    ofToken? text = some op ↔ op.token = text := by
  constructor
  · exact token_of_ofToken?
  · rintro rfl
    exact ofToken?_token op

theorem ofToken?_eq_none_iff {text : String} : ofToken? text = none ↔ text ∉ tokens := by
  rw [Option.eq_none_iff_forall_ne_some, tokens, List.mem_map]
  simp only [ne_eq, ofToken?_eq_some_iff, mem_all, true_and, not_exists]

theorem token_ne_of_ofToken? {text : String} (h : ofToken? text = none) (op : Operator) :
    op.token ≠ text := by
  rintro rfl
  exact ofToken?_eq_none_iff.1 h op.token_mem_tokens

theorem token_injective : Function.Injective token := by
  intro op op' h
  rw [← ofToken?_eq_some_iff, ofToken?_token, Option.some.injEq] at h
  exact h.symm

theorem nodup_tokens : tokens.Nodup := List.Nodup.map token_injective (by decide)

end Operator

namespace OperatorTable

/-! ## The items of a table -/

/-- The token of an entry with the name that is given to it. -/
def item (e : OperatorEntry) : String × Option String := (e.operator.token, e.rename)

theorem item_injective : Function.Injective item := by
  intro e e' h
  obtain ⟨op, rename⟩ := e
  obtain ⟨op', rename'⟩ := e'
  obtain ⟨htoken, rfl⟩ := Prod.mk.inj h
  cases Operator.token_injective htoken
  rfl

def toList (table : OperatorTable) : List (String × Option String) := table.entries.map item

theorem toList_injective : Function.Injective toList := by
  intro table other h
  obtain ⟨entries, distinct⟩ := table
  obtain ⟨entries', distinct'⟩ := other
  cases List.map_injective_iff.2 item_injective h
  rfl

/-- The tokens that a table lists. -/
def tokens (table : OperatorTable) : List String := table.toList.map Prod.fst

theorem tokens_eq (table : OperatorTable) :
    table.tokens = table.operators.map Operator.token := by
  rw [tokens, toList, operators, List.map_map, List.map_map]
  rfl

theorem token_mem_tokens_iff {table : OperatorTable} {op : Operator} :
    op.token ∈ table.tokens ↔ op ∈ table.operators := by
  rw [tokens_eq, List.mem_map_of_injective Operator.token_injective]

theorem nodup_tokens (table : OperatorTable) : table.tokens.Nodup := by
  rw [tokens_eq]
  exact table.distinct.map Operator.token_injective

theorem mem_of_mem_tokens (table : OperatorTable) :
    ∀ token ∈ table.tokens, token ∈ Operator.tokens := by
  intro token h
  rw [tokens_eq] at h
  obtain ⟨op, -, rfl⟩ := List.mem_map.1 h
  exact op.token_mem_tokens

/-! ## Faults of a list -/

/-- What is wrong with the item in this place of a list, whose tokens are given: the grammar does
not know the token, or it does and the token is that of an earlier item. -/
inductive ItemFault (tokens : List String) (i : Nat) : OperatorTableError → Prop where
  | unknown {token : String} : tokens[i]? = some token → token ∉ Operator.tokens →
    ItemFault tokens i (.unknown token)
  | duplicate {token : String} : tokens[i]? = some token → token ∈ Operator.tokens →
    token ∈ tokens.take i → ItemFault tokens i (.duplicate token)

/-- What is wrong with the first item that is at fault. -/
def FirstItemFault (tokens : List String) (err : OperatorTableError) : Prop :=
  ∃ i, ItemFault tokens i err ∧ ∀ j < i, ∀ err', ¬ ItemFault tokens j err'

section Faults

variable {tokens more : List String} {i : Nat} {err err' : OperatorTableError}

theorem ItemFault.unique (h : ItemFault tokens i err) (h' : ItemFault tokens i err') :
    err = err' := by
  cases h with
  | unknown htoken hunknown =>
    cases h' with
    | unknown htoken' _ =>
      rw [htoken, Option.some.injEq] at htoken'
      rw [htoken']
    | duplicate htoken' hknown _ =>
      rw [htoken, Option.some.injEq] at htoken'
      exact absurd (htoken' ▸ hknown) hunknown
  | duplicate htoken hknown _ =>
    cases h' with
    | unknown htoken' hunknown =>
      rw [htoken, Option.some.injEq] at htoken'
      exact absurd (htoken' ▸ hknown) hunknown
    | duplicate htoken' _ _ =>
      rw [htoken, Option.some.injEq] at htoken'
      rw [htoken']

theorem firstItemFault_iff (h : ItemFault tokens i err)
    (hbefore : ∀ j < i, ∀ err', ¬ ItemFault tokens j err') :
    FirstItemFault tokens err' ↔ err = err' := by
  constructor
  · rintro ⟨j, hj, hfirst⟩
    rcases Nat.lt_trichotomy i j with hlt | rfl | hlt
    · exact absurd h (hfirst i hlt err)
    · exact h.unique hj
    · exact absurd hj (hbefore j hlt err')
  · rintro rfl
    exact ⟨i, h, hbefore⟩

/-- Tokens of the grammar, none of them twice, are not at fault. -/
theorem not_itemFault (hknown : ∀ token ∈ tokens, token ∈ Operator.tokens) (hnodup : tokens.Nodup)
    (i : Nat) (err : OperatorTableError) : ¬ ItemFault tokens i err := by
  intro h
  cases h with
  | unknown htoken hunknown => exact hunknown (hknown _ (List.mem_of_getElem? htoken))
  | duplicate htoken _ hearlier =>
    obtain ⟨hi, rfl⟩ := List.getElem?_eq_some_iff.1 htoken
    rw [← List.take_append_drop i tokens, List.drop_eq_getElem_cons hi] at hnodup
    exact (List.nodup_append.1 hnodup).2.2 _ hearlier _ List.mem_cons_self rfl

theorem ItemFault.of_append (hi : i < tokens.length) (h : ItemFault (tokens ++ more) i err) :
    ItemFault tokens i err := by
  cases h with
  | unknown htoken hunknown =>
    rw [List.getElem?_append_left hi] at htoken
    exact .unknown htoken hunknown
  | duplicate htoken hknown hearlier =>
    rw [List.getElem?_append_left hi] at htoken
    rw [List.take_append_of_le_length (Nat.le_of_lt hi)] at hearlier
    exact .duplicate htoken hknown hearlier

end Faults

/-! ## Tables of lists -/

variable {table table' : OperatorTable} {items : List (String × Option String)}
  {err : OperatorTableError}

/-- What becomes of the next item: it is unknown, or listed already, or the table lists it from now
on. -/
theorem extend_cons (table : OperatorTable) (token : String) (rename : Option String)
    (items : List (String × Option String)) :
    (token ∉ Operator.tokens ∧ table.extend ((token, rename) :: items) = .error (.unknown token)) ∨
    (token ∈ Operator.tokens ∧ token ∈ table.tokens ∧
      table.extend ((token, rename) :: items) = .error (.duplicate token)) ∨
    ∃ t : OperatorTable, t.toList = table.toList ++ [(token, rename)] ∧
      table.extend ((token, rename) :: items) = t.extend items := by
  rw [extend]
  cases hop : Operator.ofToken? token with
  | none => exact Or.inl ⟨Operator.ofToken?_eq_none_iff.1 hop, rfl⟩
  | some op =>
    rw [Operator.ofToken?_eq_some_iff] at hop
    subst hop
    refine Or.inr ?_
    dsimp only
    split
    · rename_i hlisted
      exact Or.inl ⟨op.token_mem_tokens, token_mem_tokens_iff.2 hlisted, rfl⟩
    · refine Or.inr ⟨_, ?_, rfl⟩
      exact List.map_append

theorem extend_eq_ok_iff :
    table.extend items = .ok table' ↔ table'.toList = table.toList ++ items := by
  induction items generalizing table with
  | nil =>
    rw [extend, Except.ok.injEq, List.append_nil]
    exact ⟨fun h => h ▸ rfl, fun h => toList_injective h.symm⟩
  | cons first items ih =>
    obtain ⟨token, rename⟩ := first
    have htokens : table'.toList = table.toList ++ (token, rename) :: items →
        table'.tokens = table.tokens ++ token :: items.map Prod.fst := by
      intro hlist
      rw [tokens, hlist, List.map_append, List.map_cons, tokens]
    rcases extend_cons table token rename items with
      ⟨hunknown, hextend⟩ | ⟨-, hlisted, hextend⟩ | ⟨t, ht, hextend⟩
    · rw [hextend]
      refine ⟨nofun, fun hlist => absurd (table'.mem_of_mem_tokens token ?_) hunknown⟩
      rw [htokens hlist]
      exact List.mem_append_right _ List.mem_cons_self
    · rw [hextend]
      refine ⟨nofun, fun hlist => absurd table'.nodup_tokens ?_⟩
      rw [htokens hlist]
      exact fun hnodup => (List.nodup_append.1 hnodup).2.2 _ hlisted _ List.mem_cons_self rfl
    · rw [hextend, ih, ht, List.append_assoc, List.singleton_append]

theorem extend_eq_error_iff :
    table.extend items = .error err ↔
      FirstItemFault (table.tokens ++ items.map Prod.fst) err := by
  induction items generalizing table with
  | nil =>
    rw [extend, List.map_nil, List.append_nil]
    refine ⟨nofun, ?_⟩
    rintro ⟨i, h, -⟩
    exact absurd h (not_itemFault table.mem_of_mem_tokens table.nodup_tokens i err)
  | cons first items ih =>
    obtain ⟨token, rename⟩ := first
    rw [List.map_cons]
    have hbefore : ∀ j < table.tokens.length, ∀ err',
        ¬ ItemFault (table.tokens ++ token :: items.map Prod.fst) j err' := fun j hj err' h =>
      not_itemFault table.mem_of_mem_tokens table.nodup_tokens j err' (h.of_append hj)
    have htoken : (table.tokens ++ token :: items.map Prod.fst)[table.tokens.length]? =
        some token := by simp
    rcases extend_cons table token rename items with
      ⟨hunknown, hextend⟩ | ⟨hknown, hlisted, hextend⟩ | ⟨t, ht, hextend⟩
    · rw [hextend, Except.error.injEq, firstItemFault_iff (.unknown htoken hunknown) hbefore]
    · have hearlier : token ∈
          (table.tokens ++ token :: items.map Prod.fst).take table.tokens.length := by
        rwa [List.take_left]
      rw [hextend, Except.error.injEq,
        firstItemFault_iff (.duplicate htoken hknown hearlier) hbefore]
    · have htokens : t.tokens = table.tokens ++ [token] := by
        rw [tokens, ht, List.map_append]
        rfl
      rw [hextend, ih, htokens, List.append_assoc, List.singleton_append]

/-- The table of a list lists its items, and no other table does. -/
theorem ofList?_eq_ok_iff : ofList? items = .ok table ↔ table.toList = items := extend_eq_ok_iff

theorem ofList?_eq_error_iff :
    ofList? items = .error err ↔ FirstItemFault (items.map Prod.fst) err := extend_eq_error_iff

theorem exists_ofList?_iff :
    (∃ table, ofList? items = .ok table) ↔
      (∀ token ∈ items.map Prod.fst, token ∈ Operator.tokens) ∧ (items.map Prod.fst).Nodup := by
  constructor
  · rintro ⟨table, h⟩
    rw [← ofList?_eq_ok_iff.1 h]
    exact ⟨table.mem_of_mem_tokens, table.nodup_tokens⟩
  · rintro ⟨hknown, hnodup⟩
    cases h : ofList? items with
    | ok table => exact ⟨table, rfl⟩
    | error err =>
      obtain ⟨i, hfault, -⟩ := ofList?_eq_error_iff.1 h
      exact absurd hfault (not_itemFault hknown hnodup i err)

/-! ## Looking up tokens -/

/-- The entry of a token. -/
def entryOf? (table : OperatorTable) (token : String) : Option OperatorEntry :=
  (Operator.ofToken? token).bind table.get?

/-- The place of a token in the check order. -/
def placeOf? (table : OperatorTable) (token : String) : Option Nat :=
  (Operator.ofToken? token).bind table.priority?

theorem entryOf?_eq (table : OperatorTable) (token : String) :
    table.entryOf? token = table.entries.find? fun e => e.operator.token = token := by
  rw [entryOf?]
  cases hop : Operator.ofToken? token with
  | none =>
    refine (List.find?_eq_none.2 fun e _ => ?_).symm
    simpa using e.operator.token_ne_of_ofToken? hop
  | some op =>
    rw [← Operator.ofToken?_eq_some_iff.1 hop]
    simp [get?, Operator.token_injective.eq_iff]

theorem placeOf?_eq (table : OperatorTable) (token : String) :
    table.placeOf? token = table.entries.findIdx? fun e => e.operator.token = token := by
  rw [placeOf?]
  cases hop : Operator.ofToken? token with
  | none =>
    refine (List.findIdx?_eq_none_iff.2 fun e _ => ?_).symm
    simpa using e.operator.token_ne_of_ofToken? hop
  | some op =>
    rw [← Operator.ofToken?_eq_some_iff.1 hop]
    simp [priority?, Operator.token_injective.eq_iff]

/-- The entry of a token is the one in its place. -/
theorem entryOf?_eq_bind_placeOf? (table : OperatorTable) (token : String) :
    table.entryOf? token = (table.placeOf? token).bind fun k => table.entries[k]? := by
  rw [entryOf?_eq, placeOf?_eq, List.find?_eq_bind_findIdx?_getElem?]

theorem isSome_entryOf? (table : OperatorTable) (token : String) :
    (table.entryOf? token).isSome = (table.placeOf? token).isSome := by
  rw [entryOf?_eq, placeOf?_eq, List.findIdx?_isSome, List.isSome_find?]

/-- Something stands in every place that is found, and it has the token. -/
theorem exists_of_placeOf? {table : OperatorTable} {token : String} {k : Nat}
    (h : table.placeOf? token = some k) :
    ∃ e, table.entries[k]? = some e ∧ table.entryOf? token = some e ∧
      e.operator.token = token := by
  have hentry := entryOf?_eq_bind_placeOf? table token
  rw [h, Option.bind_some] at hentry
  rw [placeOf?_eq, List.findIdx?_eq_some_iff_getElem] at h
  obtain ⟨hk, htoken, -⟩ := h
  have hplace := List.getElem?_eq_getElem hk
  exact ⟨_, hplace, hentry.trans hplace, of_decide_eq_true htoken⟩

/-- Tokens that are found have places of their own. -/
theorem eq_of_placeOf? {table : OperatorTable} {token token' : String} {k : Nat}
    (h : table.placeOf? token = some k) (h' : table.placeOf? token' = some k) : token = token' := by
  obtain ⟨e, hplace, -, rfl⟩ := exists_of_placeOf? h
  obtain ⟨e', hplace', -, rfl⟩ := exists_of_placeOf? h'
  rw [hplace, Option.some.injEq] at hplace'
  rw [hplace']

theorem isSome_entryOf?_iff {table : OperatorTable} {token : String} :
    (table.entryOf? token).isSome ↔ token ∈ table.tokens := by
  rw [entryOf?_eq, List.find?_isSome, tokens, toList, List.map_map, List.mem_map]
  simp [item]

/-- The two ways to look up a token agree: both find the tokens that are listed and no others, the
entry that is found stands in the place that is found, and no two tokens have one place. -/
structure LooksUp (table : OperatorTable) : Prop where
  listed : ∀ token, (table.entryOf? token).isSome ↔ token ∈ table.tokens
  present : ∀ token, (table.entryOf? token).isSome = (table.placeOf? token).isSome
  placed : ∀ token k, table.placeOf? token = some k → ∃ e, table.entries[k]? = some e ∧
    table.entryOf? token = some e ∧ e.operator.token = token
  apart : ∀ token token' k, table.placeOf? token = some k → table.placeOf? token' = some k →
    token = token'

theorem looksUp (table : OperatorTable) : table.LooksUp where
  listed _ := isSome_entryOf?_iff
  present := isSome_entryOf? table
  placed _ _ := exists_of_placeOf?
  apart _ _ _ := eq_of_placeOf?

/-- A table that lists every token of the grammar. -/
def ListsAll (table : OperatorTable) : Prop := ∀ token ∈ Operator.tokens, token ∈ table.tokens

theorem listsAll_standard : standard.ListsAll := by
  intro token h
  obtain ⟨op, -, rfl⟩ := List.mem_map.1 h
  exact token_mem_tokens_iff.2 (mem_operators_iff.2 (isSome_get?_standard op))

/-- The tokens of the grammar make a table in every order. -/
theorem exists_listsAll_of_perm (h : (items.map Prod.fst).Perm Operator.tokens) :
    ∃ table, ofList? items = .ok table ∧ table.ListsAll := by
  obtain ⟨table, htable⟩ := exists_ofList?_iff.2
    ⟨fun token htoken => h.mem_iff.1 htoken, h.nodup_iff.2 Operator.nodup_tokens⟩
  refine ⟨table, htable, fun token htoken => ?_⟩
  rw [tokens, ofList?_eq_ok_iff.1 htable]
  exact h.mem_iff.2 htoken

end OperatorTable

end HornClauses
