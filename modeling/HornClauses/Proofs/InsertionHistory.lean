import HornClauses.Symbol.Table
import Mathlib.Data.List.Induction

/-!
# Symbol tables and the insertions that made them

The look-ups of a table that starts empty can be read off its insertions: the id of a name is that
of the last insertion of the name, and an id has the name of the last insertion that used it, as
long as that name is still bound to it. So when two names share an id and the one that was inserted
last is bound anew, the id has no name although the other one is still bound to it.

* `Insertions.id?`, `Insertions.user?`: the last insertion of a name and the last use of an id.
* `SymbolTable.ofPairs_history`: what a table answers, in terms of its insertions.
* `SymbolTable.isNamed_iff`: when an id that a name is bound to has a name.
-/

namespace HornClauses

/-- A word that comes last is kept unless it has come before. -/
theorem eraseDups_concat (words : List String) (word : String) :
    (words ++ [word]).eraseDups =
      if word ∈ words then words.eraseDups else words.eraseDups ++ [word] := by
  rw [List.eraseDups_append]
  by_cases hword : word ∈ words
  · have hknown : [word].removeAll words = [] := by
      rw [List.removeAll, List.filter_cons_of_neg (by simpa using hword), List.filter_nil]
    rw [if_pos hword, hknown, List.eraseDups_nil, List.append_nil]
  · have hnew : [word].removeAll words = [word] := by
      rw [List.removeAll, List.filter_cons_of_pos (by simpa using hword), List.filter_nil]
    rw [if_neg hword, hnew, List.eraseDups_cons, List.filter_nil, List.eraseDups_nil]

/-- Insertions into a table in the order in which they are made. -/
abbrev Insertions := List (String × UInt32)

namespace Insertions

/-- The id of the last insertion of a name. -/
def id? (h : Insertions) (name : String) : Option UInt32 :=
  (h.reverse.find? fun pair => pair.1 = name).map Prod.snd

/-- The name of the last insertion that used an id. -/
def user? (h : Insertions) (id : UInt32) : Option String :=
  (h.reverse.find? fun pair => pair.2 = id).map Prod.fst

/-- The inserted names in the order of their first insertions, each once. -/
def names (h : Insertions) : List String := (h.map Prod.fst).eraseDups

/-- The name that used an id last has another id by now. -/
def Abandoned (h : Insertions) (id : UInt32) : Prop := ∃ m, h.user? id = some m ∧ h.id? m ≠ some id

variable (h : Insertions) (name n : String) (id k : UInt32)

theorem id?_concat :
    Insertions.id? (h ++ [(name, id)]) n = if n = name then some id else h.id? n := by
  by_cases hn : n = name
  · simp [id?, hn]
  · simp [id?, hn, Ne.symm hn]

theorem user?_concat :
    Insertions.user? (h ++ [(name, id)]) k = if k = id then some name else h.user? k := by
  by_cases hk : k = id
  · simp [user?, hk]
  · simp [user?, hk, Ne.symm hk]

theorem names_concat :
    Insertions.names (h ++ [(name, id)]) =
      if name ∈ h.map Prod.fst then h.names else h.names ++ [name] := by
  rw [names, List.map_append, List.map_singleton, eraseDups_concat, names]

end Insertions

namespace SymbolTable

variable {h : Insertions} {n : String} {k : UInt32}

/-! ## One insertion more -/

theorem ofPairs_concat (h : Insertions) (name : String) (id : UInt32) :
    ofPairs (h ++ [(name, id)]) = (ofPairs h).insert name id := by
  simp [ofPairs, insertAll]

theorem id?_ofPairs (h : Insertions) (n : String) : (ofPairs h).id? n = h.id? n := by
  induction h using List.reverseRecOn with
  | nil => rfl
  | append_singleton h pair ih =>
    obtain ⟨name, id⟩ := pair
    rw [ofPairs_concat, id?_insert, Insertions.id?_concat, ih]

/-- An id has the name that used it last, if that is still bound to it. -/
theorem name?_ofPairs (h : Insertions) (k : UInt32) (n : String) :
    (ofPairs h).name? k = some n ↔ h.user? k = some n ∧ h.id? n = some k := by
  induction h using List.reverseRecOn with
  | nil =>
    constructor
    · intro hnil
      cases hnil
    · rintro ⟨hnil, -⟩
      cases hnil
  | append_singleton h pair ih =>
    obtain ⟨name, id⟩ := pair
    rw [ofPairs_concat, name?_insert, id?_ofPairs, Insertions.user?_concat, Insertions.id?_concat]
    by_cases hk : k = id
    · -- The insertion uses the id, so the name that used it last is its own.
      subst hk
      simp only [if_true, Option.some.injEq]
      constructor
      · rintro rfl
        exact ⟨rfl, if_pos rfl⟩
      · exact fun hn => hn.1
    · simp only [hk, if_false]
      by_cases hn : n = name
      · -- The name leaves its former id, which must not bear the name any more.
        subst hn
        have hne : ¬ some id = some k := fun heq => hk (Option.some.inj heq).symm
        simp only [if_true, hne, and_false, iff_false]
        split
        · rintro ⟨⟩
        · rename_i hkept
          intro hname
          exact hkept ⟨(ih.1 hname).2, hname⟩
      · rw [if_neg hn]
        split
        · rename_i hleft
          constructor
          · intro hnone
            cases hnone
          · intro hboth
            have hname := ih.2 hboth
            rw [hleft.2, Option.some.injEq] at hname
            exact absurd hname.symm hn
        · exact ih

/-! ## The names in order -/

theorem keys_ofPairs (h : Insertions) : (ofPairs h).ids.map Prod.fst = h.names := by
  induction h using List.reverseRecOn with
  | nil => rfl
  | append_singleton h pair ih =>
    obtain ⟨name, id⟩ := pair
    rw [ofPairs_concat, keys_insert, Insertions.names_concat, ih, Insertions.names]
    simp only [List.mem_eraseDups]

theorem nodup_keys_ofPairs (h : Insertions) : ((ofPairs h).ids.map Prod.fst).Nodup := by
  induction h using List.reverseRecOn with
  | nil => exact List.nodup_nil
  | append_singleton h pair ih =>
    obtain ⟨name, id⟩ := pair
    rw [ofPairs_concat, keys_insert]
    split
    · exact ih
    · rename_i hname
      refine List.nodup_append.2 ⟨ih, List.pairwise_singleton _ name, ?_⟩
      intro n hn m hm heq
      rw [List.mem_singleton.1 hm] at heq
      exact hname (heq ▸ hn)

theorem symbols_ofPairs (h : Insertions) :
    (ofPairs h).ids.map (fun pair => (pair.1, some pair.2)) =
      h.names.map fun n => (n, h.id? n) := by
  rw [← keys_ofPairs, List.map_map]
  refine List.map_congr_left fun pair hpair => ?_
  have hget : (ofPairs h).id? pair.1 = some pair.2 :=
    Bindings.get?_of_mem (nodup_keys_ofPairs h) hpair
  rw [Function.comp_apply, ← id?_ofPairs, hget]

/-! ## Main results -/

/-- What a table answers after any insertions, and what each further insertion returns. -/
theorem ofPairs_history (h : Insertions) :
    (∀ n, (ofPairs h).id? n = h.id? n) ∧
      (∀ k n, (ofPairs h).name? k = some n ↔
        h.user? k = some n ∧ (ofPairs h).id? n = some k) ∧
      (∀ n k, (ofPairs h).exchange n k = (h.id? n, ofPairs (h ++ [(n, k)]))) ∧
      (ofPairs h).ids.map (fun pair => (pair.1, some pair.2)) =
        h.names.map fun n => (n, h.id? n) := by
  refine ⟨id?_ofPairs h, ?_, ?_, symbols_ofPairs h⟩
  · intro k n
    rw [id?_ofPairs]
    exact name?_ofPairs h k n
  · intro n k
    rw [exchange, id?_ofPairs, ofPairs_concat]

/-- The id has a name, and that name is bound to it. -/
def IsNamed (table : SymbolTable) (id : UInt32) : Prop :=
  ∃ m, table.name? id = some m ∧ table.id? m = some id

/-- Every id that a name is bound to has a name that is bound to it. -/
def NamesAll (table : SymbolTable) : Prop := ∀ n k, table.id? n = some k → table.IsNamed k

/-- The id of two names has no name once the second of them is bound to another id. -/
theorem not_namesAll_ofPairs : ¬ ∀ h, (ofPairs h).NamesAll := by
  intro hall
  obtain ⟨m, hm, -⟩ := hall [("a", 1), ("b", 1), ("b", 2)] "a" 1 (by decide)
  have hnone : (ofPairs [("a", 1), ("b", 1), ("b", 2)]).name? 1 = none := by decide
  rw [hnone] at hm
  cases hm

/-- An id that a name is bound to has a name unless the name that used it last has left it, and that
is also when the only name that is bound to an id is found under it. -/
theorem isNamed_iff (hn : (ofPairs h).id? n = some k) :
    ((ofPairs h).IsNamed k ↔ ¬ h.Abandoned k) ∧
      ((∀ m, (ofPairs h).id? m = some k → m = n) →
        ((ofPairs h).name? k = some n ↔ ¬ h.Abandoned k)) := by
  have huser : ∃ m, h.user? k = some m := by
    rw [id?_ofPairs, Insertions.id?, Option.map_eq_some_iff] at hn
    obtain ⟨pair, hpair, rfl⟩ := hn
    have hmem := List.mem_of_find?_eq_some hpair
    rw [← Option.isSome_iff_exists, Insertions.user?, Option.isSome_map, List.find?_isSome]
    exact ⟨pair, hmem, by simp⟩
  obtain ⟨m, hm⟩ := huser
  have hnamed : (ofPairs h).IsNamed k ↔ ¬ h.Abandoned k := by
    constructor
    · rintro ⟨m', hname, -⟩ ⟨m'', hm'', hleft⟩
      obtain ⟨hm', hbound⟩ := (name?_ofPairs h k m').1 hname
      rw [hm'', Option.some.injEq] at hm'
      exact hleft (hm' ▸ hbound)
    · intro hkept
      have hbound : h.id? m = some k := by
        by_contra hleft
        exact hkept ⟨m, hm, hleft⟩
      exact ⟨m, (name?_ofPairs h k m).2 ⟨hm, hbound⟩, by rw [id?_ofPairs, hbound]⟩
  refine ⟨hnamed, fun honly => ?_⟩
  rw [← hnamed]
  constructor
  · exact fun hname => ⟨n, hname, hn⟩
  · rintro ⟨m', hname, hbound⟩
    rwa [honly m' hbound] at hname

/-- An id that two names shared keeps the name of the second when the first is bound anew. -/
theorem isNamed_shared :
    (ofPairs [("a", 1), ("b", 1), ("a", 2)]).id? "b" = some 1 ∧
      (ofPairs [("a", 1), ("b", 1), ("a", 2)]).IsNamed 1 ∧
      (ofPairs [("a", 1), ("b", 1), ("a", 2)]).name? 1 = some "b" := by
  have hb : (ofPairs [("a", 1), ("b", 1), ("a", 2)]).id? "b" = some 1 := by decide
  have honly : ∀ m, (ofPairs [("a", 1), ("b", 1), ("a", 2)]).id? m = some 1 → m = "b" := by
    intro m hm
    by_contra hne
    by_cases ha : m = "a"
    · subst ha
      exact absurd hm (by decide)
    · rw [id?_ofPairs] at hm
      simp [Insertions.id?, Ne.symm ha, Ne.symm hne] at hm
  have hkept : ¬ Insertions.Abandoned [("a", 1), ("b", 1), ("a", 2)] 1 := by
    rintro ⟨m, hm, hleft⟩
    have hlast : Insertions.user? [("a", 1), ("b", 1), ("a", 2)] 1 = some "b" := by decide
    rw [hlast, Option.some.injEq] at hm
    subst hm
    exact hleft (by decide)
  exact ⟨hb, (isNamed_iff hb).1.2 hkept, ((isNamed_iff hb).2 honly).2 hkept⟩

end SymbolTable

end HornClauses
