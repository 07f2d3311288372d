import HornClauses.Proofs.Decoding
import HornClauses.Proofs.InsertionHistory

/-!
# The symbol table of a program

A table that is built from names numbers the distinct ones in the order of their first occurrences,
and a name that comes later never changes the number of one that has come before. So the table that
is built from the names of a program knows every head and every goal of it, and the names of the ids
in their codes are the names of the program in order.

* `SymbolTable.ofNames_concat`: what one name more does to a table.
* `SymbolTable.id?_ofNames`, `SymbolTable.name?_ofNames`: the numbers of the names.
* `SymbolTable.id?_ofNames_append`: names that come later change none of them.
* `SymbolTable.ofProgram_encodes`: the codes of the heads and goals of a program.
-/

namespace HornClauses

/-! ## The names of a program -/

/-- The heads and goals of a program in order. -/
def programParts (cs : List Clause) : List Predicate := cs.flatMap Clause.parts

/-- The names of a program in order, each as often as it occurs. -/
def programNames (cs : List Clause) : List String := cs.flatMap Clause.names

theorem programNames_eq (cs : List Clause) :
    programNames cs = (programParts cs).flatMap Predicate.names := by
  rw [programParts, List.flatMap_assoc]
  rfl

theorem programNames_append (cs ds : List Clause) :
    programNames (cs ++ ds) = programNames cs ++ programNames ds := List.flatMap_append

namespace SymbolTable

/-! ## Numbers of names -/

theorem addNames_append (table : SymbolTable) (names more : List String) :
    table.addNames (names ++ more) = (table.addNames names).addNames more := by
  induction names generalizing table with
  | nil => rfl
  | cons name names ih =>
    rw [List.cons_append, addNames, addNames]
    split
    · exact ih table
    · exact ih _

theorem addNames_singleton (table : SymbolTable) (name : String) :
    table.addNames [name] =
      if (table.id? name).isSome then table
      else table.insert name (UInt32.ofNat table.size) := rfl

theorem isSome_id?_ofNames (names : List String) (m : String) :
    ((ofNames names).id? m).isSome ↔ m ∈ names := by
  induction names using List.reverseRecOn generalizing m with
  | nil => simp [ofNames, addNames, empty, id?, Bindings.get?]
  | append_singleton names name ih =>
    rw [ofNames, addNames_append, ← ofNames, addNames_singleton]
    split
    · rename_i hknown
      have hname := (ih name).1 hknown
      rw [ih, List.mem_append, List.mem_singleton]
      constructor
      · exact Or.inl
      · rintro (hm | rfl)
        · exact hm
        · exact hname
    · rw [id?_insert, List.mem_append, List.mem_singleton, ← ih]
      split
      · rename_i heq
        simp [heq]
      · rename_i hne
        simp [hne]

theorem id?_ofNames_eq_none {names : List String} {m : String} (hm : m ∉ names) :
    (ofNames names).id? m = none := by
  rwa [← isSome_id?_ofNames, Bool.not_eq_true, Option.isSome_eq_false_iff,
    Option.isNone_iff_eq_none] at hm

theorem keys_ofNames (names : List String) :
    (ofNames names).ids.map Prod.fst = names.eraseDups := by
  induction names using List.reverseRecOn with
  | nil => rfl
  | append_singleton names name ih =>
    rw [ofNames, addNames_append, ← ofNames, addNames_singleton, eraseDups_concat]
    simp only [isSome_id?_ofNames]
    split
    · exact ih
    · rename_i hnew
      rw [keys_insert, ih, if_neg (by rwa [List.mem_eraseDups])]

theorem size_ofNames (names : List String) : (ofNames names).size = names.eraseDups.length := by
  rw [← keys_ofNames, List.length_map, size]

/-- A new name gets the number of distinct names before it. -/
theorem ofNames_concat (names : List String) (name : String) :
    ofNames (names ++ [name]) =
      if name ∈ names then ofNames names
      else (ofNames names).insert name (UInt32.ofNat names.eraseDups.length) := by
  rw [ofNames, addNames_append, ← ofNames, addNames_singleton, size_ofNames]
  simp only [isSome_id?_ofNames]

/-- Names that come later do not change the ids of those before them. -/
theorem id?_ofNames_append {names : List String} (more : List String) {m : String}
    (hm : m ∈ names) : (ofNames (names ++ more)).id? m = (ofNames names).id? m := by
  induction more using List.reverseRecOn with
  | nil => rw [List.append_nil]
  | append_singleton more name ih =>
    rw [← List.append_assoc, ofNames_concat]
    split
    · exact ih
    · rename_i hnew
      have hne : m ≠ name := by
        rintro rfl
        exact hnew (List.mem_append_left more hm)
      rw [id?_insert, if_neg hne, ih]

/-! ## Names of numbers -/

theorem eq_ofNat_iff {n : Nat} (hn : n < UInt32.size) {k : UInt32} :
    k = UInt32.ofNat n ↔ k.toNat = n := by
  rw [← UInt32.toNat_inj, UInt32.toNat_ofNat_of_lt' hn]

theorem getElem?_concat_eq_some {words : List String} {word m : String} {i : Nat} :
    (words ++ [word])[i]? = some m ↔ words[i]? = some m ∨ i = words.length ∧ word = m := by
  grind

section Numbers

variable {names : List String}

/-- Induction on names that come one after another. Before a new name there is room for its
number. -/
@[elab_as_elim]
theorem numbers_induct {motive : List String → Prop} (nil : motive [])
    (known : ∀ names name, name ∈ names → motive names → motive (names ++ [name]))
    (new : ∀ names name, name ∉ names → names.eraseDups.length < UInt32.size →
      motive names → motive (names ++ [name]))
    (h : names.eraseDups.length ≤ UInt32.size) : motive names := by
  induction names using List.reverseRecOn with
  | nil => exact nil
  | append_singleton names name ih =>
    rw [eraseDups_concat] at h
    split at h
    · rename_i hknown
      exact known names name hknown (ih h)
    · rename_i hnew
      rw [List.length_append] at h
      exact new names name hnew h (ih (Nat.le_of_lt h))

/-- The id of a name is its place among the distinct names. -/
theorem id?_ofNames (h : names.eraseDups.length ≤ UInt32.size) (m : String) (k : UInt32) :
    (ofNames names).id? m = some k ↔ names.eraseDups[k.toNat]? = some m := by
  refine numbers_induct ?_ ?_ ?_ h
  · simp [ofNames, addNames, empty, id?, Bindings.get?]
  · intro names name hknown ih
    rw [ofNames_concat, if_pos hknown, eraseDups_concat, if_pos hknown]
    exact ih
  · intro names name hnew hlt ih
    rw [ofNames_concat, if_neg hnew, eraseDups_concat, if_neg hnew, id?_insert,
      getElem?_concat_eq_some, ← ih, ← eq_ofNat_iff hlt]
    split
    · rename_i heq
      subst heq
      simp [id?_ofNames_eq_none hnew, eq_comm]
    · rename_i hne
      simp [Ne.symm hne]

/-- The name of an id is the distinct name in its place. -/
theorem name?_ofNames (h : names.eraseDups.length ≤ UInt32.size) (m : String) (k : UInt32) :
    (ofNames names).name? k = some m ↔ names.eraseDups[k.toNat]? = some m := by
  refine numbers_induct ?_ ?_ ?_ h
  · simp [ofNames, addNames, empty, name?, Bindings.get?]
  · intro names name hknown ih
    rw [ofNames_concat, if_pos hknown, eraseDups_concat, if_pos hknown]
    exact ih
  · intro names name hnew hlt ih
    rw [ofNames_concat, if_neg hnew, eraseDups_concat, if_neg hnew, name?_insert,
      getElem?_concat_eq_some, id?_ofNames_eq_none hnew, ← eq_ofNat_iff hlt]
    split
    · rename_i hk
      have hend : names.eraseDups[k.toNat]? = none := by
        rw [(eq_ofNat_iff hlt).1 hk]
        exact List.getElem?_eq_none (Nat.le_refl _)
      rw [hend]
      simp [hk]
    · rename_i hk
      simp [hk, ih]

theorem recalls_ofNames (h : names.eraseDups.length ≤ UInt32.size) :
    (ofNames names).Recalls names := by
  intro m hm
  obtain ⟨k, hk⟩ := Option.isSome_iff_exists.1 ((isSome_id?_ofNames names m).2 hm)
  rw [hk, Option.bind_some, name?_ofNames h, ← id?_ofNames h, hk]

end Numbers

/-! ## Codes of a program -/

variable {table : SymbolTable}

/-- The names of the ids in a code are the names that were coded. -/
theorem exists_encodeNames_of_recalls {names : List String} (h : table.Recalls names) :
    ∃ ids, table.encodeNames names = .ok ids ∧ ids.map table.name? = names.map some := by
  obtain ⟨ids, hids⟩ := exists_ids_of_recalls h
  refine ⟨ids, encodeNames_eq_ok.2 hids, ?_⟩
  calc ids.map table.name? = (ids.map some).map fun id => id.bind table.name? := by
        rw [List.map_map]
        rfl
    _ = names.map fun n => (table.id? n).bind table.name? := by
        rw [← hids, List.map_map]
        rfl
    _ = names.map some := List.map_congr_left h

theorem exists_encodeAll_of_recalls {ps : List Predicate}
    (h : table.Recalls (ps.flatMap Predicate.names)) :
    ∃ codes, ps.mapM table.encodePredicate = .ok codes ∧
      codes.flatten.map table.name? = (ps.flatMap Predicate.names).map some := by
  induction ps with
  | nil => exact ⟨[], rfl, rfl⟩
  | cons p ps ih =>
    rw [Recalls, List.flatMap_cons, List.forall_mem_append] at h
    obtain ⟨ids, hids, hnames⟩ := exists_encodeNames_of_recalls h.1
    obtain ⟨codes, hcodes, hrest⟩ := ih h.2
    refine ⟨ids :: codes, ?_, ?_⟩
    · rw [List.mapM_cons, encodePredicate, hids, hcodes]
      rfl
    · rw [List.flatten_cons, List.map_append, List.flatMap_cons, List.map_append, hnames, hrest]

/-- The table of the names of a program. -/
def ofProgram (cs : List Clause) : SymbolTable := ofNames (programNames cs)

/-- A head or a goal of a program has the same code in the table of a longer program. -/
theorem encodePredicate_ofProgram_append {cs : List Clause} {p : Predicate}
    (hp : p ∈ programParts cs) (ds : List Clause) :
    (ofProgram (cs ++ ds)).encodePredicate p = (ofProgram cs).encodePredicate p := by
  apply encodeNames_congr
  intro n hn
  rw [ofProgram, programNames_append]
  apply id?_ofNames_append
  rw [programNames_eq]
  exact List.mem_flatMap.2 ⟨p, hp, hn⟩

/-- The table of a program numbers its distinct names from zero in the order of their first
occurrences. Every head and every goal has a code, argument by argument as well, and the names of
the ids in the codes are the names of the program. Clauses that follow do not change the codes. -/
theorem ofProgram_encodes {cs : List Clause}
    (h : (programNames cs).eraseDups.length ≤ UInt32.size) :
    (∀ m k, (ofProgram cs).id? m = some k ↔ (programNames cs).eraseDups[k.toNat]? = some m) ∧
      (∀ m k, (ofProgram cs).name? k = some m ↔ (ofProgram cs).id? m = some k) ∧
      (ofProgram cs).Recalls (programNames cs) ∧
      (∃ codes, (programParts cs).mapM (ofProgram cs).encodePredicate = .ok codes ∧
        (programParts cs).mapM (ofProgram cs).encodeInTurn = .ok codes ∧
        codes.flatten.map (ofProgram cs).name? = (programNames cs).map some) ∧
      ∀ ds, ∀ p ∈ programParts cs,
        (ofProgram (cs ++ ds)).encodePredicate p = (ofProgram cs).encodePredicate p := by
  refine ⟨id?_ofNames h, ?_, recalls_ofNames h, ?_, ?_⟩
  · intro m k
    rw [ofProgram, name?_ofNames h, id?_ofNames h]
  · have hrecalls : (ofProgram cs).Recalls ((programParts cs).flatMap Predicate.names) := by
      rw [← programNames_eq]
      exact recalls_ofNames h
    obtain ⟨codes, hcodes, hnames⟩ := exists_encodeAll_of_recalls hrecalls
    refine ⟨codes, hcodes, ?_, by rw [hnames, programNames_eq]⟩
    rw [← hcodes]
    exact congrArg (programParts cs).mapM (funext (encodeInTurn_eq _))
  · intro ds p hp
    exact encodePredicate_ofProgram_append hp ds

/-- The program `p(X) :- X is 1 + 2. q(1, X) :- p([]).` -/
def sumProgram : List Clause :=
  [⟨⟨"p", [.var "X"]⟩, [⟨"is", [.var "X", .compound "+" [.atom "1", .atom "2"]]⟩]⟩,
    ⟨⟨"q", [.atom "1", .var "X"]⟩, [⟨"p", [.nil]⟩]⟩]

theorem ofProgram_encodes_sumProgram :
    (programNames sumProgram).eraseDups = ["p", "X", "is", "+", "1", "2", "q", "."] ∧
      (programNames sumProgram).eraseDups.length ≤ UInt32.size ∧
      (programParts sumProgram).mapM (ofProgram sumProgram).encodeInTurn =
        .ok [[0, 1], [2, 1, 3, 4, 5], [6, 4, 1], [0, 7]] ∧
      ∀ ds, ∀ p ∈ programParts sumProgram,
        (ofProgram (sumProgram ++ ds)).encodePredicate p =
          (ofProgram sumProgram).encodePredicate p := by
  have hnames : (programNames sumProgram).eraseDups =
      ["p", "X", "is", "+", "1", "2", "q", "."] := by decide
  have h : (programNames sumProgram).eraseDups.length ≤ UInt32.size := by
    rw [hnames]
    decide
  obtain ⟨-, -, -, ⟨codes, hcodes, hturn, -⟩, hlater⟩ := ofProgram_encodes h
  refine ⟨hnames, h, ?_, hlater⟩
  rw [hturn, ← hcodes]
  decide

end SymbolTable

end HornClauses
