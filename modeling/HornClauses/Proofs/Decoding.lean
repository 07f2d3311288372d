import HornClauses.Proofs.TermCode

/-!
# Decoding codes under a signature

A signature gives every name one kind and one number of arguments. Under a signature a code is read
from left to right: the name of an id tells how many terms follow as its arguments. This gives back
every term that respects the signature, and what follows its code is left.

* `SymbolTable.decode`, `SymbolTable.decodeArgs`: the decoder.
* `SymbolTable.decode_append`: the code of a term is decoded as the term before any other ids.
* `SymbolTable.decode_encode`: so no code is the beginning of another one.
-/

namespace HornClauses

abbrev Signature := String → Term.Kind

/-- Every node of a term has the kind that the signature gives its name. -/
def Term.Respects (sig : Signature) (t : Term) : Prop := ∀ u ∈ t.preorder, u.kind = sig u.name

theorem Term.respects_iff {sig : Signature} {t : Term} :
    t.Respects sig ↔ t.kind = sig t.name ∧ ∀ v ∈ t.args, v.Respects sig :=
  forall_mem_preorder

namespace SymbolTable

/-- Every name has an id whose name it is. -/
def Recalls (table : SymbolTable) (names : List String) : Prop :=
  ∀ n ∈ names, (table.id? n).bind table.name? = some n

theorem exists_ids_of_recalls {table : SymbolTable} {names : List String}
    (h : table.Recalls names) : ∃ ids : List UInt32, names.map table.id? = ids.map some := by
  induction names with
  | nil => exact ⟨[], rfl⟩
  | cons n names ih =>
    rw [Recalls, List.forall_mem_cons] at h
    obtain ⟨id, hid, -⟩ := Option.bind_eq_some_iff.1 h.1
    obtain ⟨ids, hids⟩ := ih h.2
    exact ⟨id :: ids, by rw [List.map_cons, List.map_cons, hid, hids]⟩

/-! ## The decoder -/

mutual

/-- The term whose code stands at the front, and the ids after it. -/
def decode (table : SymbolTable) (sig : Signature) (ids : List UInt32) :
    Option {r : Term × List UInt32 // r.2.length < ids.length} :=
  match ids with
  | [] => none
  | id :: rest =>
    match table.name? id with
    | none => none
    | some name =>
      match sig name with
      | .atom => some ⟨(.atom name, rest), Nat.lt_succ_self _⟩
      | .var => some ⟨(.var name, rest), Nat.lt_succ_self _⟩
      | .compound arity =>
        (decodeArgs table sig arity rest).map fun r =>
          ⟨(.compound name r.1.1, r.1.2), Nat.lt_succ_of_le r.2⟩
termination_by (ids.length, 0)

/-- So many terms whose codes stand at the front, and the ids after them. -/
def decodeArgs (table : SymbolTable) (sig : Signature) (count : Nat) (ids : List UInt32) :
    Option {r : List Term × List UInt32 // r.2.length ≤ ids.length} :=
  match count with
  | 0 => some ⟨([], ids), Nat.le_refl _⟩
  | count + 1 =>
    match decode table sig ids with
    | none => none
    | some ⟨(t, rest), h⟩ =>
      (decodeArgs table sig count rest).map fun r =>
        ⟨(t :: r.1.1, r.1.2), Nat.le_trans r.2 (Nat.le_of_lt h)⟩
termination_by (ids.length, count + 1)

end

def decodeTerm (table : SymbolTable) (sig : Signature) (ids : List UInt32) :
    Option (Term × List UInt32) :=
  (table.decode sig ids).map Subtype.val

def decodeTerms (table : SymbolTable) (sig : Signature) (count : Nat) (ids : List UInt32) :
    Option (List Term × List UInt32) :=
  (table.decodeArgs sig count ids).map Subtype.val

variable {table : SymbolTable} {sig : Signature}

theorem decodeTerm_cons {id : UInt32} {name : String} (h : table.name? id = some name)
    (rest : List UInt32) :
    table.decodeTerm sig (id :: rest) =
      match sig name with
      | .atom => some (.atom name, rest)
      | .var => some (.var name, rest)
      | .compound arity =>
        (table.decodeTerms sig arity rest).map fun r => (.compound name r.1, r.2) := by
  rw [decodeTerm, decode]
  simp only [h]
  cases sig name with
  | atom => rfl
  | var => rfl
  | compound arity =>
    simp only [decodeTerms, Option.map_map]
    rfl

theorem decodeTerms_zero (ids : List UInt32) : table.decodeTerms sig 0 ids = some ([], ids) := by
  rw [decodeTerms, decodeArgs]
  rfl

theorem decodeTerms_succ (count : Nat) (ids : List UInt32) :
    table.decodeTerms sig (count + 1) ids =
      (table.decodeTerm sig ids).bind fun r =>
        (table.decodeTerms sig count r.2).map fun s => (r.1 :: s.1, s.2) := by
  rw [decodeTerms, decodeArgs, decodeTerm]
  cases h : table.decode sig ids with
  | none => rfl
  | some r =>
    obtain ⟨⟨t, rest⟩, hlt⟩ := r
    simp only [decodeTerms, Option.map_map, Option.map_some, Option.bind_some]
    rfl

/-! ## Decoding what was coded -/

theorem decodeTerms_append {ts : List Term}
    (hts : ∀ t ∈ ts, ∀ ids rest, t.names.map table.id? = ids.map some →
      table.decodeTerm sig (ids ++ rest) = some (t, rest))
    {ids : List UInt32} (hids : (ts.flatMap Term.names).map table.id? = ids.map some)
    (rest : List UInt32) : table.decodeTerms sig ts.length (ids ++ rest) = some (ts, rest) := by
  induction ts generalizing ids with
  | nil =>
    have hnil : ids = [] := List.map_eq_nil_iff.1 hids.symm
    rw [hnil]
    exact decodeTerms_zero rest
  | cons t ts ih =>
    rw [List.forall_mem_cons] at hts
    rw [List.flatMap_cons, List.map_append] at hids
    obtain ⟨ids₁, ids₂, rfl, h₁, h₂⟩ := List.map_eq_append_iff.1 hids.symm
    rw [List.length_cons, decodeTerms_succ, List.append_assoc, hts.1 ids₁ _ h₁.symm,
      Option.bind_some, ih hts.2 h₂.symm]
    rfl

/-- The code of a term is decoded as the term, and what follows it is left. -/
theorem decodeTerm_append {t : Term} (hsig : t.Respects sig) (htable : table.Recalls t.names)
    {ids : List UInt32} (hids : t.names.map table.id? = ids.map some) (rest : List UInt32) :
    table.decodeTerm sig (ids ++ rest) = some (t, rest) := by
  induction t using Term.induct_args generalizing ids rest with
  | step t ih =>
    obtain ⟨hkind, hargs⟩ := Term.respects_iff.1 hsig
    rw [Recalls, Term.names_eq, List.forall_mem_cons] at htable
    rw [Term.names_eq, List.map_cons] at hids
    obtain ⟨id, ids, rfl, hid, htail⟩ := List.map_eq_cons_iff.1 hids.symm
    have hname : table.name? id = some t.name := by
      have hback := htable.1
      rwa [← hid, Option.bind_some] at hback
    have hmany : table.decodeTerms sig t.args.length (ids ++ rest) = some (t.args, rest) := by
      refine decodeTerms_append (fun v hv ids' rest' h => ?_) htail.symm rest
      refine ih v hv (hargs v hv) (fun n hn => htable.2 n ?_) h rest'
      exact List.mem_flatMap.2 ⟨v, hv, hn⟩
    rw [List.cons_append, decodeTerm_cons hname, ← hkind]
    cases t with
    | atom name =>
      have hnil : ids = [] := List.map_eq_nil_iff.1 htail
      rw [hnil]
      rfl
    | var name =>
      have hnil : ids = [] := List.map_eq_nil_iff.1 htail
      rw [hnil]
      rfl
    | compound name ts =>
      rw [Term.args] at hmany
      simp only [Term.kind, hmany]
      rfl

/-- Under a signature decoding undoes coding, and takes no more than the code from what is there. So
the code of a term is not the beginning of the code of another one. -/
theorem decode_encode {t : Term} (hsig : t.Respects sig) (htable : table.Recalls t.names) :
    ∃ ids, table.encodeTerm t = .ok ids ∧ table.encodeWalk t = .ok ids ∧
      (∀ rest, table.decodeTerm sig (ids ++ rest) = some (t, rest)) ∧
      ∀ u, u.Respects sig → table.Recalls u.names →
        ∀ ids', table.encodeTerm u = .ok ids' → ids <+: ids' → ids = ids' := by
  obtain ⟨ids, hids⟩ := exists_ids_of_recalls htable
  have hencode : table.encodeTerm t = .ok ids := encodeNames_eq_ok.2 hids
  have hdecode := decodeTerm_append hsig htable hids
  refine ⟨ids, hencode, by rw [encodeWalk_eq, hencode], hdecode, ?_⟩
  rintro u husig hutable ids' hu ⟨rest, rfl⟩
  have hself := decodeTerm_append husig hutable (encodeNames_eq_ok.1 hu) []
  rw [List.append_nil, hdecode rest, Option.some.injEq, Prod.mk.injEq] at hself
  rw [hself.2, List.append_nil]

/-- The term of `p(X is 1 + 2, a)`, the kinds of its names, and a table that knows them -/
def sumTerm : Term :=
  .compound "p" [.compound "is" [.var "X", .compound "+" [.atom "1", .atom "2"]], .atom "a"]

def sumSignature : Signature := fun name =>
  if name = "p" ∨ name = "is" ∨ name = "+" then .compound 2
  else if name = "X" then .var
  else .atom

def sumTable : SymbolTable := ofNames ["p", "a", "X", ".", "is", "+", "1", "2"]

theorem decode_encode_sumTerm :
    sumTerm.Respects sumSignature ∧ sumTable.Recalls sumTerm.names ∧
      ∃ ids, sumTable.encodeTerm sumTerm = .ok ids ∧
        ∀ rest, sumTable.decodeTerm sumSignature (ids ++ rest) = some (sumTerm, rest) := by
  have hsig : sumTerm.Respects sumSignature := by
    unfold Term.Respects
    decide
  have htable : sumTable.Recalls sumTerm.names := by
    unfold Recalls
    decide
  obtain ⟨ids, hencode, -, hdecode, -⟩ := decode_encode hsig htable
  exact ⟨hsig, htable, ids, hencode, hdecode⟩

end SymbolTable

end HornClauses
