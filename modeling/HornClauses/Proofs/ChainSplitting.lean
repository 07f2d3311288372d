import HornClauses.Proofs.ChainResolution

/-!
# Chains resolved by splitting

By its definition a chain is split at the operator that stands first in the table among those of the
chain, at the first place where that occurs. The left side has to be a single slot and the right
side is split alike, so each split takes the first operator that is left, or there is a conflict. A
chain that is split to the end is the tree that nests to the right, and only then its holes are
looked for. In one pass from left to right the same conflict is found and the same term built.

* `OperatorTable.leading?_cons`: a scan finds the operator to split at.
* `OperatorTable.split_eq`: the splits of a chain come to their first conflict, or to its tree.
* `OperatorTable.resolve_eq_resolveBySplitting`: resolution in one pass and by splitting agree.
-/

namespace HornClauses.OperatorTable

/-! ## The definition by splitting -/

/-- Of these operators the one that stands first in the table. -/
def leading? (table : OperatorTable) (ops : List Operator) : Option Operator :=
  table.operators.find? (· ∈ ops)

/-- A chain that is split to the end. -/
inductive Split where
  | operand (slot : Option Term)
  | operation (op : Operator) (left : Option Term) (right : Split)

/-- Split a chain until no operator is left. In an error the operator to split at comes first, and
then the leftmost one, which is in the way. -/
def split (table : OperatorTable) :
    List (Option Term × Operator) → Option Term → Except (Operator × Operator) Split
  | [], last => .ok (.operand last)
  | (left, op) :: links, last =>
    let ops := op :: links.map Prod.snd
    let first := (table.leading? ops).getD op
    if ops.idxOf first = 0 then (table.split links last).map (.operation op left)
    else .error (first, op)

/-- The term of a chain that is split, if none of its slots is a hole. -/
def Split.term? (table : OperatorTable) : Split → Option Term
  | .operand slot => slot
  | .operation op left right => do
    let leftTerm ← left
    let rightTerm ← right.term? table
    return .compound (table.nameOf op) [leftTerm, rightTerm]

/-- The term of a chain by its definition: unlisted operators are looked for first, then the chain
is split, and a tree that has a hole is refused. -/
def resolveBySplitting (table : OperatorTable) (source text : String)
    (links : List (Option Term × Operator)) (last : Option Term) : Except ReadError Term :=
  let ops := links.map Prod.snd
  match ops.find? (· ∉ table.operators) with
  | some op => .error (.unlistedOperator text op.token)
  | none =>
    match table.split links last with
    | .error (first, nested) => .error (.ambiguousOperator text first.token nested.token)
    | .ok tree =>
      match tree.term? table with
      | some term => .ok term
      | none =>
        .error (.missingOperand source
          ((((holes links last).idxOf? true).bind (blamed ops)).map Operator.token))

variable {table : OperatorTable}

/-! ## The operator to split at -/

/-- The first element of a list that is among certain others is the one of them with the least
index. -/
theorem find?_mem_eq_some_iff {l ops : List Operator} {op : Operator} :
    l.find? (· ∈ ops) = some op ↔
      op ∈ l ∧ op ∈ ops ∧ ∀ o ∈ ops, l.idxOf op ≤ l.idxOf o := by
  induction l with
  | nil => simp
  | cons a l ih =>
    by_cases ha : a ∈ ops
    · rw [List.find?_cons_of_pos (by simpa using ha), Option.some.injEq]
      constructor
      · rintro rfl
        exact ⟨List.mem_cons_self, ha, by simp⟩
      · rintro ⟨-, -, hle⟩
        have hzero := hle a ha
        rw [List.idxOf_cons_self, Nat.le_zero] at hzero
        by_contra hne
        rw [List.idxOf_cons_ne l hne] at hzero
        cases hzero
    · rw [List.find?_cons_of_neg (by simpa using ha), ih]
      have hshift : ∀ o ∈ ops, (a :: l).idxOf o = l.idxOf o + 1 := by
        intro o ho
        exact List.idxOf_cons_ne l fun heq => ha (heq ▸ ho)
      constructor
      · rintro ⟨hl, hop, hle⟩
        refine ⟨List.mem_cons_of_mem a hl, hop, fun o ho => ?_⟩
        rw [hshift op hop, hshift o ho]
        exact Nat.succ_le_succ (hle o ho)
      · rintro ⟨hl, hop, hle⟩
        refine ⟨(List.mem_cons.1 hl).resolve_left fun heq => ha (heq ▸ hop), hop, fun o ho => ?_⟩
        have := hle o ho
        rw [hshift op hop, hshift o ho] at this
        exact Nat.le_of_succ_le_succ this

/-- The scan from left to right finds the operator that the definition splits at. -/
theorem leading?_cons {op : Operator} {ops : List Operator}
    (hlisted : ∀ o ∈ op :: ops, o ∈ table.operators) :
    table.leading? (op :: ops) = some (table.splitAt op ops) := by
  have hmem := splitAt_mem table op ops
  have hle := rank_splitAt_le table op ops
  simp only [rank_eq_idxOf] at hle
  exact find?_mem_eq_some_iff.2 ⟨hlisted _ hmem, hmem, hle⟩

/-! ## The tree of a chain -/

namespace Split

/-- A chain nested to the right, whatever its operators are. -/
def ofChain : List (Option Term × Operator) → Option Term → Split
  | [], last => .operand last
  | (left, op) :: links, last => .operation op left (ofChain links last)

/-- The term of the tree is the term that nesting the chain comes to. -/
theorem term?_ofChain_eq_some {left? : Option Operator} {links : List (Option Term × Operator)}
    {last : Option Term} {t : Term} :
    (ofChain links last).term? table = some t ↔ table.nest left? links last = .ok t := by
  induction links generalizing left? t with
  | nil => cases last <;> simp [ofChain, term?, nest]
  | cons link links ih =>
    obtain ⟨left, op⟩ := link
    rw [nest_cons, ofChain, term?]
    cases left with
    | none => simp
    | some left =>
      simp only [← ih]
      cases (ofChain links last).term? table <;> simp

end Split

/-- A chain of listed operators is split to the end, or up to the first conflict. -/
theorem split_eq {links : List (Option Term × Operator)} {last : Option Term}
    (hlisted : ∀ op ∈ links.map Prod.snd, op ∈ table.operators) :
    table.split links last =
      match table.conflict? (links.map Prod.snd) with
      | some conflict => .error conflict
      | none => .ok (.ofChain links last) := by
  induction links with
  | nil => rfl
  | cons link links ih =>
    obtain ⟨left, op⟩ := link
    have hfirst := leading?_cons hlisted
    simp only [split, List.map_cons, conflict?, hfirst, Option.getD_some]
    have hzero : (op :: links.map Prod.snd).idxOf (table.splitAt op (links.map Prod.snd)) = 0 ↔
        table.splitAt op (links.map Prod.snd) = op := by
      rw [List.idxOf_eq_zero_iff_head_eq (List.cons_ne_nil _ _), List.head_cons, eq_comm]
    simp only [hzero]
    split
    · rw [ih (List.forall_mem_cons.1 hlisted).2]
      cases table.conflict? (links.map Prod.snd) <;> rfl
    · rfl

/-! ## One pass and many -/

theorem unlisted?_eq_find? (ops : List Operator) :
    table.unlisted? ops = ops.find? (· ∉ table.operators) := by
  have hnone : ∀ op, (table.get? op).isNone = decide (op ∉ table.operators) := by
    intro op
    rw [Bool.eq_iff_iff]
    simp [mem_operators_iff]
  simp only [unlisted?, hnone]

/-- A chain resolves to what its definition says, down to the errors; and it has a term if and only
if its operators are listed and stand in the order of the table and none of its slots is a hole. -/
theorem resolve_eq_resolveBySplitting (table : OperatorTable) (source text : String)
    (links : List (Option Term × Operator)) (last : Option Term) :
    table.resolve source text links last = table.resolveBySplitting source text links last ∧
      ((∃ t, table.resolve source text links last = .ok t) ↔
        table.Sound (links.map Prod.snd) (holes links last)) := by
  refine ⟨?_, exists_resolve_iff⟩
  simp only [resolve, resolveBySplitting, ← unlisted?_eq_find?]
  cases hunlisted : table.unlisted? (links.map Prod.snd) with
  | some op => rfl
  | none =>
    rw [split_eq (unlisted?_eq_none_iff.1 hunlisted)]
    cases hconflict : table.conflict? (links.map Prod.snd) with
    | some conflict => rfl
    | none =>
      cases hnest : table.nest none links last with
      | ok t =>
        have hterm := Split.term?_ofChain_eq_some.2 hnest
        simp [hterm, mapError_ok]
      | error op? =>
        have hterm : (Split.ofChain links last).term? table = none := by
          rw [Option.eq_none_iff_forall_ne_some]
          intro t ht
          rw [Split.term?_ofChain_eq_some, hnest] at ht
          cases ht
        obtain ⟨i, hi, hop⟩ := nest_eq_error_iff.1 hnest
        simp [hterm, hi, hop, mapError_error]

end HornClauses.OperatorTable
