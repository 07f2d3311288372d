import HornClauses.Proofs.ExpressionTerm
import HornClauses.Proofs.ReaderOutcome

/-!
# The fault that is reported

Expressions are resolved in post-order, and the first that is at fault ends the reading. What is
between them, compounds and lists and tuples, never fails by itself. So a text has a term if all
expressions in it are sound, and its fault is that of the first expression that is not. Of several
things that are wrong with one expression an operator that is not listed comes before two operators
in conflict, and these before a hole.

* `OperatorTable.Fault`, `OperatorTable.resolve_eq_error_iff`: what is wrong with a chain.
* `FirstFault`, `Settles`: what comes of expressions that are resolved one after the other.
* `Expression.settles_toTerm`: the term of an expression.
* `Settings.read_firstFault`: terms and sequences of terms, with the one text that is read although
  its expression is a hole.
-/

namespace HornClauses

/-! ## Faults of a chain -/

namespace OperatorTable

variable {table : OperatorTable}

/-- What is reported of a chain with these operators and these holes. -/
inductive Fault (table : OperatorTable) (source text : String) (ops : List Operator)
    (holes : List Bool) : ReadError → Prop where
  /-- The leftmost operator that is not listed. -/
  | unlisted {before after : List Operator} {op : Operator} (split : ops = before ++ op :: after)
      (listed : ∀ o ∈ before, o ∈ table.operators) (unlisted : op ∉ table.operators) :
      Fault table source text ops holes (.unlistedOperator text op.token)
  /-- The leftmost operator that has others on its right which stand before it in the table, and of
  those the one that stands first. -/
  | conflict {before after : List Operator} {first op : Operator}
      (listed : ∀ o ∈ ops, o ∈ table.operators) (split : ops = before ++ op :: after)
      (ordered : before.Pairwise fun o o' => table.rank o ≤ table.rank o')
      (clear : ∀ o ∈ before, ∀ o' ∈ op :: after, table.rank o ≤ table.rank o')
      (mem : first ∈ after) (lt : table.rank first < table.rank op)
      (least : ∀ o ∈ after, table.rank first ≤ table.rank o) :
      Fault table source text ops holes (.ambiguousOperator text first.token op.token)
  /-- The leftmost hole, with the operator beside it. -/
  | hole {i : Nat} (listed : ∀ o ∈ ops, o ∈ table.operators)
      (ordered : (ops.map table.rank).Pairwise (· ≤ ·)) (first : holes.idxOf? true = some i) :
      Fault table source text ops holes
        (.missingOperand source ((blamed ops i).map Operator.token))

theorem unlisted?_eq_some_iff {ops : List Operator} {op : Operator} :
    table.unlisted? ops = some op ↔ ∃ before after, ops = before ++ op :: after ∧
      (∀ o ∈ before, o ∈ table.operators) ∧ op ∉ table.operators := by
  simp only [unlisted?, List.find?_eq_some_iff_append, mem_operators_iff]
  constructor
  · rintro ⟨hop, before, after, hsplit, hbefore⟩
    exact ⟨before, after, hsplit, by simpa using hbefore, by simpa using hop⟩
  · rintro ⟨before, after, hsplit, hbefore, hop⟩
    exact ⟨by simpa using hop, before, after, hsplit, by simpa using hbefore⟩

/-- A chain is not split at its first operator if others stand before that in the table; then it
is split at the first of these. -/
theorem splitAt_eq_iff {op first : Operator} {ops : List Operator}
    (hlisted : ∀ o ∈ op :: ops, o ∈ table.operators) (hne : first ≠ op) :
    table.splitAt op ops = first ↔ first ∈ ops ∧ table.rank first < table.rank op ∧
      ∀ o ∈ ops, table.rank first ≤ table.rank o := by
  have hmem := splitAt_mem table op ops
  have hle := rank_splitAt_le table op ops
  constructor
  · rintro rfl
    have hrank : table.rank (table.splitAt op ops) ≠ table.rank op :=
      fun heq => hne (eq_of_rank_eq (hlisted _ hmem) heq)
    exact ⟨(List.mem_cons.1 hmem).resolve_left hne,
      Nat.lt_of_le_of_ne (hle op List.mem_cons_self) hrank,
      fun o ho => hle o (List.mem_cons_of_mem op ho)⟩
  · rintro ⟨hfirst, hlt, hleast⟩
    apply eq_of_rank_eq (hlisted _ hmem)
    apply Nat.le_antisymm (hle first (List.mem_cons_of_mem op hfirst))
    rcases List.mem_cons.1 hmem with heq | hin
    · rw [heq]
      exact Nat.le_of_lt hlt
    · exact hleast _ hin

theorem conflict?_eq_some_iff {ops : List Operator} {first op : Operator}
    (hlisted : ∀ o ∈ ops, o ∈ table.operators) :
    table.conflict? ops = some (first, op) ↔ ∃ before after, ops = before ++ op :: after ∧
      (before.Pairwise fun o o' => table.rank o ≤ table.rank o') ∧
      (∀ o ∈ before, ∀ o' ∈ op :: after, table.rank o ≤ table.rank o') ∧
      first ∈ after ∧ table.rank first < table.rank op ∧
      ∀ o ∈ after, table.rank first ≤ table.rank o := by
  induction ops with
  | nil => simp [conflict?]
  | cons next ops ih =>
    rw [conflict?]
    split
    · rename_i hself
      have hle := splitAt_eq_self_iff.1 hself
      rw [ih (List.forall_mem_cons.1 hlisted).2]
      constructor
      · rintro ⟨before, after, rfl, hordered, hclear, hfirst⟩
        rw [List.forall_mem_append] at hle
        exact ⟨next :: before, after, rfl, List.pairwise_cons.2 ⟨hle.1, hordered⟩,
          List.forall_mem_cons.2 ⟨hle.2, hclear⟩, hfirst⟩
      · rintro ⟨before, after, hsplit, hordered, hclear, hmem, hlt, hleast⟩
        cases before with
        | nil =>
          cases hsplit
          exact absurd (hle first hmem) (Nat.not_le.2 hlt)
        | cons o before =>
          cases hsplit
          exact ⟨before, after, rfl, (List.pairwise_cons.1 hordered).2,
            (List.forall_mem_cons.1 hclear).2, hmem, hlt, hleast⟩
    · rename_i hne
      constructor
      · intro h
        cases h
        exact ⟨[], ops, rfl, .nil, by simp, (splitAt_eq_iff hlisted hne).1 rfl⟩
      · rintro ⟨before, after, hsplit, hordered, hclear, hmem, hlt, hleast⟩
        cases before with
        | nil =>
          cases hsplit
          have hfirst : first ≠ op := by
            rintro rfl
            exact Nat.lt_irrefl _ hlt
          rw [(splitAt_eq_iff hlisted hfirst).2 ⟨hmem, hlt, hleast⟩]
        | cons o before =>
          cases hsplit
          have hle := List.forall_mem_append.2
            ⟨(List.pairwise_cons.1 hordered).1, (List.forall_mem_cons.1 hclear).1⟩
          exact absurd (splitAt_eq_self_iff.2 hle) hne

/-- The three things that can be wrong with a chain, in the order in which they are looked for. -/
theorem resolve_eq_error {source text : String} {links : List (Option Term × Operator)}
    {last : Option Term} {err : ReadError} :
    table.resolve source text links last = .error err ↔
      (∃ op, table.unlisted? (links.map Prod.snd) = some op ∧
        .unlistedOperator text op.token = err) ∨
      table.unlisted? (links.map Prod.snd) = none ∧
        ((∃ first op, table.conflict? (links.map Prod.snd) = some (first, op) ∧
          .ambiguousOperator text first.token op.token = err) ∨
        table.conflict? (links.map Prod.snd) = none ∧
          ∃ op?, table.nest none links last = .error op? ∧
            .missingOperand source (op?.map Operator.token) = err) := by
  unfold resolve
  cases hunlisted : table.unlisted? (links.map Prod.snd) with
  | some op => simp [hunlisted]
  | none =>
    cases hconflict : table.conflict? (links.map Prod.snd) with
    | some conflict => simp [hunlisted, hconflict, Prod.ext_iff]
    | none => simp [hunlisted, hconflict, mapError_eq_error]

theorem resolve_eq_error_iff {source text : String} {links : List (Option Term × Operator)}
    {last : Option Term} {err : ReadError} :
    table.resolve source text links last = .error err ↔
      table.Fault source text (links.map Prod.snd) (holes links last) err := by
  rw [resolve_eq_error]
  constructor
  · rintro (⟨op, hunlisted, rfl⟩ | ⟨hnone, ⟨first, op, hconflict, rfl⟩ | ⟨hclear, op?, hnest, rfl⟩⟩)
    · obtain ⟨before, after, hsplit, hbefore, hop⟩ := unlisted?_eq_some_iff.1 hunlisted
      exact .unlisted hsplit hbefore hop
    · have hlisted := unlisted?_eq_none_iff.1 hnone
      obtain ⟨before, after, hsplit, hordered, hclear, hmem, hlt, hleast⟩ :=
        (conflict?_eq_some_iff hlisted).1 hconflict
      exact .conflict hlisted hsplit hordered hclear hmem hlt hleast
    · obtain ⟨i, hfirst, rfl⟩ := nest_eq_error_iff.1 hnest
      exact .hole (unlisted?_eq_none_iff.1 hnone)
        (List.pairwise_map.2 (conflict?_eq_none_iff.1 hclear)) hfirst
  · intro h
    cases h with
    | unlisted hsplit hbefore hop =>
      exact Or.inl ⟨_, unlisted?_eq_some_iff.2 ⟨_, _, hsplit, hbefore, hop⟩, rfl⟩
    | conflict hlisted hsplit hordered hclear hmem hlt hleast =>
      refine Or.inr ⟨unlisted?_eq_none_iff.2 hlisted, Or.inl ⟨_, _, ?_, rfl⟩⟩
      exact (conflict?_eq_some_iff hlisted).2 ⟨_, _, hsplit, hordered, hclear, hmem, hlt, hleast⟩
    | hole hlisted hordered hfirst =>
      refine Or.inr ⟨unlisted?_eq_none_iff.2 hlisted, Or.inr ⟨?_, _, ?_, rfl⟩⟩
      · exact conflict?_eq_none_iff.2 (List.pairwise_map.1 hordered)
      · exact nest_eq_error_iff.2 ⟨_, hfirst, rfl⟩

/-- The operator on one side of a slot is missing only where there is no operator at all. -/
theorem blamed_eq_none_iff {ops : List Operator} {i : Nat} (hi : i ≤ ops.length) :
    blamed ops i = none ↔ ops = [] := by
  cases i with
  | zero => exact List.head?_eq_none_iff
  | succ i =>
    rw [blamed, List.getElem?_eq_none_iff]
    constructor
    · intro h
      omega
    · rintro rfl
      cases hi

end OperatorTable

/-! ## Faults of an expression -/

namespace Expression

/-- Which slots of an expression are holes. -/
def holes (e : Expression) : List Bool := e.slots.map Slot.isHole

/-- An expression whose operators can be resolved, whatever is inside its slots. -/
def Sound (table : OperatorTable) (e : Expression) : Prop := table.Sound e.operators e.holes

/-- What is reported of an expression when everything inside its slots is sound. -/
def Fault (table : OperatorTable) (source : String) (e : Expression) (err : ReadError) : Prop :=
  table.Fault source e.text e.operators e.holes err

/-- A hole without an operator to blame for it is all there is of its expression. -/
theorem operator?_eq_none_iff {table : OperatorTable} {source shown : String} {e : Expression}
    {op? : Option String} (h : e.Fault table source (.missingOperand shown op?)) :
    op? = none ↔ e.operators = [] := by
  cases h with
  | hole _ _ hfirst =>
    have hlt := (List.idxOf?_eq_some_iff.1 hfirst).1
    rw [holes, List.length_map, length_slots] at hlt
    rw [Option.map_eq_none_iff]
    exact OperatorTable.blamed_eq_none_iff (Nat.le_of_lt_succ hlt)

end Expression

/-! ## One expression after the other -/

/-- The fault of the first expression that is not sound. -/
def FirstFault (table : OperatorTable) (source : String) (nodes : List Expression)
    (err : ReadError) : Prop :=
  ∃ before node after, nodes = before ++ node :: after ∧ (∀ n ∈ before, n.Sound table) ∧
    node.Fault table source err

/-- Steps that resolve these expressions one after the other come to a result if all of them are
sound, and otherwise to the fault of the first that is not. -/
structure Settles (table : OperatorTable) (source : String) {α : Type} (nodes : List Expression)
    (outcome : Except ReadError α) : Prop where
  exists_ok_iff : (∃ a, outcome = .ok a) ↔ ∀ node ∈ nodes, node.Sound table
  error_iff : ∀ err, outcome = .error err ↔ FirstFault table source nodes err

variable {table : OperatorTable} {source : String}

theorem firstFault_nil {err : ReadError} : ¬ FirstFault table source [] err := by
  rintro ⟨before, node, after, hsplit, -⟩
  simp at hsplit

theorem firstFault_cons {e : Expression} {nodes : List Expression} {err : ReadError} :
    FirstFault table source (e :: nodes) err ↔
      e.Fault table source err ∨ e.Sound table ∧ FirstFault table source nodes err := by
  constructor
  · rintro ⟨before, node, after, hsplit, hsound, hfault⟩
    cases before with
    | nil =>
      cases hsplit
      exact Or.inl hfault
    | cons n before =>
      cases hsplit
      obtain ⟨he, hrest⟩ := List.forall_mem_cons.1 hsound
      exact Or.inr ⟨he, before, node, after, rfl, hrest, hfault⟩
  · rintro (hfault | ⟨he, before, node, after, rfl, hsound, hfault⟩)
    · exact ⟨[], e, nodes, rfl, by simp, hfault⟩
    · exact ⟨e :: before, node, after, rfl, List.forall_mem_cons.2 ⟨he, hsound⟩, hfault⟩

theorem firstFault_append {ns ms : List Expression} {err : ReadError} :
    FirstFault table source (ns ++ ms) err ↔ FirstFault table source ns err ∨
      (∀ n ∈ ns, n.Sound table) ∧ FirstFault table source ms err := by
  induction ns with
  | nil => simp [firstFault_nil]
  | cons n ns ih =>
    rw [List.cons_append, firstFault_cons, firstFault_cons, ih, List.forall_mem_cons]
    tauto

namespace Settles

variable {α β : Type} {ns ms : List Expression} {x : Except ReadError α}

theorem ok (a : α) : Settles table source [] (.ok a) where
  exists_ok_iff := by simp
  error_iff err := by simp [firstFault_nil]

theorem bind {f : α → Except ReadError β} (hx : Settles table source ns x)
    (hf : ∀ a, x = .ok a → Settles table source ms (f a)) :
    Settles table source (ns ++ ms) (x >>= f) := by
  refine ⟨?_, fun err => ?_⟩
  · rw [List.forall_mem_append]
    constructor
    · rintro ⟨b, h⟩
      obtain ⟨a, ha, hb⟩ := bind_eq_ok.1 h
      exact ⟨hx.exists_ok_iff.1 ⟨a, ha⟩, (hf a ha).exists_ok_iff.1 ⟨b, hb⟩⟩
    · rintro ⟨hns, hms⟩
      obtain ⟨a, ha⟩ := hx.exists_ok_iff.2 hns
      obtain ⟨b, hb⟩ := (hf a ha).exists_ok_iff.2 hms
      exact ⟨b, bind_eq_ok.2 ⟨a, ha, hb⟩⟩
  · rw [bind_eq_error, firstFault_append, hx.error_iff]
    constructor
    · rintro (hfirst | ⟨a, ha, hlater⟩)
      · exact Or.inl hfirst
      · exact Or.inr ⟨hx.exists_ok_iff.1 ⟨a, ha⟩, ((hf a ha).error_iff err).1 hlater⟩
    · rintro (hfirst | ⟨hns, hlater⟩)
      · exact Or.inl hfirst
      · obtain ⟨a, ha⟩ := hx.exists_ok_iff.2 hns
        exact Or.inr ⟨a, ha, ((hf a ha).error_iff err).2 hlater⟩

/-- Building something from the results is not at fault. -/
theorem bind_ok (hx : Settles table source ns x) (f : α → β) :
    Settles table source ns (x >>= fun a => .ok (f a)) := by
  rw [← List.append_nil ns]
  exact hx.bind fun a _ => ok (f a)

end Settles

/-! ## From expressions to terms -/

section

variable {settings : Settings}

theorem Slot.isNone_of_toTerm {slot : Slot} {operand : Option Term}
    (h : slot.toTerm settings source = .ok operand) : operand.isNone = slot.isHole := by
  cases slot with
  | compound name args =>
    obtain ⟨ts, -, rfl⟩ := Slot.toTerm_compound.1 h
    rfl
  | list elements =>
    obtain ⟨ts, -, rfl⟩ := Slot.toTerm_list.1 h
    rfl
  | listWithTail elements tail =>
    obtain ⟨ts, -, t, -, rfl⟩ := Slot.toTerm_listWithTail.1 h
    rfl
  | tuple components =>
    obtain ⟨ts, -, rfl⟩ := Slot.toTerm_tuple.1 h
    rfl
  | _ =>
    cases h
    rfl

/-- The slots that come to no operand are the holes. -/
theorem Expression.holes_of_operands (text : String) {links : List (Slot × Operator)} {last : Slot}
    {os : List (Option Term × Operator)} {o : Option Term}
    (hlinks : Expression.operands settings source links = .ok os)
    (hlast : last.toTerm settings source = .ok o) :
    OperatorTable.holes os o = (Expression.chain text links last).holes := by
  induction links generalizing os with
  | nil =>
    rw [Expression.operands_nil.1 hlinks]
    simp [OperatorTable.holes, Expression.holes, Expression.slots, Slot.isNone_of_toTerm hlast]
  | cons link links ih =>
    obtain ⟨slot, op⟩ := link
    obtain ⟨o', ho', more, hmore, rfl⟩ := Expression.operands_cons.1 hlinks
    have hrest := ih hmore
    simp only [OperatorTable.holes, Expression.holes, Expression.slots] at hrest ⊢
    simp [Slot.isNone_of_toTerm ho', hrest]

/-- Once its operands are there, an expression is all that is left to resolve. -/
theorem Expression.settles_resolve {text : String} {links : List (Slot × Operator)} {last : Slot}
    {os : List (Option Term × Operator)} {o : Option Term}
    (hlinks : Expression.operands settings source links = .ok os)
    (hlast : last.toTerm settings source = .ok o) :
    Settles settings.operators source [.chain text links last]
      (settings.operators.resolve source text os o) := by
  have hops : os.map Prod.snd = (Expression.chain text links last).operators :=
    Expression.map_snd_of_operands hlinks
  have hholes := Expression.holes_of_operands text hlinks hlast
  refine ⟨?_, fun err => ?_⟩
  · rw [OperatorTable.exists_resolve_iff, hops, hholes, List.forall_mem_singleton]
    rfl
  · rw [OperatorTable.resolve_eq_error_iff, hops, hholes, firstFault_cons]
    simp only [firstFault_nil, and_false, or_false]
    rfl

mutual

theorem Slot.settles_toTerm (slot : Slot) :
    Settles settings.operators source slot.nodes (slot.toTerm settings source) := by
  cases slot with
  | compound name args =>
    rw [Slot.nodes, Slot.toTerm]
    exact (Expression.settles_toTerms args).bind_ok _
  | list elements =>
    rw [Slot.nodes, Slot.toTerm]
    exact (Expression.settles_toTerms elements).bind_ok _
  | listWithTail elements tail =>
    rw [Slot.nodes, Slot.toTerm]
    exact (Expression.settles_toTerms elements).bind fun ts _ =>
      (Expression.settles_toTerm tail).bind_ok _
  | tuple components =>
    rw [Slot.nodes, Slot.toTerm]
    exact (Expression.settles_toTerms components).bind_ok _
  | _ => exact .ok _
termination_by structural slot

theorem Expression.settles_toTerm (e : Expression) :
    Settles settings.operators source e.nodes (e.toTerm settings source) := by
  obtain ⟨text, links, last⟩ := e
  rw [Expression.nodes, Expression.toTerm, List.append_assoc]
  exact (Expression.settles_operands links).bind fun os hos =>
    (Slot.settles_toTerm last).bind fun o ho => Expression.settles_resolve hos ho
termination_by structural e

theorem Expression.settles_toTerms (es : List Expression) :
    Settles settings.operators source (Expression.nodesOfList es)
      (Expression.toTerms settings source es) := by
  cases es with
  | nil => exact .ok []
  | cons e es =>
    rw [Expression.nodesOfList, Expression.toTerms]
    exact (Expression.settles_toTerm e).bind fun t _ =>
      (Expression.settles_toTerms es).bind_ok _
termination_by structural es

theorem Expression.settles_operands (links : List (Slot × Operator)) :
    Settles settings.operators source (Expression.nodesOfLinks links)
      (Expression.operands settings source links) := by
  cases links with
  | nil => exact .ok []
  | cons link links =>
    obtain ⟨slot, op⟩ := link
    rw [Expression.nodesOfLinks, Expression.operands]
    exact (Slot.settles_toTerm slot).bind fun o _ =>
      (Expression.settles_operands links).bind_ok _
termination_by structural links

end

end

/-! ## Texts -/

namespace Settings

/-- A text that the grammar reads is a term if all expressions in it are sound, and otherwise the
first fault in post-order is reported. Of a sequence of terms the same holds if anything but
white space is there; white space alone is no terms, though its one expression is a hole. -/
theorem read_firstFault (settings : Settings) (text : List Char) :
    (∀ e, readExpression text = .ok e →
      ((∃ t, settings.readTerm text = .ok t) ↔ ∀ node ∈ e.nodes, node.Sound settings.operators) ∧
      ∀ err, settings.readTerm text = .error err ↔
        FirstFault settings.operators (String.ofList (Text.trim text)) e.nodes err) ∧
    (Text.trim text ≠ [] → ∀ es, readExpressions text = .ok es →
      ((∃ ts, settings.readTerms text = .ok ts) ↔
        ∀ node ∈ Expression.nodesOfList es, node.Sound settings.operators) ∧
      ∀ err, settings.readTerms text = .error err ↔
        FirstFault settings.operators (String.ofList (Text.trim text)) (Expression.nodesOfList es)
          err) ∧
    (Text.trim text = [] → settings.readTerms text = .ok []) ∧
    ∀ (node : Expression) (shown : String) (op? : Option String),
      node.Fault settings.operators (String.ofList (Text.trim text)) (.missingOperand shown op?) →
        (op? = none ↔ node.operators = []) := by
  refine ⟨fun e he => ?_, fun hne es hes => ?_, fun hnil => ?_, fun node shown op? h => ?_⟩
  · have hsettles : Settles settings.operators (String.ofList (Text.trim text)) e.nodes
        (settings.readTerm text) := by
      rw [readTerm, he]
      exact e.settles_toTerm
    exact ⟨hsettles.exists_ok_iff, hsettles.error_iff⟩
  · have hsettles : Settles settings.operators (String.ofList (Text.trim text))
        (Expression.nodesOfList es) (settings.readTerms text) := by
      rw [readTerms, if_neg (by simpa using hne), hes]
      exact Expression.settles_toTerms es
    exact ⟨hsettles.exists_ok_iff, hsettles.error_iff⟩
  · rw [readTerms, hnil]
    rfl
  · exact Expression.operator?_eq_none_iff h

/-- Of faults at different depths the first that has none inside it is reported, and of those in a
sequence the leftmost. -/
theorem read_firstFault_several :
    (∃ e, readExpression "f(a > , [b * c + d | X is]) / ".toList = .ok e ∧
      FirstFault .standard "f(a > , [b * c + d | X is]) /" e.nodes
        (.missingOperand "f(a > , [b * c + d | X is]) /" (some ">"))) ∧
    Text.trim "a, b * c + d, ".toList ≠ [] ∧
    ∃ es, readExpressions "a, b * c + d, ".toList = .ok es ∧
      FirstFault .standard "a, b * c + d," (Expression.nodesOfList es)
        (.ambiguousOperator "b * c + d" "+" "*") := by
  have hne : Text.trim "a, b * c + d, ".toList ≠ [] := by decide +kernel
  obtain ⟨e, he⟩ : ∃ e, readExpression "f(a > , [b * c + d | X is]) / ".toList = .ok e :=
    ⟨_, by with_unfolding_all rfl⟩
  obtain ⟨es, hes⟩ : ∃ es, readExpressions "a, b * c + d, ".toList = .ok es :=
    ⟨_, by with_unfolding_all rfl⟩
  have hterm : Settings.standard.readTerm "f(a > , [b * c + d | X is]) / ".toList =
      .error (.missingOperand "f(a > , [b * c + d | X is]) /" (some ">")) := by
    decide +kernel
  have hterms : Settings.standard.readTerms "a, b * c + d, ".toList =
      .error (.ambiguousOperator "b * c + d" "+" "*") := by
    decide +kernel
  exact ⟨⟨e, he, (((read_firstFault .standard _).1 e he).2 _).1 hterm⟩, hne, es, hes,
    (((read_firstFault .standard _).2.1 hne es hes).2 _).1 hterms⟩

/-- White space is read as a sequence of no terms, and not as the hole that stands there. -/
theorem readTerms_blank_unsound :
    ∃ es, readExpressions "".toList = .ok es ∧
      ¬ ((∃ ts, Settings.standard.readTerms "".toList = .ok ts) ↔
        ∀ node ∈ Expression.nodesOfList es, node.Sound OperatorTable.standard) := by
  refine ⟨[.chain "" [] .hole], by with_unfolding_all rfl, fun h => ?_⟩
  have hsound := h.1 ⟨[], rfl⟩ _ List.mem_cons_self
  exact hsound.filled (by decide)

end Settings

end HornClauses
