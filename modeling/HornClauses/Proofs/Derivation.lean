import HornClauses.Proofs.ExpressionForm

/-!
# Derivations

The rules of expressions as a context-free grammar over tokens: any alternative may be taken, and a
repetition may stop anywhere. A derivation is an expression without texts. Only brackets around
nothing are derived in two ways, as the empty list and as a list of one expression that is empty.

* `Expression.Derives`, `Expression.DerivesAll`: the derivations of one expression and of several
  with commas between them.
* `Expression.normal`: a derivation with brackets around nothing as the empty list.
* `Expression.normal_of_derives`: a normal derivation is a well-formed expression with the same
  tokens.
* `Expression.derives_erase`: a well-formed expression is derived once its texts are erased.
-/

namespace HornClauses

mutual

/-- The derivations of an operand, which a hole leaves out. -/
inductive Slot.Derives : Slot → List Token → Prop where
  | hole : Slot.Derives .hole []
  | name (text : String) : Slot.Derives (.name text) [.name text]
  | var (text : String) : Slot.Derives (.var text) [.var text]
  | number (text : String) : Slot.Derives (.number text) [.number text]
  | symbol (text : String) : Slot.Derives (.symbol text) [.symbol text]
  | compound {args : List Expression} {ts : List Token} (name : String) :
    Expression.DerivesAll args ts →
    Slot.Derives (.compound name args) (.name name :: .openParen :: (ts ++ [.closeParen]))
  | nil : Slot.Derives (.list []) [.openBracket, .closeBracket]
  | list {elements : List Expression} {ts : List Token} : Expression.DerivesAll elements ts →
    Slot.Derives (.list elements) (.openBracket :: (ts ++ [.closeBracket]))
  | listWithTail {elements : List Expression} {tail : Expression} {ts us : List Token} :
    Expression.DerivesAll elements ts → Expression.Derives tail us →
    Slot.Derives (.listWithTail elements tail)
      (.openBracket :: (ts ++ .bar :: (us ++ [.closeBracket])))
  | tuple {components : List Expression} {ts : List Token} : Expression.DerivesAll components ts →
    Slot.Derives (.tuple components) (.openParen :: (ts ++ [.closeParen]))

/-- Operands with an operator between any two of them. -/
inductive Expression.Derives : Expression → List Token → Prop where
  | chain {links : List (Slot × Operator)} {last : Slot} {ts us : List Token} :
    Expression.DerivesLinks links ts → Slot.Derives last us →
    Expression.Derives (.chain "" links last) (ts ++ us)

/-- Expressions with a comma between any two of them. -/
inductive Expression.DerivesAll : List Expression → List Token → Prop where
  | one {e : Expression} {ts : List Token} : Expression.Derives e ts →
    Expression.DerivesAll [e] ts
  | cons {e : Expression} {es : List Expression} {ts us : List Token} : Expression.Derives e ts →
    Expression.DerivesAll es us → Expression.DerivesAll (e :: es) (ts ++ .comma :: us)

/-- Operands with an operator after each of them. -/
inductive Expression.DerivesLinks : List (Slot × Operator) → List Token → Prop where
  | nil : Expression.DerivesLinks [] []
  | cons {slot : Slot} {links : List (Slot × Operator)} {ts us : List Token} (op : Operator) :
    Slot.Derives slot ts → Expression.DerivesLinks links us →
    Expression.DerivesLinks ((slot, op) :: links) (ts ++ .operator op :: us)

end

theorem Expression.DerivesAll.ne_nil {es : List Expression} {ts : List Token}
    (h : Expression.DerivesAll es ts) : es ≠ [] := by
  cases h <;> simp

/-! ## Normal derivations -/

/-- Elements in brackets, which are the empty list if nothing is written for them. -/
def Slot.ofElements (elements : List Expression) : Slot :=
  if Expression.tokensOfList elements = [] then .list [] else .list elements

mutual

def Slot.normal : Slot → Slot
  | .compound name args => .compound name (Expression.normalList args)
  | .list elements => .ofElements (Expression.normalList elements)
  | .listWithTail elements tail =>
    .listWithTail (Expression.normalList elements) (Expression.normal tail)
  | .tuple components => .tuple (Expression.normalList components)
  | slot => slot
termination_by structural slot => slot

/-- An expression with all brackets around nothing as the empty list. -/
def Expression.normal : Expression → Expression
  | .chain text links last => .chain text (Expression.normalLinks links) (Slot.normal last)
termination_by structural e => e

def Expression.normalList : List Expression → List Expression
  | [] => []
  | e :: es => Expression.normal e :: Expression.normalList es
termination_by structural es => es

def Expression.normalLinks : List (Slot × Operator) → List (Slot × Operator)
  | [] => []
  | (slot, op) :: links => (Slot.normal slot, op) :: Expression.normalLinks links
termination_by structural links => links

end

/-- A slot without texts that is read from these tokens. -/
structure Slot.ReadFrom (slot : Slot) (ts : List Token) : Prop where
  wellFormed : slot.WellFormed
  tokens : slot.tokens = ts
  erase : slot.erase = slot

structure Expression.ReadFrom (e : Expression) (ts : List Token) : Prop where
  wellFormed : e.WellFormed
  tokens : e.tokens = ts
  erase : e.erase = e

structure Expression.AllReadFrom (es : List Expression) (ts : List Token) : Prop where
  wellFormed : ∀ e ∈ es, e.WellFormed
  tokens : Expression.tokensOfList es = ts
  erase : Expression.eraseList es = es

structure Expression.LinksReadFrom (links : List (Slot × Operator)) (ts : List Token) : Prop where
  wellFormed : ∀ link ∈ links, link.1.WellFormed
  tokens : Expression.tokensOfLinks links = ts
  erase : Expression.eraseLinks links = links

section ReadFrom

open Expression

variable {ts us : List Token}

theorem Slot.readFrom_compound {name : String} {args : List Expression} (hname : Token.IsName name)
    (hne : args ≠ []) (h : AllReadFrom args ts) :
    (Slot.compound name args).ReadFrom (.name name :: .openParen :: (ts ++ [.closeParen])) :=
  ⟨.compound hname hne h.wellFormed, by rw [Slot.tokens, h.tokens], by rw [Slot.erase, h.erase]⟩

theorem Slot.readFrom_tuple {components : List Expression} (hne : components ≠ [])
    (h : AllReadFrom components ts) :
    (Slot.tuple components).ReadFrom (.openParen :: (ts ++ [.closeParen])) :=
  ⟨.tuple hne h.wellFormed, by rw [Slot.tokens, h.tokens], by rw [Slot.erase, h.erase]⟩

theorem Slot.readFrom_ofElements {elements : List Expression} (h : AllReadFrom elements ts) :
    (Slot.ofElements elements).ReadFrom (.openBracket :: (ts ++ [.closeBracket])) := by
  unfold Slot.ofElements
  split
  · rename_i hnil
    rw [← h.tokens, hnil]
    exact ⟨.nil, rfl, rfl⟩
  · rename_i hne
    exact ⟨.list hne h.wellFormed, by rw [Slot.tokens, h.tokens], by rw [Slot.erase, h.erase]⟩

theorem Slot.readFrom_listWithTail {elements : List Expression} {tail : Expression}
    (hne : elements ≠ []) (h : AllReadFrom elements ts) (htail : tail.ReadFrom us) :
    (Slot.listWithTail elements tail).ReadFrom
      (.openBracket :: (ts ++ .bar :: (us ++ [.closeBracket]))) :=
  ⟨.listWithTail hne h.wellFormed htail.wellFormed, by rw [Slot.tokens, h.tokens, htail.tokens],
    by rw [Slot.erase, h.erase, htail.erase]⟩

theorem Expression.readFrom_chain {links : List (Slot × Operator)} {last : Slot}
    (hlinks : LinksReadFrom links ts) (hlast : last.ReadFrom us) :
    (Expression.chain "" links last).ReadFrom (ts ++ us) :=
  ⟨.chain hlinks.wellFormed hlast.wellFormed,
    by rw [Expression.tokens, hlinks.tokens, hlast.tokens],
    by rw [Expression.erase, hlinks.erase, hlast.erase]⟩

theorem Expression.AllReadFrom.cons {e : Expression} {es : List Expression} (he : e.ReadFrom ts)
    (hne : es ≠ []) (hes : AllReadFrom es us) : AllReadFrom (e :: es) (ts ++ .comma :: us) :=
  ⟨List.forall_mem_cons.2 ⟨he.wellFormed, hes.wellFormed⟩,
    by rw [tokensOfList_cons hne, he.tokens, hes.tokens], by rw [eraseList, he.erase, hes.erase]⟩

theorem Expression.AllReadFrom.one {e : Expression} (he : e.ReadFrom ts) : AllReadFrom [e] ts :=
  ⟨List.forall_mem_singleton.2 he.wellFormed, by rw [tokensOfList, he.tokens],
    by rw [eraseList, he.erase, eraseList]⟩

theorem Expression.LinksReadFrom.cons {slot : Slot} {links : List (Slot × Operator)}
    (op : Operator) (hslot : slot.ReadFrom ts) (hlinks : LinksReadFrom links us) :
    LinksReadFrom ((slot, op) :: links) (ts ++ .operator op :: us) :=
  ⟨List.forall_mem_cons.2 ⟨hslot.wellFormed, hlinks.wellFormed⟩,
    by rw [tokensOfLinks, hslot.tokens, hlinks.tokens],
    by rw [eraseLinks, hslot.erase, hlinks.erase]⟩

end ReadFrom

theorem Expression.normalList_ne_nil {es : List Expression} (h : es ≠ []) :
    Expression.normalList es ≠ [] := by
  cases es with
  | nil => exact absurd rfl h
  | cons e es => simp [Expression.normalList]

mutual

theorem Slot.normal_of_derives (slot : Slot) {ts : List Token} (h : slot.Derives ts)
    (hts : ∀ t ∈ ts, t.WellFormed) : slot.normal.ReadFrom ts := by
  cases slot with
  | hole =>
    cases h
    exact ⟨.hole, rfl, rfl⟩
  | name text =>
    cases h
    exact ⟨.name (hts _ List.mem_cons_self), rfl, rfl⟩
  | var text =>
    cases h
    exact ⟨.var (hts _ List.mem_cons_self), rfl, rfl⟩
  | number text =>
    cases h
    exact ⟨.number (hts _ List.mem_cons_self), rfl, rfl⟩
  | symbol text =>
    cases h
    exact ⟨.symbol (hts _ List.mem_cons_self), rfl, rfl⟩
  | compound name args =>
    cases h with
    | compound _ hargs =>
      have hname := hts (.name name) List.mem_cons_self
      exact Slot.readFrom_compound hname (Expression.normalList_ne_nil hargs.ne_nil)
        (Expression.normalList_of_derives args hargs fun t ht => hts t (by simp [ht]))
  | list elements =>
    cases h with
    | nil => exact ⟨.nil, rfl, rfl⟩
    | list hes =>
      exact Slot.readFrom_ofElements
        (Expression.normalList_of_derives elements hes fun t ht => hts t (by simp [ht]))
  | listWithTail elements tail =>
    cases h with
    | listWithTail hes htail =>
      exact Slot.readFrom_listWithTail (Expression.normalList_ne_nil hes.ne_nil)
        (Expression.normalList_of_derives elements hes fun t ht => hts t (by simp [ht]))
        (Expression.normal_of_derives tail htail fun t ht => hts t (by simp [ht]))
  | tuple components =>
    cases h with
    | tuple hes =>
      exact Slot.readFrom_tuple (Expression.normalList_ne_nil hes.ne_nil)
        (Expression.normalList_of_derives components hes fun t ht => hts t (by simp [ht]))
termination_by structural slot

/-- A normal derivation is an expression that the grammar reads, with the same tokens. -/
theorem Expression.normal_of_derives (e : Expression) {ts : List Token} (h : e.Derives ts)
    (hts : ∀ t ∈ ts, t.WellFormed) : e.normal.ReadFrom ts := by
  obtain ⟨text, links, last⟩ := e
  cases h with
  | chain hlinks hlast =>
    exact Expression.readFrom_chain
      (Expression.normalLinks_of_derives links hlinks fun t ht => hts t (by simp [ht]))
      (Slot.normal_of_derives last hlast fun t ht => hts t (by simp [ht]))
termination_by structural e

theorem Expression.normalList_of_derives (es : List Expression) {ts : List Token}
    (h : Expression.DerivesAll es ts) (hts : ∀ t ∈ ts, t.WellFormed) :
    Expression.AllReadFrom (Expression.normalList es) ts := by
  cases es with
  | nil => cases h
  | cons e es =>
    cases h with
    | one he => exact .one (Expression.normal_of_derives e he hts)
    | cons he hes =>
      exact .cons (Expression.normal_of_derives e he fun t ht => hts t (by simp [ht]))
        (Expression.normalList_ne_nil hes.ne_nil)
        (Expression.normalList_of_derives es hes fun t ht => hts t (by simp [ht]))
termination_by structural es

theorem Expression.normalLinks_of_derives (links : List (Slot × Operator)) {ts : List Token}
    (h : Expression.DerivesLinks links ts) (hts : ∀ t ∈ ts, t.WellFormed) :
    Expression.LinksReadFrom (Expression.normalLinks links) ts := by
  cases links with
  | nil =>
    cases h
    exact ⟨by simp [Expression.normalLinks], rfl, rfl⟩
  | cons link links =>
    obtain ⟨slot, op⟩ := link
    cases h with
    | cons _ hslot hlinks =>
      exact .cons op (Slot.normal_of_derives slot hslot fun t ht => hts t (by simp [ht]))
        (Expression.normalLinks_of_derives links hlinks fun t ht => hts t (by simp [ht]))
termination_by structural links

end

/-! ## Derivations without empty brackets -/

/-- An opening bracket stands right before a closing one. -/
def HasEmptyBrackets (ts : List Token) : Prop := [.openBracket, .closeBracket] <:+: ts

theorem HasEmptyBrackets.of_part {ts us : List Token} (h : HasEmptyBrackets us)
    (before after : List Token) (heq : ts = before ++ us ++ after) : HasEmptyBrackets ts :=
  List.IsInfix.trans h ⟨before, after, heq.symm⟩

mutual

theorem Slot.normal_eq_self (slot : Slot) {ts : List Token} (h : slot.Derives ts)
    (hts : ∀ t ∈ ts, t.WellFormed) (hempty : ¬ HasEmptyBrackets ts) : slot.normal = slot := by
  cases slot with
  | compound name args =>
    cases h with
    | @compound _ us _ hargs =>
      rw [Slot.normal, Expression.normalList_eq_self args hargs (fun t ht => hts t (by simp [ht]))
        fun hpart => hempty (hpart.of_part [.name name, .openParen] _ rfl)]
  | list elements =>
    cases h with
    | nil => rfl
    | @list _ us hes =>
      have hus : ∀ t ∈ us, t.WellFormed := fun t ht => hts t (by simp [ht])
      have hself := Expression.normalList_eq_self elements hes hus
        fun hpart => hempty (hpart.of_part [.openBracket] _ rfl)
      have htokens := (Expression.normalList_of_derives elements hes hus).tokens
      rw [hself] at htokens
      rw [Slot.normal, hself, Slot.ofElements, if_neg]
      intro hnil
      rw [← htokens, hnil] at hempty
      exact hempty (List.infix_refl _)
  | listWithTail elements tail =>
    cases h with
    | @listWithTail _ _ us vs hes htail =>
      rw [Slot.normal,
        Expression.normalList_eq_self elements hes (fun t ht => hts t (by simp [ht]))
          fun hpart => hempty (hpart.of_part [.openBracket] _ rfl),
        Expression.normal_eq_self tail htail (fun t ht => hts t (by simp [ht]))
          fun hpart => hempty
            (hpart.of_part (.openBracket :: (us ++ [.bar])) [.closeBracket] (by simp))]
  | tuple components =>
    cases h with
    | tuple hes =>
      rw [Slot.normal, Expression.normalList_eq_self components hes
        (fun t ht => hts t (by simp [ht]))
        fun hpart => hempty (hpart.of_part [.openParen] _ rfl)]
  | _ => rfl
termination_by structural slot

/-- A derivation is normal unless an opening bracket stands right before a closing one. -/
theorem Expression.normal_eq_self (e : Expression) {ts : List Token} (h : e.Derives ts)
    (hts : ∀ t ∈ ts, t.WellFormed) (hempty : ¬ HasEmptyBrackets ts) : e.normal = e := by
  obtain ⟨text, links, last⟩ := e
  cases h with
  | @chain _ _ us vs hlinks hlast =>
    rw [Expression.normal,
      Expression.normalLinks_eq_self links hlinks (fun t ht => hts t (by simp [ht]))
        fun hpart => hempty (hpart.of_part [] _ rfl),
      Slot.normal_eq_self last hlast (fun t ht => hts t (by simp [ht]))
        fun hpart => hempty (hpart.of_part us [] (by simp))]
termination_by structural e

theorem Expression.normalList_eq_self (es : List Expression) {ts : List Token}
    (h : Expression.DerivesAll es ts) (hts : ∀ t ∈ ts, t.WellFormed)
    (hempty : ¬ HasEmptyBrackets ts) : Expression.normalList es = es := by
  cases es with
  | nil => cases h
  | cons e es =>
    cases h with
    | one he =>
      rw [Expression.normalList, Expression.normal_eq_self e he hts hempty, Expression.normalList]
    | @cons _ _ us vs he hes =>
      rw [Expression.normalList,
        Expression.normal_eq_self e he (fun t ht => hts t (by simp [ht]))
          fun hpart => hempty (hpart.of_part [] _ rfl),
        Expression.normalList_eq_self es hes (fun t ht => hts t (by simp [ht]))
          fun hpart => hempty (hpart.of_part (us ++ [.comma]) [] (by simp))]
termination_by structural es

theorem Expression.normalLinks_eq_self (links : List (Slot × Operator)) {ts : List Token}
    (h : Expression.DerivesLinks links ts) (hts : ∀ t ∈ ts, t.WellFormed)
    (hempty : ¬ HasEmptyBrackets ts) : Expression.normalLinks links = links := by
  cases links with
  | nil => rfl
  | cons link links =>
    obtain ⟨slot, op⟩ := link
    cases h with
    | @cons _ _ us vs _ hslot hlinks =>
      rw [Expression.normalLinks,
        Slot.normal_eq_self slot hslot (fun t ht => hts t (by simp [ht]))
          fun hpart => hempty (hpart.of_part [] _ rfl),
        Expression.normalLinks_eq_self links hlinks (fun t ht => hts t (by simp [ht]))
          fun hpart => hempty (hpart.of_part (us ++ [.operator op]) [] (by simp))]
termination_by structural links

end

/-! ## Well-formed expressions are derived -/

mutual

theorem Slot.derives_erase (slot : Slot) (h : slot.WellFormed) :
    slot.erase.Derives slot.tokens := by
  cases slot with
  | hole => exact .hole
  | name text => exact .name text
  | var text => exact .var text
  | number text => exact .number text
  | symbol text => exact .symbol text
  | compound name args =>
    cases h with
    | compound _ hne hargs => exact .compound name (Expression.derives_eraseList args hne hargs)
  | list elements =>
    cases h with
    | nil => exact .nil
    | list htokens hes =>
      refine .list (Expression.derives_eraseList elements ?_ hes)
      rintro rfl
      exact htokens rfl
  | listWithTail elements tail =>
    cases h with
    | listWithTail hne hes htail =>
      exact .listWithTail (Expression.derives_eraseList elements hne hes)
        (Expression.derives_erase tail htail)
  | tuple components =>
    cases h with
    | tuple hne hes => exact .tuple (Expression.derives_eraseList components hne hes)
termination_by structural slot

/-- A well-formed expression is derived once its texts are erased. -/
theorem Expression.derives_erase (e : Expression) (h : e.WellFormed) :
    e.erase.Derives e.tokens := by
  obtain ⟨text, links, last⟩ := e
  cases h with
  | chain hlinks hlast =>
    exact .chain (Expression.derives_eraseLinks links hlinks) (Slot.derives_erase last hlast)
termination_by structural e

theorem Expression.derives_eraseList (es : List Expression) (hne : es ≠ [])
    (h : ∀ e ∈ es, e.WellFormed) :
    Expression.DerivesAll (Expression.eraseList es) (Expression.tokensOfList es) := by
  cases es with
  | nil => exact absurd rfl hne
  | cons e es =>
    rw [List.forall_mem_cons] at h
    rw [Expression.eraseList]
    by_cases hes : es = []
    · subst hes
      exact .one (Expression.derives_erase e h.1)
    · rw [Expression.tokensOfList_cons hes]
      exact .cons (Expression.derives_erase e h.1) (Expression.derives_eraseList es hes h.2)
termination_by structural es

theorem Expression.derives_eraseLinks (links : List (Slot × Operator))
    (h : ∀ link ∈ links, link.1.WellFormed) :
    Expression.DerivesLinks (Expression.eraseLinks links) (Expression.tokensOfLinks links) := by
  cases links with
  | nil => exact .nil
  | cons link links =>
    obtain ⟨slot, op⟩ := link
    rw [List.forall_mem_cons] at h
    exact .cons op (Slot.derives_erase slot h.1) (Expression.derives_eraseLinks links h.2)
termination_by structural links

end

end HornClauses
