import HornClauses.Proofs.GrammarRules
import HornClauses.Proofs.LongestToken

/-!
# The rules of single tokens

The rules that match single tokens take the characters as they come and never give one back. Each of
them matches where the longest token is of its kind, and takes that token. The hard ones are the
rule of names, which has to leave the two words that are operators, and the rule of operators, which
tries the longer ones first.

* `Terminal.read?`: what follows the longest token if it is of a certain kind.
* `Terminal.computes`: the rule of a kind of tokens takes the longest token if it is of that kind.
* `Terminal.matches_iff`: the rule of a kind matches the tokens of that kind whole.
-/

namespace HornClauses

open Peg Text

/-- The parts of rules that stand for single tokens. -/
inductive Terminal where
  | name
  | var
  | number
  | symbol
  | operator
  | openParen
  | closeParen
  | openBracket
  | closeBracket
  | comma
  | bar
  deriving DecidableEq

def Terminal.peg : Terminal → Peg Rule
  | name => .rule .name
  | var => .rule .var
  | number => .rule .number
  | symbol => .rule .symbol
  | operator => .rule .operator
  | openParen => .literal ['(']
  | closeParen => .literal [')']
  | openBracket => .literal ['[']
  | closeBracket => .literal [']']
  | comma => .literal [',']
  | bar => .literal ['|']

def Token.terminal : Token → Terminal
  | name _ => .name
  | var _ => .var
  | number _ => .number
  | symbol _ => .symbol
  | operator _ => .operator
  | openParen => .openParen
  | closeParen => .closeParen
  | openBracket => .openBracket
  | closeBracket => .closeBracket
  | comma => .comma
  | bar => .bar

namespace Terminal

/-- What follows the longest token at the front of a text if that token is of this kind. -/
def read? (k : Terminal) (s : List Char) : Option (List Char) :=
  (Token.scan? s).bind fun r => if r.1.terminal = k then some r.2 else none

theorem read?_eq_some {k : Terminal} {s rest : List Char} :
    k.read? s = some rest ↔ ∃ t, Token.scan? s = some (t, rest) ∧ t.terminal = k := by
  simp only [read?, Option.bind_eq_some_iff, Prod.exists, Option.ite_none_right_eq_some,
    Option.some.injEq]
  constructor
  · rintro ⟨t, _, hscan, hk, rfl⟩
    exact ⟨t, hscan, hk⟩
  · rintro ⟨t, hscan, hk⟩
    exact ⟨t, rest, hscan, hk, rfl⟩

theorem computes_of {k : Terminal} {e : Peg Rule} {g : List Char → Option (List Char)}
    (h : Computes Rule.body e g)
    (hg : ∀ s rest, (∃ t, Token.scan? s = some (t, rest) ∧ t.terminal = k) ↔ g s = some rest) :
    Computes Rule.body e k.read? :=
  h.congr fun s => Option.ext fun rest => read?_eq_some.trans (hg s rest)

/-- A kind of tokens that is told by the first character. -/
theorem read?_of_first {k : Terminal} {p : Char → Bool} {g : List Char → List Char}
    (hscan : ∀ c s, p c = true → ∃ t, Token.scan? (c :: s) = some (t, g s) ∧ t.terminal = k)
    (hfirst : ∀ t : Token, t.WellFormed → t.terminal = k →
      ∃ c w, p c = true ∧ t.text.toList = c :: w) (s : List Char) :
    k.read? s = (afterChar? p s).map g := by
  cases s with
  | nil => rfl
  | cons c s =>
    by_cases hc : p c = true
    · obtain ⟨t, ht, hk⟩ := hscan c s hc
      rw [afterChar?, if_pos hc]
      exact read?_eq_some.2 ⟨t, ht, hk⟩
    · rw [afterChar?, if_neg hc, Option.map_none, Option.eq_none_iff_forall_ne_some]
      intro rest hread
      obtain ⟨t, ht, hk⟩ := read?_eq_some.1 hread
      obtain ⟨d, w, hd, htext⟩ := hfirst t (Token.wellFormed_of_scan? ht) hk
      have hs := Token.scan?_append ht
      rw [htext, List.cons_append, List.cons.injEq] at hs
      exact hc (hs.1 ▸ hd)

end Terminal

namespace Rule

open Token

variable {s rest : List Char}

/-! ## Parts of tokens -/

theorem afterChar?_eq_some {p : Char → Bool} :
    afterChar? p s = some rest ↔ ∃ c, p c = true ∧ s = c :: rest := by
  cases s with
  | nil => simp [afterChar?]
  | cons c s =>
    rw [afterChar?, Option.ite_none_right_eq_some, Option.some.injEq]
    constructor
    · rintro ⟨hc, rfl⟩
      exact ⟨c, hc, rfl⟩
    · rintro ⟨_, hc, heq⟩
      cases heq
      exact ⟨hc, rfl⟩

theorem afterChar?_eq_none {p : Char → Bool} : afterChar? p s = none ↔ s.takeWhile p = [] := by
  cases s with
  | nil => simp [afterChar?]
  | cons c s => simp [afterChar?, List.takeWhile_cons]

theorem computes_run (p : Char → Bool) :
    Computes body (run p) fun s => (afterChar? p s).map (List.dropWhile p) :=
  (Computes.char p).seq (Computes.char p).many |>.congr fun s => by
    cases afterChar? p s <;> rfl

theorem computes_nameChars :
    Computes body (.many (.rule .nameChar)) fun s => some (s.dropWhile isNameChar) :=
  .many (.rule (.char _))

theorem computes_blanks : Computes body blanks fun s => some (s.dropWhile isBlank) :=
  .many (.rule (.char _))

theorem outcome_blanks : Outcome body blanks s (some rest) ↔ rest = s.dropWhile isBlank := by
  rw [computes_blanks.outcome_iff, Option.some.injEq]

/-! ## Words -/

/-- What follows a word that is an operator, unless the word goes on. -/
def reserved? (s : List Char) : Option (List Char) :=
  ((afterLiteral? ['i', 's'] s).or (afterLiteral? ['d', 'i', 'v'] s)).bind fun s' =>
    if (afterChar? isNameChar s').isSome then none else some s'

theorem computes_reserved : Computes body (.rule .reserved) reserved? :=
  .rule (.seq (.choice (.literal _) (.literal _)) (.reject (.rule (.char _))))

theorem scan?_word_iff (op : Operator) {c : Char} {w : List Char}
    (hop : op.token.toList = c :: w) (hc : isVariableStart c = false ∧ isLetter c = true)
    (hw : ∀ d ∈ w, isNameChar d = true) :
    scan? s = some (.operator op, rest) ↔
      s = op.token.toList ++ rest ∧ afterChar? isNameChar rest = none := by
  have hscan := scan?_of_isLetter hc.1 hc.2 (w ++ rest)
  rw [List.takeWhile_append_of_pos hw, List.dropWhile_append_of_pos hw] at hscan
  rw [afterChar?_eq_none]
  constructor
  · intro h
    have hs := scan?_append h
    refine ⟨hs, ?_⟩
    rw [hs, text, hop, List.cons_append, hscan, Option.some.injEq, Prod.mk.injEq] at h
    have hrest : rest.takeWhile isNameChar ++ rest = rest := by
      simpa only [h.2] using List.takeWhile_append_dropWhile (p := isNameChar) (l := rest)
    exact List.append_left_eq_self.1 hrest
  · rintro ⟨rfl, hrest⟩
    have hdrop := List.takeWhile_append_dropWhile (p := isNameChar) (l := rest)
    rw [hrest, List.nil_append] at hdrop
    rw [hop, List.cons_append, hscan, hrest, hdrop, List.append_nil, ← hop,
      String.ofList_toList, ofWord, Operator.ofToken?_token]

theorem reserved?_eq_some :
    reserved? s = some rest ↔
      scan? s = some (.operator .is, rest) ∨ scan? s = some (.operator .div, rest) := by
  have his := @scan?_word_iff s rest .is 'i' ['s'] rfl (by decide) (List.all_eq_true.1 rfl)
  have hdiv := @scan?_word_iff s rest .div 'd' ['i', 'v'] rfl (by decide)
    (List.all_eq_true.1 rfl)
  rw [his, hdiv, ← or_and_right]
  simp only [reserved?, Option.bind_eq_some_iff, Option.or_eq_some_iff, afterLiteral?_eq_some,
    Option.ite_none_left_eq_some, Option.not_isSome_iff_eq_none, Option.some.injEq]
  constructor
  · rintro ⟨_, hs | ⟨-, hs⟩, hnone, rfl⟩
    · exact ⟨Or.inl hs, hnone⟩
    · exact ⟨Or.inr hs, hnone⟩
  · rintro ⟨hs | hs, hnone⟩
    · exact ⟨rest, Or.inl hs, hnone, rfl⟩
    · refine ⟨rest, Or.inr ⟨?_, hs⟩, hnone, rfl⟩
      rw [hs]
      rfl

/-- A word that is no operator is a name. -/
theorem ofWord_cases {c : Char} (hc : isLetter c = true) (w : List Char) :
    ofWord (String.ofList (c :: w)) = .name (String.ofList (c :: w)) ∨
      ofWord (String.ofList (c :: w)) = .operator .is ∨
        ofWord (String.ofList (c :: w)) = .operator .div := by
  by_cases his : String.ofList (c :: w) = "is"
  · right
    left
    rw [his]
    rfl
  by_cases hdiv : String.ofList (c :: w) = "div"
  · right
    right
    rw [hdiv]
    rfl
  · left
    rw [ofWord, ofToken?_of_isLetter (String.toList_ofList) hc his hdiv]

theorem computes_name : Computes body (.rule .name) Terminal.name.read? := by
  have hrule := Computes.rule (r := Rule.name) (.seq (.reject computes_reserved)
    (.seq (.reject (.rule (r := Rule.variableStart) (.char isVariableStart)))
      (.seq (.char isLetter) computes_nameChars)))
  refine Terminal.computes_of hrule fun s rest => ?_
  simp only [Option.bind_eq_some_iff, Option.ite_none_left_eq_some,
    Option.not_isSome_iff_eq_none, Option.some.injEq, afterChar?_eq_some]
  constructor
  · rintro ⟨t, hscan, hk⟩
    cases t with
    | name word =>
      obtain ⟨c, w, ht, hl, hv, -⟩ := wellFormed_of_scan? hscan
      have hs := scan?_append hscan
      rw [text, ht, List.cons_append] at hs
      subst hs
      refine ⟨_, ⟨?_, rfl⟩, _, ⟨by simp [afterChar?, hv], rfl⟩, _, ⟨c, hl, rfl⟩, ?_⟩
      · refine Option.eq_none_iff_forall_ne_some.2 fun rest' hrest' => ?_
        rw [reserved?_eq_some, hscan] at hrest'
        rcases hrest' with h | h <;> cases h
      · rw [scan?_of_isLetter hv hl, Option.some.injEq, Prod.mk.injEq] at hscan
        exact hscan.2
    | _ => cases hk
  · rintro ⟨_, ⟨hreserved, rfl⟩, _, ⟨hv, rfl⟩, _, ⟨c, hl, rfl⟩, rfl⟩
    have hc : isVariableStart c = false := by simpa [afterChar?] using hv
    rename_i w
    have hscan := scan?_of_isLetter hc hl w
    rcases ofWord_cases hl (w.takeWhile isNameChar) with hword | hword | hword <;>
      rw [hword] at hscan
    · exact ⟨_, hscan, rfl⟩
    · rw [reserved?_eq_some.2 (Or.inl hscan)] at hreserved
      cases hreserved
    · rw [reserved?_eq_some.2 (Or.inr hscan)] at hreserved
      cases hreserved

theorem computes_var : Computes body (.rule .var) Terminal.var.read? := by
  have hrule := Computes.rule (r := Rule.var)
    (.seq (.rule (r := Rule.variableStart) (.char isVariableStart)) computes_nameChars)
  refine hrule.congr fun s => ?_
  rw [Terminal.read?_of_first (p := isVariableStart) (g := List.dropWhile isNameChar)]
  · cases afterChar? isVariableStart s <;> rfl
  · exact fun c s hc => ⟨_, scan?_of_isVariableStart hc s, rfl⟩
  · intro t ht hk
    cases t with
    | var word =>
      obtain ⟨c, w, htext, hc, -⟩ := ht
      exact ⟨c, w, hc, htext⟩
    | _ => cases hk

/-! ## Numbers and symbols -/

/-- What follows the fraction of a number, if there is one. -/
def afterFraction (s : List Char) : List Char :=
  ((afterLiteral? ['.'] s).bind fun s' =>
    (afterChar? Char.isDigit s').map (List.dropWhile Char.isDigit)).getD s

theorem scanNumber_eq (digits rest : List Char) :
    ∃ word, scanNumber digits rest = (.number word, afterFraction rest) := by
  unfold scanNumber afterFraction
  split
  · rename_i d more
    cases hd : d.isDigit <;> exact ⟨_, by simp [afterLiteral?, afterChar?, hd]; rfl⟩
  · rename_i hother
    refine ⟨String.ofList digits, ?_⟩
    rcases rest with _ | ⟨c, _ | ⟨d, more⟩⟩
    · rfl
    · by_cases hc : '.' = c
      · subst hc
        rfl
      · simp [afterLiteral?, hc]
    · by_cases hc : '.' = c
      · exact absurd (hc ▸ rfl) (hother d more)
      · simp [afterLiteral?, hc]

theorem computes_number : Computes body (.rule .number) Terminal.number.read? := by
  have hrule := Computes.rule (r := Rule.number) (.seq (computes_run Char.isDigit)
    (.optional (.seq (.literal ['.']) (computes_run Char.isDigit))))
  refine hrule.congr fun s => ?_
  rw [Terminal.read?_of_first (p := Char.isDigit)
    (g := fun s => afterFraction (s.dropWhile Char.isDigit))]
  · cases afterChar? Char.isDigit s <;> rfl
  · intro c s hc
    obtain ⟨word, hnumber⟩ := scanNumber_eq (c :: s.takeWhile Char.isDigit)
      (s.dropWhile Char.isDigit)
    exact ⟨.number word, by rw [scan?_of_isDigit hc, hnumber], rfl⟩
  · intro t ht hk
    cases t with
    | number word =>
      obtain ⟨c, w, fraction, htext, hc, -⟩ := ht
      exact ⟨c, w ++ fraction, hc, htext⟩
    | _ => cases hk

theorem computes_symbol : Computes body (.rule .symbol) Terminal.symbol.read? := by
  have hrule := Computes.rule (r := Rule.symbol) (computes_run isSymbolChar)
  refine hrule.congr (Terminal.read?_of_first ?_ ?_)
  · exact fun c s hc => ⟨_, scan?_of_isSymbolChar hc s, rfl⟩
  · intro t ht hk
    cases t with
    | symbol word =>
      obtain ⟨c, w, htext, hc, -⟩ := ht
      exact ⟨c, w, hc, htext⟩
    | _ => cases hk

/-! ## Operators and marks -/

/-- What follows the operator that is tried first of those that fit. -/
def operator? (s : List Char) : Option (List Char) :=
  (afterLiteral? ['>', '='] s).or <| (afterLiteral? ['=', '<'] s).or <|
    (afterLiteral? ['\\', '='] s).or <| (afterLiteral? ['=', '='] s).or <|
    (afterLiteral? ['>'] s).or <| (afterLiteral? ['<'] s).or <| (afterLiteral? ['+'] s).or <|
    (afterLiteral? ['-'] s).or <| (afterLiteral? ['*'] s).or <| (afterLiteral? ['/'] s).or <|
    (afterLiteral? ['\\'] s).or (reserved? s)

theorem computes_operator? : Computes body (.rule .operator) operator? :=
  .rule <| .choice (.literal _) <| .choice (.literal _) <| .choice (.literal _) <|
    .choice (.literal _) <| .choice (.literal _) <| .choice (.literal _) <| .choice (.literal _) <|
    .choice (.literal _) <| .choice (.literal _) <| .choice (.literal _) <| .choice (.literal _)
    computes_reserved

/-- A character that begins a longer operator is one by itself if that operator does not follow. -/
theorem scan?_short {op : Operator} {c : Char}
    (hop : op = .gt ∧ c = '>' ∨ op = .backslash ∧ c = '\\')
    (h : afterLiteral? [c, '='] (c :: rest) = none) :
    scan? (c :: rest) = some (.operator op, rest) := by
  have hrest : ∀ more, rest ≠ '=' :: more := by
    rintro more rfl
    simp [afterLiteral?] at h
  rcases hop with ⟨rfl, rfl⟩ | ⟨rfl, rfl⟩
  all_goals
    change scanMark? _ = _
    unfold scanMark?
    split <;> simp_all

theorem scan?_of_operator? (h : operator? s = some rest) :
    ∃ op, scan? s = some (.operator op, rest) := by
  simp only [operator?, Option.or_eq_some_iff, afterLiteral?_eq_some, List.cons_append,
    List.nil_append] at h
  rcases h with rfl | ⟨hge, h⟩
  · exact ⟨.ge, rfl⟩
  rcases h with rfl | ⟨-, h⟩
  · exact ⟨.le, rfl⟩
  rcases h with rfl | ⟨hne, h⟩
  · exact ⟨.ne, rfl⟩
  rcases h with rfl | ⟨-, h⟩
  · exact ⟨.eq, rfl⟩
  rcases h with rfl | ⟨-, h⟩
  · exact ⟨.gt, scan?_short (Or.inl ⟨rfl, rfl⟩) hge⟩
  rcases h with rfl | ⟨-, h⟩
  · exact ⟨.lt, rfl⟩
  rcases h with rfl | ⟨-, h⟩
  · exact ⟨.add, rfl⟩
  rcases h with rfl | ⟨-, h⟩
  · exact ⟨.sub, rfl⟩
  rcases h with rfl | ⟨-, h⟩
  · exact ⟨.mul, rfl⟩
  rcases h with rfl | ⟨-, h⟩
  · exact ⟨.slash, rfl⟩
  rcases h with rfl | ⟨-, h⟩
  · exact ⟨.backslash, scan?_short (Or.inr ⟨rfl, rfl⟩) hne⟩
  · rcases reserved?_eq_some.1 h with h | h
    · exact ⟨.is, h⟩
    · exact ⟨.div, h⟩

theorem operator?_of_scan? {op : Operator} (h : scan? s = some (.operator op, rest)) :
    operator? s = some rest := by
  have hs : s = op.token.toList ++ rest := scan?_append h
  subst hs
  -- The longer operator with the same first character would have been scanned.
  have hshort : op = .gt ∨ op = .backslash → afterLiteral? ['='] rest = none := by
    intro hop
    refine Option.eq_none_iff_forall_ne_some.2 fun more hmore => ?_
    rw [afterLiteral?_eq_some.1 hmore] at h
    rcases hop with rfl | rfl <;> cases h
  cases op with
  | is =>
    rw [operator?, reserved?_eq_some.2 (Or.inl h)]
    rfl
  | div =>
    rw [operator?, reserved?_eq_some.2 (Or.inr h)]
    rfl
  | gt => simp [operator?, afterLiteral?, hshort (Or.inl rfl), Operator.token]
  | backslash => simp [operator?, afterLiteral?, hshort (Or.inr rfl), Operator.token]
  | _ => rfl

theorem computes_operator : Computes body (.rule .operator) Terminal.operator.read? := by
  refine Terminal.computes_of computes_operator? fun s rest => ?_
  constructor
  · rintro ⟨t, hscan, hk⟩
    cases t with
    | operator op => exact operator?_of_scan? hscan
    | _ => cases hk
  · intro h
    obtain ⟨op, hscan⟩ := scan?_of_operator? h
    exact ⟨_, hscan, rfl⟩

theorem eq_of_terminal_eq {t u : Token} (hm : t.isMark = true) (h : u.terminal = t.terminal) :
    u = t := by
  cases t <;> first | exact absurd hm Bool.false_ne_true | (cases u <;> first | rfl | cases h)

/-- A mark is a token by itself, whatever follows it. -/
theorem computes_mark {t : Token} {c : Char} (hm : t.isMark = true) (ht : t.text.toList = [c]) :
    Computes body (.literal [c]) t.terminal.read? := by
  refine Terminal.computes_of (Computes.literal [c]) fun s rest => ?_
  rw [afterLiteral?_eq_some, ← ht]
  constructor
  · rintro ⟨u, hscan, hu⟩
    rw [← eq_of_terminal_eq hm hu]
    exact scan?_append hscan
  · rintro rfl
    exact ⟨t, scan?_mark hm rest, rfl⟩

end Rule

namespace Terminal

open Rule

/-- The rule of a kind of tokens takes the longest token if it is of that kind, and fails if not. -/
theorem computes (k : Terminal) : Computes body k.peg k.read? := by
  cases k with
  | name => exact computes_name
  | var => exact computes_var
  | number => exact computes_number
  | symbol => exact computes_symbol
  | operator => exact computes_operator
  | openParen => exact computes_mark (t := .openParen) rfl rfl
  | closeParen => exact computes_mark (t := .closeParen) rfl rfl
  | openBracket => exact computes_mark (t := .openBracket) rfl rfl
  | closeBracket => exact computes_mark (t := .closeBracket) rfl rfl
  | comma => exact computes_mark (t := .comma) rfl rfl
  | bar => exact computes_mark (t := .bar) rfl rfl

theorem outcome_eq_some {k : Terminal} {s rest : List Char} :
    Outcome body k.peg s (some rest) ↔ ∃ t, Token.scan? s = some (t, rest) ∧ t.terminal = k := by
  rw [(computes k).outcome_iff, eq_comm, read?_eq_some]

/-- The rule of a kind matches the tokens of that kind whole. -/
theorem matches_iff {k : Terminal} {s : List Char} :
    Outcome body k.peg s (some []) ↔
      ∃ t : Token, t.WellFormed ∧ t.terminal = k ∧ t.text.toList = s := by
  rw [outcome_eq_some]
  constructor
  · rintro ⟨t, hscan, hk⟩
    have hs := Token.scan?_append hscan
    exact ⟨t, Token.wellFormed_of_scan? hscan, hk, by rw [hs, List.append_nil]⟩
  · rintro ⟨t, ht, hk, rfl⟩
    exact ⟨t, by simpa using Token.scan?_of_wellFormed ht [] (Or.inr delimited_nil), hk⟩

end Terminal

end HornClauses
