import HornClauses.Proofs.ReadableRange
import HornClauses.Proofs.TokenCharacters
import HornClauses.Term.Raw

/-!
# Terms by their raw forms

The raw form of a term begins with a label: a word without delimiters, or the comma of a pair. What
comes next tells whether the term is a compound, since nothing else is followed by an opening
parenthesis. So the raw form ends where the term does, whatever goes on behind it, and terms are told
apart by it. An atom is no variable with its mark, because the word behind a dollar sign in an atom
consists of symbols.

* `Text.IsLabel`, `Text.label_append_inj`: where a label ends.
* `Term.Legible`: terms whose nodes have labels.
* `Term.raw_append_inj`: a raw form and what follows it.
* `Settings.raw_eq_iff_of_readTerm`: terms that are read and have the same raw form.
-/

namespace HornClauses

/-! ## Labels -/

namespace Text

variable {w w' s s' : List Char}

/-- A word without delimiters, or a comma. -/
def IsLabel (w : List Char) : Prop := w = [','] ∨ w ≠ [] ∧ ∀ c ∈ w, isDelimiter c = false

/-- A word without delimiters does not begin with one. -/
theorem append_ne_cons_of_isDelimiter {d : Char} (hd : isDelimiter d = true)
    (hw : w ≠ [] ∧ ∀ c ∈ w, isDelimiter c = false) : w ++ s ≠ d :: s' := by
  obtain ⟨hne, hw⟩ := hw
  intro h
  cases w with
  | nil => exact hne rfl
  | cons c w =>
    obtain rfl := (List.cons.inj h).1
    rw [hw c List.mem_cons_self] at hd
    cases hd

theorem IsLabel.append_ne_closeParen (hw : IsLabel w) : w ++ s ≠ ')' :: s' := by
  rcases hw with rfl | hw
  · exact nofun
  · exact append_ne_cons_of_isDelimiter rfl hw

/-- A label ends before the first delimiter, or behind the comma that it is. -/
theorem label_append_inj (hw : IsLabel w) (hw' : IsLabel w') (hs : Delimited s)
    (hs' : Delimited s') (h : w ++ s = w' ++ s') : w = w' ∧ s = s' := by
  have hlabel : w = w' := by
    rcases hw with rfl | hw
    · rcases hw' with rfl | hw'
      · rfl
      · exact absurd h.symm (append_ne_cons_of_isDelimiter rfl hw')
    · rcases hw' with rfl | hw'
      · exact absurd h (append_ne_cons_of_isDelimiter rfl hw)
      · have hstop : ∀ c, isDelimiter c = true → (!isDelimiter c) = false := by simp
        have htake := takeWhile_append_of_delimited hstop (w := w) (by simpa using hw.2) hs
        rw [h, takeWhile_append_of_delimited hstop (by simpa using hw'.2) hs'] at htake
        exact htake.symm
  subst hlabel
  exact ⟨rfl, List.append_cancel_left h⟩

end Text

namespace Term

open Text

/-- How the raw form of a term begins: the name, behind a dollar sign if it is a variable's. -/
def label : Term → List Char
  | atom name => name.toList
  | var name => '$' :: name.toList
  | compound name _ => name.toList

/-- Further arguments in parentheses, and what follows these. -/
def rawRest (ts : List Term) (s : List Char) : List Char :=
  (ts.flatMap fun t => ',' :: ' ' :: t.raw.toList) ++ ')' :: s

/-- Arguments in parentheses, and what follows these. -/
def rawInside (s : List Char) : List Term → List Char
  | [] => ')' :: s
  | t :: ts => t.raw.toList ++ rawRest ts s

theorem rawRest_cons (t : Term) (ts : List Term) (s : List Char) :
    rawRest (t :: ts) s = ',' :: ' ' :: (t.raw.toList ++ rawRest ts s) := by
  simp [rawRest]

theorem rawInside_eq (args : List Term) (s : List Char) :
    (commaJoin (rawArgs args)).toList ++ ')' :: s = rawInside s args := by
  cases args with
  | nil => rfl
  | cons t ts =>
    rw [rawInside]
    induction ts generalizing t with
    | nil => simp [commaJoin, rawArgs, rawRest]
    | cons t' ts ih =>
      rw [rawRest_cons, ← ih t']
      simp [commaJoin, rawArgs, String.intercalate_cons_cons]

theorem raw_compound_append (name : String) (args : List Term) (s : List Char) :
    (compound name args).raw.toList ++ s = name.toList ++ '(' :: rawInside s args := by
  rw [← rawInside_eq]
  simp [raw]

/-! ## Terms whose nodes have labels -/

/-- The name of an atom and of a variable is a word of the kind, and before arguments stands any
label. -/
inductive Legible : Term → Prop where
  | atom {name : String} : Token.IsAtom name → Legible (.atom name)
  | var {name : String} : Token.IsVariable name → Legible (.var name)
  | compound {name : String} {args : List Term} : IsLabel name.toList → (∀ t ∈ args, Legible t) →
    Legible (.compound name args)

theorem isLabel_of_wellFormed {t : Token} (h : t.WellFormed) (hm : t.isMark = false) :
    IsLabel t.text.toList :=
  Or.inr ⟨Token.text_ne_nil h, fun _ hc => Token.isDelimiter_of_mem_text h hm hc⟩

theorem isLabel_of_isAtom {name : String} (h : Token.IsAtom name) : IsLabel name.toList := by
  rcases h with h | h | h
  · exact isLabel_of_wellFormed (t := .name name) h rfl
  · exact isLabel_of_wellFormed (t := .number name) h rfl
  · exact isLabel_of_wellFormed (t := .symbol name) h rfl

theorem Legible.isLabel {t : Term} (h : t.Legible) : IsLabel t.label := by
  cases h with
  | atom hname => exact isLabel_of_isAtom hname
  | @var name hname =>
    refine Or.inr ⟨List.cons_ne_nil _ _, List.forall_mem_cons.2 ⟨by decide, fun c hc => ?_⟩⟩
    exact Token.isDelimiter_of_mem_text (t := .var name) hname rfl hc
  | compound hname _ => exact hname

/-- The terms that are read under the standard operators are legible, however lists end. -/
theorem Readable.legible {style : ListStyle} {t : Term} (h : t.Readable style) : t.Legible := by
  induction t using induct_args with
  | step t ih =>
    obtain ⟨hshaped, hargs⟩ := readable_iff.1 h
    replace ih := fun v hv => ih v hv (hargs v hv)
    cases t with
    | atom name =>
      rw [Shaped, Rule.matches_name_iff, Rule.matches_number_iff,
        Rule.matches_symbol_iff] at hshaped
      exact .atom hshaped
    | var name => exact .var ((Rule.matches_var_iff name).1 hshaped)
    | compound name args =>
      refine .compound ?_ ih
      rcases hshaped with ⟨hname, -⟩ | ⟨rfl, -⟩ | ⟨hname, -⟩ | ⟨rfl, -⟩
      · exact isLabel_of_isAtom (Or.inl ((Rule.matches_name_iff name).1 hname))
      · exact Or.inl rfl
      · obtain ⟨op, -, rfl⟩ := mem_standard_iff.1 hname
        exact isLabel_of_wellFormed (t := .operator op) trivial rfl
      · exact Or.inr ⟨List.cons_ne_nil '.' [], List.forall_mem_singleton.2 rfl⟩

/-! ## Reading the raw form back -/

/-- An atom is no variable with its mark. -/
theorem ne_dollar_of_isAtom {name word : String} (h : Token.IsAtom name)
    (hword : Token.IsVariable word) : name.toList ≠ '$' :: word.toList := by
  obtain ⟨v, w, hv, hstart, -⟩ := hword
  rw [hv]
  intro heq
  rcases h with ⟨c, _, hc, hletter, -⟩ | ⟨c, _, _, hc, hdigit, -⟩ | ⟨c, _, hc, -, hsymbol⟩
  · rw [hc] at heq
    cases heq
    exact absurd hletter (by decide)
  · rw [hc, List.cons_append] at heq
    obtain rfl := (List.cons.inj heq).1
    exact absurd hdigit (by decide)
  · rw [hc] at heq
    cases heq
    have hclass := (Token.class_of_isSymbolChar (hsymbol v List.mem_cons_self)).1
    rw [hstart] at hclass
    exact Bool.noConfusion hclass

/-- Does a text end, or go on as it does behind an argument? -/
def EndsArgument (s : List Char) : Prop := ∀ c, s.head? = some c → c = ',' ∨ c = ')'

theorem endsArgument_nil : EndsArgument [] := nofun

theorem endsArgument_rawRest (ts : List Term) (s : List Char) : EndsArgument (rawRest ts s) := by
  cases ts with
  | nil => exact fun c hc => Or.inr (Option.some.inj hc).symm
  | cons t ts =>
    rw [rawRest_cons]
    exact fun c hc => Or.inl (Option.some.inj hc).symm

/-- What stands behind the label of a term. -/
def afterLabel (s : List Char) : Term → List Char
  | compound _ args => '(' :: rawInside s args
  | _ => s

theorem raw_append (t : Term) (s : List Char) : t.raw.toList ++ s = t.label ++ t.afterLabel s := by
  cases t with
  | compound name args => exact raw_compound_append name args s
  | _ => simp [raw, label, afterLabel]

theorem delimited_afterLabel {s : List Char} (hs : EndsArgument s) (t : Term) :
    Delimited (t.afterLabel s) := by
  have hself : Delimited s := by
    intro c hc
    rcases hs c hc with rfl | rfl <;> decide
  cases t with
  | compound name args => exact delimited_cons (by decide) _
  | _ => exact hself

/-- The raw form of a term, whatever goes on behind it, is that of no other legible term. -/
def Recognized (t : Term) : Prop :=
  ∀ ⦃u s s'⦄, u.Legible → EndsArgument s → EndsArgument s' →
    t.raw.toList ++ s = u.raw.toList ++ s' → t = u ∧ s = s'

section Recognized

variable {ts us : List Term} {s s' : List Char}

theorem rawRest_inj (hts : ∀ t ∈ ts, t.Recognized) (hus : ∀ u ∈ us, u.Legible)
    (h : rawRest ts s = rawRest us s') : ts = us ∧ s = s' := by
  induction ts generalizing us with
  | nil =>
    cases us with
    | nil =>
      cases h
      exact ⟨rfl, rfl⟩
    | cons u us =>
      rw [rawRest_cons] at h
      cases h
  | cons t ts ih =>
    cases us with
    | nil =>
      rw [rawRest_cons] at h
      cases h
    | cons u us =>
      rw [List.forall_mem_cons] at hts hus
      rw [rawRest_cons, rawRest_cons, List.cons_inj_right, List.cons_inj_right] at h
      obtain ⟨rfl, hrest⟩ := hts.1 hus.1 (endsArgument_rawRest ts s) (endsArgument_rawRest us s') h
      obtain ⟨rfl, rfl⟩ := ih hts.2 hus.2 hrest
      exact ⟨rfl, rfl⟩

/-- No argument begins with a closing parenthesis, so no arguments are told from some. -/
theorem rawInside_inj (hts : ∀ t ∈ ts, t.Recognized) (hlegible : ∀ t ∈ ts, t.Legible)
    (hus : ∀ u ∈ us, u.Legible) (h : rawInside s ts = rawInside s' us) : ts = us ∧ s = s' := by
  have hclose : ∀ {t : Term} {rest rest' : List Char}, t.Legible →
      t.raw.toList ++ rest ≠ ')' :: rest' := by
    intro t rest rest' ht
    rw [raw_append]
    exact ht.isLabel.append_ne_closeParen
  cases ts with
  | nil =>
    cases us with
    | nil =>
      cases h
      exact ⟨rfl, rfl⟩
    | cons u us => exact absurd h.symm (hclose (hus u List.mem_cons_self))
  | cons t ts =>
    cases us with
    | nil => exact absurd h (hclose (hlegible t List.mem_cons_self))
    | cons u us =>
      rw [List.forall_mem_cons] at hts hus
      obtain ⟨rfl, hrest⟩ := hts.1 hus.1 (endsArgument_rawRest ts s) (endsArgument_rawRest us s') h
      obtain ⟨rfl, rfl⟩ := rawRest_inj hts.2 hus.2 hrest
      exact ⟨rfl, rfl⟩

/-- The label and what stands behind it give the term away, if they do for its arguments. -/
theorem eq_of_label_eq {t u : Term} (ht : t.Legible) (hu : u.Legible)
    (hargs : ∀ v ∈ t.args, v.Recognized) (hs : EndsArgument s) (hs' : EndsArgument s')
    (hlabel : t.label = u.label) (h : t.afterLabel s = u.afterLabel s') : t = u ∧ s = s' := by
  have hparen : ∀ {rest rest' : List Char}, EndsArgument rest → rest ≠ '(' :: rest' := by
    rintro rest rest' hrest rfl
    exact absurd (hrest '(' rfl) (by decide)
  cases ht with
  | atom hname =>
    cases hu with
    | atom _ => exact ⟨congrArg atom (String.toList_inj.1 hlabel), h⟩
    | var hword => exact absurd hlabel (ne_dollar_of_isAtom hname hword)
    | compound _ _ => exact absurd h (hparen hs)
  | var hword =>
    cases hu with
    | atom hname => exact absurd hlabel.symm (ne_dollar_of_isAtom hname hword)
    | var _ => exact ⟨congrArg var (String.toList_inj.1 (List.cons.inj hlabel).2), h⟩
    | compound _ _ => exact absurd h (hparen hs)
  | compound _ hts =>
    cases hu with
    | atom _ => exact absurd h.symm (hparen hs')
    | var _ => exact absurd h.symm (hparen hs')
    | compound _ hus =>
      obtain rfl := String.toList_inj.1 hlabel
      obtain ⟨rfl, rfl⟩ := rawInside_inj hargs hts hus (List.cons.inj h).2
      exact ⟨rfl, rfl⟩

end Recognized

theorem Legible.args {t : Term} (h : t.Legible) : ∀ v ∈ t.args, v.Legible := by
  cases h with
  | compound _ hargs => exact hargs
  | _ => exact nofun

theorem Legible.recognized {t : Term} (h : t.Legible) : t.Recognized := by
  induction t using induct_args with
  | step t ih =>
    intro u s s' hu hs hs' heq
    rw [raw_append, raw_append] at heq
    obtain ⟨hlabel, hafter⟩ := label_append_inj h.isLabel hu.isLabel
      (delimited_afterLabel hs t) (delimited_afterLabel hs' u) heq
    exact eq_of_label_eq h hu (fun v hv => ih v hv (h.args v hv)) hs hs' hlabel hafter

/-- The raw form of a legible term ends where the term does. -/
theorem raw_append_inj {t u : Term} (ht : t.Legible) (hu : u.Legible) {s s' : List Char}
    (hs : EndsArgument s) (hs' : EndsArgument s') :
    t.raw.toList ++ s = u.raw.toList ++ s' ↔ t = u ∧ s = s' := by
  refine ⟨ht.recognized hu hs hs', ?_⟩
  rintro ⟨rfl, rfl⟩
  rfl

theorem raw_inj {t u : Term} (ht : t.Legible) (hu : u.Legible) : t.raw = u.raw ↔ t = u := by
  have happend := raw_append_inj ht hu endsArgument_nil endsArgument_nil
  rwa [List.append_nil, List.append_nil, String.toList_inj, and_iff_left rfl] at happend

/-- An atom that is no word of the grammar can have the raw form of a variable. -/
example : (atom "$X").raw = (var "X").raw ∧ atom "$X" ≠ var "X" := by decide

end Term

/-! ## Terms that are read -/

namespace Settings

variable {style style' : ListStyle} {text text' : List Char} {t u : Term}

/-- Under the standard operators terms that are read are told apart by their raw forms, also if they
are read of different texts and lists end differently in these. -/
theorem raw_eq_iff_of_readTerm (ht : readTerm ⟨style, .standard⟩ text = .ok t)
    (hu : readTerm ⟨style', .standard⟩ text' = .ok u) : t.raw = u.raw ↔ t = u :=
  Term.raw_inj (readable_of_readTerm ht).legible (readable_of_readTerm hu).legible

/-- One text under both list styles, with a dollar sign as an atom beside a variable. -/
theorem raw_eq_iff_of_readTerm_dollar :
    let t := Term.compound "f" [.atom "$", .cell [.var "X"]]
    let u := Term.compound "f" [.atom "$", .cell [.var "X", .nil]]
    readTerm ⟨.legacy, .standard⟩ "f($, [X])".toList = .ok t ∧
      readTerm ⟨.canonical, .standard⟩ "f($, [X])".toList = .ok u ∧
      t.raw = "f($, .($X))" ∧ (t.raw = u.raw ↔ t = u) := by
  intro t u
  have ht : readTerm ⟨.legacy, .standard⟩ "f($, [X])".toList = .ok t := by decide +kernel
  have hu : readTerm ⟨.canonical, .standard⟩ "f($, [X])".toList = .ok u := by decide +kernel
  exact ⟨ht, hu, by decide +kernel, raw_eq_iff_of_readTerm ht hu⟩

end Settings

end HornClauses
