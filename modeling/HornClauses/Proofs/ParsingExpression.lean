/-!
# Parsing expressions

A parsing expression matches the beginning of a text or fails. The first alternative of a choice
that matches is taken for good, a repetition goes on as long as it can, and nothing that was matched
is ever given back. Rules may refer to one another.

* `Peg.Outcome`: what an expression makes of a text.
* `Peg.Outcome.unique`: an expression makes one thing of a text.
* `Peg.Outcome.suffix`: what is left after a match is the end of the text.
* `Peg.Computes`: an expression without recursion does what a function says.
-/

namespace HornClauses

/-- Expressions over the characters of a text that refer to rules. -/
inductive Peg (R : Type) where
  /-- One character of a class. -/
  | char (p : Char → Bool)
  | literal (w : List Char)
  | seq (e f : Peg R)
  /-- The second expression where the first one fails. -/
  | choice (e f : Peg R)
  | many (e : Peg R)
  | optional (e : Peg R)
  /-- Nothing, where the expression fails. -/
  | reject (e : Peg R)
  | rule (r : R)
  | atEnd

namespace Peg

variable {R : Type}

/-- What an expression makes of a text: what is left after its match, or nothing if it fails. -/
inductive Outcome (rules : R → Peg R) : Peg R → List Char → Option (List Char) → Prop where
  | char {p : Char → Bool} {c : Char} {s : List Char} : p c = true →
    Outcome rules (.char p) (c :: s) (some s)
  | char_other {p : Char → Bool} {c : Char} {s : List Char} : p c = false →
    Outcome rules (.char p) (c :: s) none
  | char_nil {p : Char → Bool} : Outcome rules (.char p) [] none
  | literal {w s s' : List Char} : s = w ++ s' → Outcome rules (.literal w) s (some s')
  | literal_other {w s : List Char} : ¬ w <+: s → Outcome rules (.literal w) s none
  | seq {e f : Peg R} {s s' : List Char} {o : Option (List Char)} : Outcome rules e s (some s') →
    Outcome rules f s' o → Outcome rules (.seq e f) s o
  | seq_fails {e f : Peg R} {s : List Char} : Outcome rules e s none →
    Outcome rules (.seq e f) s none
  | first {e f : Peg R} {s s' : List Char} : Outcome rules e s (some s') →
    Outcome rules (.choice e f) s (some s')
  | second {e f : Peg R} {s : List Char} {o : Option (List Char)} : Outcome rules e s none →
    Outcome rules f s o → Outcome rules (.choice e f) s o
  | more {e : Peg R} {s s' : List Char} {o : Option (List Char)} : Outcome rules e s (some s') →
    Outcome rules (.many e) s' o → Outcome rules (.many e) s o
  | done {e : Peg R} {s : List Char} : Outcome rules e s none →
    Outcome rules (.many e) s (some s)
  | present {e : Peg R} {s s' : List Char} : Outcome rules e s (some s') →
    Outcome rules (.optional e) s (some s')
  | absent {e : Peg R} {s : List Char} : Outcome rules e s none →
    Outcome rules (.optional e) s (some s)
  | rejected {e : Peg R} {s s' : List Char} : Outcome rules e s (some s') →
    Outcome rules (.reject e) s none
  | passed {e : Peg R} {s : List Char} : Outcome rules e s none →
    Outcome rules (.reject e) s (some s)
  | rule {r : R} {s : List Char} {o : Option (List Char)} : Outcome rules (rules r) s o →
    Outcome rules (.rule r) s o
  | atEnd : Outcome rules .atEnd [] (some [])
  | atEnd_cons {c : Char} {s : List Char} : Outcome rules .atEnd (c :: s) none

variable {rules : R → Peg R} {e f : Peg R} {s rest : List Char} {o o' : Option (List Char)}

namespace Outcome

theorem unique (h : Outcome rules e s o) (h' : Outcome rules e s o') : o = o' := by
  induction h generalizing o' with
  | char hc =>
    cases h' with
    | char _ => rfl
    | char_other hc' =>
      rw [hc] at hc'
      cases hc'
  | char_other hc =>
    cases h' with
    | char hc' =>
      rw [hc] at hc'
      cases hc'
    | char_other _ => rfl
  | char_nil =>
    cases h' with
    | char_nil => rfl
  | literal hs =>
    cases h' with
    | literal hs' => rw [List.append_cancel_left (hs.symm.trans hs')]
    | literal_other hno => exact absurd ⟨_, hs.symm⟩ hno
  | literal_other hno =>
    cases h' with
    | literal hs' => exact absurd ⟨_, hs'.symm⟩ hno
    | literal_other _ => rfl
  | seq _ _ ihe ihf =>
    cases h' with
    | seq he hf =>
      cases ihe he
      exact ihf hf
    | seq_fails he => cases ihe he
  | seq_fails _ ihe =>
    cases h' with
    | seq he _ => cases ihe he
    | seq_fails _ => rfl
  | first _ ihe =>
    cases h' with
    | first he => exact ihe he
    | second he _ => cases ihe he
  | second _ _ ihe ihf =>
    cases h' with
    | first he => cases ihe he
    | second _ hf => exact ihf hf
  | more _ _ ihe ihmany =>
    cases h' with
    | more he hmany =>
      cases ihe he
      exact ihmany hmany
    | done he => cases ihe he
  | done _ ihe =>
    cases h' with
    | more he _ => cases ihe he
    | done _ => rfl
  | present _ ihe =>
    cases h' with
    | present he => exact ihe he
    | absent he => cases ihe he
  | absent _ ihe =>
    cases h' with
    | present he => cases ihe he
    | absent _ => rfl
  | rejected _ ihe =>
    cases h' with
    | rejected _ => rfl
    | passed he => cases ihe he
  | passed _ ihe =>
    cases h' with
    | rejected he => cases ihe he
    | passed _ => rfl
  | rule _ ih =>
    cases h' with
    | rule h => exact ih h
  | atEnd =>
    cases h' with
    | atEnd => rfl
  | atEnd_cons =>
    cases h' with
    | atEnd_cons => rfl

/-- What is left after a match is the end of the text. -/
theorem suffix (h : Outcome rules e s (some rest)) : rest <:+ s := by
  generalize ho : some rest = o at h
  induction h generalizing rest with
  | char _ =>
    cases ho
    exact List.suffix_cons _ _
  | literal hs =>
    cases ho
    exact ⟨_, hs.symm⟩
  | seq _ _ ihe ihf => exact (ihf ho).trans (ihe rfl)
  | first _ ihe =>
    cases ho
    exact ihe rfl
  | second _ _ _ ihf => exact ihf ho
  | more _ _ ihe ihmany => exact (ihmany ho).trans (ihe rfl)
  | done _ =>
    cases ho
    exact List.suffix_refl _
  | present _ ihe =>
    cases ho
    exact ihe rfl
  | absent _ =>
    cases ho
    exact List.suffix_refl _
  | passed _ =>
    cases ho
    exact List.suffix_refl _
  | rule _ ih => exact ih ho
  | atEnd =>
    cases ho
    exact List.suffix_refl _
  | _ => cases ho

/-! ## Matches, part by part -/

theorem seq_eq_some :
    Outcome rules (.seq e f) s (some rest) ↔
      ∃ s', Outcome rules e s (some s') ∧ Outcome rules f s' (some rest) := by
  constructor
  · intro h
    cases h with
    | seq he hf => exact ⟨_, he, hf⟩
  · rintro ⟨s', he, hf⟩
    exact .seq he hf

theorem choice_eq_some :
    Outcome rules (.choice e f) s (some rest) ↔
      Outcome rules e s (some rest) ∨
        Outcome rules e s none ∧ Outcome rules f s (some rest) := by
  constructor
  · intro h
    cases h with
    | first he => exact Or.inl he
    | second he hf => exact Or.inr ⟨he, hf⟩
  · rintro (he | ⟨he, hf⟩)
    · exact .first he
    · exact .second he hf

theorem optional_eq_some :
    Outcome rules (.optional e) s (some rest) ↔
      Outcome rules e s (some rest) ∨ Outcome rules e s none ∧ rest = s := by
  constructor
  · intro h
    cases h with
    | present he => exact Or.inl he
    | absent he => exact Or.inr ⟨he, rfl⟩
  · rintro (he | ⟨he, rfl⟩)
    · exact .present he
    · exact .absent he

theorem rule_iff {r : R} : Outcome rules (.rule r) s o ↔ Outcome rules (rules r) s o := by
  constructor
  · intro h
    cases h with
    | rule h => exact h
  · exact .rule

theorem atEnd_eq_some : Outcome rules .atEnd s (some rest) ↔ s = [] ∧ rest = [] := by
  constructor
  · intro h
    cases h with
    | atEnd => exact ⟨rfl, rfl⟩
  · rintro ⟨rfl, rfl⟩
    exact .atEnd

/-- What holds at the end of a repetition and passes back over each match holds at its beginning. -/
theorem many_induct {P : List Char → Prop} (h : Outcome rules (.many e) s (some rest))
    (hend : P rest) (hstep : ∀ s s', Outcome rules e s (some s') → P s' → P s) : P s := by
  generalize hm : Peg.many e = m at h
  generalize ho : some rest = o at h
  induction h with
  | more he _ _ ih =>
    cases hm
    exact hstep _ _ he (ih rfl ho)
  | done _ =>
    cases ho
    exact hend
  | _ => cases hm

/-- A repetition never fails. -/
theorem exists_of_many (h : Outcome rules (.many e) s o) : ∃ rest, o = some rest := by
  generalize hm : Peg.many e = m at h
  induction h with
  | more _ _ _ ih => exact ih hm
  | done _ => exact ⟨_, rfl⟩
  | _ => cases hm

end Outcome

/-! ## Expressions as functions -/

/-- What follows a word at the front of a text, if the word stands there. -/
def afterLiteral? : List Char → List Char → Option (List Char)
  | [], s => some s
  | _ :: _, [] => none
  | c :: w, d :: s => if c = d then afterLiteral? w s else none

theorem afterLiteral?_eq_some {w s s' : List Char} :
    afterLiteral? w s = some s' ↔ s = w ++ s' := by
  induction w generalizing s with
  | nil => simp [afterLiteral?]
  | cons c w ih =>
    cases s with
    | nil => simp [afterLiteral?]
    | cons d s =>
      rw [afterLiteral?]
      split
      · rename_i hcd
        subst hcd
        simp [ih]
      · rename_i hcd
        simp [Ne.symm hcd]

/-- What follows a character of a class at the front of a text, if one stands there. -/
def afterChar? (p : Char → Bool) : List Char → Option (List Char)
  | [] => none
  | c :: s => if p c then some s else none

/-- On every text the outcome of an expression is the value of a function. -/
def Computes (rules : R → Peg R) (e : Peg R) (g : List Char → Option (List Char)) : Prop :=
  ∀ s, Outcome rules e s (g s)

namespace Computes

variable {g k : List Char → Option (List Char)}

theorem outcome_iff (h : Computes rules e g) : Outcome rules e s o ↔ o = g s := by
  constructor
  · exact fun ho => ho.unique (h s)
  · rintro rfl
    exact h s

theorem congr (h : Computes rules e g) (hk : ∀ s, k s = g s) : Computes rules e k := by
  intro s
  rw [hk]
  exact h s

theorem char (p : Char → Bool) : Computes rules (.char p) (afterChar? p) := by
  intro s
  cases s with
  | nil => exact .char_nil
  | cons c s =>
    rw [afterChar?]
    split
    · rename_i hc
      exact .char hc
    · rename_i hc
      exact .char_other (by simpa using hc)

theorem literal (w : List Char) : Computes rules (.literal w) (afterLiteral? w) := by
  intro s
  cases hs : afterLiteral? w s with
  | some s' => exact .literal (afterLiteral?_eq_some.1 hs)
  | none =>
    refine .literal_other ?_
    rintro ⟨s', hs'⟩
    rw [afterLiteral?_eq_some.2 hs'.symm] at hs
    cases hs

theorem seq (he : Computes rules e g) (hf : Computes rules f k) :
    Computes rules (.seq e f) fun s => (g s).bind k := by
  intro s
  have hs := he s
  change Outcome rules (.seq e f) s ((g s).bind k)
  cases hg : g s with
  | none =>
    rw [hg] at hs
    exact .seq_fails hs
  | some s' =>
    rw [hg] at hs
    exact .seq hs (hf s')

theorem choice (he : Computes rules e g) (hf : Computes rules f k) :
    Computes rules (.choice e f) fun s => (g s).or (k s) := by
  intro s
  have hs := he s
  change Outcome rules (.choice e f) s ((g s).or (k s))
  cases hg : g s with
  | none =>
    rw [hg] at hs
    exact .second hs (hf s)
  | some s' =>
    rw [hg] at hs
    exact .first hs

theorem optional (he : Computes rules e g) :
    Computes rules (.optional e) fun s => some ((g s).getD s) := by
  intro s
  have hs := he s
  change Outcome rules (.optional e) s (some ((g s).getD s))
  cases hg : g s with
  | none =>
    rw [hg] at hs
    exact .absent hs
  | some s' =>
    rw [hg] at hs
    exact .present hs

theorem reject (he : Computes rules e g) :
    Computes rules (.reject e) fun s => if (g s).isSome then none else some s := by
  intro s
  have hs := he s
  change Outcome rules (.reject e) s (if (g s).isSome then none else some s)
  cases hg : g s with
  | none =>
    rw [hg] at hs
    exact .passed hs
  | some s' =>
    rw [hg] at hs
    exact .rejected hs

theorem rule {r : R} (h : Computes rules (rules r) g) : Computes rules (.rule r) g :=
  fun s => .rule (h s)

/-- A repetition of single characters takes all that stand there. -/
theorem many {p : Char → Bool} (h : Computes rules e (afterChar? p)) :
    Computes rules (.many e) fun s => some (s.dropWhile p) := by
  intro s
  change Outcome rules (.many e) s (some (s.dropWhile p))
  induction s with
  | nil => exact .done (h [])
  | cons c s ih =>
    have hs := h (c :: s)
    by_cases hc : p c = true
    · rw [afterChar?, if_pos hc] at hs
      rw [List.dropWhile_cons_of_pos hc]
      exact .more hs ih
    · rw [afterChar?, if_neg hc] at hs
      rw [List.dropWhile_cons_of_neg hc]
      exact .done hs

end Computes

end Peg

end HornClauses
