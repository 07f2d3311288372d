import HornClauses.Proofs.BracketNesting

/-!
# Properly nested brackets

A text is properly nested when every bracket in it has its partner and what stands between two
partners is properly nested again. The scan that keeps a stack of open brackets passes exactly these
texts. Since the partner of a bracket lies behind what is nested in between, it is found by scanning
on, and a place is enclosed by a pair of brackets exactly when the text before it is not nested by
itself.

* `Bracket.Nested`: properly nested texts.
* `Bracket.nested_iff_split`: the scan passes the nested texts.
* `Bracket.nested_append_iff`: a nested text in front makes no difference.
* `Bracket.Enclosed`: the places of a text that lie inside a pair of brackets.
* `Bracket.enclosed_iff`: these are the places with open brackets before them.
-/

namespace HornClauses.Bracket

/-- Texts whose brackets are properly nested. -/
inductive Nested : List Char → Prop where
  | nil : Nested []
  | other {c : Char} {s : List Char} : isOpener c = false → isCloser c = false → Nested s →
    Nested (c :: s)
  | pair {o c : Char} {s t : List Char} : isPair o c = true → Nested s → Nested t →
    Nested (o :: (s ++ c :: t))

namespace Nested

variable {s t : List Char}

theorem append (hs : Nested s) (ht : Nested t) : Nested (s ++ t) := by
  induction hs with
  | nil => exact ht
  | other ho hc _ ih => exact .other ho hc ih
  | pair hpair hs _ _ ih =>
    rw [List.cons_append, List.append_assoc, List.cons_append]
    exact .pair hpair hs ih

theorem of_forall (h : ∀ c ∈ s, isOpener c = false ∧ isCloser c = false) : Nested s := by
  induction s with
  | nil => exact .nil
  | cons c s ih =>
    rw [List.forall_mem_cons] at h
    exact .other h.1.1 h.1.2 (ih h.2)

theorem of_isSpace (h : ∀ c ∈ s, Text.isSpace c = true) : Nested s :=
  of_forall fun c hc => not_bracket_of_isSpace (h c hc)

theorem flatten {pieces : List (List Char)} (h : ∀ piece ∈ pieces, Nested piece) :
    Nested pieces.flatten := by
  induction pieces with
  | nil => exact .nil
  | cons piece pieces ih =>
    rw [List.forall_mem_cons] at h
    exact h.1.append (ih h.2)

/-- No nested text begins with a closer. -/
theorem isCloser_head {c : Char} (h : Nested (c :: s)) : isCloser c = false := by
  cases h with
  | other _ hc _ => exact hc
  | pair hpair _ _ => exact (kind_of_isPair hpair).2.1

/-- No nested text ends with an opener. -/
theorem isOpener_last {o : Char} (h : Nested s) (hlast : s.getLast? = some o) :
    isOpener o = false := by
  induction h with
  | nil => cases hlast
  | @other c s ho _ _ ih =>
    cases s with
    | nil =>
      cases hlast
      exact ho
    | cons d s => exact ih (by rwa [List.getLast?_cons_cons] at hlast)
  | @pair o' c s t hpair _ _ _ ih =>
    rw [← List.cons_append, List.getLast?_append_of_ne_nil _ (by simp)] at hlast
    cases t with
    | nil =>
      cases hlast
      exact (kind_of_isPair hpair).2.2.1
    | cons d t => exact ih (by rwa [List.getLast?_cons_cons] at hlast)

/-- Scanning a nested text leaves the open brackets as they were. -/
theorem moves (h : Nested s) (opened : List Char) : Moves (fun _ => false) s opened opened := by
  induction h generalizing opened with
  | nil => exact .nil _ opened
  | other ho hc _ ih => exact (Moves.other ⟨ho, hc⟩ (Or.inr rfl)).append (ih opened)
  | @pair o c s t hpair _ _ ihs iht =>
    have hinside := (Moves.opener (kind_of_isPair hpair).1 opened).append (ihs (o :: opened))
    have hafter := (Moves.closer hpair opened).append (iht opened)
    have hall := hinside.append hafter
    simpa using hall

end Nested

/-! ## Closing what is open -/

/-- Texts that close these brackets, the first one first, and are properly nested beside that. -/
inductive Closes : List Char → List Char → Prop where
  | nested {s : List Char} : Nested s → Closes [] s
  | closer {o c : Char} {opened s t : List Char} : Nested s → isPair o c = true → Closes opened t →
    Closes (o :: opened) (s ++ c :: t)

namespace Closes

variable {opened s : List Char} {c o : Char}

theorem nested_append {t : List Char} (ht : Nested t) (h : Closes opened s) :
    Closes opened (t ++ s) := by
  cases h with
  | nested hs => exact .nested (ht.append hs)
  | closer hs hpair hrest =>
    rw [← List.append_assoc]
    exact .closer (ht.append hs) hpair hrest

theorem cons_opener (h : Closes (o :: opened) s) : Closes opened (o :: s) := by
  cases h with
  | @closer _ c _ s t hs hpair hrest =>
    have hfront : Nested (o :: (s ++ [c])) := .pair hpair hs .nil
    have hall := hrest.nested_append hfront
    simpa using hall

theorem cons_other (hc : isOpener c = false ∧ isCloser c = false) (h : Closes opened s) :
    Closes opened (c :: s) :=
  h.nested_append (.other hc.1 hc.2 .nil)

/-- Scanning a text that closes what is open leaves nothing open. -/
theorem moves (h : Closes opened s) : Moves (fun _ => false) s opened [] := by
  induction h with
  | nested hs => exact hs.moves []
  | @closer o c opened s t hs hpair _ ih =>
    have hafter := (Moves.closer hpair opened).append ih
    exact (hs.moves (o :: opened)).append hafter

end Closes

/-- A text passes the scan when it closes the brackets that are open where it begins. -/
theorem closes_of_splitFrom {p : Char → Bool} {stack : Stack} {offset : Nat} {s : List Char}
    {pieces : List (List Char)} (h : splitFrom p stack offset s = .ok pieces) :
    Closes (stack.map Prod.snd) s := by
  induction s generalizing stack offset pieces with
  | nil =>
    obtain ⟨u, hend, -⟩ := map_eq_ok.1 h
    rw [atEnd_eq_ok hend]
    exact .nested .nil
  | cons c s ih =>
    obtain ⟨opened, tail, hstep, htail, -⟩ := splitFrom_cons_eq_ok.1 h
    have hrest := ih htail
    rcases step_eq_ok.1 hstep with ⟨-, rfl⟩ | ⟨entry, hpair, rfl⟩ | ⟨hc, rfl⟩
    · exact hrest.cons_opener
    · exact .closer .nil hpair hrest
    · exact hrest.cons_other hc

theorem exists_splitFrom_iff {p : Char → Bool} {stack : Stack} {offset : Nat} {s : List Char} :
    (∃ pieces, splitFrom p stack offset s = .ok pieces) ↔ Closes (stack.map Prod.snd) s := by
  constructor
  · rintro ⟨pieces, h⟩
    exact closes_of_splitFrom h
  · intro h
    obtain ⟨stack', offset', hstack', hscan⟩ := h.moves stack offset [] rfl
    rw [List.map_eq_nil_iff.1 hstack', List.append_nil] at hscan
    cases hp : splitFrom p stack offset s with
    | ok pieces => exact ⟨pieces, rfl⟩
    | error fault =>
      -- Where the separators are makes no difference to a fault.
      rw [splitFrom_congr_error p (fun _ => false), hscan] at hp
      cases hp

theorem closes_nil_iff {s : List Char} : Closes [] s ↔ Nested s := by
  constructor
  · intro h
    cases h with
    | nested hs => exact hs
  · exact .nested

/-- The end of a text closes nothing. -/
theorem closes_nil_text {opened : List Char} : Closes opened [] ↔ opened = [] := by
  have hnothing : ∀ {text}, Closes opened text → text = [] → opened = [] := by
    intro text h htext
    cases h with
    | nested _ => rfl
    | closer _ _ _ => simp at htext
  constructor
  · intro h
    exact hnothing h rfl
  · rintro rfl
    exact .nested .nil

/-- The texts that are split are the properly nested ones. -/
theorem nested_iff_split (p : Char → Bool) {s : List Char} :
    (∃ pieces, split p s = .ok pieces) ↔ Nested s :=
  exists_splitFrom_iff.trans closes_nil_iff

/-- Whether a text closes what is open is decided behind its first character. -/
theorem closes_cons_iff {stack opened : Stack} {offset : Nat} {c : Char} {s : List Char}
    (h : step stack offset c = .ok opened) :
    Closes (stack.map Prod.snd) (c :: s) ↔ Closes (opened.map Prod.snd) s := by
  rw [← @exists_splitFrom_iff (fun _ => false) stack offset,
    ← @exists_splitFrom_iff (fun _ => false) opened (offset + c.utf8Size)]
  constructor
  · rintro ⟨pieces, hpieces⟩
    obtain ⟨opened', tail, hstep, htail, -⟩ := splitFrom_cons_eq_ok.1 hpieces
    rw [h] at hstep
    cases hstep
    exact ⟨tail, htail⟩
  · rintro ⟨tail, htail⟩
    exact ⟨_, splitFrom_cons_eq_ok.2 ⟨opened, tail, h, htail, rfl⟩⟩

/-- A nested text in front makes no difference to what closes the open brackets. -/
theorem closes_append_iff {opened s t : List Char} (hs : Nested s) :
    Closes opened (s ++ t) ↔ Closes opened t := by
  constructor
  · intro h
    obtain ⟨stack, rfl⟩ : ∃ stack : Stack, stack.map Prod.snd = opened :=
      ⟨opened.map (0, ·), by simp [Function.comp_def]⟩
    obtain ⟨pieces, hpieces⟩ := (@exists_splitFrom_iff (fun _ => false) stack 0 _).2 h
    obtain ⟨stack', offset', hstack', hscan⟩ := hs.moves _ stack 0 t rfl
    rw [hscan] at hpieces
    obtain ⟨rest, hrest, -⟩ := map_eq_ok.1 hpieces
    exact hstack' ▸ closes_of_splitFrom hrest
  · exact fun h => h.nested_append hs

theorem nested_append_iff {s t : List Char} (hs : Nested s) : Nested (s ++ t) ↔ Nested t := by
  rw [← closes_nil_iff, closes_append_iff hs, closes_nil_iff]

/-! ## Places inside brackets -/

/-- A place of a text between two brackets that are partners. -/
def Enclosed (text : List Char) (i : Nat) : Prop :=
  ∃ a o s c b, text = a ++ o :: (s ++ c :: b) ∧ isPair o c = true ∧ Nested s ∧
    a.length < i ∧ i ≤ a.length + s.length

/-- A nested text that is divided leaves both parts nested or tears the partners of a bracket apart.
The innermost ones are named here. -/
theorem Nested.parts_of_append {w : List Char} (h : Nested w) {u v : List Char} (hw : w = u ++ v) :
    Nested u ∨ ∃ a o s t c b, u = a ++ o :: s ∧ v = t ++ c :: b ∧ isPair o c = true ∧
      Nested s ∧ Nested t := by
  induction h generalizing u v with
  | nil =>
    rw [(List.append_eq_nil_iff.1 hw.symm).1]
    exact Or.inl .nil
  | @other d w ho hc _ ih =>
    cases u with
    | nil => exact Or.inl .nil
    | cons d' u =>
      rw [List.cons_append, List.cons.injEq] at hw
      obtain ⟨rfl, hw⟩ := hw
      rcases ih hw with hu | ⟨a, o, s, t, c, b, rfl, hv, hpair, hs, ht⟩
      · exact Or.inl (.other ho hc hu)
      · exact Or.inr ⟨d :: a, o, s, t, c, b, rfl, hv, hpair, hs, ht⟩
  | @pair o c s t hpair hs ht ihs iht =>
    cases u with
    | nil => exact Or.inl .nil
    | cons o' u =>
      rw [List.cons_append, List.cons.injEq] at hw
      obtain ⟨rfl, hw⟩ := hw
      rcases List.append_eq_append_iff.1 hw with ⟨more, rfl, hmore⟩ | ⟨more, rfl, rfl⟩
      · -- The text is divided behind what the first two partners enclose.
        cases more with
        | nil => exact Or.inr ⟨[], o, s, [], c, t, by simp, hmore.symm, hpair, hs, .nil⟩
        | cons c' more =>
          rw [List.cons_append, List.cons.injEq] at hmore
          obtain ⟨rfl, hmore⟩ := hmore
          rcases iht hmore with hu | ⟨a, o', s', t', c', b, rfl, hv, hpair', hs', ht'⟩
          · exact Or.inl (.pair hpair hs hu)
          · exact Or.inr ⟨o :: (s ++ c :: a), o', s', t', c', b, by simp, hv, hpair', hs', ht'⟩
      · -- It is divided between them, maybe between closer partners.
        rcases ihs rfl with hu | ⟨a, o', s', t', c', b, rfl, rfl, hpair', hs', ht'⟩
        · exact Or.inr ⟨[], o, u, more, c, t, rfl, rfl, hpair, hu, (nested_append_iff hu).1 hs⟩
        · exact Or.inr ⟨o :: a, o', s', t', c', b ++ c :: t, rfl, by simp, hpair', hs', ht'⟩

/-- Nor does a nested text behind make a difference: it does not begin with a closer. -/
theorem nested_append_iff_left {s t : List Char} (ht : Nested t) :
    Nested (s ++ t) ↔ Nested s := by
  constructor
  · intro h
    rcases h.parts_of_append rfl with hs | ⟨a, o, s', t', c, b, -, rfl, hpair, -, ht'⟩
    · exact hs
    · have hhead := ((nested_append_iff ht').1 ht).isCloser_head
      rw [(kind_of_isPair hpair).2.2.2] at hhead
      cases hhead
  · exact fun hs => hs.append ht

/-- A place of a nested text that holds no bracket is enclosed when there are open brackets before
it. -/
theorem enclosed_iff {text : List Char} (h : Nested text) {i : Nat} {x : Char}
    (hx : text[i]? = some x) (hbracket : isOpener x = false ∧ isCloser x = false) :
    Enclosed text i ↔ ¬ Nested (text.take i) := by
  constructor
  · rintro ⟨a, o, s, c, b, rfl, hpair, hs, hlt, hle⟩ hnested
    have htake : (a ++ o :: (s ++ c :: b)).take i = (a ++ [o]) ++ s.take (i - a.length - 1) := by
      obtain ⟨k, rfl⟩ := Nat.exists_eq_add_of_lt hlt
      have hk : a.length + k + 1 - a.length - 1 = k := by omega
      rw [hk, Nat.add_assoc, List.take_length_add_append, List.take_succ_cons,
        List.take_append_of_le_length (by omega)]
      simp
    rw [htake] at hnested
    rcases hnested.parts_of_append rfl with hopen | ⟨a', o', s', t, c', b', -, ht, hpair', -, hnt⟩
    · -- Before the place stands an opener without its partner.
      have hlast := hopen.isOpener_last (List.getLast?_concat ..)
      rw [(kind_of_isPair hpair).1] at hlast
      cases hlast
    · -- What the partners enclose would begin with a nested text and a closer.
      have hsplit : s = t ++ (c' :: (b' ++ s.drop (i - a.length - 1))) := by
        calc s = s.take (i - a.length - 1) ++ s.drop (i - a.length - 1) :=
              (List.take_append_drop _ s).symm
          _ = t ++ (c' :: (b' ++ s.drop (i - a.length - 1))) := by
              rw [ht, List.append_assoc, List.cons_append]
      rw [hsplit, nested_append_iff hnt] at hs
      have hhead := hs.isCloser_head
      rw [(kind_of_isPair hpair').2.2.2] at hhead
      cases hhead
  · intro hnested
    have hlt : i < text.length := (List.getElem?_eq_some_iff.1 hx).1
    rcases h.parts_of_append (List.take_append_drop i text).symm with
      hbefore | ⟨a, o, s, t, c, b, htake, hdrop, hpair, hs, ht⟩
    · exact absurd hbefore hnested
    · have hlength : i = a.length + (s.length + 1) := by
        have hlength := congrArg List.length htake
        rw [List.length_take_of_le (by omega)] at hlength
        simpa using hlength
      have htext : text = a ++ o :: ((s ++ t) ++ c :: b) := by
        rw [← List.take_append_drop i text, htake, hdrop]
        simp
      refine ⟨a, o, s ++ t, c, b, htext, hpair, hs.append ht, by omega, ?_⟩
      cases t with
      | nil =>
        -- The place itself would hold the closer.
        have hhead : (text.drop i)[0]? = some x := by rwa [List.getElem?_drop, Nat.add_zero]
        rw [hdrop] at hhead
        cases hhead
        rw [(kind_of_isPair hpair).2.2.2] at hbracket
        cases hbracket.2
      | cons d t =>
        rw [List.length_append, List.length_cons]
        omega

end HornClauses.Bracket
