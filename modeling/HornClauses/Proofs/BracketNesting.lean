import HornClauses.Bracket
import HornClauses.Proofs.ReadingForm
import HornClauses.Proofs.TokenCharacters

/-!
# Brackets in texts that the grammar reads

The frames that are open while a text is read are the brackets that are open in it. So a text that
is read has all its brackets closed, and when it is read as one expression, no comma stands outside
them.

* `Bracket.step_eq_ok`: what one character can do to the open brackets.
* `Bracket.Moves`: scanning a text opens and closes certain brackets and meets no separator outside
  all of them.
* `Bracket.splitFrom_joinWith`: such texts are cut apart at the separators between them.
* `Reading.moves_of_run`: tokens that are read open and close the brackets of the frames.
* `Grammar.check_of_readFrame`: the brackets of a text that is read are in order.
* `Grammar.moves_of_readTerm`: in the text of an expression commas stand inside brackets.
-/

namespace HornClauses

namespace Bracket

variable {p : Char → Bool}

/-! ## One character -/

theorem atEnd_eq_ok {stack : Stack} {u : Unit} (h : atEnd stack = .ok u) : stack = [] := by
  unfold atEnd at h
  split at h
  · rename_i hlast
    exact List.getLast?_eq_none_iff.1 hlast
  · cases h

theorem splitFrom_cons_eq_ok {stack : Stack} {offset : Nat} {c : Char} {rest : List Char}
    {pieces : List (List Char)} :
    splitFrom p stack offset (c :: rest) = .ok pieces ↔
      ∃ opened tail, step stack offset c = .ok opened ∧
        splitFrom p opened (offset + c.utf8Size) rest = .ok tail ∧
          pieces = if stack.isEmpty && opened.isEmpty && p c then [] :: tail
            else consFirst c tail := by
  rw [splitFrom]
  cases hstep : step stack offset c with
  | error fault => simp
  | ok opened =>
    constructor
    · intro h
      obtain ⟨tail, htail, rfl⟩ := map_eq_ok.1 h
      exact ⟨opened, tail, rfl, htail, rfl⟩
    · rintro ⟨opened', tail, hopened, htail, rfl⟩
      cases hopened
      exact map_eq_ok.2 ⟨tail, htail, rfl⟩

theorem kind_of_isPair {o c : Char} (h : isPair o c = true) :
    isOpener o = true ∧ isCloser o = false ∧ isOpener c = false ∧ isCloser c = true := by
  simp only [isPair, Bool.or_eq_true, Bool.and_eq_true, decide_eq_true_eq] at h
  rcases h with ⟨rfl, rfl⟩ | ⟨rfl, rfl⟩ <;> decide

/-- A character opens a bracket, closes the innermost one or leaves the open brackets alone. -/
theorem step_eq_ok {stack opened : Stack} {offset : Nat} {c : Char} :
    step stack offset c = .ok opened ↔
      isOpener c = true ∧ opened = (offset, c) :: stack ∨
        (∃ entry, isPair entry.2 c = true ∧ stack = entry :: opened) ∨
          (isOpener c = false ∧ isCloser c = false) ∧ opened = stack := by
  constructor
  · intro h
    unfold step at h
    split at h
    · rename_i hopener
      cases h
      exact Or.inl ⟨hopener, rfl⟩
    · rename_i hopener
      split at h
      · split at h
        · cases h
        · rename_i offset' o rest
          split at h
          · rename_i hpair
            cases h
            exact Or.inr (Or.inl ⟨(offset', o), hpair, rfl⟩)
          · cases h
      · rename_i hcloser
        cases h
        exact Or.inr (Or.inr ⟨⟨by simpa using hopener, by simpa using hcloser⟩, rfl⟩)
  · rintro (⟨hc, rfl⟩ | ⟨⟨offset', o⟩, hpair, rfl⟩ | ⟨hc, rfl⟩)
    · exact if_pos hc
    · have hkind := kind_of_isPair hpair
      simp [step, hkind, hpair]
    · simp [step, hc]

/-- The offsets of the open brackets decide nothing but which of them is blamed. -/
theorem step_congr {stack stack' opened : Stack} {offset : Nat} {c : Char}
    (hstack : stack.map Prod.snd = stack'.map Prod.snd) (h : step stack offset c = .ok opened)
    (offset' : Nat) :
    ∃ opened', step stack' offset' c = .ok opened' ∧
      opened.map Prod.snd = opened'.map Prod.snd := by
  rcases step_eq_ok.1 h with ⟨hc, rfl⟩ | ⟨entry, hpair, rfl⟩ | ⟨hc, rfl⟩
  · refine ⟨_, step_eq_ok.2 (Or.inl ⟨hc, rfl⟩), ?_⟩
    rw [List.map_cons, List.map_cons, hstack]
  · obtain ⟨entry', rest, rfl, hentry, hrest⟩ := List.map_eq_cons_iff.1 hstack.symm
    rw [← hentry] at hpair
    exact ⟨rest, step_eq_ok.2 (Or.inr (Or.inl ⟨entry', hpair, rfl⟩)), hrest.symm⟩
  · exact ⟨stack', step_eq_ok.2 (Or.inr (Or.inr ⟨hc, rfl⟩)), hstack⟩

theorem not_bracket_of_isSpace {c : Char} (h : Text.isSpace c = true) :
    isOpener c = false ∧ isCloser c = false := by
  constructor
  · by_contra hc
    simp only [isOpener, Bool.not_eq_false, Bool.or_eq_true, decide_eq_true_eq] at hc
    rcases hc with rfl | rfl <;> exact absurd h (by decide)
  · by_contra hc
    simp only [isCloser, Bool.not_eq_false, Bool.or_eq_true, decide_eq_true_eq] at hc
    rcases hc with rfl | rfl <;> exact absurd h (by decide)

/-! ## Pieces with a text in front -/

def prepend (s : List Char) (pieces : List (List Char)) : List (List Char) :=
  s.foldr consFirst pieces

theorem prepend_append (s s' : List Char) (pieces : List (List Char)) :
    prepend (s ++ s') pieces = prepend s (prepend s' pieces) :=
  List.foldr_append

theorem prepend_cons (s piece : List Char) (pieces : List (List Char)) :
    prepend s (piece :: pieces) = (s ++ piece) :: pieces := by
  induction s with
  | nil => rfl
  | cons c s ih =>
    have hcons : prepend (c :: s) (piece :: pieces) =
        consFirst c (prepend s (piece :: pieces)) := rfl
    rw [hcons, ih]
    rfl

/-! ## Scanning a part of a text -/

/-- Scanning a text replaces the brackets that are open by others, and the text stays in one
piece. -/
def Moves (p : Char → Bool) (s opened opened' : List Char) : Prop :=
  ∀ (stack : Stack) (offset : Nat) (rest : List Char), stack.map Prod.snd = opened →
    ∃ (stack' : Stack) (offset' : Nat), stack'.map Prod.snd = opened' ∧
      splitFrom p stack offset (s ++ rest) = (splitFrom p stack' offset' rest).map (prepend s)

namespace Moves

variable {s s' opened opened' opened'' : List Char} {c : Char}

theorem nil (p : Char → Bool) (opened : List Char) : Moves p [] opened opened := by
  intro stack offset rest hstack
  refine ⟨stack, offset, hstack, ?_⟩
  rw [List.nil_append]
  cases splitFrom p stack offset rest <;> rfl

theorem append (h : Moves p s opened opened') (h' : Moves p s' opened' opened'') :
    Moves p (s ++ s') opened opened'' := by
  intro stack offset rest hstack
  obtain ⟨stack₁, offset₁, hstack₁, hs⟩ := h stack offset (s' ++ rest) hstack
  obtain ⟨stack₂, offset₂, hstack₂, hs'⟩ := h' stack₁ offset₁ rest hstack₁
  refine ⟨stack₂, offset₂, hstack₂, ?_⟩
  rw [List.append_assoc, hs, hs']
  cases splitFrom p stack₂ offset₂ rest with
  | error fault => rfl
  | ok pieces => simp [Except.map, prepend_append]

theorem of_step (hstep : ∀ (stack : Stack) (offset : Nat),
      stack.map Prod.snd = opened → ∃ stack', step stack offset c = .ok stack' ∧
        stack'.map Prod.snd = opened' ∧ (stack.isEmpty && stack'.isEmpty && p c) = false) :
    Moves p [c] opened opened' := by
  intro stack offset rest hstack
  obtain ⟨stack', hs, hstack', hsep⟩ := hstep stack offset hstack
  refine ⟨stack', offset + c.utf8Size, hstack', ?_⟩
  rw [List.singleton_append, splitFrom, hs]
  simp only [hsep]
  rfl

theorem opener (hc : isOpener c = true) (opened : List Char) :
    Moves p [c] opened (c :: opened) := by
  refine of_step fun stack offset hstack => ?_
  exact ⟨(offset, c) :: stack, if_pos hc, by simp [hstack], by simp⟩

theorem closer {o : Char} (hc : isPair o c = true) (opened : List Char) :
    Moves p [c] (o :: opened) opened := by
  refine of_step fun stack offset hstack => ?_
  obtain ⟨⟨offset', o'⟩, stack', rfl, hopener, hstack'⟩ := List.map_eq_cons_iff.1 hstack
  cases hopener
  exact ⟨stack', step_eq_ok.2 (Or.inr (Or.inl ⟨_, hc, rfl⟩)), hstack', by simp⟩

/-- A character that is no bracket counts as a separator outside all brackets only. -/
theorem other (hc : isOpener c = false ∧ isCloser c = false) (hsep : opened ≠ [] ∨ p c = false) :
    Moves p [c] opened opened := by
  refine of_step fun stack offset hstack =>
    ⟨stack, step_eq_ok.2 (Or.inr (Or.inr ⟨hc, rfl⟩)), hstack, ?_⟩
  rcases hsep with hsep | hsep
  · cases stack with
    | nil => exact absurd hstack.symm hsep
    | cons entry stack => rfl
  · simp [hsep]

theorem others (h : ∀ c ∈ s, (isOpener c = false ∧ isCloser c = false) ∧ p c = false)
    (opened : List Char) : Moves p s opened opened := by
  induction s with
  | nil => exact nil p opened
  | cons c s ih =>
    rw [List.forall_mem_cons] at h
    exact (other h.1.1 (Or.inr h.1.2)).append (ih h.2)

/-- A text that closes what it opens, and is all there is, is one piece. -/
theorem splitFrom_eq (h : Moves p s [] []) (offset : Nat) : splitFrom p [] offset s = .ok [s] := by
  obtain ⟨stack', offset', hstack', hs⟩ := h [] offset [] rfl
  rw [List.map_eq_nil_iff.1 hstack', List.append_nil] at hs
  have hend : splitFrom p [] offset' [] = .ok [[]] := rfl
  rw [hs, hend, Except.map, prepend_cons, List.append_nil]

/-- A text that closes what it opens is the piece before the next separator. -/
theorem splitFrom_separator (h : Moves p s [] []) (hc : isOpener c = false ∧ isCloser c = false)
    (hsep : p c = true) (offset : Nat) (rest : List Char) :
    ∃ offset', splitFrom p [] offset (s ++ c :: rest) =
      (splitFrom p [] offset' rest).map (s :: ·) := by
  obtain ⟨stack', offset', hstack', hs⟩ := h [] offset (c :: rest) rfl
  rw [List.map_eq_nil_iff.1 hstack'] at hs
  have hstep : step [] offset' c = .ok [] := by simp [step, hc]
  have hnext : splitFrom p [] offset' (c :: rest) =
      (splitFrom p [] (offset' + c.utf8Size) rest).map ([] :: ·) := by
    rw [splitFrom, hstep]
    simp only [hsep]
    rfl
  refine ⟨offset' + c.utf8Size, ?_⟩
  rw [hs, hnext]
  cases splitFrom p [] (offset' + c.utf8Size) rest with
  | error fault => rfl
  | ok pieces => simp [Except.map, prepend_cons]

end Moves

/-- Texts that close what they open are the pieces of what they are joined to. -/
theorem splitFrom_joinWith {separator : Char}
    (hsep : isOpener separator = false ∧ isCloser separator = false) {pieces : List (List Char)}
    (hne : pieces ≠ []) (h : ∀ piece ∈ pieces, Moves (· = separator) piece [] [])
    (offset : Nat) :
    splitFrom (· = separator) [] offset (joinWith separator pieces) = .ok pieces := by
  induction pieces generalizing offset with
  | nil => exact absurd rfl hne
  | cons piece pieces ih =>
    rw [List.forall_mem_cons] at h
    cases pieces with
    | nil => exact h.1.splitFrom_eq offset
    | cons next pieces =>
      have hjoin : joinWith separator (piece :: next :: pieces) =
          piece ++ separator :: joinWith separator (next :: pieces) := rfl
      obtain ⟨offset', hsplit⟩ := h.1.splitFrom_separator hsep (by simp) offset
        (joinWith separator (next :: pieces))
      rw [hjoin, hsplit, ih (by simp) h.2 offset']
      rfl

/-- Texts between commas with a blank behind each, and with a blank in front of them all. -/
theorem joinWith_blank {texts : List (List Char)} (hne : texts ≠ []) :
    joinWith ',' (texts.map (' ' :: ·)) = ' ' :: [',', ' '].intercalate texts := by
  induction texts with
  | nil => exact absurd rfl hne
  | cons s texts ih =>
    cases texts with
    | nil => simp [joinWith]
    | cons s' texts =>
      have hjoin : joinWith ',' ((s :: s' :: texts).map (' ' :: ·)) =
          ' ' :: s ++ ',' :: joinWith ',' ((s' :: texts).map (' ' :: ·)) := rfl
      rw [hjoin, ih (by simp)]
      simp

end Bracket

/-! ## Frames and brackets -/

def Place.opener? : Place → Option Char
  | .top _ => none
  | .args _ | .tuple => some '('
  | .elements | .tail _ => some '['

namespace Reading

variable {r r' : Reading} {l : Lexeme}

/-- The places of the frames, the innermost first. -/
def places (r : Reading) : List Place := r.frame.place :: r.outer.map Frame.place

def openers (r : Reading) : List Char := r.places.filterMap Place.opener?

/-- The outermost frame is that of the text as a whole, and a bracket opens each of the others. -/
def Rooted (goal : Goal) (r : Reading) : Prop :=
  ∃ inner, r.places = inner ++ [.top goal] ∧ ∀ place ∈ inner, place.opener?.isSome = true

theorem places_of_operand {slot : Slot} (h : r.operand l slot = some r') :
    r'.places = r.places := by
  unfold operand at h
  split at h
  · cases h
    rfl
  · cases h

theorem places_of_closeBracket {slot? : Option Slot} (h : r.closeBracket l slot? = some r') :
    (∃ slot, slot? = some slot) ∧ r.places = r.frame.place :: r'.places := by
  unfold closeBracket at h
  split at h
  · rename_i slot f outer houter
    cases h
    refine ⟨⟨slot, rfl⟩, ?_⟩
    rw [places, houter]
    rfl
  · cases h

theorem opener?_of_closeParen? {f : Frame} {slot : Slot} (h : f.closeParen? = some slot) :
    f.place.opener? = some '(' := by
  unfold Frame.closeParen? at h
  split at h
  · rename_i hp
    rw [hp]
    rfl
  · rename_i hp
    rw [hp]
    rfl
  · cases h

theorem opener?_of_closeBracket? {f : Frame} {slot : Slot} (h : f.closeBracket? = some slot) :
    f.place.opener? = some '[' := by
  unfold Frame.closeBracket? at h
  split at h
  · rename_i hp
    rw [hp]
    rfl
  · rename_i hp
    rw [hp]
    rfl
  · cases h

/-- What a token that fits does to the frames: it leaves them, opens one, closes one, stands between
two expressions of one, or goes on to the tail of a list. -/
inductive Shift (r r' : Reading) (t : Token) : Prop where
  | stay : t.isMark = false → r'.places = r.places → Shift r r' t
  | opens {c : Char} (place : Place) : place.opener? = some c → Bracket.isOpener c = true →
    t.text.toList = [c] → r'.places = place :: r.places → Shift r r' t
  | closes {o c : Char} {place : Place} : place.opener? = some o → Bracket.isPair o c = true →
    t.text.toList = [c] → r.places = place :: r'.places → Shift r r' t
  | separates : t = .comma → r.frame.allowsComma = true → r'.places = r.places → Shift r r' t
  | tail (es : List Expression) (places : List Place) : t = .bar →
    r.places = .elements :: places → r'.places = .tail es :: places → Shift r r' t

theorem shift_of_step (h : r.step l = some r') : Shift r r' l.token := by
  cases step_eq_some.1 h with
  | operand hslot hput => exact .stay (Token.isMark_of_operand? hslot) (places_of_operand hput)
  | operator ht =>
    rw [ht]
    exact .stay rfl rfl
  | tuple ht _ =>
    rw [ht]
    exact .opens (c := '(') .tuple rfl rfl rfl rfl
  | @args name ht _ =>
    rw [ht]
    exact .opens (c := '(') (.args name) rfl rfl rfl rfl
  | elements ht _ =>
    rw [ht]
    exact .opens (c := '[') .elements rfl rfl rfl rfl
  | closeParen ht hclose =>
    rw [ht]
    obtain ⟨⟨slot, hslot⟩, hplaces⟩ := places_of_closeBracket hclose
    exact .closes (opener?_of_closeParen? hslot) (c := ')') rfl rfl hplaces
  | closeBracket ht hclose =>
    rw [ht]
    obtain ⟨⟨slot, hslot⟩, hplaces⟩ := places_of_closeBracket hclose
    exact .closes (opener?_of_closeBracket? hslot) (c := ']') rfl rfl hplaces
  | comma ht hcomma => exact .separates ht hcomma rfl
  | bar ht hplace =>
    exact .tail r.frame.expressions (r.outer.map Frame.place) ht (by rw [places, hplace]) rfl

theorem rooted_start (goal : Goal) : (start goal).Rooted goal := ⟨[], rfl, by simp⟩

theorem Shift.rooted {t : Token} {goal : Goal} (h : Shift r r' t) (hr : r.Rooted goal) :
    r'.Rooted goal := by
  obtain ⟨inner, hplaces, hinner⟩ := hr
  cases h with
  | stay _ hp => exact ⟨inner, hp.trans hplaces, hinner⟩
  | @opens c place ho _ _ hp =>
    refine ⟨place :: inner, by rw [hp, hplaces, List.cons_append],
      List.forall_mem_cons.2 ⟨?_, hinner⟩⟩
    rw [ho]
    rfl
  | @closes o c place ho _ _ hp =>
    rw [hp] at hplaces
    cases inner with
    | nil =>
      cases hplaces
    | cons first inner =>
      rw [List.cons_append, List.cons.injEq] at hplaces
      exact ⟨inner, hplaces.2, (List.forall_mem_cons.1 hinner).2⟩
  | separates _ _ hp => exact ⟨inner, hp.trans hplaces, hinner⟩
  | @tail es places _ hp hp' =>
    rw [hp] at hplaces
    cases inner with
    | nil => cases hplaces
    | cons first inner =>
      rw [List.cons_append, List.cons.injEq] at hplaces
      refine ⟨.tail es :: inner, by rw [hp', hplaces.2, List.cons_append], ?_⟩
      exact List.forall_mem_cons.2 ⟨rfl, (List.forall_mem_cons.1 hinner).2⟩

/-- Where no bracket is open, the text as a whole is read. -/
theorem Rooted.place_eq {goal : Goal} (hr : r.Rooted goal) (h : r.openers = []) :
    r.frame.place = .top goal := by
  obtain ⟨inner, hplaces, hinner⟩ := hr
  cases inner with
  | nil =>
    rw [List.nil_append, places, List.cons.injEq] at hplaces
    exact hplaces.1
  | cons first inner =>
    have hmem : first ∈ r.places := by simp [hplaces]
    have hnone := List.filterMap_eq_nil_iff.1 h first hmem
    have hsome := hinner first List.mem_cons_self
    rw [hnone] at hsome
    cases hsome

theorem Rooted.openers_eq_nil {goal : Goal} (hr : r.Rooted goal) (h : r.outer = []) :
    r.openers = [] := by
  obtain ⟨inner, hplaces, hinner⟩ := hr
  rw [places, h, List.map_nil] at hplaces
  have hnil : inner = [] := by
    have := congrArg List.length hplaces
    simp only [List.length_append, List.length_singleton] at this
    exact List.length_eq_zero_iff.1 (by omega)
  rw [openers, places, h, List.map_nil, hplaces, hnil]
  rfl

/-- A comma fits inside brackets only, unless several expressions are read. -/
theorem openers_ne_nil_of_allowsComma (hr : r.Rooted .term) (h : r.frame.allowsComma = true) :
    r.openers ≠ [] := by
  intro hnil
  rw [Frame.allowsComma, hr.place_eq hnil] at h
  cases h

/-! ## Scanning what is read -/

variable {p : Char → Bool} {goal : Goal}

theorem not_bracket_of_isDelimiter {c : Char} (h : Text.isDelimiter c = false) :
    (Bracket.isOpener c = false ∧ Bracket.isCloser c = false) ∧ c ≠ ',' := by
  simp only [Text.isDelimiter, Bool.or_eq_false_iff, decide_eq_false_iff_not] at h
  simp only [Bracket.isOpener, Bracket.isCloser, Bool.or_eq_false_iff, decide_eq_false_iff_not]
  exact ⟨⟨⟨h.1.1.1.1.1.2, h.1.1.1.2⟩, h.1.1.1.1.2, h.1.1.2⟩, h.1.2⟩

/-- The text of a token that fits opens and closes the brackets of the frames. -/
theorem Shift.moves {t : Token} (h : Shift r r' t) (ht : t.WellFormed)
    (hp : ∀ c, p c = true → c = ',' ∧ goal = .term) (hr : r.Rooted goal) :
    Bracket.Moves p t.text.toList r.openers r'.openers := by
  cases h with
  | stay hm hplaces =>
    rw [openers, openers, hplaces]
    refine Bracket.Moves.others (fun c hc => ?_) _
    obtain ⟨hbracket, hcomma⟩ := not_bracket_of_isDelimiter (Token.isDelimiter_of_mem_text ht hm hc)
    refine ⟨hbracket, ?_⟩
    by_contra hpc
    exact hcomma (hp c (by simpa using hpc)).1
  | @opens c place ho hc htext hplaces =>
    have hopeners : r'.openers = c :: r.openers := by
      rw [openers, hplaces, List.filterMap_cons_some ho, ← openers]
    rw [htext, hopeners]
    exact Bracket.Moves.opener hc _
  | @closes o c place ho hc htext hplaces =>
    have hopeners : r.openers = o :: r'.openers := by
      rw [openers, hplaces, List.filterMap_cons_some ho, ← openers]
    rw [htext, hopeners]
    exact Bracket.Moves.closer hc _
  | separates htok hcomma hplaces =>
    subst htok
    rw [openers, openers, hplaces]
    change Bracket.Moves p [','] _ _
    apply Bracket.Moves.other (by decide)
    by_cases hpc : p ',' = true
    · left
      rw [(hp ',' hpc).2] at hr
      exact openers_ne_nil_of_allowsComma hr hcomma
    · exact Or.inr (by simpa using hpc)
  | tail es places htok hplaces hplaces' =>
    subst htok
    have hopeners : r'.openers = r.openers := by
      rw [openers, openers, hplaces, hplaces']
      rfl
    rw [hopeners]
    change Bracket.Moves p ['|'] _ _
    refine Bracket.Moves.other (by decide) (Or.inr ?_)
    by_contra hpc
    exact absurd (hp '|' (by simpa using hpc)).1 (by decide)

theorem not_bracket_of_isBlank {c : Char} (h : Text.isBlank c = true) :
    (Bracket.isOpener c = false ∧ Bracket.isCloser c = false) ∧ c ≠ ',' := by
  simp only [Text.isBlank, Bool.or_eq_true, decide_eq_true_eq] at h
  rcases h with ((rfl | rfl) | rfl) | rfl <;> decide

theorem moves_blanks (hp : ∀ c, p c = true → c = ',' ∧ goal = .term) {s : List Char}
    (hs : ∀ c ∈ s, Text.isBlank c = true) (opened : List Char) :
    Bracket.Moves p s opened opened := by
  refine Bracket.Moves.others (fun c hc => ?_) opened
  obtain ⟨hbracket, hcomma⟩ := not_bracket_of_isBlank (hs c hc)
  refine ⟨hbracket, ?_⟩
  by_contra hpc
  exact hcomma (hp c (by simpa using hpc)).1

/-- The texts of tokens that are read open and close the brackets of the frames. -/
theorem moves_of_run {ls : List Lexeme} {position position' : Nat}
    (hls : ∀ l ∈ ls, l.token.WellFormed ∧ ∀ c ∈ l.gap.toList, Text.isBlank c = true)
    (hp : ∀ c, p c = true → c = ',' ∧ goal = .term) (hr : r.Rooted goal)
    (h : run goal r position ls = .ok (r', position')) :
    Bracket.Moves p (Lexeme.spell ls) r.openers r'.openers ∧ r'.Rooted goal := by
  induction ls generalizing r position with
  | nil =>
    cases h
    exact ⟨Bracket.Moves.nil p _, hr⟩
  | cons l ls ih =>
    rw [List.forall_mem_cons] at hls
    rw [run] at h
    split at h
    · cases h
    · rename_i r₁ hstep
      have hshift := shift_of_step hstep
      have htoken := hshift.moves hls.1.1 hp hr
      have hgap := moves_blanks hp hls.1.2 r₁.openers
      obtain ⟨hrest, hr'⟩ := ih hls.2 (hshift.rooted hr) h
      exact ⟨(htoken.append hgap).append hrest, hr'⟩

end Reading

/-! ## Texts -/

namespace Grammar

variable {text : List Char}

/-- A text that is read closes all brackets that it opens. -/
theorem moves_of_readFrame {p : Char → Bool} {goal : Goal} {f : Frame}
    (hp : ∀ c, p c = true → c = ',' ∧ goal = .term) (h : readFrame goal text = .ok f) :
    Bracket.Moves p text [] [] := by
  obtain ⟨hrest, position, hrun⟩ := readFrame_eq_ok.1 h
  have hblanks := Reading.moves_blanks hp (s := text.takeWhile Text.isBlank)
    (fun c hc => List.mem_takeWhile_imp hc) []
  obtain ⟨htokens, hrooted⟩ := Reading.moves_of_run (Lexeme.of_mem_scan _) hp
    (Reading.rooted_start goal) hrun
  have hspell := Lexeme.scan_append (text.dropWhile Text.isBlank)
  rw [hrest, List.append_nil] at hspell
  rw [hspell, hrooted.openers_eq_nil rfl] at htokens
  have hall := hblanks.append htokens
  rwa [List.takeWhile_append_dropWhile] at hall

theorem check_of_readFrame {goal : Goal} {f : Frame} (h : readFrame goal text = .ok f) :
    Bracket.check text = .ok () := by
  have hmoves := moves_of_readFrame (p := fun _ => false) (fun c hc => absurd hc (by simp)) h
  rw [Bracket.check, Bracket.split, hmoves.splitFrom_eq]
  rfl

/-- In the text of an expression no comma stands outside the brackets. -/
theorem moves_of_readTerm {e : Expression} (h : readTerm text = .ok e) :
    Bracket.Moves (· = ',') text [] [] := by
  obtain ⟨f, hf, -⟩ := map_eq_ok.1 h
  exact moves_of_readFrame (fun c hc => ⟨by simpa using hc, rfl⟩) hf

end Grammar

end HornClauses
