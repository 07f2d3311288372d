import HornClauses.Grammar
import HornClauses.Proofs.ExpressionForm
import HornClauses.Proofs.Outcome

/-!
# What the grammar reads is well formed

A token that fits a reading keeps everything in its frames well formed, so the expression of a text
that is read to its end is well formed.

* `Reading.step_eq_some`: the ways in which a token fits.
* `Reading.WellFormed`: the invariant of a reading.
* `Reading.wellFormed_of_step`, `Reading.wellFormed_of_run`: tokens preserve it.
* `Grammar.wellFormed_of_readTerm`: expressions that are read are well formed.
-/

namespace HornClauses

/-! ## What one token does -/

/-- The operand that a token is by itself. -/
def Token.operand? : Token → Option Slot
  | name text => some (.name text)
  | var text => some (.var text)
  | number text => some (.number text)
  | symbol text => some (.symbol text)
  | _ => none

/-- A token that fits is an operand or an operator, opens or closes a bracket, or goes on to the next
expression or to the tail of a list. -/
inductive Reading.Step (r : Reading) (l : Lexeme) : Reading → Prop where
  | operand {slot : Slot} {r' : Reading} : l.token.operand? = some slot →
    r.operand l slot = some r' → Step r l r'
  | operator {op : Operator} : l.token = .operator op → Step r l (r.operator l op)
  | tuple : l.token = .openParen → r.frame.draft.slot = .hole → Step r l (r.openBracket l .tuple)
  | args {name : String} : l.token = .openParen → r.frame.draft.slot = .name name →
    Step r l (r.openBracket l (.args name))
  | elements : l.token = .openBracket → r.frame.draft.slot.isHole = true →
    Step r l (r.openBracket l .elements)
  | closeParen {r' : Reading} : l.token = .closeParen →
    r.closeBracket l r.frame.closeParen? = some r' → Step r l r'
  | closeBracket {r' : Reading} : l.token = .closeBracket →
    r.closeBracket l r.frame.closeBracket? = some r' → Step r l r'
  | comma : l.token = .comma → r.frame.allowsComma = true →
    Step r l { r with frame := r.frame.nextExpression l.gap }
  | bar : l.token = .bar → r.frame.place = .elements →
    Step r l { r with
      frame := { Frame.fresh (.tail r.frame.expressions) with
        before := r.frame.text ++ "|" ++ l.gap } }

theorem Reading.step_eq_some {r r' : Reading} {l : Lexeme} :
    r.step l = some r' ↔ r.Step l r' := by
  constructor
  · intro h
    unfold step at h
    split at h
    · exact .operand (by simp [*, Token.operand?]) h
    · exact .operand (by simp [*, Token.operand?]) h
    · exact .operand (by simp [*, Token.operand?]) h
    · exact .operand (by simp [*, Token.operand?]) h
    · cases h
      exact .operator ‹_›
    · split at h
      · cases h
        exact .tuple ‹_› ‹_›
      · cases h
        exact .args ‹_› ‹_›
      · cases h
    · split at h
      · cases h
        exact .elements ‹_› ‹_›
      · cases h
    · exact .closeParen ‹_› h
    · exact .closeBracket ‹_› h
    · split at h
      · cases h
        exact .comma ‹_› ‹_›
      · cases h
    · split at h
      · cases h
        exact .bar ‹_› ‹_›
      · cases h
  · intro h
    unfold step
    cases h with
    | @operand slot _ hslot hput =>
      cases ht : l.token <;> rw [ht] at hslot <;> cases hslot <;> exact hput
    | operator ht => rw [ht]
    | tuple ht hslot => rw [ht, hslot]
    | args ht hslot => rw [ht, hslot]
    | elements ht hhole => simp only [ht, hhole, if_true]
    | closeParen ht hclose => rw [ht, ← hclose]
    | closeBracket ht hclose => rw [ht, ← hclose]
    | comma ht hcomma => simp only [ht, hcomma, if_true]
    | bar ht hplace => simp only [ht, hplace]

namespace Token

variable {t : Token} {slot : Slot}

theorem wellFormed_of_operand? (ht : t.WellFormed) (h : t.operand? = some slot) :
    slot.WellFormed := by
  cases t with
  | name text =>
    cases h
    exact .name ht
  | var text =>
    cases h
    exact .var ht
  | number text =>
    cases h
    exact .number ht
  | symbol text =>
    cases h
    exact .symbol ht
  | _ => cases h

theorem isMark_of_operand? (h : t.operand? = some slot) : t.isMark = false := by
  cases t <;> first | rfl | cases h

end Token

/-! ## Drafts and frames -/

structure Draft.WellFormed (d : Draft) : Prop where
  links : ∀ link ∈ d.links, link.1.WellFormed
  slot : d.slot.WellFormed

def Place.WellFormed : Place → Prop
  | .args name => Token.IsName name
  | .tail es => es ≠ [] ∧ ∀ e ∈ es, e.WellFormed
  | _ => True

structure Frame.WellFormed (f : Frame) : Prop where
  place : f.place.WellFormed
  finished : ∀ e ∈ f.finished, e.WellFormed
  draft : f.draft.WellFormed

namespace Draft

theorem wellFormed_fresh : fresh.WellFormed := ⟨by simp [fresh], .hole⟩

theorem WellFormed.finish {d : Draft} (hd : d.WellFormed) : d.finish.WellFormed :=
  .chain hd.links hd.slot

/-- An expression that is begun is written with tokens. -/
theorem tokens_finish_ne_nil {d : Draft} (hd : d.isFresh = false) : d.finish.tokens ≠ [] := by
  rw [finish, Expression.tokens]
  intro hnil
  obtain ⟨hlinks, hslot⟩ := List.append_eq_nil_iff.1 hnil
  have hnolinks : d.links = [] := by
    cases hl : d.links with
    | nil => rfl
    | cons link links =>
      obtain ⟨slot, op⟩ := link
      simp [hl, Expression.tokensOfLinks] at hlinks
  have hhole : d.slot.isHole = true := by
    cases hs : d.slot <;> simp_all [Slot.tokens, Slot.isHole]
  simp [isFresh, hnolinks, hhole] at hd

end Draft

namespace Frame

variable {f : Frame}

theorem wellFormed_fresh {place : Place} (h : place.WellFormed) : (fresh place).WellFormed :=
  ⟨h, by simp [fresh], Draft.wellFormed_fresh⟩

theorem expressions_ne_nil (f : Frame) : f.expressions ≠ [] := by
  simp [expressions]

theorem WellFormed.expressions (hf : f.WellFormed) : ∀ e ∈ f.expressions, e.WellFormed := by
  intro e he
  rcases List.mem_append.1 he with he | he
  · exact hf.finished e he
  · rw [List.mem_singleton.1 he]
    exact hf.draft.finish

theorem WellFormed.closeParen? (hf : f.WellFormed) {slot : Slot} (h : f.closeParen? = some slot) :
    slot.WellFormed := by
  have hplace := hf.place
  unfold Frame.closeParen? at h
  split at h
  · rename_i name hp
    cases h
    rw [hp] at hplace
    exact .compound hplace f.expressions_ne_nil hf.expressions
  · cases h
    exact .tuple f.expressions_ne_nil hf.expressions
  · cases h

theorem tokensOfList_expressions_ne_nil
    (h : (f.finished.isEmpty && f.draft.isFresh) = false) :
    Expression.tokensOfList f.expressions ≠ [] := by
  rw [Frame.expressions]
  cases hf : f.finished with
  | nil =>
    rw [hf] at h
    rw [List.nil_append, Expression.tokensOfList]
    exact Draft.tokens_finish_ne_nil (by simpa using h)
  | cons e es =>
    rw [Expression.tokensOfList_append (by simp) (by simp)]
    simp

theorem WellFormed.closeBracket? (hf : f.WellFormed) {slot : Slot}
    (h : f.closeBracket? = some slot) : slot.WellFormed := by
  have hplace := hf.place
  unfold Frame.closeBracket? at h
  split at h
  · split at h
    · cases h
      exact .nil
    · rename_i hfresh
      cases h
      exact .list (tokensOfList_expressions_ne_nil (by simpa using hfresh)) hf.expressions
  · rename_i elements hp
    cases h
    rw [hp] at hplace
    exact .listWithTail hplace.1 hplace.2 hf.draft.finish
  · cases h

end Frame

/-! ## Readings -/

/-- Everything that is read is well formed. -/
structure Reading.WellFormed (r : Reading) : Prop where
  frame : r.frame.WellFormed
  outer : ∀ f ∈ r.outer, f.WellFormed

namespace Reading

variable {r r' : Reading} {l : Lexeme}

theorem wellFormed_start (goal : Goal) : (start goal).WellFormed :=
  ⟨Frame.wellFormed_fresh trivial, by simp [start]⟩

theorem WellFormed.operand (hr : r.WellFormed) {slot : Slot} (hslot : slot.WellFormed)
    (h : r.operand l slot = some r') : r'.WellFormed := by
  unfold Reading.operand at h
  split at h
  · cases h
    exact ⟨⟨hr.frame.place, hr.frame.finished, hr.frame.draft.links, hslot⟩, hr.outer⟩
  · cases h

theorem WellFormed.operator (hr : r.WellFormed) (op : Operator) :
    (r.operator l op).WellFormed := by
  refine ⟨⟨hr.frame.place, hr.frame.finished, ?_, .hole⟩, hr.outer⟩
  intro link hlink
  rcases List.mem_append.1 hlink with hlink | hlink
  · exact hr.frame.draft.links link hlink
  · rw [List.mem_singleton.1 hlink]
    exact hr.frame.draft.slot

theorem WellFormed.openBracket (hr : r.WellFormed) (place : Place) (hplace : place.WellFormed) :
    (r.openBracket l place).WellFormed := by
  refine ⟨Frame.wellFormed_fresh hplace, List.forall_mem_cons.2 ⟨?_, hr.outer⟩⟩
  exact ⟨hr.frame.place, hr.frame.finished, hr.frame.draft.links, .hole⟩

theorem WellFormed.closeBracket (hr : r.WellFormed) {slot? : Option Slot}
    (hslot : ∀ slot, slot? = some slot → slot.WellFormed)
    (h : r.closeBracket l slot? = some r') : r'.WellFormed := by
  unfold Reading.closeBracket at h
  split at h
  · rename_i slot f outer houter
    cases h
    have hframes := hr.outer
    rw [houter, List.forall_mem_cons] at hframes
    obtain ⟨hf, hrest⟩ := hframes
    exact ⟨⟨hf.place, hf.finished, hf.draft.links, hslot slot rfl⟩, hrest⟩
  · cases h

theorem wellFormed_of_step (hr : r.WellFormed) (hl : l.token.WellFormed)
    (h : r.step l = some r') : r'.WellFormed := by
  cases step_eq_some.1 h with
  | operand hslot hput => exact hr.operand (Token.wellFormed_of_operand? hl hslot) hput
  | operator _ => exact hr.operator _
  | tuple _ _ => exact hr.openBracket .tuple trivial
  | @args name _ hslot =>
    apply hr.openBracket (.args name)
    have hname := hr.frame.draft.slot
    rw [hslot] at hname
    cases hname with
    | name hname => exact hname
  | elements _ _ => exact hr.openBracket .elements trivial
  | closeParen _ hclose => exact hr.closeBracket (fun slot => hr.frame.closeParen?) hclose
  | closeBracket _ hclose => exact hr.closeBracket (fun slot => hr.frame.closeBracket?) hclose
  | comma _ _ => exact ⟨⟨hr.frame.place, hr.frame.expressions, Draft.wellFormed_fresh⟩, hr.outer⟩
  | bar _ _ =>
    exact ⟨⟨⟨r.frame.expressions_ne_nil, hr.frame.expressions⟩, by simp [Frame.fresh],
      Draft.wellFormed_fresh⟩, hr.outer⟩

theorem wellFormed_of_run {goal : Goal} {ls : List Lexeme} {position position' : Nat}
    (hr : r.WellFormed) (hls : ∀ l ∈ ls, l.token.WellFormed)
    (h : run goal r position ls = .ok (r', position')) : r'.WellFormed := by
  induction ls generalizing r position with
  | nil =>
    cases h
    exact hr
  | cons l ls ih =>
    rw [List.forall_mem_cons] at hls
    rw [run] at h
    split at h
    · cases h
    · rename_i r₁ hstep
      exact ih (wellFormed_of_step hr hls.1 hstep) hls.2 h

end Reading

/-! ## Texts -/

/-- What is scanned consists of tokens of the right form with blanks after them. -/
theorem Lexeme.of_mem_scan (s : List Char) :
    ∀ l ∈ (scan s).1, l.token.WellFormed ∧ ∀ c ∈ l.gap.toList, Text.isBlank c = true := by
  induction s using scan.induct with
  | case1 s h =>
    rw [scan_none h]
    simp
  | case2 s t rest h ih =>
    rw [scan_some h, List.forall_mem_cons]
    refine ⟨⟨Token.wellFormed_of_scan? h, fun c hc => ?_⟩, ih⟩
    rw [String.toList_ofList] at hc
    exact List.mem_takeWhile_imp hc

namespace Grammar

variable {text : List Char}

/-- A text is read when its tokens are all there is, and they are read to the end of the outermost
frame. -/
theorem readFrame_eq_ok {goal : Goal} {f : Frame} :
    readFrame goal text = .ok f ↔
      (Lexeme.scan (text.dropWhile Text.isBlank)).2 = [] ∧
        ∃ position, Reading.run goal (.start goal) (text.takeWhile Text.isBlank).length
          (Lexeme.scan (text.dropWhile Text.isBlank)).1 = .ok (⟨f, []⟩, position) := by
  simp only [readFrame]
  cases hrun : Reading.run goal (.start goal) (text.takeWhile Text.isBlank).length
      (Lexeme.scan (text.dropWhile Text.isBlank)).1 with
  | error fault => simp
  | ok reading =>
    obtain ⟨⟨frame, outer⟩, position⟩ := reading
    cases outer <;> cases (Lexeme.scan (text.dropWhile Text.isBlank)).2 <;> simp

theorem wellFormed_of_readFrame {goal : Goal} {f : Frame} (h : readFrame goal text = .ok f) :
    f.WellFormed := by
  obtain ⟨-, position, hrun⟩ := readFrame_eq_ok.1 h
  exact (Reading.wellFormed_of_run (Reading.wellFormed_start goal)
    (fun l hl => (Lexeme.of_mem_scan _ l hl).1) hrun).frame

/-- An expression that is read is well formed. -/
theorem wellFormed_of_readTerm {e : Expression} (h : readTerm text = .ok e) : e.WellFormed := by
  obtain ⟨f, hf, rfl⟩ := map_eq_ok.1 h
  exact (wellFormed_of_readFrame hf).draft.finish

end Grammar

end HornClauses
