import HornClauses.Proofs.Acceptance

/-!
# The stages of a reading

Which tokens fit a reading depends on little of what was read: on whether the slot holds nothing, a
name or another operand, and on the brackets that are open. This much of a reading is its stage.
What a token makes of the stage does not depend on what is written beside it, so the stages alone
tell which texts are accepted.

* `Stage.next`: what a token of some kind makes of a stage.
* `Reading.stage_of_step`: tokens do the same to a reading and to its stage.
* `Goal.accepts_iff_run`: a text is accepted if its tokens lead to a stage without open brackets.
-/

namespace HornClauses

/-! ## Stages -/

/-- What the slot that is read holds: nothing, a name that arguments may follow, or an operand. -/
inductive Phase where
  | hole
  | name
  | operand
  deriving DecidableEq

/-- What stands between a bracket that is open and its partner. -/
inductive Enclosure where
  | parens
  | elements
  | tail
  deriving DecidableEq

def Enclosure.closer : Enclosure → Terminal
  | parens => .closeParen
  | elements | tail => .closeBracket

/-- The slot that is read, and the brackets around it, the innermost first. -/
structure Stage where
  phase : Phase
  enclosures : List Enclosure
  deriving DecidableEq

namespace Stage

def start : Stage := ⟨.hole, []⟩

/-- The stage behind a closing bracket of this kind, if its partner is the innermost one open. -/
def close (σ : Stage) (k : Terminal) : Option Stage :=
  match σ.enclosures with
  | [] => none
  | e :: outer => if e.closer = k then some ⟨.operand, outer⟩ else none

/-- The stage behind a token of this kind, unless such a token is refused. -/
def next (goal : Goal) (σ : Stage) : Terminal → Option Stage
  | .name => if σ.phase = .hole then some { σ with phase := .name } else none
  | .var | .number | .symbol =>
    if σ.phase = .hole then some { σ with phase := .operand } else none
  | .operator => some { σ with phase := .hole }
  | .openParen =>
    if σ.phase = .operand then none else some ⟨.hole, .parens :: σ.enclosures⟩
  | .openBracket =>
    if σ.phase = .hole then some ⟨.hole, .elements :: σ.enclosures⟩ else none
  | .closeParen => σ.close .closeParen
  | .closeBracket => σ.close .closeBracket
  | .comma =>
    match σ.enclosures with
    | [] => if goal = .sequence then some { σ with phase := .hole } else none
    | .tail :: _ => none
    | _ => some { σ with phase := .hole }
  | .bar =>
    match σ.enclosures with
    | .elements :: outer => some ⟨.hole, .tail :: outer⟩
    | _ => none

def run (goal : Goal) (σ : Stage) : List Token → Option Stage
  | [] => some σ
  | t :: ts => (σ.next goal t.terminal).bind fun σ' => σ'.run goal ts

theorem run_append (goal : Goal) (σ : Stage) (ts us : List Token) :
    σ.run goal (ts ++ us) = (σ.run goal ts).bind fun σ' => σ'.run goal us := by
  induction ts generalizing σ with
  | nil => rfl
  | cons t ts ih =>
    rw [List.cons_append, run, run, Option.bind_assoc]
    exact Option.bind_congr fun σ' _ => ih σ'

theorem run_append_eq_some {goal : Goal} {σ σ' : Stage} {ts us : List Token} :
    σ.run goal (ts ++ us) = some σ' ↔
      ∃ σ₁, σ.run goal ts = some σ₁ ∧ σ₁.run goal us = some σ' := by
  rw [run_append, Option.bind_eq_some_iff]

end Stage

/-! ## Readings and their stages -/

def Slot.phase : Slot → Phase
  | .hole => .hole
  | .name _ => .name
  | _ => .operand

def Place.enclosure? : Place → Option Enclosure
  | .top _ => none
  | .args _ | .tuple => some .parens
  | .elements => some .elements
  | .tail _ => some .tail

namespace Reading

variable {r r' : Reading} {l : Lexeme} {goal : Goal}

def stage (r : Reading) : Stage :=
  ⟨r.frame.draft.slot.phase, r.places.filterMap Place.enclosure?⟩

theorem isHole_iff_phase {slot : Slot} : slot.isHole = true ↔ slot.phase = .hole := by
  cases slot <;> simp [Slot.isHole, Slot.phase]

theorem isSome_enclosure? (place : Place) : place.enclosure?.isSome = place.opener?.isSome := by
  cases place <;> rfl

/-- The frame that is read is that of the text as a whole, or it has a frame around it. -/
theorem Rooted.cases_place (hr : r.Rooted goal) :
    r.frame.place = .top goal ∧ r.outer = [] ∨
      ∃ e f outer, r.frame.place.enclosure? = some e ∧ r.outer = f :: outer := by
  obtain ⟨inner, hplaces, hinner⟩ := hr
  rw [places] at hplaces
  cases inner with
  | nil =>
    rw [List.nil_append, List.cons.injEq] at hplaces
    exact Or.inl ⟨hplaces.1, List.map_eq_nil_iff.1 hplaces.2⟩
  | cons first inner =>
    rw [List.cons_append, List.cons.injEq] at hplaces
    have hfirst := hinner first List.mem_cons_self
    rw [← hplaces.1, ← isSome_enclosure?] at hfirst
    obtain ⟨e, he⟩ := Option.isSome_iff_exists.1 hfirst
    cases houter : r.outer with
    | nil => simp [houter] at hplaces
    | cons f outer => exact Or.inr ⟨e, f, outer, he, rfl⟩

/-- Without open brackets the text as a whole is read. -/
theorem Rooted.enclosures_eq_nil_iff (hr : r.Rooted goal) :
    r.stage.enclosures = [] ↔ r.outer = [] := by
  rcases hr.cases_place with ⟨hplace, houter⟩ | ⟨e, f, outer, he, houter⟩
  · simp [stage, places, hplace, houter, Place.enclosure?]
  · simp [stage, places, houter, he]

theorem stage_operand (slot : Slot) :
    (r.operand l slot).map stage =
      if r.stage.phase = .hole then some { r.stage with phase := slot.phase } else none := by
  have hphase : r.frame.draft.slot.isHole = true ↔ r.stage.phase = .hole := isHole_iff_phase
  unfold operand
  split
  · rename_i hhole
    rw [if_pos (hphase.1 hhole)]
    rfl
  · rename_i hhole
    rw [if_neg (mt hphase.2 hhole)]
    rfl

theorem stage_openBracket {place : Place} {e : Enclosure} (he : place.enclosure? = some e) :
    (r.openBracket l place).stage = ⟨.hole, e :: r.stage.enclosures⟩ := by
  simp [stage, openBracket, places, Frame.fresh, Draft.fresh, Slot.phase, he]

theorem stage_eq_nil (hr : r.Rooted goal) (houter : r.outer = []) :
    r.stage = ⟨r.stage.phase, []⟩ := by
  rw [← hr.enclosures_eq_nil_iff.2 houter]

/-- The innermost enclosure is that of the frame that is read. -/
theorem stage_eq_cons {e : Enclosure} (he : r.frame.place.enclosure? = some e) :
    r.stage = ⟨r.stage.phase, e :: (r.outer.map Frame.place).filterMap Place.enclosure?⟩ := by
  simp [stage, places, he]

/-- The operand that a closing bracket completes, if it is the partner of the innermost bracket. -/
def Completes (r : Reading) (k : Terminal) (slot? : Option Slot) : Prop :=
  slot?.map Slot.phase =
    if r.frame.place.enclosure?.map Enclosure.closer = some k then some .operand else none

theorem completes_closeParen? (r : Reading) : r.Completes .closeParen r.frame.closeParen? := by
  unfold Completes Frame.closeParen?
  cases r.frame.place <;> rfl

theorem completes_closeBracket? (r : Reading) :
    r.Completes .closeBracket r.frame.closeBracket? := by
  unfold Completes Frame.closeBracket?
  cases r.frame.place with
  | elements => cases (r.frame.finished.isEmpty && r.frame.draft.isFresh) <;> rfl
  | _ => rfl

theorem stage_closeBracket (hr : r.Rooted goal) {k : Terminal} {slot? : Option Slot}
    (h : r.Completes k slot?) : (r.closeBracket l slot?).map stage = r.stage.close k := by
  unfold Completes at h
  rcases hr.cases_place with ⟨hplace, houter⟩ | ⟨e, f, outer, he, houter⟩
  · rw [hplace] at h
    rw [Option.map_eq_none_iff.1 h, stage_eq_nil hr houter]
    rfl
  · rw [stage_eq_cons he, houter]
    simp only [he, Option.map_some, Option.some.injEq] at h
    split at h
    · rename_i hk
      obtain ⟨slot, rfl, hslot⟩ := Option.map_eq_some_iff.1 h
      simp [Stage.close, closeBracket, stage, places, houter, hslot, hk]
    · rename_i hk
      rw [Option.map_eq_none_iff.1 h]
      exact (if_neg hk).symm

/-- A token does to a reading what it does to its stage. -/
theorem stage_of_step (hr : r.Rooted goal) :
    (r.step l).map stage = r.stage.next goal l.token.terminal := by
  obtain ⟨t, gap⟩ := l
  cases t with
  | name text => exact stage_operand _
  | var text => exact stage_operand _
  | number text => exact stage_operand _
  | symbol text => exact stage_operand _
  | operator op => rfl
  | openParen =>
    have hphase : r.stage.phase = r.frame.draft.slot.phase := rfl
    simp only [step, Token.terminal, Stage.next, hphase]
    cases r.frame.draft.slot with
    | hole => exact congrArg some (stage_openBracket rfl)
    | name text => exact congrArg some (stage_openBracket rfl)
    | _ => rfl
  | openBracket =>
    have hphase : r.frame.draft.slot.isHole = true ↔ r.stage.phase = .hole := isHole_iff_phase
    simp only [step, Token.terminal, Stage.next, hphase]
    split
    · exact congrArg some (stage_openBracket rfl)
    · rfl
  | closeParen => exact stage_closeBracket hr r.completes_closeParen?
  | closeBracket => exact stage_closeBracket hr r.completes_closeBracket?
  | comma =>
    rcases hr.cases_place with ⟨hplace, houter⟩ | ⟨e, f, outer, he, houter⟩
    · rw [stage_eq_nil hr houter]
      cases goal <;> simp [Stage.next, step, stage, places, Frame.allowsComma, Frame.nextExpression,
        hplace, houter, Place.enclosure?, Draft.fresh, Slot.phase, Token.terminal]
    · rw [stage_eq_cons he]
      cases hplace : r.frame.place <;> rw [hplace] at he <;> cases he <;>
        simp [Stage.next, step, stage, places, Frame.allowsComma, Frame.nextExpression, hplace,
          Place.enclosure?, Draft.fresh, Slot.phase, Token.terminal]
  | bar =>
    rcases hr.cases_place with ⟨hplace, houter⟩ | ⟨e, f, outer, he, houter⟩
    · rw [stage_eq_nil hr houter]
      simp [Stage.next, step, hplace, Token.terminal]
    · rw [stage_eq_cons he]
      cases hplace : r.frame.place <;> rw [hplace] at he <;> cases he <;>
        simp [Stage.next, step, stage, places, Frame.fresh, hplace, Place.enclosure?, Draft.fresh,
          Slot.phase, Token.terminal]

theorem stage_of_run (hr : r.Rooted goal) {ls : List Lexeme} {position position' : Nat}
    (h : run goal r position ls = .ok (r', position')) :
    r.stage.run goal (ls.map Lexeme.token) = some r'.stage := by
  induction ls generalizing r position with
  | nil =>
    cases h
    rfl
  | cons l ls ih =>
    rw [run] at h
    split at h
    · cases h
    · rename_i r₁ hstep
      rw [List.map_cons, Stage.run, ← stage_of_step hr, hstep]
      exact ih ((shift_of_step hstep).rooted hr) h

theorem exists_run_of_stage (hr : r.Rooted goal) {ls : List Lexeme} {σ : Stage}
    (h : r.stage.run goal (ls.map Lexeme.token) = some σ) (position : Nat) :
    ∃ r' position', run goal r position ls = .ok (r', position') ∧ r'.stage = σ ∧
      r'.Rooted goal := by
  induction ls generalizing r position with
  | nil =>
    cases h
    exact ⟨r, position, rfl, rfl, hr⟩
  | cons l ls ih =>
    rw [List.map_cons, Stage.run, Option.bind_eq_some_iff] at h
    obtain ⟨σ₁, hnext, hrun⟩ := h
    rw [← stage_of_step hr] at hnext
    obtain ⟨r₁, hstep, rfl⟩ := Option.map_eq_some_iff.1 hnext
    rw [run, hstep]
    exact ih ((shift_of_step hstep).rooted hr) hrun (position + l.length)

end Reading

/-! ## Accepted texts -/

/-- The rule of the texts that are read. -/
def Goal.rule : Goal → Rule
  | term => .term
  | sequence => .sequence

namespace Goal

variable {goal : Goal} {text : List Char}

theorem accepts_iff_read :
    Rule.Accepts goal.rule text ↔ ∃ f, Grammar.readFrame goal text = .ok f := by
  cases goal with
  | term =>
    exact (Rule.accepts_term_iff.trans Grammar.exists_readTerm_iff.symm).trans exists_map_eq_ok
  | sequence =>
    exact (Rule.accepts_sequence_iff.trans Grammar.exists_readSequence_iff.symm).trans
      exists_map_eq_ok

/-- A text is accepted when its tokens lead from the first stage to one without open brackets. -/
theorem accepts_iff_run :
    Rule.Accepts goal.rule text ↔
      ∃ ts φ, Tokenised text ts ∧ Stage.start.run goal ts = some ⟨φ, []⟩ := by
  have hrooted := Reading.rooted_start goal
  rw [accepts_iff_read]
  constructor
  · rintro ⟨f, hf⟩
    obtain ⟨hrest, position, hrun⟩ := Grammar.readFrame_eq_ok.1 hf
    have hstage := Reading.stage_of_run hrooted hrun
    have hclosed := Reading.stage_eq_nil (Reading.rooted_of_run hrooted hrun) rfl
    exact ⟨_, _, tokenised_iff.2 ⟨hrest, rfl⟩, hstage.trans (congrArg some hclosed)⟩
  · rintro ⟨ts, φ, htext, hrun⟩
    obtain ⟨hrest, rfl⟩ := tokenised_iff.1 htext
    obtain ⟨⟨f, outer⟩, position, hread, hstage, hr⟩ :=
      Reading.exists_run_of_stage hrooted hrun (text.takeWhile Text.isBlank).length
    have houter : outer = [] := hr.enclosures_eq_nil_iff.1 (by rw [hstage])
    rw [houter] at hread
    exact ⟨f, Grammar.readFrame_eq_ok.2 ⟨hrest, position, hread⟩⟩

end Goal

end HornClauses
