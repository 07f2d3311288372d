import HornClauses.Proofs.BracketNesting
import HornClauses.Proofs.LongestToken

/-!
# The tokens of a reading

Each frame of a reading stands for the tokens that were read into it, its own opening tokens first.
A token that fits adds itself to the tokens of all frames, so an expression that is read is written
with the tokens of its text. A bracket that closes puts an operand into the hole of the frame around
it; that the slot there is a hole, and that a frame which takes a single expression holds no others,
is what the invariant says.

* `Reading.tokens`: the tokens of a reading.
* `Reading.tokens_of_step`, `Reading.tokens_of_run`: tokens that fit are added to it.
* `Grammar.tokenised_of_readTerm`, `Grammar.tokenised_of_readSequence`: an expression that is read
  is written with the tokens of its text.
-/

namespace HornClauses

open Expression

/-- The tokens that open a bracket, and for the tail of a list all tokens before the tail. -/
def Place.tokens : Place → List Token
  | .top _ => []
  | .args name => [.name name, .openParen]
  | .tuple => [.openParen]
  | .elements => [.openBracket]
  | .tail es => .openBracket :: (tokensOfList es ++ [.bar])

theorem Expression.tokensOfList_concat (es : List Expression) (e : Expression) :
    tokensOfList (es ++ [e]) = (es.flatMap fun f => f.tokens ++ [.comma]) ++ e.tokens := by
  induction es with
  | nil => rfl
  | cons f es ih =>
    rw [List.cons_append, tokensOfList_cons (by simp), ih, List.flatMap_cons]
    simp

theorem Expression.tokensOfLinks_concat (links : List (Slot × Operator)) (slot : Slot)
    (op : Operator) :
    tokensOfLinks (links ++ [(slot, op)]) =
      tokensOfLinks links ++ slot.tokens ++ [.operator op] := by
  induction links with
  | nil => rfl
  | cons link links ih =>
    obtain ⟨first, op'⟩ := link
    rw [List.cons_append, tokensOfLinks, ih, tokensOfLinks]
    simp

theorem Token.tokens_of_operand? {t : Token} {slot : Slot} (h : t.operand? = some slot) :
    slot.tokens = [t] := by
  cases t <;> cases h <;> rfl

namespace Frame

variable {f : Frame}

/-- The tokens before the slot that is read. -/
def lead (f : Frame) : List Token :=
  f.place.tokens ++ (f.finished.flatMap fun e => e.tokens ++ [.comma]) ++
    tokensOfLinks f.draft.links

def tokens (f : Frame) : List Token := f.lead ++ f.draft.slot.tokens

theorem tokens_eq (f : Frame) : f.tokens = f.place.tokens ++ tokensOfList f.expressions := by
  rw [tokens, lead, expressions, tokensOfList_concat, Draft.finish, Expression.tokens]
  simp

theorem tokens_fresh (place : Place) : (fresh place).tokens = place.tokens := by
  simp [tokens, lead, fresh, Draft.fresh, tokensOfLinks, Slot.tokens]

theorem tokens_of_closeParen? {slot : Slot} (h : f.closeParen? = some slot) :
    slot.tokens = f.tokens ++ [.closeParen] := by
  rw [tokens_eq]
  unfold closeParen? at h
  split at h
  · rename_i hplace
    cases h
    rw [hplace, Slot.tokens, Place.tokens]
    simp
  · rename_i hplace
    cases h
    rw [hplace, Slot.tokens, Place.tokens]
    simp
  · cases h

/-- A frame that takes a single expression holds no finished ones. -/
def Single (f : Frame) : Prop := f.allowsComma = false → f.finished = []

theorem tokens_of_closeBracket? (hf : f.Single) {slot : Slot} (h : f.closeBracket? = some slot) :
    slot.tokens = f.tokens ++ [.closeBracket] := by
  rw [tokens_eq]
  unfold closeBracket? at h
  split at h
  · rename_i hplace
    rw [hplace, Place.tokens]
    split at h
    · rename_i hfresh
      cases h
      simp only [Bool.and_eq_true, List.isEmpty_iff, Draft.isFresh] at hfresh
      obtain ⟨hfinished, hlinks, hslot⟩ := hfresh
      have hhole : f.draft.slot = .hole := by
        cases hs : f.draft.slot <;> simp_all [Slot.isHole]
      rw [expressions, hfinished, Draft.finish, hlinks, hhole]
      rfl
    · cases h
      rw [Slot.tokens]
      simp
  · rename_i elements hplace
    cases h
    have hfinished : f.finished = [] := hf (by rw [allowsComma, hplace])
    rw [expressions, hfinished, List.nil_append, tokensOfList, hplace, Place.tokens, Slot.tokens]
    simp
  · cases h

end Frame

namespace Reading

variable {r r' : Reading} {l : Lexeme}

def tokensAround : List Frame → List Token
  | [] => []
  | f :: outer => tokensAround outer ++ f.tokens

/-- The tokens of all frames, the outermost first. -/
def tokens (r : Reading) : List Token := tokensAround r.outer ++ r.frame.tokens

structure Aligned (r : Reading) : Prop where
  frame : r.frame.Single
  outer : ∀ f ∈ r.outer, f.Single ∧ f.draft.slot = .hole

theorem aligned_start (goal : Goal) : (start goal).Aligned := ⟨fun _ => rfl, by simp [start]⟩

/-! ## One token -/

theorem Aligned.operand (hr : r.Aligned) {slot : Slot} (h : r.operand l slot = some r') :
    r'.Aligned := by
  unfold Reading.operand at h
  split at h
  · cases h
    exact ⟨hr.frame, hr.outer⟩
  · cases h

theorem Aligned.openBracket (hr : r.Aligned) (place : Place) :
    (r.openBracket l place).Aligned :=
  ⟨fun _ => rfl, List.forall_mem_cons.2 ⟨⟨hr.frame, rfl⟩, hr.outer⟩⟩

theorem Aligned.closeBracket (hr : r.Aligned) {slot? : Option Slot}
    (h : r.closeBracket l slot? = some r') : r'.Aligned := by
  unfold Reading.closeBracket at h
  split at h
  · rename_i slot f outer houter
    cases h
    have hframes := hr.outer
    rw [houter, List.forall_mem_cons] at hframes
    exact ⟨hframes.1.1, hframes.2⟩
  · cases h

theorem aligned_of_step (hr : r.Aligned) (h : r.step l = some r') : r'.Aligned := by
  cases step_eq_some.1 h with
  | operand _ hput => exact hr.operand hput
  | operator _ => exact ⟨hr.frame, hr.outer⟩
  | tuple _ _ => exact hr.openBracket .tuple
  | @args name _ _ => exact hr.openBracket (.args name)
  | elements _ _ => exact hr.openBracket .elements
  | closeParen _ hclose => exact hr.closeBracket hclose
  | closeBracket _ hclose => exact hr.closeBracket hclose
  | comma _ hcomma =>
    refine ⟨fun hsingle => ?_, hr.outer⟩
    exact absurd (hcomma.symm.trans hsingle) Bool.noConfusion
  | bar _ _ => exact ⟨fun _ => rfl, hr.outer⟩

theorem tokens_operand {slot : Slot} (hslot : slot.tokens = [l.token])
    (h : r.operand l slot = some r') : r'.tokens = r.tokens ++ [l.token] := by
  unfold operand at h
  split at h
  · rename_i hhole
    cases h
    have hempty : r.frame.draft.slot.tokens = [] := by
      cases hs : r.frame.draft.slot <;> simp_all [Slot.isHole, Slot.tokens]
    have hlead : (r.withDraft { r.frame.draft.append l.token.text l.gap with slot }).frame.lead =
        r.frame.lead := rfl
    rw [tokens, tokens, Frame.tokens, Frame.tokens, hlead, hempty, List.append_nil,
      ← List.append_assoc]
    exact congrArg (_ ++ ·) hslot
  · cases h

theorem tokens_openBracket {place : Place}
    (hplace : place.tokens = r.frame.draft.slot.tokens ++ [l.token]) :
    (r.openBracket l place).tokens = r.tokens ++ [l.token] := by
  have haround : tokensAround (r.openBracket l place).outer =
      tokensAround r.outer ++ (r.frame.lead ++ []) := rfl
  have hframe : (r.openBracket l place).frame.tokens = place.tokens := Frame.tokens_fresh place
  rw [tokens, haround, hframe, hplace, tokens, Frame.tokens]
  simp

theorem tokens_closeBracket (hr : r.Aligned) {slot? : Option Slot}
    (hslot : ∀ slot, slot? = some slot → slot.tokens = r.frame.tokens ++ [l.token])
    (h : r.closeBracket l slot? = some r') : r'.tokens = r.tokens ++ [l.token] := by
  unfold closeBracket at h
  split at h
  · rename_i slot f outer houter
    cases h
    have hhole : f.draft.slot = .hole := (hr.outer f (by simp [houter])).2
    have hf : f.tokens = f.lead := by
      rw [Frame.tokens, hhole, Slot.tokens, List.append_nil]
    change tokensAround outer ++ (f.lead ++ slot.tokens) = _
    rw [hslot slot rfl, tokens, houter, tokensAround, hf]
    simp
  · cases h

/-- A token that fits is the next token of the reading. -/
theorem tokens_of_step (hr : r.Aligned) (h : r.step l = some r') :
    r'.tokens = r.tokens ++ [l.token] := by
  cases step_eq_some.1 h with
  | operand hslot hput => exact tokens_operand (Token.tokens_of_operand? hslot) hput
  | @operator op ht =>
    have hlead : (r.operator l op).frame.tokens = r.frame.tokens ++ [.operator op] := by
      change r.frame.place.tokens ++ (r.frame.finished.flatMap _) ++
        tokensOfLinks (r.frame.draft.links ++ [(r.frame.draft.slot, op)]) ++ [] = _
      rw [tokensOfLinks_concat, Frame.tokens, Frame.lead]
      simp
    rw [ht, tokens, hlead, tokens, List.append_assoc]
    rfl
  | tuple ht hslot => exact tokens_openBracket (by rw [hslot, ht]; rfl)
  | args ht hslot => exact tokens_openBracket (by rw [hslot, ht]; rfl)
  | elements ht hhole =>
    refine tokens_openBracket ?_
    cases hs : r.frame.draft.slot <;> simp_all [Slot.isHole, Slot.tokens, Place.tokens]
  | closeParen ht hclose =>
    refine tokens_closeBracket hr (fun slot hslot => ?_) hclose
    rw [ht]
    exact Frame.tokens_of_closeParen? hslot
  | closeBracket ht hclose =>
    refine tokens_closeBracket hr (fun slot hslot => ?_) hclose
    rw [ht]
    exact Frame.tokens_of_closeBracket? hr.frame hslot
  | comma ht _ =>
    have hframe : (r.frame.nextExpression l.gap).tokens = r.frame.tokens ++ [.comma] := by
      rw [Frame.tokens_eq, Frame.tokens_eq, List.append_assoc]
      exact congrArg (_ ++ ·) (tokensOfList_append r.frame.expressions_ne_nil (by simp))
    rw [ht, tokens, tokens, List.append_assoc]
    exact congrArg (_ ++ ·) hframe
  | bar ht hplace =>
    rw [ht, tokens, tokens, Frame.tokens_eq r.frame, hplace]
    simp [Frame.tokens, Frame.lead, Frame.fresh, Draft.fresh, Place.tokens, tokensOfLinks,
      Slot.tokens]

/-! ## All tokens -/

/-- Tokens that are read are the next tokens of the reading. -/
theorem tokens_of_run {goal : Goal} {ls : List Lexeme} {position position' : Nat}
    (hr : r.Aligned) (h : run goal r position ls = .ok (r', position')) :
    r'.Aligned ∧ r'.tokens = r.tokens ++ ls.map Lexeme.token := by
  induction ls generalizing r position with
  | nil =>
    cases h
    exact ⟨hr, by simp⟩
  | cons l ls ih =>
    rw [run] at h
    split at h
    · cases h
    · rename_i r₁ hstep
      obtain ⟨hr', htokens⟩ := ih (aligned_of_step hr hstep) h
      refine ⟨hr', ?_⟩
      rw [htokens, tokens_of_step hr hstep, List.map_cons, List.append_assoc]
      rfl

theorem rooted_of_run {goal goal' : Goal} {ls : List Lexeme} {position position' : Nat}
    (hr : r.Rooted goal') (h : run goal r position ls = .ok (r', position')) :
    r'.Rooted goal' := by
  induction ls generalizing r position with
  | nil =>
    cases h
    exact hr
  | cons l ls ih =>
    rw [run] at h
    split at h
    · cases h
    · rename_i r₁ hstep
      exact ih ((shift_of_step hstep).rooted hr) h

end Reading

/-! ## Texts -/

namespace Grammar

variable {text : List Char}

theorem tokenised_of_readFrame {goal : Goal} {f : Frame} (h : readFrame goal text = .ok f) :
    f.Single ∧ f.place = .top goal ∧ Tokenised text f.tokens := by
  obtain ⟨hrest, position, hrun⟩ := readFrame_eq_ok.1 h
  obtain ⟨haligned, htokens⟩ := Reading.tokens_of_run (Reading.aligned_start goal) hrun
  have hrooted := Reading.rooted_of_run (Reading.rooted_start goal) hrun
  refine ⟨haligned.frame, hrooted.place_eq (hrooted.openers_eq_nil rfl), ?_⟩
  exact tokenised_iff.2 ⟨hrest, htokens.symm⟩

/-- An expression that is read is written with the tokens of its text. -/
theorem tokenised_of_readTerm {e : Expression} (h : readTerm text = .ok e) :
    Tokenised text e.tokens := by
  obtain ⟨f, hf, rfl⟩ := map_eq_ok.1 h
  obtain ⟨hsingle, hplace, htext⟩ := tokenised_of_readFrame hf
  have hfinished : f.finished = [] := hsingle (by rw [Frame.allowsComma, hplace])
  rwa [Frame.tokens_eq, hplace, Frame.expressions, hfinished] at htext

theorem tokenised_of_readSequence {es : List Expression} (h : readSequence text = .ok es) :
    Tokenised text (tokensOfList es) := by
  obtain ⟨f, hf, rfl⟩ := map_eq_ok.1 h
  obtain ⟨-, hplace, htext⟩ := tokenised_of_readFrame hf
  rwa [Frame.tokens_eq, hplace] at htext

end Grammar

end HornClauses
