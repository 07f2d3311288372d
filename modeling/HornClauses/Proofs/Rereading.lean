import HornClauses.Proofs.Layout
import HornClauses.Proofs.LongestToken
import HornClauses.Proofs.ReadingForm

/-!
# Reading the tokens of an expression

Every token of a well-formed expression fits where it stands, so reading the tokens gives the
expression back, up to the texts that record what was written between and around the tokens.

* `Reading.Leads`: all runs over certain tokens succeed with a reading of a certain kind.
* `Slot.leads`, `Expression.leads`: what reading the tokens of a slot and of an expression leads to.
* `Grammar.readTerm_of_tokenised`, `Grammar.readSequence_of_tokenised`: a text with the tokens of
  expressions is read as these.
-/

namespace HornClauses

namespace Reading

/-- However they are spaced, lexemes with these tokens are read, and what is read is as described. -/
def Leads (r : Reading) (ts : List Token) (P : Reading → Prop) : Prop :=
  ∀ goal position ls, ls.map Lexeme.token = ts →
    ∃ r' position', run goal r position ls = .ok (r', position') ∧ P r'

namespace Leads

variable {r : Reading} {ts us : List Token} {P Q : Reading → Prop}

theorem nil (h : P r) : r.Leads [] P := by
  intro goal position ls hls
  rw [List.map_eq_nil_iff.1 hls]
  exact ⟨r, position, rfl, h⟩

theorem append (h : r.Leads ts Q) (h' : ∀ r', Q r' → r'.Leads us P) : r.Leads (ts ++ us) P := by
  intro goal position ls hls
  obtain ⟨ls₁, ls₂, rfl, h₁, h₂⟩ := List.map_eq_append_iff.1 hls
  obtain ⟨r₁, position₁, hrun₁, hr₁⟩ := h goal position ls₁ h₁
  obtain ⟨r₂, position₂, hrun₂, hr₂⟩ := h' r₁ hr₁ goal position₁ ls₂ h₂
  refine ⟨r₂, position₂, ?_, hr₂⟩
  rw [run_append, hrun₁]
  exact hrun₂

theorem cons {t : Token}
    (h : ∀ l : Lexeme, l.token = t → ∃ r', r.Step l r' ∧ r'.Leads ts P) :
    r.Leads (t :: ts) P := by
  intro goal position ls hls
  obtain ⟨l, ls, rfl, hl, hls⟩ := List.map_eq_cons_iff.1 hls
  obtain ⟨r', hstep, hr'⟩ := h l hl
  obtain ⟨r'', position'', hrun, hP⟩ := hr' goal (position + l.length) ls hls
  refine ⟨r'', position'', ?_, hP⟩
  rw [run, step_eq_some.2 hstep]
  exact hrun

theorem mono (h : r.Leads ts Q) (hQ : ∀ r', Q r' → P r') : r.Leads ts P := by
  intro goal position ls hls
  obtain ⟨r', position', hrun, hr'⟩ := h goal position ls hls
  exact ⟨r', position', hrun, hQ r' hr'⟩

theorem one {t : Token} (h : ∀ l : Lexeme, l.token = t → ∃ r', r.Step l r' ∧ P r') :
    r.Leads [t] P :=
  cons fun l hl => (h l hl).imp fun _ hr' => ⟨hr'.1, nil hr'.2⟩

end Leads

end Reading

namespace Expression

theorem erase_eq_hole {slot : Slot} : slot.erase = .hole ↔ slot = .hole := by
  cases slot <;> simp [Slot.erase]

theorem isHole_iff {slot : Slot} : slot.isHole = true ↔ slot = .hole := by
  cases slot <;> simp [Slot.isHole]

theorem eraseLinks_eq_nil {links : List (Slot × Operator)} :
    eraseLinks links = [] ↔ links = [] := by
  cases links with
  | nil => simp [eraseLinks]
  | cons link links => simp [eraseLinks]

end Expression

open Reading Expression

/-- The slot takes the place of the hole at the end of the draft. -/
def Slot.Fills (slot : Slot) (r r' : Reading) : Prop :=
  ∃ d, r' = r.withDraft d ∧ d.links = r.frame.draft.links ∧ d.slot.erase = slot.erase

def Expression.Fills (e : Expression) (r r' : Reading) : Prop :=
  ∃ d, r' = r.withDraft d ∧ d.finish.erase = e.erase

/-- The expressions join the finished ones of the frame, the last of them as its draft. -/
def Expression.FillAll (es : List Expression) (r r' : Reading) : Prop :=
  ∃ f, r' = ⟨f, r.outer⟩ ∧ f.place = r.frame.place ∧
    eraseList f.expressions = eraseList (r.frame.finished ++ es)

/-- Nothing is read yet of the expression that comes next. -/
def Reading.IsFresh (r : Reading) : Prop := r.frame.draft.links = [] ∧ r.frame.draft.slot = .hole

namespace Reading

/-! ## Tokens and brackets in the place of an operand -/

theorem leads_operand {r : Reading} (hr : r.frame.draft.slot = .hole) {t : Token}
    {slot : Slot} (ht : t.operand? = some slot) : r.Leads [t] (slot.Fills r) := by
  refine Leads.one fun l hl => ?_
  refine ⟨r.withDraft { r.frame.draft.append l.token.text l.gap with slot },
    .operand (hl ▸ ht) ?_, _, rfl, rfl, rfl⟩
  rw [operand, hr]
  rfl

/-- An opening token, what stands between the brackets, and the closing token make an operand. -/
theorem leads_brackets {r : Reading} {opener closer : Token} {slot : Slot} (place : Place)
    (closes : Frame → Option Slot) (content : List Token)
    (hopen : ∀ l : Lexeme, l.token = opener → r.Step l (r.openBracket l place))
    (hclose : ∀ {l : Lexeme} {r' r'' : Reading}, l.token = closer →
      r'.closeBracket l (closes r'.frame) = some r'' → r'.Step l r'')
    (hcontent : ∀ outer, Leads ⟨.fresh place, outer⟩ content fun r' =>
      ∃ f s, r' = ⟨f, outer⟩ ∧ closes f = some s ∧ s.erase = slot.erase) :
    r.Leads (opener :: (content ++ [closer])) (slot.Fills r) := by
  refine Leads.cons fun l hl => ⟨_, hopen l hl, (hcontent _).append ?_⟩
  rintro _ ⟨f, s, rfl, hs, herase⟩
  refine Leads.one fun l' hl' => ?_
  have hput := congrArg (Reading.closeBracket ⟨f, (r.openBracket l place).outer⟩ l') hs
  exact ⟨_, hclose hl' hput, _, rfl, rfl, herase⟩

/-! ## Expressions between commas -/

theorem leads_list {es : List Expression} (hne : es ≠ [])
    (hes : ∀ e ∈ es, ∀ r : Reading, r.IsFresh → r.Leads e.tokens (e.Fills r)) {r : Reading}
    (hr : r.IsFresh) (hcomma : r.frame.allowsComma = true) :
    r.Leads (tokensOfList es) (FillAll es r) := by
  induction es generalizing r with
  | nil => exact absurd rfl hne
  | cons e es ih =>
    cases es with
    | nil =>
      rw [tokensOfList]
      apply (hes e (by simp) r hr).mono
      rintro _ ⟨d, rfl, hd⟩
      refine ⟨{ r.frame with draft := d }, rfl, rfl, ?_⟩
      rw [Frame.expressions, eraseList_append, eraseList_append, eraseList, hd]
      rfl
    | cons f es =>
      rw [tokensOfList]
      apply (hes e (by simp) r hr).append
      rintro _ ⟨d, rfl, hd⟩
      refine Leads.cons fun l hl => ?_
      let next : Reading := ⟨(r.withDraft d).frame.nextExpression l.gap, r.outer⟩
      have hstep : (r.withDraft d).Step l next := .comma hl hcomma
      have hread := ih (r := next) (by simp) (fun e' he' => hes e' (by simp [he'])) ⟨rfl, rfl⟩
        hcomma
      refine ⟨next, hstep, hread.mono ?_⟩
      rintro _ ⟨g, rfl, hplace, hg⟩
      refine ⟨g, rfl, hplace, ?_⟩
      rw [hg, eraseList_append, eraseList_append, eraseList]
      simp only [next, Frame.nextExpression, Frame.expressions, withDraft, eraseList_append,
        eraseList, hd, List.append_assoc, List.singleton_append]

/-! ## Links of a chain -/

theorem leads_links {links : List (Slot × Operator)}
    (hlinks : ∀ link ∈ links, ∀ r : Reading, r.frame.draft.slot = .hole →
      r.Leads link.1.tokens (link.1.Fills r)) {r : Reading} (hr : r.frame.draft.slot = .hole) :
    r.Leads (tokensOfLinks links) fun r' => ∃ d, r' = r.withDraft d ∧ d.slot = .hole ∧
      eraseLinks d.links = eraseLinks (r.frame.draft.links ++ links) := by
  induction links generalizing r with
  | nil => exact Leads.nil ⟨r.frame.draft, rfl, hr, by rw [List.append_nil]⟩
  | cons link links ih =>
    obtain ⟨slot, op⟩ := link
    rw [tokensOfLinks]
    apply (hlinks (slot, op) (by simp) r hr).append
    rintro _ ⟨d, rfl, hd, hslot⟩
    refine Leads.cons fun l hl => ?_
    refine ⟨_, .operator hl, (ih (fun link hlink => hlinks link (by simp [hlink])) rfl).mono ?_⟩
    rintro _ ⟨d', rfl, hhole, hd'⟩
    refine ⟨d', rfl, hhole, ?_⟩
    rw [hd', eraseLinks_append, eraseLinks_append]
    simp only [operator, withDraft, Draft.append, eraseLinks_append, eraseLinks, hd, hslot,
      List.append_assoc, List.singleton_append]

end Reading

/-! ## Slots and expressions -/

/-- Brackets around expressions that are written with tokens are no empty list. -/
theorem closeBracket?_of_fillAll {es : List Expression} (hne : tokensOfList es ≠ [])
    {r r' : Reading} (hr : r.frame.finished = []) (hplace : r.frame.place = .elements)
    (h : FillAll es r r') :
    ∃ s, r'.frame.closeBracket? = some s ∧ s.erase = (Slot.list es).erase := by
  obtain ⟨f, rfl, hf, hes⟩ := h
  rw [hr, List.nil_append] at hes
  refine ⟨.list f.expressions, ?_, by rw [Slot.erase, Slot.erase, hes]⟩
  have hfresh : (f.finished.isEmpty && f.draft.isFresh) = false := by
    by_contra hcon
    simp only [Bool.not_eq_false, Bool.and_eq_true, List.isEmpty_iff, Draft.isFresh,
      isHole_iff] at hcon
    obtain ⟨hfin, hlinks, hslot⟩ := hcon
    rw [Frame.expressions, hfin, List.nil_append, Draft.finish, hlinks, hslot] at hes
    rcases es with _ | ⟨⟨text, links, last⟩, _ | ⟨e, es⟩⟩
    · simp [eraseList] at hes
    · simp only [eraseList, erase, List.cons.injEq, and_true, Expression.chain.injEq,
        true_and] at hes
      have hl : links = [] := eraseLinks_eq_nil.1 hes.1.symm
      have hs : last = .hole := erase_eq_hole.1 hes.2.symm
      rw [hl, hs] at hne
      exact hne rfl
    · simp [eraseList] at hes
  rw [Frame.closeBracket?, hf, hplace]
  simp [hfresh]

theorem leads_compound {name : String} {args : List Expression} (hne : args ≠ [])
    (hargs : ∀ e ∈ args, ∀ r : Reading, r.IsFresh → r.Leads e.tokens (e.Fills r)) {r : Reading}
    (hr : r.frame.draft.slot = .hole) :
    r.Leads (Slot.compound name args).tokens ((Slot.compound name args).Fills r) := by
  rw [Slot.tokens, ← List.singleton_append]
  apply (leads_operand hr (t := .name name) rfl).append
  rintro _ ⟨d, rfl, hlinks, hslot⟩
  have hd : d.slot = .name name := by
    cases hs : d.slot <;> simp_all [Slot.erase]
  have hbrackets : (r.withDraft d).Leads (.openParen :: (tokensOfList args ++ [.closeParen]))
      ((Slot.compound name args).Fills (r.withDraft d)) := by
    refine leads_brackets (.args name) Frame.closeParen? _ (fun l hl => .args hl hd) .closeParen ?_
    intro outer
    apply (leads_list hne hargs ⟨rfl, rfl⟩ rfl).mono
    rintro _ ⟨f, rfl, hplace, hes⟩
    refine ⟨f, .compound name f.expressions, rfl, ?_, ?_⟩
    · rw [Frame.closeParen?, hplace]
      rfl
    · rw [Slot.erase, Slot.erase, hes]
      rfl
  apply hbrackets.mono
  rintro _ ⟨d', rfl, hlinks', hslot'⟩
  exact ⟨d', rfl, hlinks'.trans hlinks, hslot'⟩

theorem leads_tuple {components : List Expression} (hne : components ≠ [])
    (hes : ∀ e ∈ components, ∀ r : Reading, r.IsFresh → r.Leads e.tokens (e.Fills r)) {r : Reading}
    (hr : r.frame.draft.slot = .hole) :
    r.Leads (Slot.tuple components).tokens ((Slot.tuple components).Fills r) := by
  refine leads_brackets .tuple Frame.closeParen? _ (fun l hl => .tuple hl hr) .closeParen ?_
  intro outer
  apply (leads_list hne hes ⟨rfl, rfl⟩ rfl).mono
  rintro _ ⟨f, rfl, hplace, hes⟩
  refine ⟨f, .tuple f.expressions, rfl, ?_, ?_⟩
  · rw [Frame.closeParen?, hplace]
    rfl
  · rw [Slot.erase, Slot.erase, hes]
    rfl

theorem leads_nil {r : Reading} (hr : r.frame.draft.slot = .hole) :
    r.Leads (Slot.list []).tokens ((Slot.list []).Fills r) := by
  refine leads_brackets .elements Frame.closeBracket? []
    (fun l hl => .elements hl (isHole_iff.2 hr)) .closeBracket ?_
  intro outer
  exact Leads.nil ⟨_, .list [], rfl, rfl, rfl⟩

theorem leads_bracketList {elements : List Expression} (hne : tokensOfList elements ≠ [])
    (hes : ∀ e ∈ elements, ∀ r : Reading, r.IsFresh → r.Leads e.tokens (e.Fills r)) {r : Reading}
    (hr : r.frame.draft.slot = .hole) :
    r.Leads (Slot.list elements).tokens ((Slot.list elements).Fills r) := by
  refine leads_brackets .elements Frame.closeBracket? _
    (fun l hl => .elements hl (isHole_iff.2 hr)) .closeBracket ?_
  intro outer
  have hnil : elements ≠ [] := by
    rintro rfl
    exact hne rfl
  apply (leads_list hnil hes ⟨rfl, rfl⟩ rfl).mono
  intro r' hfill
  obtain ⟨s, hs, herase⟩ := closeBracket?_of_fillAll hne rfl rfl hfill
  obtain ⟨f, rfl, -⟩ := hfill
  exact ⟨f, s, rfl, hs, herase⟩

theorem leads_listWithTail {elements : List Expression} {tail : Expression} (hne : elements ≠ [])
    (hes : ∀ e ∈ elements, ∀ r : Reading, r.IsFresh → r.Leads e.tokens (e.Fills r))
    (htail : ∀ r : Reading, r.IsFresh → r.Leads tail.tokens (tail.Fills r)) {r : Reading}
    (hr : r.frame.draft.slot = .hole) :
    r.Leads (Slot.listWithTail elements tail).tokens
      ((Slot.listWithTail elements tail).Fills r) := by
  have htokens : (Slot.listWithTail elements tail).tokens =
      .openBracket :: ((tokensOfList elements ++ .bar :: tail.tokens) ++ [.closeBracket]) := by
    simp [Slot.tokens]
  rw [htokens]
  refine leads_brackets .elements Frame.closeBracket? _
    (fun l hl => .elements hl (isHole_iff.2 hr)) .closeBracket ?_
  intro outer
  apply (leads_list hne hes ⟨rfl, rfl⟩ rfl).append
  rintro _ ⟨f, rfl, hplace, hf⟩
  refine Leads.cons fun l hl => ?_
  let next : Reading :=
    ⟨{ Frame.fresh (.tail f.expressions) with before := f.text ++ "|" ++ l.gap }, outer⟩
  have hstep : (⟨f, outer⟩ : Reading).Step l next := .bar hl hplace
  refine ⟨next, hstep, (htail next ⟨rfl, rfl⟩).mono ?_⟩
  rintro _ ⟨d, rfl, hd⟩
  refine ⟨{ next.frame with draft := d }, .listWithTail f.expressions d.finish, rfl, rfl, ?_⟩
  rw [Slot.erase, Slot.erase, hd, hf]
  rfl

mutual

theorem Slot.leads (slot : Slot) (h : slot.WellFormed) (r : Reading)
    (hr : r.frame.draft.slot = .hole) : r.Leads slot.tokens (slot.Fills r) := by
  cases slot with
  | hole => exact Leads.nil ⟨r.frame.draft, rfl, rfl, by rw [hr]⟩
  | name text => exact leads_operand hr rfl
  | var text => exact leads_operand hr rfl
  | number text => exact leads_operand hr rfl
  | symbol text => exact leads_operand hr rfl
  | compound name args =>
    cases h with
    | compound hname hne hargs => exact leads_compound hne (Expression.leads_mem args hargs) hr
  | list elements =>
    cases h with
    | nil => exact leads_nil hr
    | list hne hes => exact leads_bracketList hne (Expression.leads_mem elements hes) hr
  | listWithTail elements tail =>
    cases h with
    | listWithTail hne hes htail =>
      exact leads_listWithTail hne (Expression.leads_mem elements hes)
        (Expression.leads tail htail) hr
  | tuple components =>
    cases h with
    | tuple hne hes => exact leads_tuple hne (Expression.leads_mem components hes) hr
termination_by structural slot

theorem Expression.leads (e : Expression) (h : e.WellFormed) (r : Reading)
    (hr : r.IsFresh) : r.Leads e.tokens (e.Fills r) := by
  obtain ⟨text, links, last⟩ := e
  cases h with
  | chain hlinks hlast =>
    rw [Expression.tokens]
    apply (leads_links (Expression.leads_slots links hlinks) hr.2).append
    rintro _ ⟨d, rfl, hhole, hd⟩
    apply (Slot.leads last hlast _ hhole).mono
    rintro _ ⟨d', rfl, hlinks', hslot⟩
    refine ⟨d', rfl, ?_⟩
    rw [hr.1, List.nil_append] at hd
    rw [Draft.finish, Expression.erase, Expression.erase, hslot, hlinks']
    exact congrArg (Expression.chain "" · _) hd
termination_by structural e

theorem Expression.leads_mem (es : List Expression) (h : ∀ e ∈ es, e.WellFormed) :
    ∀ e ∈ es, ∀ r : Reading, r.IsFresh → r.Leads e.tokens (e.Fills r) := by
  cases es with
  | nil => simp
  | cons e es =>
    rw [List.forall_mem_cons] at h ⊢
    exact ⟨Expression.leads e h.1, Expression.leads_mem es h.2⟩
termination_by structural es

theorem Expression.leads_slots (links : List (Slot × Operator))
    (h : ∀ link ∈ links, link.1.WellFormed) :
    ∀ link ∈ links, ∀ r : Reading, r.frame.draft.slot = .hole →
      r.Leads link.1.tokens (link.1.Fills r) := by
  cases links with
  | nil => simp
  | cons link links =>
    obtain ⟨slot, op⟩ := link
    rw [List.forall_mem_cons] at h ⊢
    exact ⟨Slot.leads slot h.1, Expression.leads_slots links h.2⟩
termination_by structural links

end

/-! ## Texts -/

theorem Layout.tokenised {s : List Char} {ts : List Token} (h : Layout s ts) : Tokenised s ts := by
  obtain ⟨ls, hscan, hls⟩ := h.scan_eq
  rw [tokenised_iff, h.dropWhile_isBlank, hscan]
  exact ⟨rfl, hls⟩

namespace Grammar

variable {s : List Char} {ts : List Token}

/-- A text is read if reading its tokens leads to an end of the outermost frame. -/
theorem readFrame_of_leads {goal : Goal} {P : Reading → Prop} (hs : Tokenised s ts)
    (h : (Reading.start goal).Leads ts P) (hP : ∀ r, P r → r.outer = []) :
    ∃ r, P r ∧ readFrame goal s = .ok r.frame := by
  obtain ⟨hrest, hts⟩ := tokenised_iff.1 hs
  obtain ⟨⟨f, outer⟩, position, hrun, hr⟩ := h goal (s.takeWhile Text.isBlank).length _ hts
  cases hP _ hr
  exact ⟨_, hr, readFrame_eq_ok.2 ⟨hrest, position, hrun⟩⟩

/-- A text with the tokens of an expression is read as that expression. -/
theorem readTerm_of_tokenised {e : Expression} (hs : Tokenised s e.tokens) (he : e.WellFormed) :
    ∃ e', readTerm s = .ok e' ∧ e'.erase = e.erase := by
  obtain ⟨_, ⟨d, rfl, hd⟩, hframe⟩ := readFrame_of_leads hs
    (Expression.leads e he (.start .term) ⟨rfl, rfl⟩) (by rintro _ ⟨d, rfl, -⟩; rfl)
  exact ⟨d.finish, by rw [readTerm, hframe]; rfl, hd⟩

theorem readSequence_of_tokenised {es : List Expression} (hs : Tokenised s (tokensOfList es))
    (hne : es ≠ []) (hes : ∀ e ∈ es, e.WellFormed) :
    ∃ es', readSequence s = .ok es' ∧ eraseList es' = eraseList es := by
  have hleads := leads_list hne (Expression.leads_mem es hes) (r := .start .sequence) ⟨rfl, rfl⟩ rfl
  obtain ⟨_, ⟨f, rfl, -, hf⟩, hframe⟩ := readFrame_of_leads hs hleads
    (by rintro _ ⟨f, rfl, -⟩; rfl)
  exact ⟨f.expressions, by rw [readSequence, hframe]; rfl, hf⟩

/-- A layout of the tokens of an expression is read as that expression. -/
theorem readTerm_of_layout {e : Expression} (hs : Layout s e.tokens) (he : e.WellFormed) :
    ∃ e', readTerm s = .ok e' ∧ e'.erase = e.erase :=
  readTerm_of_tokenised hs.tokenised he

end Grammar

end HornClauses
