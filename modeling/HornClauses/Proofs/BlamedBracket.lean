import HornClauses.Proofs.ClauseParts
import HornClauses.Proofs.ProgramComposition
import HornClauses.Proofs.ReaderFault

/-!
# The bracket that is blamed

A text is scanned as long as something that follows could still put its brackets in order. The
closer with which that ends is blamed. If no closer is wrong and brackets are left open at the end,
the outermost one is blamed: before it all brackets have their partners, and behind it no closer
belongs to it. A text is handed to the scan as it stands or as a part of a clause, so what is shown
of it with the offset is a part of what was to be read.

* `Bracket.Completable`: texts that can be continued to properly nested ones.
* `Bracket.Leaves`: the brackets that a text leaves open, and where they stand.
* `Bracket.Blames`: what a bracket that is blamed has to do with its text.
* `Bracket.blames_of_split`: the fault of a text is such a bracket.
* `Settings.read_pointsInto`: so it is wherever a text is read.
-/

namespace HornClauses

namespace Bracket

/-! ## Texts that can be completed -/

/-- Some continuation makes the text properly nested. -/
def Completable (s : List Char) : Prop := ∃ t, Nested (s ++ t)

/-- What can be completed could be completed before its end. -/
theorem Completable.of_append {s t : List Char} (h : Completable (s ++ t)) : Completable s := by
  obtain ⟨u, hu⟩ := h
  exact ⟨t ++ u, by rwa [← List.append_assoc]⟩

/-- There is something that closes any open brackets. -/
theorem exists_closes {opened : List Char} (h : ∀ o ∈ opened, isOpener o = true) :
    ∃ s, Closes opened s := by
  induction opened with
  | nil => exact ⟨[], .nested .nil⟩
  | cons o opened ih =>
    rw [List.forall_mem_cons] at h
    obtain ⟨s, hs⟩ := ih h.2
    have ho := h.1
    simp only [isOpener, Bool.or_eq_true, decide_eq_true_eq] at ho
    rcases ho with rfl | rfl
    · exact ⟨')' :: s, .closer .nil rfl hs⟩
    · exact ⟨']' :: s, .closer .nil rfl hs⟩

/-! ## What is left open -/

/-- A text leaves these brackets open, the innermost first, each with the number of bytes before it:
what stands between two of them, and at the ends, is nested. -/
inductive Leaves : List Char → Stack → Prop where
  | nested {s : List Char} : Nested s → Leaves s []
  | opener {s t : List Char} {o : Char} {stack : Stack} : Leaves s stack → isOpener o = true →
    Nested t → Leaves (s ++ o :: t) (((String.ofList s).utf8ByteSize, o) :: stack)

namespace Leaves

variable {s t : List Char} {stack opened : Stack} {offset : Nat} {c : Char}

theorem append_nested (h : Leaves s stack) (ht : Nested t) : Leaves (s ++ t) stack := by
  cases h with
  | nested hs => exact .nested (hs.append ht)
  | opener hs ho hrest =>
    rw [List.append_assoc, List.cons_append]
    exact .opener hs ho (hrest.append ht)

theorem isOpener_mem (h : Leaves s stack) : ∀ o ∈ stack.map Prod.snd, isOpener o = true := by
  induction h with
  | nested _ => simp
  | opener _ ho _ ih => exact List.forall_mem_cons.2 ⟨ho, ih⟩

/-- What closes the open brackets completes the text, and nothing else does. -/
theorem nested_append_iff (h : Leaves s stack) :
    Nested (s ++ t) ↔ Closes (stack.map Prod.snd) t := by
  induction h generalizing t with
  | nested hs => exact (Bracket.nested_append_iff hs).trans closes_nil_iff.symm
  | @opener s s' o stack _ ho hs' ih =>
    have hopen : step stack 0 o = .ok ((0, o) :: stack) := step_eq_ok.2 (Or.inl ⟨ho, rfl⟩)
    rw [List.append_assoc, ih, List.cons_append, closes_cons_iff hopen, List.map_cons,
      List.map_cons, closes_append_iff hs']

theorem completable (h : Leaves s stack) : Completable s := by
  obtain ⟨t, ht⟩ := exists_closes h.isOpener_mem
  exact ⟨t, h.nested_append_iff.2 ht⟩

/-- One more character, as the scan takes it. -/
theorem concat (h : Leaves s stack)
    (hstep : step stack (String.ofList s).utf8ByteSize c = .ok opened) :
    Leaves (s ++ [c]) opened := by
  rcases step_eq_ok.1 hstep with ⟨hc, rfl⟩ | ⟨⟨place, o⟩, hpair, rfl⟩ | ⟨hc, rfl⟩
  · exact .opener h hc .nil
  · cases h with
    | @opener s t _ _ hs _ ht =>
      have hclosed : Nested (o :: (t ++ [c])) := .pair hpair ht .nil
      rw [List.append_assoc, List.cons_append]
      exact hs.append_nested hclosed
  · exact h.append_nested (.other hc.1 hc.2 .nil)

/-- Behind the outermost open bracket only brackets inside it are open. -/
theorem exists_outermost (h : Leaves s stack) {place : Nat} {o : Char}
    (hlast : stack.getLast? = some (place, o)) :
    ∃ before after inner, s = before ++ o :: after ∧ Nested before ∧
      (String.ofList before).utf8ByteSize = place ∧ isOpener o = true ∧ Leaves after inner := by
  induction h with
  | nested _ => cases hlast
  | @opener s t o' stack hs ho ht ih =>
    cases stack with
    | nil =>
      cases hlast
      cases hs with
      | nested hs => exact ⟨s, t, [], rfl, hs, rfl, ho, .nested ht⟩
    | cons entry stack =>
      rw [List.getLast?_cons_cons] at hlast
      obtain ⟨before, after, inner, rfl, hbefore, hplace, ho', hafter⟩ := ih hlast
      exact ⟨before, after ++ o' :: t, _, by rw [List.append_assoc, List.cons_append], hbefore,
        hplace, ho', .opener hafter ho ht⟩

end Leaves

/-! ## The fault of a text -/

/-- The bracket at this place of a text is the culprit: it is a closer, and up to it everything can
be completed, but nothing with it can; or it is an opener that is never closed behind a nested text,
and no closer of the text is wrong. The place counts the bytes before the bracket. -/
inductive Blames (text : List Char) (offset : Nat) (bracket : Char) : Prop where
  | closer {before after : List Char} (split : text = before ++ bracket :: after)
      (place : (String.ofList before).utf8ByteSize = offset) (kind : isCloser bracket = true)
      (completable : Completable before) (wrong : ¬ Completable (before ++ [bracket])) :
      Blames text offset bracket
  | opener {before after : List Char} (split : text = before ++ bracket :: after)
      (place : (String.ofList before).utf8ByteSize = offset) (kind : isOpener bracket = true)
      (nested : Nested before)
      (unclosed : ∀ u c v, after = u ++ c :: v → Nested u → isPair bracket c = false)
      (closers : ∀ u c v, text = u ++ c :: v → isCloser c = true → Completable (u ++ [c])) :
      Blames text offset bracket

/-- A character is refused if it is a closer that nothing open belongs to. -/
theorem step_eq_error {stack : Stack} {offset : Nat} {c : Char} {fault : BracketFault}
    (h : step stack offset c = .error fault) :
    fault = ⟨offset, c⟩ ∧ isCloser c = true ∧ ∀ s, ¬ Closes (stack.map Prod.snd) (c :: s) := by
  have hrefused : ∀ s, ¬ Closes (stack.map Prod.snd) (c :: s) := by
    intro s hs
    obtain ⟨pieces, hpieces⟩ := (@exists_splitFrom_iff (fun _ => false) stack offset _).2 hs
    obtain ⟨opened, -, hstep, -⟩ := splitFrom_cons_eq_ok.1 hpieces
    rw [h] at hstep
    cases hstep
  unfold step at h
  split at h
  · cases h
  · split at h
    · rename_i hcloser
      have hfault : fault = ⟨offset, c⟩ := by
        split at h
        · cases h
          rfl
        · split at h
          · cases h
          · cases h
            rfl
      exact ⟨hfault, hcloser, hrefused⟩
    · cases h

theorem atEnd_eq_error {stack : Stack} {fault : BracketFault} :
    atEnd stack = .error fault ↔ stack.getLast? = some (fault.offset, fault.bracket) := by
  obtain ⟨offset, bracket⟩ := fault
  unfold atEnd
  split <;> simp_all

/-- Brackets that are left open at the end are no fault of a closer. -/
theorem Leaves.blames {s : List Char} {stack : Stack} (h : Leaves s stack) {place : Nat} {o : Char}
    (hlast : stack.getLast? = some (place, o)) : Blames s place o := by
  obtain ⟨before, after, inner, hs, hbefore, hplace, ho, hafter⟩ := h.exists_outermost hlast
  refine .opener hs hplace ho hbefore (fun u c v hu hnested => ?_) fun u c v hu _ => ?_
  · -- Behind a nested text the rest would begin with a closer, and then nothing completes it.
    obtain ⟨w, hw⟩ := hafter.completable
    rw [hu, List.append_assoc, Bracket.nested_append_iff hnested, List.cons_append] at hw
    by_contra hpair
    have hcloser := (kind_of_isPair (Bool.not_eq_false _ ▸ hpair)).2.2.2
    rw [hw.isCloser_head] at hcloser
    cases hcloser
  · have hcompletable := h.completable
    have hsplit : u ++ c :: v = (u ++ [c]) ++ v := by simp
    rw [hu, hsplit] at hcompletable
    exact hcompletable.of_append

/-- The scan goes on from what it has left open so far. -/
theorem blames_of_splitFrom {p : Char → Bool} {s rest : List Char} {stack : Stack}
    (h : Leaves s stack) {fault : BracketFault}
    (hfault : splitFrom p stack (String.ofList s).utf8ByteSize rest = .error fault) :
    Blames (s ++ rest) fault.offset fault.bracket := by
  induction rest generalizing s stack with
  | nil =>
    rw [splitFrom, map_eq_error, atEnd_eq_error] at hfault
    rw [List.append_nil]
    exact h.blames hfault
  | cons c rest ih =>
    rw [splitFrom] at hfault
    cases hstep : step stack (String.ofList s).utf8ByteSize c with
    | error fault' =>
      rw [hstep] at hfault
      cases hfault
      obtain ⟨rfl, hcloser, hrefused⟩ := step_eq_error hstep
      refine .closer rfl rfl hcloser h.completable ?_
      rintro ⟨t, ht⟩
      rw [List.append_assoc, h.nested_append_iff] at ht
      exact hrefused t ht
    | ok opened =>
      rw [hstep] at hfault
      have hbytes : (String.ofList (s ++ [c])).utf8ByteSize =
          (String.ofList s).utf8ByteSize + c.utf8Size := by
        simp
      have hrest := ih (h.concat hstep) (hbytes ▸ map_eq_error.1 hfault)
      rwa [List.append_assoc] at hrest

/-- The fault of a text that is not nested. -/
theorem blames_of_split {p : Char → Bool} {text : List Char} {fault : BracketFault}
    (h : split p text = .error fault) : Blames text fault.offset fault.bracket :=
  blames_of_splitFrom (s := []) (.nested .nil) h

end Bracket

/-! ## Where a text is read -/

/-- If the cause of an error is a bracket, what is shown with it is a part of the text, and there
the bracket is the culprit. -/
def ReadError.PointsInto (err : ReadError) (text : List Char) : Prop :=
  ∀ shown offset bracket, err.root = .unmatchedBracket shown offset bracket →
    shown.toList <:+: text ∧ Bracket.Blames shown.toList offset bracket

namespace ReadError.PointsInto

variable {err : ReadError} {s text : List Char}

theorem mono (h : err.PointsInto s) (hs : s <:+: text) : err.PointsInto text := by
  intro shown offset bracket hroot
  obtain ⟨hshown, hblames⟩ := h shown offset bracket hroot
  exact ⟨hshown.trans hs, hblames⟩

theorem ofBracketFault {p : Char → Bool} {fault : BracketFault}
    (h : Bracket.split p text = .error fault) :
    (ReadError.ofBracketFault text fault).PointsInto text := by
  rintro _ _ _ ⟨⟩
  rw [String.toList_ofList]
  exact ⟨List.infix_rfl, Bracket.blames_of_split h⟩

theorem malformedClause (shown : String) (defect : ClauseDefect) :
    (ReadError.malformedClause shown defect).PointsInto text := nofun

theorem refused (shown : String) (fault : SyntaxFault) :
    (ReadError.refused shown fault).PointsInto text := nofun

theorem firstFault {table : OperatorTable} {source : String} {nodes : List Expression}
    (h : FirstFault table source nodes err) : err.PointsInto text := by
  rcases h.eq_or with ⟨shown, op, rfl⟩ | ⟨shown, op, nested, rfl⟩ | ⟨shown, op?, rfl⟩ <;>
    exact nofun

theorem inClause (h : err.PointsInto text) (index line : Nat) :
    (ReadError.inClause index line err).PointsInto text := h

end ReadError.PointsInto

section Reading

variable {settings : Settings} {text : List Char} {err : ReadError}

theorem pointsInto_of_check {fault : BracketFault} (h : Bracket.check text = .error fault) :
    (ReadError.ofBracketFault text fault).PointsInto text :=
  .ofBracketFault ((Bracket.check_eq_error_iff (fun _ => false) text fault).1 h)

theorem CheckedFault.pointsInto {refuses : SyntaxFault → Prop}
    (h : CheckedFault text refuses err) : err.PointsInto text := by
  rcases h with ⟨fault, hfault, rfl⟩ | ⟨-, fault, -, rfl⟩
  · exact pointsInto_of_check hfault
  · exact .refused _ fault

theorem pointsInto_of_splitGoals (h : splitGoals text = .error err) : err.PointsInto text := by
  rw [splitGoals, mapError_eq_error] at h
  obtain ⟨fault, hfault, rfl⟩ := h
  exact .ofBracketFault (map_eq_error.1 hfault)

namespace Settings

theorem pointsInto_of_readTerm (h : settings.readTerm text = .error err) : err.PointsInto text := by
  rcases readTerm_eq_error.1 h with h | ⟨e, -, hfault⟩
  · exact (readExpression_eq_error.1 h).pointsInto
  · exact .firstFault hfault

theorem pointsInto_of_readTerms (h : settings.readTerms text = .error err) :
    err.PointsInto text := by
  obtain ⟨-, h | ⟨es, -, hfault⟩⟩ := readTerms_eq_error.1 h
  · exact (readExpressions_eq_error.1 h).pointsInto
  · exact .firstFault hfault

theorem pointsInto_of_readPredicate (h : settings.readPredicate text = .error err) :
    err.PointsInto text := by
  rcases readPredicate_eq_error h with ⟨defect, rfl⟩ | h
  · exact .malformedClause _ defect
  · exact (pointsInto_of_readTerm h).mono (infix_predicateCore text)

theorem pointsInto_of_readClause (h : settings.readClause text = .error err) :
    err.PointsInto text := by
  cases clauseFault_of_readClause h with
  | malformed defect heq => exact heq ▸ .malformedClause _ defect
  | headSplit h => exact (pointsInto_of_splitGoals h).mono (ClauseText.infix_head text)
  | head _ h => exact (pointsInto_of_readPredicate h).mono (ClauseText.infix_head text)
  | bodySplit hbody h => exact (pointsInto_of_splitGoals h).mono (ClauseText.infix_body hbody)
  | goal hbody hgoals hmem h =>
    exact (pointsInto_of_readPredicate h).mono
      ((infix_goal hgoals hmem).trans (ClauseText.infix_body hbody))

theorem pointsInto_of_readSegment {index : Nat} {s : Segment}
    (h : settings.readSegment index s = .error err) : err.PointsInto s.text := by
  rw [readSegment, mapError_eq_error] at h
  obtain ⟨cause, hcause, rfl⟩ := h
  exact (pointsInto_of_readClause hcause).inClause index s.line

/-- Whatever is read, a bracket that is reported is the culprit in a part of the text: the text of a
term, of terms, of a predicate or of a clause, and in a program the text of the clause that is not
read. -/
theorem read_pointsInto (settings : Settings) (text : List Char) :
    (∀ err, settings.readTerm text = .error err → err.PointsInto text) ∧
    (∀ err, settings.readTerms text = .error err → err.PointsInto text) ∧
    (∀ err, settings.readPredicate text = .error err → err.PointsInto text) ∧
    (∀ err, settings.readClause text = .error err → err.PointsInto text) ∧
    (∀ (i : Nat) (err : ReadError), (settings.readClauses text)[i]? = some (.error err) →
      ∃ s : Segment, (segments text)[i]? = some s ∧ err.PointsInto s.text) ∧
    ∀ err, settings.readProgram text = .error err → ∃ (i : Nat) (s : Segment),
      (segments text)[i]? = some s ∧
      (settings.readClauses text)[i]? = some (.error err) ∧ err.PointsInto s.text := by
  refine ⟨fun err => pointsInto_of_readTerm, fun err => pointsInto_of_readTerms,
    fun err => pointsInto_of_readPredicate, fun err => pointsInto_of_readClause,
    fun i err h => ?_, fun err h => ?_⟩
  · obtain ⟨s, hs, hread⟩ := getElem?_readClauses.1 h
    exact ⟨s, hs, pointsInto_of_readSegment hread⟩
  · obtain ⟨before, after, hresults, -⟩ := readProgram_eq_error.1 h
    have hplace : (settings.readClauses text)[before.length]? = some (.error err) := by
      rw [hresults, List.getElem?_append_right (Nat.le_refl _), Nat.sub_self,
        List.getElem?_cons_zero]
    obtain ⟨s, hs, hread⟩ := getElem?_readClauses.1 hplace
    exact ⟨before.length, s, hs, hplace, pointsInto_of_readSegment hread⟩

/-- Letters of two bytes: the body of the second clause of a program is blamed for a closer of the
wrong kind, and the head of a clause for the outer one of two openers. -/
theorem read_pointsInto_secondClause :
    Settings.standard.readProgram "p. % (\nq(é) :- r(é, [s), t.".toList =
        .error (.inClause 1 2 (.unmatchedBracket " r(é, [s), t" 9 ')')) ∧
      " r(é, [s), t".toList <:+: "q(é) :- r(é, [s), t.".toList ∧
      Bracket.Blames " r(é, [s), t".toList 9 ')' ∧
      Settings.standard.readClause "é((x) :- y.".toList =
        .error (.unmatchedBracket "é((x)" 2 '(') ∧
      Bracket.Blames "é((x)".toList 2 '(' := by
  have hprogram : Settings.standard.readProgram "p. % (\nq(é) :- r(é, [s), t.".toList =
      .error (.inClause 1 2 (.unmatchedBracket " r(é, [s), t" 9 ')')) := by decide +kernel
  have hclause : Settings.standard.readClause "é((x) :- y.".toList =
      .error (.unmatchedBracket "é((x)" 2 '(') := by decide +kernel
  have hresult : (Settings.standard.readClauses "p. % (\nq(é) :- r(é, [s), t.".toList)[1]? =
      some (.error (.inClause 1 2 (.unmatchedBracket " r(é, [s), t" 9 ')'))) := by decide +kernel
  have hsegment : (segments "p. % (\nq(é) :- r(é, [s), t.".toList)[1]? =
      some ⟨2, "q(é) :- r(é, [s), t.".toList⟩ := by decide +kernel
  obtain ⟨-, -, -, -, hclauses, -⟩ :=
    read_pointsInto .standard "p. % (\nq(é) :- r(é, [s), t.".toList
  obtain ⟨-, -, -, hone, -⟩ := read_pointsInto .standard "é((x) :- y.".toList
  obtain ⟨s, hs, hinto⟩ := hclauses _ _ hresult
  rw [hsegment] at hs
  cases hs
  obtain ⟨hpart, hblames⟩ := hinto _ _ _ rfl
  exact ⟨hprogram, hpart, hblames, hclause, (hone _ hclause _ _ _ rfl).2⟩

end Settings

end Reading

end HornClauses
