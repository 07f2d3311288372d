import HornClauses.Proofs.ReaderOutcome
import HornClauses.Proofs.Segmentation

/-!
# Programs made of two parts

Clauses are read one by one, and of the others a clause knows only how many there are before it and
on which line it begins, which is what an error tells. So a program below another is read as it is
by itself, with the errors in another place.

* `ReadError.relocate`: an error of a clause in another place of a program.
* `Settings.readSegmentsFrom_append`, `Settings.readSegmentsFrom_renumber`: reading clause texts
  part by part, and in another place.
* `Settings.readProgram_eq_error`: a program fails with the first clause that is not read.
* `Settings.readClauses_lineFeed`: reading two programs, one below the other.
-/

namespace HornClauses

/-- An error with its clause behind some others, and the line on which the clause begins numbered
anew. -/
def ReadError.relocate (clauses : Nat) (line : Nat → Nat) : ReadError → ReadError
  | inClause index number cause => inClause (index + clauses) (line number) cause
  | error => error

namespace Settings

variable {settings : Settings}

/-! ## Clause texts in parts -/

theorem length_readSegmentsFrom (settings : Settings) (index : Nat) (ss : List Segment) :
    (settings.readSegmentsFrom index ss).length = ss.length := by
  induction ss generalizing index with
  | nil => rfl
  | cons s ss ih => rw [readSegmentsFrom, List.length_cons, ih, List.length_cons]

theorem readSegmentsFrom_append (index : Nat) (ss ss' : List Segment) :
    settings.readSegmentsFrom index (ss ++ ss') =
      settings.readSegmentsFrom index ss ++ settings.readSegmentsFrom (index + ss.length) ss' := by
  induction ss generalizing index with
  | nil => rfl
  | cons s ss ih =>
    have hindex : index + (s :: ss).length = index + 1 + ss.length := by
      rw [List.length_cons]
      omega
    rw [List.cons_append, readSegmentsFrom, readSegmentsFrom, ih (index + 1), hindex,
      List.cons_append]

theorem readSegmentsFrom_renumber (index clauses : Nat) (line : Nat → Nat) (ss : List Segment) :
    settings.readSegmentsFrom (index + clauses) (ss.map (Segment.renumber line)) =
      (settings.readSegmentsFrom index ss).map (Except.mapError (.relocate clauses line)) := by
  induction ss generalizing index with
  | nil => rfl
  | cons s ss ih =>
    have hindex : index + clauses + 1 = index + 1 + clauses := by omega
    have hfirst : settings.readSegment (index + clauses) (s.renumber line) =
        (settings.readSegment index s).mapError (.relocate clauses line) := by
      rw [readSegment, readSegment, Segment.text_renumber]
      cases settings.readClause s.text <;> rfl
    rw [List.map_cons, readSegmentsFrom, readSegmentsFrom, hfirst, hindex, ih (index + 1),
      List.map_cons]

theorem readClauses_eq_renumber {a b : List Char} {line : Nat → Nat}
    (h : segments a = (segments b).map (Segment.renumber line)) :
    settings.readClauses a =
      (settings.readClauses b).map (Except.mapError (.relocate 0 line)) := by
  rw [readClauses, h, readClauses, ← readSegmentsFrom_renumber]

theorem getElem?_readSegmentsFrom (settings : Settings) (index i : Nat) (ss : List Segment) :
    (settings.readSegmentsFrom index ss)[i]? = ss[i]?.map (settings.readSegment (index + i)) := by
  induction ss generalizing index i with
  | nil => simp [readSegmentsFrom]
  | cons s ss ih =>
    cases i with
    | zero => rfl
    | succ i =>
      rw [readSegmentsFrom, List.getElem?_cons_succ, List.getElem?_cons_succ, ih,
        Nat.add_right_comm, Nat.add_assoc]

/-- What a program is read into at some place is read of the clause text there. -/
theorem getElem?_readClauses {source : List Char} {i : Nat} {r : Except ReadError Clause} :
    (settings.readClauses source)[i]? = some r ↔
      ∃ s, (segments source)[i]? = some s ∧ settings.readSegment i s = r := by
  rw [readClauses, getElem?_readSegmentsFrom, Nat.zero_add, Option.map_eq_some_iff]

/-! ## The first error -/

/-- The results before the first error, and that error. -/
def FirstError (results : List (Except ReadError Clause)) (e : ReadError) : Prop :=
  ∃ before after, results = before ++ .error e :: after ∧ ∀ r ∈ before, ∃ c, r = .ok c

theorem firstError_cons_ok {results : List (Except ReadError Clause)} {c : Clause} {e : ReadError} :
    FirstError (.ok c :: results) e ↔ FirstError results e := by
  constructor
  · rintro ⟨before, after, heq, hbefore⟩
    cases before with
    | nil => cases heq
    | cons r before =>
      rw [List.cons_append, List.cons.injEq] at heq
      exact ⟨before, after, heq.2, (List.forall_mem_cons.1 hbefore).2⟩
  · rintro ⟨before, after, heq, hbefore⟩
    exact ⟨.ok c :: before, after, by rw [heq, List.cons_append],
      List.forall_mem_cons.2 ⟨⟨c, rfl⟩, hbefore⟩⟩

theorem firstError_cons_error {results : List (Except ReadError Clause)} {e e' : ReadError} :
    FirstError (.error e :: results) e' ↔ e = e' := by
  constructor
  · rintro ⟨before, after, heq, hbefore⟩
    cases before with
    | nil =>
      cases heq
      rfl
    | cons r before =>
      rw [List.cons_append, List.cons.injEq] at heq
      obtain ⟨c, hc⟩ := hbefore r List.mem_cons_self
      rw [hc] at heq
      cases heq.1
  · rintro rfl
    exact ⟨[], results, rfl, by simp⟩

/-- The first error is the one that has nothing but clauses before it. -/
theorem firstError_iff_getElem? {results : List (Except ReadError Clause)} {e : ReadError} :
    FirstError results e ↔ ∃ i : Nat, results[i]? = some (.error e) ∧
      ∀ j < i, ∃ c, results[j]? = some (.ok c) := by
  induction results with
  | nil =>
    constructor
    · rintro ⟨before, after, heq, -⟩
      simp at heq
    · rintro ⟨i, hi, -⟩
      simp at hi
  | cons r results ih =>
    cases r with
    | error e' =>
      rw [firstError_cons_error]
      constructor
      · rintro rfl
        exact ⟨0, rfl, by simp⟩
      · rintro ⟨i, hi, hbefore⟩
        cases i with
        | zero => simpa using hi
        | succ i =>
          obtain ⟨c, hc⟩ := hbefore 0 (Nat.succ_pos i)
          simp at hc
    | ok c =>
      rw [firstError_cons_ok, ih]
      constructor
      · rintro ⟨i, hi, hbefore⟩
        refine ⟨i + 1, hi, fun j hj => ?_⟩
        cases j with
        | zero => exact ⟨c, rfl⟩
        | succ j => exact hbefore j (by omega)
      · rintro ⟨i, hi, hbefore⟩
        cases i with
        | zero => simp at hi
        | succ i => exact ⟨i, hi, fun j hj => hbefore (j + 1) (by omega)⟩

theorem mapM_id_eq_error {results : List (Except ReadError Clause)} {e : ReadError} :
    results.mapM id = .error e ↔ FirstError results e := by
  induction results with
  | nil =>
    constructor
    · intro h
      cases h
    · rintro ⟨before, after, heq, -⟩
      simp at heq
  | cons r results ih =>
    rw [List.mapM_cons, bind_eq_error]
    cases r with
    | error e' => simp [firstError_cons_error]
    | ok c =>
      rw [firstError_cons_ok, ← ih]
      constructor
      · rintro (h | ⟨c', -, h⟩)
        · cases h
        · exact (bind_eq_error.1 h).resolve_right fun ⟨_, _, h⟩ => pure_ne_error h
      · intro h
        exact Or.inr ⟨c, rfl, bind_eq_error.2 (Or.inl h)⟩

/-- The error of a program is that of its first clause that is not read. -/
theorem readProgram_eq_error {source : List Char} {e : ReadError} :
    settings.readProgram source = .error e ↔ FirstError (settings.readClauses source) e :=
  mapM_id_eq_error

/-! ## Two programs -/

/-- A program that leaves no clause begun is read before the one below it as it is by itself, and
the other one is read in its place. -/
theorem readClauses_lineFeed {a : List Char} (h : Segment.Closed (segments a)) (b : List Char) :
    settings.readClauses (a ++ '\n' :: b) =
        settings.readClauses a ++ (settings.readClauses b).map
          (Except.mapError (.relocate (segments a).length (· + (a.count '\n' + 1)))) ∧
      (∀ x y : List Clause, x.length = (segments a).length →
        (settings.readProgram (a ++ '\n' :: b) = .ok (x ++ y) ↔
          settings.readProgram a = .ok x ∧ settings.readProgram b = .ok y)) ∧
      ∀ e, settings.readProgram (a ++ '\n' :: b) = .error e ↔
        FirstError (settings.readClauses (a ++ '\n' :: b)) e := by
  have hclauses : settings.readClauses (a ++ '\n' :: b) =
      settings.readClauses a ++ settings.readSegmentsFrom (0 + (segments a).length)
        ((segments b).map (Segment.renumber (· + (a.count '\n' + 1)))) := by
    rw [readClauses, segments_lineFeed h, readSegmentsFrom_append]
    rfl
  have hbelow : ∀ y : List Clause, (settings.readSegmentsFrom (0 + (segments a).length)
      ((segments b).map (Segment.renumber (· + (a.count '\n' + 1))))).mapM id = .ok y ↔
        settings.readProgram b = .ok y := by
    intro y
    rw [mapM_readSegmentsFrom, readProgram_eq_ok, List.forall₂_map_left_iff]
    rfl
  refine ⟨by rw [hclauses, readSegmentsFrom_renumber]; rfl, fun x y hx => ?_,
    fun e => readProgram_eq_error⟩
  rw [readProgram, hclauses, List.mapM_append]
  simp only [bind_eq_ok, pure_eq_ok, hbelow]
  constructor
  · rintro ⟨x', hx', y', hy', heq⟩
    have hlength := (readProgram_eq_ok.1 hx').length_eq
    obtain ⟨rfl, rfl⟩ := List.append_inj heq (hlength.symm.trans hx.symm)
    exact ⟨hx', hy'⟩
  · rintro ⟨hx', hy'⟩
    exact ⟨x, hx', y, hy', rfl⟩

/-- A clause on two lines, above a program whose second clause is not read. -/
theorem readProgram_twoParts :
    Segment.Closed (segments "p(X) :-\n  q(X). % facts below".toList) ∧
      Settings.standard.readProgram
          ("p(X) :-\n  q(X). % facts below".toList ++ '\n' :: "q(a).\n\nq(.".toList) =
        .error (.inClause 2 5 (.unmatchedBracket "q(" 1 '(')) := by
  have hclosed : Segment.Closed (segments "p(X) :-\n  q(X). % facts below".toList) := by
    have hone : segments "p(X) :-\n  q(X). % facts below".toList =
        [⟨1, "p(X) :- q(X).".toList⟩] := by decide +kernel
    rw [hone]
    rintro s ⟨⟩
    rfl
  obtain ⟨hclauses, -, herror⟩ := @readClauses_lineFeed .standard _ hclosed
    "q(a).\n\nq(.".toList
  refine ⟨hclosed, (herror _).2 ⟨[.ok ⟨⟨"p", [.var "X"]⟩, [⟨"q", [.var "X"]⟩]⟩,
    .ok ⟨⟨"q", [.atom "a"]⟩, []⟩], [], ?_, by simp⟩⟩
  rw [hclauses]
  decide +kernel

end Settings

end HornClauses
