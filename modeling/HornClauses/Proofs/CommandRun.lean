import HornClauses.FileTree
import HornClauses.Proofs.CommandArguments
import HornClauses.Proofs.ProgramComposition

/-!
# What a run of the command leaves behind

The command goes on where the reader of a program stops. It prints the clauses that the reader of
clauses finds, in order, and counts the others. Of a code that does not exist the log tells instead,
and nothing else depends on that. The log is that of the events of the program, and the number of
clauses that failed comes after it.

* `clauseLines`, `programEvents`: what is printed and what is logged of a program.
* `Report.Grows`: what a step adds to a report, and the steps of a report.
* `Report.growsBy_addSegments`: what the clause texts of a program add.
* `Command.run_reads`: a run with correct arguments against the readers of clauses and of programs.
-/

namespace HornClauses

/-! ## Printed lines -/

/-- The line with the ids of a head or goal, if it has any. -/
def SymbolTable.codesLine? (table : SymbolTable) (p : Predicate) : Option String :=
  (table.encodePredicate p).toOption.map codesLine

/-- The lines of a clause: the clause, and below it the codes if there is a table. -/
def Clause.lines (symbols : Option SymbolTable) (c : Clause) : List String :=
  c.surface :: symbols.elim [] fun table => c.parts.filterMap table.codesLine?

/-- The lines of the clauses among some results. -/
def clauseLines (symbols : Option SymbolTable) (results : List (Except ReadError Clause)) :
    List String :=
  (results.filterMap Except.toOption).flatMap (Clause.lines symbols)

/-- Lines, each with its end. -/
def unlines (lines : List String) : String := String.join (lines.map (· ++ "\n"))

theorem unlines_cons (line : String) (lines : List String) :
    unlines (line :: lines) = line ++ "\n" ++ unlines lines := String.join_cons

theorem unlines_singleton (line : String) : unlines [line] = line ++ "\n" := by
  rw [unlines_cons]
  exact String.append_empty

/-! ## Events of a program -/

/-- The event of a head or goal that has no ids. -/
def SymbolTable.notEncoded? (table : SymbolTable) (p : Predicate) : Option Log.Event :=
  match table.encodePredicate p with
  | .ok _ => none
  | .error e => some (Event.notEncoded p e)

/-- The events of a clause that is read, with those of the codes that it lacks if there is a
table. -/
def Clause.events (symbols : Option SymbolTable) (c : Clause) : List Log.Event :=
  Event.assembled c :: symbols.elim [] fun table => c.parts.filterMap table.notEncoded?

/-- The events of a clause that is not read. -/
def ReadError.events : ReadError → List Log.Event
  | .inClause index line cause =>
    [Event.failed index line cause, Event.passedOver (.inClause index line cause)]
  | e => [Event.passedOver e]

/-- The events of a clause text, given what it is read into. -/
def segmentEvents (settings : Settings) (symbols : Option SymbolTable) (s : Segment)
    (result : Except ReadError Clause) : List Log.Event :=
  (settings.clauseResolutions s.text).map Event.resolved ++
    match result with
    | .ok c => c.events symbols
    | .error e => e.events

/-- The number of errors among some results. -/
def failures (results : List (Except ReadError Clause)) : Nat :=
  results.countP fun result => !result.isOk

/-- The events of a program: those of the text and of all clause texts in it, then those that come
up while the clause texts are read in turn, and in the end the numbers. -/
def programEvents (settings : Settings) (symbols : Option SymbolTable) (path source : String) :
    List Log.Event :=
  Event.sourceRead path source :: (segments source.toList).map Event.divided ++
    (List.zipWith (segmentEvents settings symbols) (segments source.toList)
      (settings.readClauses source.toList)).flatten ++
    [Event.counted ((settings.readClauses source.toList).countP Except.isOk)
      (failures (settings.readClauses source.toList))]

theorem failures_cons_ok (c : Clause) (results : List (Except ReadError Clause)) :
    failures (.ok c :: results) = failures results :=
  List.countP_cons_of_neg (by simp [Except.isOk, Except.toBool])

theorem failures_cons_error (e : ReadError) (results : List (Except ReadError Clause)) :
    failures (.error e :: results) = failures results + 1 :=
  List.countP_cons_of_pos rfl

/-- A program is read exactly when none of its clauses fails. -/
theorem failures_eq_zero_iff {results : List (Except ReadError Clause)} :
    failures results = 0 ↔ ∃ cs, results.mapM id = .ok cs := by
  induction results with
  | nil => exact ⟨fun _ => ⟨[], rfl⟩, fun _ => rfl⟩
  | cons result results ih =>
    rw [List.mapM_cons]
    cases result with
    | error e => simp [failures_cons_error, bind, Except.bind]
    | ok c =>
      rw [failures_cons_ok, ih]
      simp only [id, bind_eq_ok, pure_eq_ok]
      constructor
      · rintro ⟨cs, hcs⟩
        exact ⟨c :: cs, c, rfl, cs, hcs, rfl⟩
      · rintro ⟨-, -, -, cs, hcs, -⟩
        exact ⟨cs, hcs⟩

/-! ## Reports -/

namespace Report

variable {r r' r'' : Report} {ls ls' : List String} {es es' : List Log.Event} {m m' n n' : Nat}

/-- One report comes of another by so many lines, events, clauses and failures more. -/
structure Grows (r r' : Report) (ls : List String) (es : List Log.Event) (m n : Nat) : Prop where
  lines : r'.lines = r.lines ++ ls
  events : r'.events = r.events ++ es
  parsed : r'.parsed = r.parsed + m
  failed : r'.failed = r.failed + n

theorem Grows.trans (h : r.Grows r' ls es m n) (h' : r'.Grows r'' ls' es' m' n') :
    r.Grows r'' (ls ++ ls') (es ++ es') (m + m') (n + n') where
  lines := by rw [h'.lines, h.lines, List.append_assoc]
  events := by rw [h'.events, h.events, List.append_assoc]
  parsed := by rw [h'.parsed, h.parsed, Nat.add_assoc]
  failed := by rw [h'.failed, h.failed, Nat.add_assoc]

theorem grows_refl (r : Report) : r.Grows r [] [] 0 0 :=
  ⟨(List.append_nil _).symm, (List.append_nil _).symm, rfl, rfl⟩

theorem grows_log (r : Report) (e : Log.Event) : r.Grows (r.log e) [] [e] 0 0 :=
  ⟨(List.append_nil _).symm, rfl, rfl, rfl⟩

theorem grows_print (r : Report) (line : String) : r.Grows (r.print line) [line] [] 0 0 :=
  ⟨rfl, (List.append_nil _).symm, rfl, rfl⟩

/-- Steps that count nothing, one after another. -/
theorem grows_foldl {α : Type} {step : Report → α → Report} (line? : α → Option String)
    (event? : α → Option Log.Event)
    (hstep : ∀ r a, Grows r (step r a) (line? a).toList (event? a).toList 0 0) (r : Report)
    (as : List α) :
    r.Grows (as.foldl step r) (as.filterMap line?) (as.filterMap event?) 0 0 := by
  simp only [List.filterMap_eq_flatMap_toList]
  induction as generalizing r with
  | nil => exact grows_refl r
  | cons a as ih =>
    rw [List.foldl_cons, List.flatMap_cons, List.flatMap_cons]
    exact (hstep r a).trans (ih _)

theorem grows_foldl_log {α : Type} (event : α → Log.Event) (r : Report) (as : List α) :
    r.Grows (as.foldl (fun r a => r.log (event a)) r) [] (as.map event) 0 0 := by
  have h := grows_foldl (fun _ => none) (some ∘ event) (fun r a => grows_log r (event a)) r as
  rwa [List.filterMap_none, List.filterMap_eq_map] at h

theorem grows_addCodes (table : SymbolTable) (r : Report) (p : Predicate) :
    r.Grows (addCodes table r p) (table.codesLine? p).toList (table.notEncoded? p).toList 0 0 := by
  rw [addCodes, SymbolTable.codesLine?, SymbolTable.notEncoded?]
  cases table.encodePredicate p with
  | ok ids => exact grows_print r _
  | error e => exact grows_log r _

theorem grows_addClause (symbols : Option SymbolTable) (r : Report) (c : Clause) :
    r.Grows (r.addClause symbols c) (c.lines symbols) (c.events symbols) 1 0 := by
  have hprinted : r.Grows
      { (r.log (Event.assembled c)).print c.surface with parsed := r.parsed + 1 }
      [c.surface] [Event.assembled c] 1 0 := ⟨rfl, rfl, rfl, rfl⟩
  cases symbols with
  | none => exact hprinted
  | some table =>
    exact hprinted.trans
      (grows_foldl table.codesLine? table.notEncoded? (grows_addCodes table) _ _)

theorem grows_addFailure (r : Report) (e : ReadError) :
    r.Grows (r.addFailure e) [] [Event.passedOver e] 0 1 :=
  ⟨(List.append_nil _).symm, rfl, rfl, rfl⟩

/-- In the end the numbers are logged. -/
theorem Grows.counted (h : empty.Grows r ls es m n) :
    empty.Grows (r.log (Event.counted r.parsed r.failed)) ls (es ++ [Event.counted m n]) m n := by
  have hlog := h.trans (grows_log r (Event.counted r.parsed r.failed))
  have hparsed : r.parsed = m := h.parsed.trans (Nat.zero_add m)
  have hfailed : r.failed = n := h.failed.trans (Nat.zero_add n)
  rw [List.append_nil, hparsed, hfailed] at hlog
  rw [hparsed, hfailed]
  exact hlog

/-- What results add: the lines of the clauses among them, the numbers of clauses and errors, and
these events. -/
def GrowsBy (symbols : Option SymbolTable) (r r' : Report)
    (results : List (Except ReadError Clause)) (es : List Log.Event) : Prop :=
  r.Grows r' (clauseLines symbols results) es (results.countP Except.isOk) (failures results)

/-- A clause text adds what comes of reading it. -/
theorem growsBy_addSegment (settings : Settings) (symbols : Option SymbolTable) (r : Report)
    (index : Nat) (s : Segment) :
    GrowsBy symbols r (r.addSegment settings symbols index s) [settings.readSegment index s]
      (segmentEvents settings symbols s (settings.readSegment index s)) := by
  have hbegun := grows_foldl_log Event.resolved r (settings.clauseResolutions s.text)
  rw [addSegment, Settings.readSegment]
  cases settings.readClause s.text with
  | ok c =>
    have hlines : clauseLines symbols [.ok c] = c.lines symbols := List.append_nil _
    have h := hbegun.trans (grows_addClause symbols _ c)
    rwa [List.nil_append, ← hlines] at h
  | error cause =>
    exact hbegun.trans ((grows_log _ _).trans (grows_addFailure _ _))

/-- Clause texts add what comes of reading them one by one. -/
theorem growsBy_addSegments (settings : Settings) (symbols : Option SymbolTable) (r : Report)
    (index : Nat) (ss : List Segment) :
    GrowsBy symbols r (r.addSegments settings symbols index ss)
      (settings.readSegmentsFrom index ss)
      (List.zipWith (segmentEvents settings symbols) ss
        (settings.readSegmentsFrom index ss)).flatten := by
  induction ss generalizing r index with
  | nil => exact grows_refl r
  | cons s ss ih =>
    have h := (growsBy_addSegment settings symbols r index s).trans (ih _ (index + 1))
    have hcons : settings.readSegmentsFrom index (s :: ss) =
        [settings.readSegment index s] ++ settings.readSegmentsFrom (index + 1) ss := rfl
    rw [GrowsBy, hcons, clauseLines, failures, List.filterMap_append, List.flatMap_append,
      List.countP_append, List.countP_append]
    exact h

theorem growsBy_ofProgram (settings : Settings) (symbols : Option SymbolTable)
    (path source : String) :
    GrowsBy symbols empty (ofProgram settings symbols path source)
      (settings.readClauses source.toList) (programEvents settings symbols path source) := by
  have hread := grows_log empty (Event.sourceRead path source)
  have hdivided := hread.trans (grows_foldl_log Event.divided _ (segments source.toList))
  have hdone := hdivided.trans (growsBy_addSegments settings symbols _ 0 (segments source.toList))
  rw [List.append_nil, List.nil_append, Nat.add_zero, Nat.zero_add, Nat.zero_add] at hdone
  exact hdone.counted

end Report

/-! ## Runs -/

theorem countP_isOk_add_failures (results : List (Except ReadError Clause)) :
    results.countP Except.isOk + failures results = results.length := by
  rw [failures, List.length_eq_countP_add_countP Except.isOk]
  simp only [Bool.not_eq_true, Bool.decide_eq_false]

/-- A log consists of entries, each with its end. -/
theorem Log.exists_render_eq (width : Nat) (es : List Log.Event) :
    ∃ entries, Log.render width es = unlines entries := by
  induction es generalizing width with
  | nil => exact ⟨[], rfl⟩
  | cons e es ih =>
    obtain ⟨entries, hentries⟩ := ih (max width e.target.length)
    rw [Log.render, hentries, Log.Event.entry, ← unlines_cons]
    exact ⟨_, rfl⟩

namespace Command

/-- What is said in the end if clauses failed. -/
def failureMessage (failed all : Nat) : String :=
  toString failed ++ " of " ++ toString all ++ " clauses failed to parse"

variable {files : String → Except FileFault String} {arguments : List String} {request : Request}
  {before after : List CommandOption} {settings : Settings} {symbols : Option SymbolTable}
  {source : String}

theorem answer_eq (filter : Log.Filter) (harguments : request.AskedBy arguments before after)
    (hsettings : request.configuration.elim (.ok Settings.standard)
      (fun path => Settings.ofFile (files path)) = .ok settings)
    (hsymbols : request.symbols.mapM (fun path => SymbolTable.ofFile (files path)) = .ok symbols)
    (hsource : files request.source = .ok source) :
    answer files filter arguments =
      outcome filter (Report.ofProgram settings symbols request.source source) := by
  simp only [answer, harguments.ofArguments?, hsettings, hsymbols, hsource]

theorem outcome_of_failed_eq_zero {report : Report} (h : report.failed = 0) (filter : Log.Filter) :
    outcome filter report =
      ⟨0, unlines report.lines, Log.ofEvents filter report.events⟩ := by
  rw [outcome, Report.failure?, if_pos h]
  rfl

theorem outcome_of_failed_ne_zero {report : Report} (h : report.failed ≠ 0)
    (filter : Log.Filter) :
    outcome filter report =
      ⟨1, unlines report.lines, Log.ofEvents filter report.events ++
        unlines [failureMessage report.failed (report.parsed + report.failed)]⟩ := by
  rw [outcome, Report.failure?, if_neg h, unlines_singleton]
  exact congrArg (Outcome.mk 1 (unlines report.lines)) (String.append_assoc ..)

/-- A run prints the clauses that are found, with the codes that exist, and nothing else. It
succeeds exactly when the program is read. What it says beside that are the warnings about the
filter and the log of the events of the program, and if it fails there is one line more behind
these, which tells how many clauses of how many failed. The table decides about nothing but the
lines of codes and the events of the codes that do not exist. -/
theorem run_reads (filter : Log.Filter) (harguments : request.AskedBy arguments before after)
    (hsettings : request.configuration.elim (.ok Settings.standard)
      (fun path => Settings.ofFile (files path)) = .ok settings)
    (hsymbols : request.symbols.mapM (fun path => SymbolTable.ofFile (files path)) = .ok symbols)
    (hsource : files request.source = .ok source) :
    let o := run files filter arguments
    let results := settings.readClauses source.toList
    let log := Log.ofEvents filter (programEvents settings symbols request.source source)
    o.output = unlines (clauseLines symbols results) ∧
      (o.exitCode = 0 ↔ ∃ cs, settings.readProgram source.toList = .ok cs) ∧
      (∃ entries, log = unlines entries) ∧
      (o.exitCode = 0 → o.errors = unlines filter.warnings ++ log) ∧
      (o.exitCode ≠ 0 → o.exitCode = 1 ∧
        o.errors = unlines filter.warnings ++ log ++
          unlines [failureMessage (failures results) (segments source.toList).length]) := by
  intro o results log
  have hgrows := Report.growsBy_ofProgram settings symbols request.source source
  have ho : o = (outcome filter
      (Report.ofProgram settings symbols request.source source)).after filter.warnings := by
    rw [← answer_eq filter harguments hsettings hsymbols hsource]
    rfl
  generalize Report.ofProgram settings symbols request.source source = report at hgrows ho
  have hlines : report.lines = clauseLines symbols results := hgrows.lines
  have hlog : Log.ofEvents filter report.events = log :=
    congrArg (Log.ofEvents filter) hgrows.events
  have hfailed : report.failed = failures results := hgrows.failed.trans (Nat.zero_add _)
  have hall : report.parsed + report.failed = (segments source.toList).length := by
    rw [← settings.length_readSegmentsFrom 0, ← countP_isOk_add_failures]
    exact congrArg₂ _ (hgrows.parsed.trans (Nat.zero_add _)) hfailed
  have hread : report.failed = 0 ↔ ∃ cs, settings.readProgram source.toList = .ok cs := by
    rw [hfailed]
    exact failures_eq_zero_iff
  rw [ho, ← hlines, ← hread, ← hfailed, ← hall, ← hlog]
  by_cases hzero : report.failed = 0
  · rw [outcome_of_failed_eq_zero hzero]
    exact ⟨rfl, by simp [hzero, Outcome.after], Log.exists_render_eq _ _, fun _ => rfl,
      fun h => absurd rfl h⟩
  · rw [outcome_of_failed_ne_zero hzero]
    exact ⟨rfl, by simp [hzero, Outcome.after], Log.exists_render_eq _ _,
      fun h : (1 : UInt32) = 0 => absurd h (by decide),
      fun _ => ⟨rfl, (String.append_assoc ..).symm⟩⟩

/-- A program with a clause that is not read and with a name that has no id. -/
def sumSource : String := "p(X) :- X is 1 + 2.\nq(. % open\nr(X) :- p(X).\n"

/-- A program beside two symbol tables, the first of them empty. -/
def sumTree : FileTree :=
  let program := FileTree.empty.insert (.file (.ok sumSource)) ["home", "sum.pl"]
  let none := program.insert (.file (.ok "")) ["home", "none.toml"]
  none.insert (.file (.ok "p = 0\nX = 1\nis = 2\n\"+\" = 3\n1 = 4\n2 = 5\n"))
    ["home", "tables", "sum.toml"]

theorem run_reads_sumTree :
    let files := sumTree.read ["home"]
    let filter : Log.Filter := ⟨[⟨"", some .info⟩], "", [Log.Filter.warning "info=on=off"]⟩
    let arguments := ["--symbols", "none.toml", "sum.pl", "--symbols", "./tables/sum.toml"]
    let request : Request := ⟨"sum.pl", none, some "./tables/sum.toml"⟩
    let table : SymbolTable :=
      .ofPairs [("p", 0), ("X", 1), ("is", 2), ("+", 3), ("1", 4), ("2", 5)]
    let o := run files filter arguments
    request.AskedBy arguments [.symbols "none.toml"] [.symbols "./tables/sum.toml"] ∧
      request.symbols.mapM (fun path => SymbolTable.ofFile (files path)) = .ok (some table) ∧
      files request.source = .ok sumSource ∧
      o.output =
        "p(X) :- X is 1 + 2.\n    [0, 1]\n    [2, 1, 3, 4, 5]\nr(X) :- p(X).\n    [0, 1]\n" ∧
      o.exitCode = 1 ∧
      o.errors = unlines
        ["warning: invalid logging spec 'info=on=off', ignoring it",
          " INFO  prolog_encoder > read 45 bytes from sum.pl",
          " ERROR prolog_encoder > in clause 1 (line 2): unmatched `(` at offset 1 in `q(`",
          " ERROR prolog_encoder > could not encode `r(X)`: unknown symbol `r`",
          " INFO  prolog_encoder > parsed 2 clauses, 1 failed",
          "1 of 3 clauses failed to parse"] := by
  intro files filter arguments request table o
  have hasked : request.AskedBy arguments [.symbols "none.toml"] [.symbols "./tables/sum.toml"] :=
    ⟨rfl, by decide, rfl, rfl⟩
  have hsymbols : request.symbols.mapM (fun path => SymbolTable.ofFile (files path)) =
      .ok (some table) := by decide +kernel
  have hsource : files request.source = .ok sumSource := by decide +kernel
  have hfailures : failures (Settings.standard.readClauses sumSource.toList) = 1 := by
    decide +kernel
  have hall : (segments sumSource.toList).length = 3 := by decide +kernel
  obtain ⟨houtput, hcode, -, -, hfailure⟩ := run_reads filter hasked rfl hsymbols hsource
  have hfails : o.exitCode ≠ 0 := by
    intro hzero
    have hnone := failures_eq_zero_iff.2 (hcode.1 hzero)
    rw [hfailures] at hnone
    cases hnone
  rw [hfailures, hall] at hfailure
  obtain ⟨hone, herrors⟩ := hfailure hfails
  refine ⟨hasked, hsymbols, hsource, houtput.trans ?_, hone, herrors.trans ?_⟩
  · decide +kernel
  · decide +kernel

end Command

end HornClauses
