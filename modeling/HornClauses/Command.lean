import HornClauses.Configuration
import HornClauses.Log
import HornClauses.Program
import HornClauses.Symbol.Code
import HornClauses.Term.Raw

/-!
# The command

The command reads a program clause by clause and prints every clause that is read, with the ids of
its head and goals if there is a symbol table. Clauses that are not read are logged and passed over;
they are counted, and a run with any of them fails at the end.

* `Request.ofArguments?`: what the arguments ask for.
* `Report.ofProgram`: what is printed, logged and counted for a program.
* `Command.run`: the outcome of a run.
-/

namespace HornClauses

/-! ## Arguments -/

structure Request where
  source : String
  configuration : Option String
  symbols : Option String

namespace Request

/-- Read arguments, given what those before them ask for. An option that is given again counts
anew; a second source is refused. -/
def extend? (source configuration symbols : Option String) : List String → Option Request
  | [] => source.map (⟨·, configuration, symbols⟩)
  | [argument] =>
    if argument = "--config" ∨ argument = "--symbols" ∨ source.isSome then none
    else some ⟨argument, configuration, symbols⟩
  | argument :: next :: rest =>
    if argument = "--config" then extend? source (some next) symbols rest
    else if argument = "--symbols" then extend? source configuration (some next) rest
    else if source.isSome then none
    else extend? (some argument) configuration symbols (next :: rest)

def ofArguments? : List String → Option Request := extend? none none none

def files (r : Request) : List String := r.source :: (r.configuration.toList ++ r.symbols.toList)

end Request

/-! ## Events -/

namespace Event

def rootTarget : String := "prolog_encoder"

def readerTarget : String := rootTarget ++ "::reader"

def segmentTarget : String := readerTarget ++ "::preprocess"

def clauseTarget : String := readerTarget ++ "::clause"

def termTarget : String := rootTarget ++ "::ast::parse"

def sourceRead (path source : String) : Log.Event :=
  ⟨.info, rootTarget, "read " ++ toString source.utf8ByteSize ++ " bytes from " ++ path⟩

def divided (s : Segment) : Log.Event :=
  if s.isComplete then
    ⟨.trace, segmentTarget,
      "clause on line " ++ toString s.line ++ ": `" ++ String.ofList s.text ++ "`"⟩
  else
    ⟨.debug, segmentTarget, "clause on line " ++ toString s.line ++ " is missing its period"⟩

def resolved (r : Resolution) : Log.Event :=
  ⟨.trace, termTarget, "resolved `" ++ r.text ++ "` into " ++ r.term.raw⟩

def assembled (c : Clause) : Log.Event := ⟨.debug, clauseTarget, "assembled " ++ c.raw⟩

def failed (index line : Nat) (cause : ReadError) : Log.Event :=
  ⟨.debug, readerTarget,
    "clause " ++ toString index ++ " on line " ++ toString line ++ " failed: " ++ cause.message⟩

def passedOver (e : ReadError) : Log.Event := ⟨.error, rootTarget, e.message⟩

def notEncoded (p : Predicate) (e : UnknownSymbol) : Log.Event :=
  ⟨.error, rootTarget, "could not encode `" ++ p.surface ++ "`: " ++ e.message⟩

def counted (parsed failed : Nat) : Log.Event :=
  ⟨.info, rootTarget,
    "parsed " ++ toString parsed ++ " clauses, " ++ toString failed ++ " failed"⟩

end Event

/-! ## Reports -/

def codesLine (ids : List UInt32) : String :=
  "    [" ++ commaJoin (ids.map toString) ++ "]"

/-- What is printed and logged, and how many clauses are read and not read. -/
structure Report where
  lines : List String
  events : List Log.Event
  parsed : Nat
  failed : Nat

namespace Report

def empty : Report := ⟨[], [], 0, 0⟩

def log (r : Report) (e : Log.Event) : Report := { r with events := r.events ++ [e] }

def print (r : Report) (line : String) : Report := { r with lines := r.lines ++ [line] }

/-- Add the ids of a head or goal, or the reason why it has none. -/
def addCodes (table : SymbolTable) (r : Report) (p : Predicate) : Report :=
  match table.encodePredicate p with
  | .ok ids => r.print (codesLine ids)
  | .error e => r.log (Event.notEncoded p e)

def addClause (symbols : Option SymbolTable) (r : Report) (c : Clause) : Report :=
  let printed := { (r.log (Event.assembled c)).print c.surface with parsed := r.parsed + 1 }
  match symbols with
  | none => printed
  | some table => c.parts.foldl (addCodes table) printed

def addFailure (r : Report) (e : ReadError) : Report :=
  { r.log (Event.passedOver e) with failed := r.failed + 1 }

def addSegment (settings : Settings) (symbols : Option SymbolTable) (r : Report) (index : Nat)
    (s : Segment) : Report :=
  let begun := (settings.clauseResolutions s.text).foldl (fun r e => r.log (Event.resolved e)) r
  match settings.readClause s.text with
  | .ok c => begun.addClause symbols c
  | .error cause =>
    (begun.log (Event.failed index s.line cause)).addFailure (.inClause index s.line cause)

/-- Add clause texts, counting them from a first index. -/
def addSegments (settings : Settings) (symbols : Option SymbolTable) (r : Report) (index : Nat) :
    List Segment → Report
  | [] => r
  | s :: rest => (r.addSegment settings symbols index s).addSegments settings symbols (index + 1) rest

/-- The report on a program with a name. All of it is divided before the first clause is read. -/
def ofProgram (settings : Settings) (symbols : Option SymbolTable) (path source : String) :
    Report :=
  let ss := segments source.toList
  let divided := ss.foldl (fun r s => r.log (Event.divided s)) (empty.log (Event.sourceRead path source))
  let done := divided.addSegments settings symbols 0 ss
  done.log (Event.counted done.parsed done.failed)

def failure? (r : Report) : Option String :=
  if r.failed = 0 then none
  else some (toString r.failed ++ " of " ++ toString (r.parsed + r.failed)
    ++ " clauses failed to parse")

end Report

/-! ## Running -/

/-- What a run leaves behind. -/
structure Outcome where
  exitCode : UInt32
  output : String
  errors : String
  deriving DecidableEq

def Outcome.after (lines : List String) (o : Outcome) : Outcome :=
  { o with errors := String.join (lines.map (· ++ "\n")) ++ o.errors }

namespace Command

def usage : String :=
  "usage: prolog-encoder <source.pl> [--config reader.toml] [--symbols symbols.toml]"

def stopped (message : String) : Outcome := ⟨1, "", message ++ "\n"⟩

def outcome (filter : Log.Filter) (r : Report) : Outcome :=
  let output := String.join (r.lines.map (· ++ "\n"))
  let log := Log.ofEvents filter r.events
  match r.failure? with
  | none => ⟨0, output, log⟩
  | some message => ⟨1, output, log ++ message ++ "\n"⟩

/-- What comes of reading these files with these arguments. The settings are read before the symbol
table, and both before the source. -/
def answer (files : String → Except FileFault String) (filter : Log.Filter)
    (arguments : List String) : Outcome :=
  match Request.ofArguments? arguments with
  | none => stopped usage
  | some request =>
    match request.configuration.elim (.ok Settings.standard) (fun path => Settings.ofFile (files path)) with
    | .error e => stopped e.message
    | .ok settings =>
      match request.symbols.mapM (fun path => SymbolTable.ofFile (files path)) with
      | .error e => stopped e.message
      | .ok symbols =>
        match files request.source with
        | .error fault => stopped fault.message
        | .ok source => outcome filter (Report.ofProgram settings symbols request.source source)

/-- The outcome of a run. What is to be said about the filter comes before everything else. -/
def run (files : String → Except FileFault String) (filter : Log.Filter)
    (arguments : List String) : Outcome :=
  (answer files filter arguments).after filter.warnings

end Command

end HornClauses
