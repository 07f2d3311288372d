import HornClauses.Text.Space

/-!
# Logs

Events have a level and a target, which is a path of names with `::` between them. A rule admits the
events of some targets up to some level, and of the rules of a filter the one that says most about a
target decides. Every admitted event makes an entry in the log, in which targets are padded to the
longest one so far.

* `Filter.ofText`: the filter that a text describes.
* `Filter.admits`: the events that a filter admits.
* `Log.render`: the entries of some events.
-/

namespace HornClauses.Log

/-- How much an event matters, the gravest first. -/
inductive Level where
  | error | warn | info | debug | trace
  deriving DecidableEq

namespace Level

def rank : Level → Nat
  | error => 1
  | warn => 2
  | info => 3
  | debug => 4
  | trace => 5

def word : Level → String
  | error => "ERROR"
  | warn => "WARN"
  | info => "INFO"
  | debug => "DEBUG"
  | trace => "TRACE"

def all : List Level := [error, warn, info, debug, trace]

end Level

structure Event where
  level : Level
  target : String
  message : String

/-! ## Rules -/

/-- The levels up to the one with a name, which may be written in any case. -/
def levelOfText? (text : String) : Option (Option Level) :=
  if text.toUpper = "OFF" then some none
  else (Level.all.find? fun level => level.word = text.toUpper).map some

/-- The level up to which events are admitted whose targets begin in a way. Without a level none
is. -/
structure Rule where
  target : String
  level : Option Level

namespace Rule

/-- The rule that a text describes, or the part of it that means nothing. It holds a level, or a
target and a level with an equals sign between them, or a target alone, of which every level is
admitted. -/
def ofText (text : String) : Except String Rule :=
  match text.splitOn "=" with
  | [word] => .ok ((levelOfText? word).elim ⟨word, some .trace⟩ (⟨"", ·⟩))
  | [target, word] =>
    let word := String.ofList (Text.trim word.toList)
    if word.isEmpty then .ok ⟨target, some .trace⟩
    else (levelOfText? word).elim (.error word) (.ok ⟨target, ·⟩)
  | _ => .error text

def governs (r : Rule) (e : Event) : Bool := r.target.toList.isPrefixOf e.target.toList

def admits (r : Rule) (e : Event) : Bool := r.level.any (e.level.rank ≤ ·.rank)

end Rule

/-! ## Filters -/

/-- Rules, a text that admitted messages hold, and what is to be said about the description. -/
structure Filter where
  rules : List Rule
  part : String
  warnings : List String

namespace Filter

def standard : Filter := ⟨[⟨"", some .error⟩], "", []⟩

def warning (text : String) : String :=
  "warning: invalid logging spec '" ++ text ++ "', ignoring it"

/-- The filter of rules, of which some may mean nothing. Without rules it admits what the standard
one does. -/
def ofRules (rules : List (Except String Rule)) (part : String) : Filter :=
  let good := rules.filterMap fun | .ok rule => some rule | .error _ => none
  let bad := rules.filterMap fun | .ok _ => none | .error text => some (warning text)
  ⟨if good.isEmpty then standard.rules else good, part, bad⟩

/-- The filter that a text describes: rules with commas between them, and behind a slash the text
that messages hold. -/
def ofText (text : String) : Filter :=
  match text.splitOn "/" with
  | rules :: rest =>
    let described := ((rules.splitOn ",").filter (! ·.isEmpty)).map Rule.ofText
    match rest with
    | [] => ofRules described ""
    | [part] => ofRules described part
    | _ => { standard with warnings := [warning text ++ " (too many '/'s)"] }
  | [] => standard

/-- The rule that decides: the one with the longest target, and of those the last. -/
def ruleFor? (f : Filter) (e : Event) : Option Rule :=
  (f.rules.filter (·.governs e)).foldl
    (fun best rule =>
      if best.all (·.target.utf8ByteSize ≤ rule.target.utf8ByteSize) then some rule else best)
    none

def occurs (part : List Char) : List Char → Bool
  | [] => part.isEmpty
  | c :: rest => part.isPrefixOf (c :: rest) || occurs part rest

def admits (f : Filter) (e : Event) : Bool :=
  (f.ruleFor? e).any (·.admits e) && occurs f.part.toList e.message.toList

end Filter

/-! ## Entries -/

def pad (width : Nat) (text : String) : String :=
  text ++ String.ofList (List.replicate (width - text.length) ' ')

def Event.entry (width : Nat) (e : Event) : String :=
  " " ++ pad 5 e.level.word ++ " " ++ pad width e.target ++ " > " ++ e.message ++ "\n"

/-- The entries of events, given the width of the targets before them. -/
def render (width : Nat) : List Event → String
  | [] => ""
  | e :: rest =>
    let width := max width e.target.length
    e.entry width ++ render width rest

def ofEvents (filter : Filter) (events : List Event) : String :=
  render 0 (events.filter filter.admits)

end HornClauses.Log
