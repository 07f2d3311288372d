import HornClauses.Command
import Mathlib.Data.List.Induction

/-!
# The arguments of the command

Arguments are correct when they are one source with options before and behind it. Of several options
of one kind the last counts.

* `CommandOption`: an option with its value.
* `Request.AskedBy`: the correct arguments for a request.
* `Request.ofArguments?_eq_some`: they are what is understood as that request, and nothing else is.
-/

namespace HornClauses

/-! ## Options -/

/-- An option with its value. -/
inductive CommandOption where
  | configuration (path : String)
  | symbols (path : String)

namespace CommandOption

def words : CommandOption → List String
  | configuration path => ["--config", path]
  | symbols path => ["--symbols", path]

def configuration? : CommandOption → Option String
  | configuration path => some path
  | symbols _ => none

def symbols? : CommandOption → Option String
  | configuration _ => none
  | symbols path => some path

/-- The value of the last option of a kind. -/
def last? (kind : CommandOption → Option String) (os : List CommandOption) : Option String :=
  (os.filterMap kind).getLast?

theorem last?_cons_or (kind : CommandOption → Option String) (o : CommandOption)
    (os : List CommandOption) (before : Option String) :
    (last? kind (o :: os)).or before = (last? kind os).or ((kind o).or before) := by
  rw [last?, last?, List.filterMap_cons]
  cases kind o with
  | none => rfl
  | some value =>
    rw [List.getLast?_cons, Option.some_or, Option.some_or]
    cases (os.filterMap kind).getLast? <;> rfl

end CommandOption

/-! ## Requests -/

namespace Request

open CommandOption

/-- The arguments are a source among options, and the last option of each kind counts. -/
structure AskedBy (r : Request) (arguments : List String) (before after : List CommandOption) :
    Prop where
  arguments : arguments = before.flatMap words ++ r.source :: after.flatMap words
  source : r.source ≠ "--config" ∧ r.source ≠ "--symbols"
  configuration : r.configuration = last? configuration? (before ++ after)
  symbols : r.symbols = last? symbols? (before ++ after)

variable {source configuration symbols : Option String} {arguments : List String} {r : Request}

theorem extend?_words (os : List CommandOption) (rest : List String) :
    extend? source configuration symbols (os.flatMap words ++ rest) =
      extend? source ((last? configuration? os).or configuration) ((last? symbols? os).or symbols)
        rest := by
  induction os generalizing configuration symbols with
  | nil => rfl
  | cons o os ih =>
    rw [last?_cons_or, last?_cons_or, ← ih, List.flatMap_cons, List.append_assoc]
    cases o with
    | configuration path => rfl
    | symbols path => rfl

theorem extend?_source {path : String} (hpath : path ≠ "--config" ∧ path ≠ "--symbols")
    (rest : List String) :
    extend? none configuration symbols (path :: rest) =
      extend? (some path) configuration symbols rest := by
  cases rest with
  | nil => simp [extend?, hpath]
  | cons next rest => simp [extend?, hpath]

theorem exists_words_of_extend? {path : String}
    (h : extend? (some path) configuration symbols arguments = some r) :
    ∃ os : List CommandOption, arguments = os.flatMap words ∧ r.source = path := by
  induction arguments using List.twoStepInduction generalizing configuration symbols with
  | nil =>
    cases h
    exact ⟨[], rfl, rfl⟩
  | singleton argument => simp [extend?] at h
  | cons_cons argument next rest ih _ =>
    rw [extend?] at h
    split at h
    · rename_i hargument
      obtain ⟨os, rfl, hpath⟩ := ih h
      exact ⟨.configuration next :: os, by rw [hargument]; rfl, hpath⟩
    · split at h
      · rename_i hargument
        obtain ⟨os, rfl, hpath⟩ := ih h
        exact ⟨.symbols next :: os, by rw [hargument]; rfl, hpath⟩
      · cases h

theorem exists_source_of_extend? (h : extend? none configuration symbols arguments = some r) :
    ∃ before after : List CommandOption,
      arguments = before.flatMap words ++ r.source :: after.flatMap words ∧
        r.source ≠ "--config" ∧ r.source ≠ "--symbols" := by
  induction arguments using List.twoStepInduction generalizing configuration symbols with
  | nil => cases h
  | singleton argument =>
    rw [extend?] at h
    split at h
    · cases h
    · rename_i hargument
      cases h
      exact ⟨[], [], rfl, fun heq => hargument (Or.inl heq),
        fun heq => hargument (Or.inr (Or.inl heq))⟩
  | cons_cons argument next rest ih _ =>
    by_cases hconfiguration : argument = "--config"
    · rw [extend?, if_pos hconfiguration] at h
      obtain ⟨before, after, rfl, hsource⟩ := ih h
      exact ⟨.configuration next :: before, after, by rw [hconfiguration]; rfl, hsource⟩
    · by_cases hsymbols : argument = "--symbols"
      · rw [extend?, if_neg hconfiguration, if_pos hsymbols] at h
        obtain ⟨before, after, rfl, hsource⟩ := ih h
        exact ⟨.symbols next :: before, after, by rw [hsymbols]; rfl, hsource⟩
      · rw [extend?_source ⟨hconfiguration, hsymbols⟩] at h
        obtain ⟨after, hrest, rfl⟩ := exists_words_of_extend? h
        exact ⟨[], after, by rw [hrest]; rfl, hconfiguration, hsymbols⟩

/-- Correct arguments are understood as what they ask for. -/
theorem AskedBy.ofArguments? {before after : List CommandOption}
    (h : r.AskedBy arguments before after) : ofArguments? arguments = some r := by
  have hlast : ∀ kind, (last? kind after).or ((last? kind before).or none) =
      last? kind (before ++ after) := by
    intro kind
    rw [last?, last?, last?, List.filterMap_append, List.getLast?_append, Option.or_none]
  rw [Request.ofArguments?, h.arguments, extend?_words, extend?_source h.source,
    ← List.append_nil (after.flatMap words), extend?_words, extend?, hlast, hlast,
    ← h.configuration, ← h.symbols, Option.map_some]

/-- What is understood as a request is correct, and asks for what is understood. -/
theorem ofArguments?_eq_some :
    ofArguments? arguments = some r ↔ ∃ before after, r.AskedBy arguments before after := by
  constructor
  · intro h
    obtain ⟨before, after, harguments, hsource⟩ := exists_source_of_extend? h
    have hasked : AskedBy ⟨r.source, last? configuration? (before ++ after),
        last? symbols? (before ++ after)⟩ arguments before after := ⟨harguments, hsource, rfl, rfl⟩
    have hr := hasked.ofArguments?
    rw [h, Option.some.injEq] at hr
    exact ⟨before, after, hr ▸ hasked⟩
  · rintro ⟨before, after, h⟩
    exact h.ofArguments?

end Request

end HornClauses
