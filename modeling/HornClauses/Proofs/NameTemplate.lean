import Mathlib.Data.List.Basic
import Mathlib.Tactic.Set

/-!
# Texts with places for names

A text that depends on what some names become is a template, with a place for each name, if all that
stands around the names stays the same. The names then stand in it one after another. Conversely,
words that are found one after another in every such text cannot be more than it has places.

* `OccurInOrder`: words that stand in a text one after another.
* `Template.occurInOrder_fill`: the names of a template stand in it in order.
* `Template.length_le_of_occurInOrder`: other names do not, if they are more.
* `HasTemplate`: texts that are given by a template.
-/

namespace HornClauses

/-! ## Words in order -/

/-- Do words stand in a text in this order, none of them overlapping another one? -/
def OccurInOrder : List String → List Char → Prop
  | [], _ => True
  | word :: words, text =>
    ∃ before after, text = before ++ word.toList ++ after ∧ OccurInOrder words after

theorem OccurInOrder.append_left {words : List String} {text : List Char}
    (h : OccurInOrder words text) (front : List Char) : OccurInOrder words (front ++ text) := by
  cases words with
  | nil => trivial
  | cons word words =>
    obtain ⟨before, after, rfl, hafter⟩ := h
    exact ⟨front ++ before, after, by simp, hafter⟩

theorem OccurInOrder.sublist {words : List String} {text : List Char} (h : OccurInOrder words text) :
    (words.flatMap String.toList).Sublist text := by
  induction words generalizing text with
  | nil => exact List.nil_sublist text
  | cons word words ih =>
    obtain ⟨before, after, rfl, hafter⟩ := h
    rw [List.append_assoc, List.flatMap_cons]
    exact ((List.Sublist.refl _).append (ih hafter)).trans (List.sublist_append_right _ _)

/-! ## Templates -/

/-- A text with a place for each of some names. -/
abbrev Template := List (Char ⊕ String)

namespace Template

/-- The names that a template has places for. -/
def places (template : Template) : List String := template.filterMap Sum.getRight?

/-- The text with a word put in the place of each name. -/
def fill (template : Template) (ρ : String → String) : List Char :=
  template.flatMap (Sum.elim (fun c => [c]) fun name => (ρ name).toList)

variable (ρ : String → String) (template template' : Template)

theorem places_append : (template ++ template').places = template.places ++ template'.places :=
  List.filterMap_append

theorem fill_append : (template ++ template').fill ρ = template.fill ρ ++ template'.fill ρ :=
  List.flatMap_append

theorem places_char (c : Char) : places (.inl c :: template) = template.places := rfl

theorem places_name (name : String) : places (.inr name :: template) = name :: template.places :=
  rfl

theorem fill_char (c : Char) : fill (.inl c :: template) ρ = c :: template.fill ρ := rfl

theorem fill_name (name : String) :
    fill (.inr name :: template) ρ = (ρ name).toList ++ template.fill ρ := rfl

theorem occurInOrder_fill : OccurInOrder (template.places.map ρ) (template.fill ρ) := by
  induction template with
  | nil => trivial
  | cons place template ih =>
    cases place with
    | inl c => exact ih.append_left [c]
    | inr name => exact ⟨[], fill template ρ, rfl, ih⟩

/-- With the same word in all places, its character stands there as often as in all these words, and
elsewhere as often as when the places are empty. -/
theorem count_fill_replicate (c : Char) (n : Nat) :
    (template.fill fun _ => String.ofList (List.replicate n c)).count c =
      (template.fill fun _ => "").count c + template.places.length * n := by
  induction template with
  | nil => simp [fill, places]
  | cons place template ih =>
    cases place with
    | inl d =>
      rw [places_char, fill_char, fill_char, List.count_cons, List.count_cons, ih]
      omega
    | inr name =>
      rw [places_name, fill_name, fill_name, List.count_append, List.count_append, ih,
        String.toList_ofList, List.count_replicate_self, List.length_cons, Nat.succ_mul]
      simp only [String.toList_empty, List.count_nil]
      omega

/-- Names that are found in order whatever they become are no more than the places: a word longer
than all that stands around the names is found in a place only. -/
theorem length_le_of_occurInOrder {names : List String}
    (h : ∀ ρ, OccurInOrder (names.map ρ) (template.fill ρ)) :
    names.length ≤ template.places.length := by
  set n := (template.fill fun _ => "").count 'a' + 1 with hn
  have hcount := (h fun _ => String.ofList (List.replicate n 'a')).sublist.count_le 'a'
  rw [count_fill_replicate, List.flatMap_map, List.count_flatMap] at hcount
  simp only [Function.comp_def, String.toList_ofList, List.count_replicate_self,
    List.map_const', List.sum_replicate_nat] at hcount
  by_contra hlt
  have hmul : (template.places.length + 1) * n ≤ names.length * n :=
    Nat.mul_le_mul_right n (by omega)
  rw [Nat.succ_mul] at hmul
  omega

end Template

/-- A text that depends on what names become is one template with places for these names. -/
def HasTemplate (names : List String) (text : (String → String) → String) : Prop :=
  ∃ template : Template, template.places = names ∧ ∀ ρ, (text ρ).toList = template.fill ρ

namespace HasTemplate

variable {names names' : List String} {text text' : (String → String) → String}

theorem const (s : String) : HasTemplate [] fun _ => s :=
  ⟨s.toList.map Sum.inl, by simp [Template.places], fun ρ => by
    simp [Template.fill, List.flatMap_map]⟩

theorem name (name : String) : HasTemplate [name] fun ρ => ρ name :=
  ⟨[.inr name], rfl, fun ρ => by simp [Template.fill]⟩

theorem append (h : HasTemplate names text) (h' : HasTemplate names' text') :
    HasTemplate (names ++ names') fun ρ => text ρ ++ text' ρ := by
  obtain ⟨template, hplaces, hfill⟩ := h
  obtain ⟨template', hplaces', hfill'⟩ := h'
  refine ⟨template ++ template', ?_, fun ρ => ?_⟩
  · rw [Template.places_append, hplaces, hplaces']
  · rw [String.toList_append, hfill, hfill', Template.fill_append]

theorem const_append (s : String) (h : HasTemplate names text) :
    HasTemplate names fun ρ => s ++ text ρ :=
  (const s).append h

theorem append_const (h : HasTemplate names text) (s : String) :
    HasTemplate names fun ρ => text ρ ++ s := by
  simpa using h.append (const s)

end HasTemplate

end HornClauses
