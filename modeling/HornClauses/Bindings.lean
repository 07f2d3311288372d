/-!
# Bindings in order

A list of pairs binds each key to the value of its first pair. Binding a key again changes its value
and leaves it in its place; a new key comes last.

* `Bindings.get?_put`, `Bindings.get?_erase`: what the two operations do to look-ups.
* `Bindings.keys_put`: what binding does to the order of the keys.
* `Bindings.get?_of_mem`: what the pairs of a list with different keys say.
-/

namespace HornClauses.Bindings

variable {α β : Type} [DecidableEq α]

def get? (key : α) : List (α × β) → Option β
  | [] => none
  | (k, v) :: rest => if k = key then some v else get? key rest

/-- Bind a key: in its place if it is bound already, and else at the end. -/
def put (key : α) (value : β) : List (α × β) → List (α × β)
  | [] => [(key, value)]
  | (k, v) :: rest => if k = key then (key, value) :: rest else (k, v) :: put key value rest

def erase (key : α) : List (α × β) → List (α × β)
  | [] => []
  | (k, v) :: rest => if k = key then erase key rest else (k, v) :: erase key rest

theorem get?_put (key k : α) (value : β) (pairs : List (α × β)) :
    get? k (put key value pairs) = if k = key then some value else get? k pairs := by
  induction pairs with
  | nil =>
    by_cases h : k = key
    · simp [put, get?, h]
    · simp [put, get?, h, Ne.symm h]
  | cons pair rest ih =>
    obtain ⟨k', v'⟩ := pair
    by_cases hkey : k' = key
    · by_cases h : k = key
      · simp [put, get?, hkey, h]
      · simp [put, get?, hkey, h, Ne.symm h]
    · by_cases h : k' = k
      · subst h
        simp [put, get?, hkey]
      · simp [put, get?, hkey, h, ih]

theorem get?_erase (key k : α) (pairs : List (α × β)) :
    get? k (erase key pairs) = if k = key then none else get? k pairs := by
  induction pairs with
  | nil => simp [erase, get?]
  | cons pair rest ih =>
    obtain ⟨k', v'⟩ := pair
    by_cases hkey : k' = key
    · by_cases h : k = key
      · subst h
        simpa [erase, hkey] using ih
      · simp [erase, get?, hkey, h, Ne.symm h, ih]
    · by_cases h : k' = k
      · subst h
        simp [erase, get?, hkey]
      · simp [erase, get?, hkey, h, ih]

theorem keys_put (key : α) (value : β) (pairs : List (α × β)) :
    (put key value pairs).map Prod.fst =
      if key ∈ pairs.map Prod.fst then pairs.map Prod.fst else pairs.map Prod.fst ++ [key] := by
  induction pairs with
  | nil => simp [put]
  | cons pair rest ih =>
    obtain ⟨k', v'⟩ := pair
    by_cases h : k' = key
    · simp [put, h]
    · have hne : key ≠ k' := Ne.symm h
      simp only [put, h, if_false, List.map_cons, ih, List.mem_cons, hne, false_or]
      split <;> simp

/-- Where all keys are different, every pair is the one that its key is bound by. -/
theorem get?_of_mem {pairs : List (α × β)} (hkeys : (pairs.map Prod.fst).Nodup) {pair : α × β}
    (hpair : pair ∈ pairs) : get? pair.1 pairs = some pair.2 := by
  induction pairs with
  | nil => cases hpair
  | cons first rest ih =>
    rw [List.map_cons, List.nodup_cons] at hkeys
    rw [get?]
    rcases List.mem_cons.1 hpair with rfl | hrest
    · rw [if_pos rfl]
    · have hne : first.1 ≠ pair.1 := fun heq => hkeys.1 (heq ▸ List.mem_map_of_mem hrest)
      rw [if_neg hne, ih hkeys.2 hrest]

end HornClauses.Bindings
