/-!
# Association lists in order of first insertion

A map kept as a list of pairs.  A key that is put again keeps its place and changes its
value; a new key goes to the end.

## Main definitions

* `Assoc.put` — gives a key a value.

## Main results

* `Assoc.lookup_put_self`, `Assoc.lookup_put_of_ne` — what is read after a `put`.
* `Assoc.put_put` — a `put` over another one.
* `Assoc.mem_keys_put` — the keys after a `put`.
-/

namespace Lamlet.Assoc

variable {α β : Type} [DecidableEq α]

/-- Gives a key a value: in its old place if it has one, at the end otherwise. -/
def put (key : α) (value : β) : List (α × β) → List (α × β)
  | [] => [(key, value)]
  | (k, v) :: rest => if k = key then (k, value) :: rest else (k, v) :: put key value rest

/-- The key just put has its new value. -/
theorem lookup_put_self (key : α) (value : β) (l : List (α × β)) :
    (put key value l).lookup key = some value := by
  induction l with
  | nil => simp [put]
  | cons entry rest ih =>
    obtain ⟨k, v⟩ := entry
    by_cases h : k = key
    · simp [put, h]
    · have h' : (key == k) = false := by simp [Ne.symm h]
      simp [put, h, List.lookup_cons, h', ih]

/-- The other keys keep their values. -/
theorem lookup_put_of_ne {key other : α} (h : other ≠ key) (value : β) (l : List (α × β)) :
    (put key value l).lookup other = l.lookup other := by
  induction l with
  | nil =>
    have h' : (other == key) = false := by simp [h]
    simp [put, List.lookup_cons, h']
  | cons entry rest ih =>
    obtain ⟨k, v⟩ := entry
    by_cases hk : k = key
    · have h' : (other == k) = false := by simp [hk, h]
      simp [put, hk, List.lookup_cons, hk ▸ h']
    · simp only [put, hk, if_false, List.lookup_cons, ih]

/-- Only the last of two values put for a key counts. -/
theorem put_put (key : α) (value value' : β) (l : List (α × β)) :
    put key value' (put key value l) = put key value' l := by
  induction l with
  | nil => simp [put]
  | cons entry rest ih =>
    obtain ⟨k, v⟩ := entry
    by_cases hk : k = key
    · simp [put, hk]
    · simp [put, hk, ih]

/-- The keys after a `put` are the old ones and the new one. -/
theorem mem_keys_put {key other : α} (value : β) (l : List (α × β)) :
    other ∈ (put key value l).map (·.1) ↔ other = key ∨ other ∈ l.map (·.1) := by
  induction l with
  | nil => simp [put]
  | cons entry rest ih =>
    obtain ⟨k, v⟩ := entry
    by_cases hk : k = key
    · subst hk
      simp [put]
    · simp only [put, hk, if_false, List.map_cons, List.mem_cons, ih]
      exact or_left_comm

end Lamlet.Assoc
