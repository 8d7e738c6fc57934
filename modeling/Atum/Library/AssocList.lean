import Mathlib.Data.List.Basic

/-!
# Maps as lists of pairs

A map is a list of keys with their values, and `List.lookup` finds the first
pair of a key.  `put` and `erase` leave at most one pair of their key.
-/

namespace AssocList

open List

variable {κ β : Type} [DecidableEq κ]

/-- The map without a key. -/
def erase (entries : List (κ × β)) (key : κ) : List (κ × β) := entries.filter (·.1 ≠ key)

/-- The map with a new value for a key. -/
def put (entries : List (κ × β)) (key : κ) (value : β) : List (κ × β) :=
  (key, value) :: erase entries key

variable {entries : List (κ × β)} {key other : κ} {value : β}

@[simp] theorem lookup_erase_self (entries : List (κ × β)) (key : κ) :
    (erase entries key).lookup key = none := by
  rw [lookup_eq_none_iff]
  intro pair hpair
  have hkey := (mem_filter.mp hpair).2
  simpa using Ne.symm (of_decide_eq_true hkey)

theorem lookup_erase_of_ne (h : other ≠ key) :
    (erase entries key).lookup other = entries.lookup other := by
  induction entries with
  | nil => rfl
  | cons pair rest ih =>
    obtain ⟨first, value⟩ := pair
    by_cases hfirst : first = key
    · subst hfirst
      have hskip : erase ((first, value) :: rest) first = erase rest first := by simp [erase]
      rw [hskip, ih, lookup_cons, beq_false_of_ne h]
    · have hkeep : erase ((first, value) :: rest) key = (first, value) :: erase rest key := by
        simp [erase, hfirst]
      rw [hkeep, lookup_cons, lookup_cons, ih]

@[simp] theorem lookup_put_self (entries : List (κ × β)) (key : κ) (value : β) :
    (put entries key value).lookup key = some value := by
  rw [put, lookup_cons, beq_self_eq_true]

theorem lookup_put_of_ne (h : other ≠ key) :
    (put entries key value).lookup other = entries.lookup other := by
  rw [put, lookup_cons, beq_false_of_ne h, lookup_erase_of_ne h]

end AssocList
