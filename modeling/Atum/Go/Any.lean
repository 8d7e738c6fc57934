import Atum.Go.Outcome

/-!
# Decoded values

A value of type `any` that a YAML or JSON decoder returns.  The entries of a map
are listed in the order in which a loop meets them.  Go does not fix that order, so
a result for every list of entries is a result for every order.
-/

namespace Atum.Go

/-- The text of a `float` is its decimal text without an exponent, and without a point if
the number is integral: `9200.0` has the text `9200`. -/
inductive Any where
  | null
  | bool (value : Bool)
  | int (value : Int)
  | float (text : String)
  | string (text : String)
  | list (items : List Any)
  | map (entries : List (String × Any))
  deriving Repr

namespace Any

/-- Induction with one case for each constructor. -/
@[elab_as_elim]
theorem induction {P : Any → Prop} (null : P .null) (bool : ∀ value, P (.bool value))
    (int : ∀ value, P (.int value)) (float : ∀ text, P (.float text))
    (string : ∀ text, P (.string text)) (list : ∀ items, (∀ item ∈ items, P item) → P (.list items))
    (map : ∀ entries, (∀ entry ∈ entries, P entry.2) → P (.map entries)) (value : Any) :
    P value := by
  refine @Any.rec P (fun items => ∀ item ∈ items, P item)
    (fun entries => ∀ entry ∈ entries, P entry.2) (fun entry => P entry.2)
    null bool int float string list map ?_ ?_ ?_ ?_ ?_ value
  · simp
  · exact fun item rest hitem hrest => List.forall_mem_cons.mpr ⟨hitem, hrest⟩
  · simp
  · exact fun entry rest hent hrest => List.forall_mem_cons.mpr ⟨hent, hrest⟩
  · exact fun _ _ h => h

/-- The result of `value.(map[string]any)`, which has no entries if it fails. -/
def entries : Any → List (String × Any)
  | .map entries => entries
  | _ => []

/-- The result of `value.([]any)`. -/
def items : Any → List Any
  | .list items => items
  | _ => []

/-- The text of `value.(string)`, if it succeeds. -/
def text? : Any → Option String
  | .string text => some text
  | _ => none

/-- The text of `value.(string)`, empty if it fails. -/
def text (value : Any) : String := value.text?.getD ""

/-- The result of `value.(map[string]any)`, if it succeeds. -/
def entries? : Any → Option (List (String × Any))
  | .map entries => some entries
  | _ => none

theorem eq_map_of_entries? {value : Any} {entries : List (String × Any)}
    (h : value.entries? = some entries) : value = .map entries := by
  cases value with
  | map other => rw [Option.some.inj h]
  | _ => cases h

/-- An entry of a map, `nil` if there is none. -/
def field (entries : List (String × Any)) (key : String) : Any :=
  (entries.lookup key).getD .null

end Any

end Atum.Go
