import Mathlib.Data.List.Induction
import Mathlib.Order.Lattice

/-!
# Finite maps as sorted association lists

A finite map is the list of its entries in increasing order of the keys.  The
list is canonical: two sorted lists that answer every lookup alike are equal
(`Sorted.ext`), so equality of lists is equality of maps, and a walk over the
list is a walk in key order.

`insert` keeps the order, and `lookup_insert` says all that a caller needs about
it.  `group` collects the values of every key, and `mem_group` says what the groups
are.
-/

namespace SortedAssoc

open List Option

variable {κ ν : Type} [LinearOrder κ] [BEq κ] [LawfulBEq κ] {entries : List (κ × ν)}
  {key : κ} {value : ν}

/-- The keys increase along the list, so no key occurs twice. -/
def Sorted (entries : List (κ × ν)) : Prop :=
  entries.Pairwise fun a b => a.1 < b.1

/-- Put a value under a key, in the place of the old value if there is one. -/
def insert (key : κ) (value : ν) : List (κ × ν) → List (κ × ν)
  | [] => [(key, value)]
  | entry :: rest =>
    if key < entry.1 then (key, value) :: entry :: rest
    else if key = entry.1 then (key, value) :: rest
    else entry :: insert key value rest

/-! ## Lookups -/

omit [LinearOrder κ] in
theorem mem_of_lookup (h : entries.lookup key = some value) : (key, value) ∈ entries := by
  obtain ⟨before, after, rfl, -⟩ := lookup_eq_some_iff.mp h
  simp

omit [LinearOrder κ] in
/-- The keys of a list are those that it answers. -/
theorem mem_keys_iff : key ∈ entries.map Prod.fst ↔ (entries.lookup key).isSome = true := by
  rw [lookup_isSome_iff, List.mem_map]
  constructor
  · rintro ⟨entry, hent, rfl⟩
    exact ⟨entry, hent, by simp⟩
  · rintro ⟨entry, hent, heq⟩
    exact ⟨entry, hent, (beq_iff_eq.mp heq).symm⟩

omit [LinearOrder κ] in
theorem lookup_cons_eq_some {first : κ} {found : ν} :
    ((first, found) :: entries).lookup key = some value ↔
      key = first ∧ found = value ∨ key ≠ first ∧ entries.lookup key = some value := by
  rw [lookup_cons]
  by_cases h : key = first
  · simp [h]
  · simp [h, beq_eq_false_iff_ne.mpr h]

omit [LinearOrder κ] in
/-- If no key occurs twice, every entry is the answer for its key. -/
theorem lookup_of_mem (hnodup : (entries.map Prod.fst).Nodup) (h : (key, value) ∈ entries) :
    entries.lookup key = some value := by
  obtain ⟨before, after, rfl⟩ := append_of_mem h
  refine lookup_eq_some_iff.mpr ⟨before, after, rfl, fun entry hent => ?_⟩
  rw [map_append, nodup_append] at hnodup
  exact bne_iff_ne.mpr (hnodup.2.2 _ (mem_map_of_mem hent) key (by simp)).symm

omit [BEq κ] [LawfulBEq κ] in
theorem Sorted.nodup (hsorted : Sorted entries) : (entries.map Prod.fst).Nodup :=
  pairwise_map.mpr (hsorted.imp fun hlt => hlt.ne)

theorem Sorted.lookup_of_mem (hsorted : Sorted entries) (h : (key, value) ∈ entries) :
    entries.lookup key = some value :=
  SortedAssoc.lookup_of_mem hsorted.nodup h

theorem Sorted.mem_iff_lookup (hsorted : Sorted entries) :
    (key, value) ∈ entries ↔ entries.lookup key = some value :=
  ⟨hsorted.lookup_of_mem, mem_of_lookup⟩

/-- Sorted lists with the same answers are equal. -/
theorem Sorted.ext {left right : List (κ × ν)} (hleft : Sorted left) (hright : Sorted right)
    (h : ∀ key, left.lookup key = right.lookup key) : left = right := by
  have hperm : left.Perm right := by
    refine (perm_ext_iff_of_nodup ?_ ?_).mpr ?_
    · exact hleft.imp fun hlt heq => absurd (heq ▸ hlt) (lt_irrefl _)
    · exact hright.imp fun hlt heq => absurd (heq ▸ hlt) (lt_irrefl _)
    · rintro ⟨key, value⟩
      rw [hleft.mem_iff_lookup, hright.mem_iff_lookup, h key]
  exact hperm.eq_of_pairwise (fun a b _ _ hab hba => absurd hab hba.asymm) hleft hright

/-! ## Insertion -/

@[simp] theorem lookup_insert_self (key : κ) (value : ν) (entries : List (κ × ν)) :
    (insert key value entries).lookup key = some value := by
  induction entries with
  | nil => simp [insert]
  | cons entry rest ih =>
    rw [insert]
    split
    · simp
    split
    · simp
    next hne =>
    have hbeq : (key == entry.1) = false := beq_eq_false_iff_ne.mpr hne
    rw [lookup_cons, hbeq]
    exact ih

theorem lookup_insert_of_ne {other : κ} (h : other ≠ key) (value : ν) (entries : List (κ × ν)) :
    (insert key value entries).lookup other = entries.lookup other := by
  have hbeq : (other == key) = false := beq_eq_false_iff_ne.mpr h
  induction entries with
  | nil => simp [insert, lookup_cons, hbeq]
  | cons entry rest ih =>
    obtain ⟨k, v⟩ := entry
    rw [insert]
    split
    · rw [lookup_cons, hbeq]
    split
    · next heq =>
      obtain rfl : key = k := heq
      rw [lookup_cons, lookup_cons, hbeq]
    · rw [lookup_cons, lookup_cons, ih]

theorem lookup_insert (key other : κ) (value : ν) (entries : List (κ × ν)) :
    (insert key value entries).lookup other =
      if other = key then some value else entries.lookup other := by
  split
  · next h => rw [h, lookup_insert_self]
  · next h => rw [lookup_insert_of_ne h]

omit [BEq κ] [LawfulBEq κ] in
theorem mem_insert {entry : κ × ν} (h : entry ∈ insert key value entries) :
    entry = (key, value) ∨ entry ∈ entries := by
  induction entries with
  | nil => simpa [insert] using h
  | cons first rest ih =>
    rw [insert] at h
    split at h
    · simpa using h
    split at h
    · rcases mem_cons.mp h with heq | hmem
      · exact .inl heq
      · exact .inr (mem_cons_of_mem _ hmem)
    · rcases mem_cons.mp h with rfl | hmem
      · exact .inr (by simp)
      · exact (ih hmem).imp_right (mem_cons_of_mem _)

omit [BEq κ] [LawfulBEq κ] in
/-- A new key adds an entry. -/
theorem perm_insert (h : key ∉ entries.map Prod.fst) (value : ν) :
    (insert key value entries).Perm ((key, value) :: entries) := by
  induction entries with
  | nil => exact .refl _
  | cons entry rest ih =>
    rw [map_cons, mem_cons, not_or] at h
    rw [insert, if_neg h.1]
    split
    · exact .refl _
    · exact ((ih h.2).cons entry).trans (.swap ..)

omit [BEq κ] [LawfulBEq κ] in
theorem Sorted.insert (hsorted : Sorted entries) (key : κ) (value : ν) :
    Sorted (insert key value entries) := by
  induction entries with
  | nil => simp [SortedAssoc.insert, Sorted]
  | cons first rest ih =>
    obtain ⟨hfirst, hrest⟩ := pairwise_cons.mp hsorted
    rw [SortedAssoc.insert]
    split
    · next hlt =>
      refine pairwise_cons.mpr ⟨fun entry hmem => ?_, hsorted⟩
      rcases mem_cons.mp hmem with rfl | hmem
      · exact hlt
      · exact hlt.trans (hfirst entry hmem)
    next hnot =>
    split
    · next heq => exact pairwise_cons.mpr ⟨fun entry hmem => heq ▸ hfirst entry hmem, hrest⟩
    next hne =>
    refine pairwise_cons.mpr ⟨fun entry hmem => ?_, ih hrest⟩
    rcases mem_insert hmem with rfl | hmem
    · exact lt_of_le_of_ne (not_lt.mp hnot) (Ne.symm hne)
    · exact hfirst entry hmem

variable {pairs : List (κ × ν)}

/-- A map that is filled with pairs of which no key has two values. -/
theorem lookup_foldl_insert (hfunctional : ∀ k v v', (k, v) ∈ pairs → (k, v') ∈ pairs → v = v') :
    (pairs.foldl (fun entries pair => insert pair.1 pair.2 entries) []).lookup key = some value ↔
      (key, value) ∈ pairs := by
  induction pairs using List.reverseRecOn with
  | nil => simp
  | append_singleton pairs pair ih =>
    have hpairs := ih fun k v v' h h' =>
      hfunctional k v v' (mem_append_left _ h) (mem_append_left _ h')
    have hlast : pair ∈ pairs ++ [pair] := by simp
    rw [foldl_append, foldl_cons, foldl_nil, lookup_insert]
    split
    · next heq =>
      subst heq
      rw [some_inj]
      constructor
      · exact fun h => h ▸ hlast
      · exact fun h => hfunctional _ _ _ hlast h
    · next hne =>
      rw [hpairs, mem_append, mem_singleton]
      exact ⟨.inl, fun h => h.resolve_right fun heq => hne (heq ▸ rfl)⟩

omit [BEq κ] [LawfulBEq κ] in
theorem sorted_foldl_insert (pairs : List (κ × ν)) :
    Sorted (pairs.foldl (fun entries pair => insert pair.1 pair.2 entries) []) := by
  induction pairs using List.reverseRecOn with
  | nil => exact List.Pairwise.nil
  | append_singleton pairs pair ih =>
    rw [foldl_append]
    exact ih.insert _ _

omit [BEq κ] [LawfulBEq κ] in
/-- A map that is filled with pairs of different keys has these entries. -/
theorem perm_foldl_insert (hnodup : (pairs.map Prod.fst).Nodup) :
    (pairs.foldl (fun entries pair => insert pair.1 pair.2 entries) []).Perm pairs := by
  induction pairs using List.reverseRecOn with
  | nil => exact .refl _
  | append_singleton pairs pair ih =>
    rw [map_append, nodup_append] at hnodup
    obtain ⟨hpairs, -, hnew⟩ := hnodup
    have hperm := ih hpairs
    have hkey : pair.1 ∉ (pairs.foldl (fun entries pair => insert pair.1 pair.2 entries) []).map
        Prod.fst := fun hmem =>
      hnew _ ((hperm.map _).mem_iff.mp hmem) _ (mem_singleton.mpr rfl) rfl
    rw [foldl_append, foldl_cons, foldl_nil]
    exact (perm_insert hkey _).trans ((hperm.cons pair).trans (perm_append_singleton _ _).symm)

/-! ## Groups -/

/-- Append a value to the group of its key. -/
def push (groups : List (κ × List ν)) (entry : κ × ν) : List (κ × List ν) :=
  insert entry.1 ((groups.lookup entry.1).getD [] ++ [entry.2]) groups

/-- The values of every key, in the order of the list. -/
def group (entries : List (κ × ν)) : List (κ × List ν) := entries.foldl push []

/-- The values of one key. -/
def valuesOf (entries : List (κ × ν)) (key : κ) : List ν :=
  (entries.filter fun entry => entry.1 == key).map Prod.snd

omit [LinearOrder κ] in
theorem mem_valuesOf : value ∈ valuesOf entries key ↔ (key, value) ∈ entries := by
  simp [valuesOf]

theorem lookup_foldl_push (entries : List (κ × ν)) (key : κ) :
    ∀ groups : List (κ × List ν), (entries.foldl push groups).lookup key =
      if valuesOf entries key = [] then groups.lookup key
      else some ((groups.lookup key).getD [] ++ valuesOf entries key) := by
  induction entries with
  | nil => simp [valuesOf]
  | cons entry rest ih =>
    intro groups
    rw [foldl_cons, ih, push, lookup_insert]
    by_cases heq : entry.1 = key
    · have hvals : valuesOf (entry :: rest) key = entry.2 :: valuesOf rest key := by
        simp [valuesOf, heq]
      rw [if_pos heq.symm, hvals, if_neg (cons_ne_nil _ _), heq]
      split
      · next hnone => rw [hnone]
      · rw [getD_some, append_assoc, singleton_append]
    · have hvals : valuesOf (entry :: rest) key = valuesOf rest key := by
        simp [valuesOf, heq]
      rw [if_neg (Ne.symm heq), hvals]

omit [LawfulBEq κ] in
theorem sorted_group (entries : List (κ × ν)) : Sorted (group entries) := by
  have hfold : ∀ groups : List (κ × List ν), Sorted groups →
      Sorted (entries.foldl push groups) := by
    induction entries with
    | nil => exact fun _ h => h
    | cons entry rest ih => exact fun groups h => ih _ (h.insert _ _)
  exact hfold [] List.Pairwise.nil

/-- A group has the values of its key, and there is one for every key that occurs. -/
theorem mem_group {values : List ν} :
    (key, values) ∈ group entries ↔ values = valuesOf entries key ∧ values ≠ [] := by
  rw [(sorted_group entries).mem_iff_lookup, group, lookup_foldl_push]
  split
  · next hnone =>
    rw [hnone]
    exact iff_of_false (by simp) fun h => h.2 h.1
  · next hsome =>
    simp only [lookup_nil, getD_none, nil_append, some_inj]
    exact ⟨fun h => ⟨h.symm, h ▸ hsome⟩, fun h => h.1.symm⟩

end SortedAssoc
