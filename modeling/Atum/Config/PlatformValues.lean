import Atum.Go.Strings
import Atum.Library.SortedAssoc

/-!
# Merging the platform values

Three value trees make up the values of the platform: the operational defaults,
the values that the updater generates, and the profile of the user.
`MergePlatformValues` refuses a profile that touches a generated value, and
otherwise lays the three trees over each other in that order.

A tree is a map with sorted keys, all the way down; `Values` carries the proof.
The order of the keys makes the walk of `firstValueCollision` a walk over the
list, and it makes equality of trees the equality of the Go maps.
-/

namespace Atum.Config

open Atum.Go SortedAssoc List

/-! ## Value trees -/

/-- A decoded value.  `α` holds everything that is not a `map[string]any`:
scalars, null, and lists.  The functions below look at maps only. -/
inductive Value (α : Type) where
  | leaf (value : α)
  | map (entries : List (String × Value α))

/-- The entries of a map. -/
abbrev Entries (α : Type) := List (String × Value α)

/-- A value whose maps are all sorted. -/
inductive Value.WellFormed {α : Type} : Value α → Prop where
  | leaf (value : α) : WellFormed (.leaf value)
  | map {entries : List (String × Value α)} (sorted : Sorted entries)
      (values : ∀ entry ∈ entries, WellFormed entry.2) : WellFormed (.map entries)

/-- A value tree: the `map[string]any` that the functions work on. -/
structure Values (α : Type) where
  entries : Entries α
  wellFormed : (Value.map entries).WellFormed

variable {α : Type}

mutual

/-- The body of the loop of `firstValueCollision` for a key that both maps have.
`some` is the text that the function returns; `none` goes on with the next
key. -/
def valueCollision (generated profile : Value α) (path : List String) : Option String :=
  match profile with
  | .leaf _ => some (join path ".")
  | .map profileMap =>
    match generated with
    | .leaf _ => some (join path ".")
    | .map generatedMap =>
      if generatedMap.isEmpty && !profileMap.isEmpty then some (join path ".")
      else
        let collision := firstValueCollision generatedMap profileMap path
        if collision ≠ "" then some collision else none
termination_by structural profile

/-- The body of the loop for one key of the profile. -/
def entryCollision (generated : Entries α) (entry : String × Value α)
    (parents : List String) : Option String :=
  match entry with
  | (key, profileValue) =>
    match generated.lookup key with
    | none => none
    | some generatedValue => valueCollision generatedValue profileValue (parents ++ [key])
termination_by structural entry

/-- `firstValueCollision`: the walk over the sorted keys of the profile.  The
empty text means that there is no collision. -/
def firstValueCollision (generated : Entries α) (profile : List (String × Value α))
    (parents : List String) : String :=
  match profile with
  | [] => ""
  | entry :: rest =>
    match entryCollision generated entry parents with
    | some path => path
    | none => firstValueCollision generated rest parents
termination_by structural profile

end

mutual

/-- The new value of a key of the destination. -/
def mergeValue (destination : Option (Value α)) (source : Value α) : Value α :=
  match source with
  | .leaf value => .leaf value
  | .map sourceMap =>
    match destination with
    | some (.map destinationMap) => .map (mergePlatformValues destinationMap sourceMap)
    | _ => .map sourceMap
termination_by structural source

/-- One round of the loop of `mergePlatformValues`. -/
def mergeEntry (destination : Entries α) (entry : String × Value α) : Entries α :=
  match entry with
  | (key, value) =>
    SortedAssoc.insert key (mergeValue (destination.lookup key) value) destination
termination_by structural entry

/-- `mergePlatformValues`, with the new state of `destination` as its result. -/
def mergePlatformValues (destination : Entries α) (source : List (String × Value α)) :
    Entries α :=
  match source with
  | [] => destination
  | entry :: rest => mergePlatformValues (mergeEntry destination entry) rest
termination_by structural source

end

/-! ## The merge of two maps -/

variable {source : Entries α}

/-- What one key of a merge holds. -/
theorem lookup_mergePlatformValues (hsrc : Sorted source) (key : String) :
    ∀ destination : Entries α, (mergePlatformValues destination source).lookup key =
        match source.lookup key with
        | none => destination.lookup key
        | some value => some (mergeValue (destination.lookup key) value) := by
  induction source with
  | nil =>
    intro destination
    simp [mergePlatformValues]
  | cons entry rest ih =>
    obtain ⟨k, value⟩ := entry
    obtain ⟨hfirst, hrest⟩ := pairwise_cons.mp hsrc
    intro destination
    rw [mergePlatformValues, mergeEntry, ih hrest, lookup_cons]
    by_cases hkey : key = k
    · subst hkey
      have hnone : List.lookup key rest = none := by
        cases hlook : List.lookup key rest with
        | none => rfl
        | some other => exact absurd (hfirst _ (mem_of_lookup hlook)) (lt_irrefl _)
      simp [hnone]
    · have hne : (key == k) = false := beq_eq_false_iff_ne.mpr hkey
      rw [hne, lookup_insert_of_ne hkey]

theorem sorted_mergePlatformValues : ∀ {destination : Entries α}, Sorted destination →
      Sorted (mergePlatformValues destination source) := by
  induction source with
  | nil =>
    intro destination h
    simpa [mergePlatformValues] using h
  | cons entry rest ih =>
    intro destination h
    rw [mergePlatformValues, mergeEntry]
    exact ih (h.insert _ _)

/-- A map that is laid over nothing stays as it is. -/
theorem mergePlatformValues_nil (hsrc : Sorted source) :
    mergePlatformValues [] source = source := by
  refine Sorted.ext (sorted_mergePlatformValues List.Pairwise.nil) hsrc fun key => ?_
  rw [lookup_mergePlatformValues hsrc]
  cases source.lookup key with
  | none => rfl
  | some value => cases value <;> simp [mergeValue]

/-- The map under a key, or the empty map. -/
def submap : Option (Value α) → Entries α
  | some (.map entries) => entries
  | _ => []

@[simp] theorem submap_map (entries : Entries α) : submap (some (.map entries)) = entries := rfl

/-- A map laid over any value is laid over the map there. -/
theorem mergeValue_map (hsrc : Sorted source) (destination : Option (Value α)) :
    mergeValue destination (.map source) =
      .map (mergePlatformValues (submap destination) source) := by
  match destination with
  | none => simp [mergeValue, submap, mergePlatformValues_nil hsrc]
  | some (.leaf _) => simp [mergeValue, submap, mergePlatformValues_nil hsrc]
  | some (.map _) => simp [mergeValue]

variable {entries : Entries α}

theorem Value.WellFormed.sorted (h : (Value.map entries).WellFormed) : Sorted entries := by
  cases h with
  | map sorted _ => exact sorted

variable {value : Value α} {key : String}

theorem Value.WellFormed.lookup (h : (Value.map entries).WellFormed)
    (hlook : entries.lookup key = some value) : value.WellFormed := by
  cases h with
  | map _ values => exact values _ (mem_of_lookup hlook)

theorem Value.WellFormed.submap {destination : Option (Value α)}
    (h : ∀ value ∈ destination, value.WellFormed) :
    (Value.map (submap destination)).WellFormed := by
  match destination with
  | none => exact .map List.Pairwise.nil (by simp [Config.submap])
  | some (.leaf _) => exact .map List.Pairwise.nil (by simp [Config.submap])
  | some (.map _) => exact h _ rfl

/-- Laying a value over another one keeps the maps sorted, at every depth. -/
theorem wellFormed_mergeValue {source : Value α} (hsrc : source.WellFormed) :
    ∀ destination : Option (Value α), (∀ value ∈ destination, value.WellFormed) →
      (mergeValue destination source).WellFormed := by
  induction hsrc with
  | leaf value =>
    intro destination _
    exact .leaf value
  | @map entries hsorted hvals ih =>
    intro destination hdest
    have hsub := Value.WellFormed.submap hdest
    rw [mergeValue_map hsorted]
    refine .map (sorted_mergePlatformValues hsub.sorted) ?_
    rintro ⟨key, value⟩ hmem
    have hmerged := (sorted_mergePlatformValues hsub.sorted).lookup_of_mem hmem
    rw [lookup_mergePlatformValues hsorted] at hmerged
    split at hmerged
    · exact hsub.lookup hmerged
    · next overlay hover =>
      cases hmerged
      exact ih _ (mem_of_lookup hover) _ fun below hbelow => hsub.lookup hbelow

/-- `mergePlatformValues` on value trees. -/
def Values.merge (destination source : Values α) : Values α where
  entries := mergePlatformValues destination.entries source.entries
  wellFormed := by
    have h := wellFormed_mergeValue source.wellFormed (some (.map destination.entries))
      (by simpa using destination.wellFormed)
    rwa [mergeValue_map source.wellFormed.sorted] at h

/-- `MergePlatformValues`. -/
def Values.mergePlatformValues (operational generated profile : Values α) :
    Except String (Values α) :=
  let path := firstValueCollision generated.entries profile.entries []
  if path ≠ "" then .error s!"profile value {path} is updater-owned by generated values"
  else .ok ((operational.merge generated).merge profile)

/-! ## Collisions -/

/-- Two values under one key that the walk refuses. -/
def Clash : Value α → Value α → Prop
  | .map generated, .map profile => generated = [] ∧ profile ≠ []
  | _, _ => True

/-- Values that do not clash are maps. -/
theorem maps_of_not_clash {generated profile : Value α} (h : ¬Clash generated profile) :
    ∃ generatedMap profileMap, generated = .map generatedMap ∧ profile = .map profileMap := by
  match generated, profile with
  | .map g, .map p => exact ⟨g, p, rfl, rfl⟩
  | .leaf _, _ => exact absurd trivial h
  | .map _, .leaf _ => exact absurd trivial h

/-- A path of common keys at whose end the values clash. -/
inductive Collision : Entries α → Entries α → List String → Prop where
  | here {generated profile : Entries α} {key : String} {g p : Value α}
      (hg : generated.lookup key = some g) (hp : (key, p) ∈ profile) (hclash : Clash g p) :
      Collision generated profile [key]
  | deeper {generated profile g p : Entries α} {key : String} {path : List String}
      (hg : generated.lookup key = some (.map g)) (hp : (key, .map p) ∈ profile)
      (hpath : Collision g p path) : Collision generated profile (key :: path)

variable {path : List String} {generated profile : Entries α}

theorem Collision.cons (h : Collision generated profile path) (entry : String × Value α) :
    Collision generated (entry :: profile) path := by
  cases h with
  | here hg hp hclash => exact .here hg (mem_cons_of_mem _ hp) hclash
  | deeper hg hp hpath => exact .deeper hg (mem_cons_of_mem _ hp) hpath

variable {parents : List String}

/-- The joined path is empty only for the empty key at the top. -/
theorem join_append_ne_empty (h : parents ≠ [] ∨ key ≠ "") : join (parents ++ [key]) "." ≠ "" := by
  match parents with
  | [] => simpa [join] using h
  | first :: rest =>
    rw [join, cons_append, String.intercalate_cons_of_ne_nil (by simp)]
    simp

variable {p g : Value α}

theorem valueCollision_of_clash (h : Clash g p) :
    valueCollision g p path = some (join path ".") := by
  match g, p with
  | .leaf _, .leaf _ => simp [valueCollision]
  | .leaf _, .map _ => simp [valueCollision]
  | .map _, .leaf _ => simp [valueCollision]
  | .map g, .map p =>
    obtain ⟨rfl, hne⟩ := h
    simp [valueCollision, hne]

/-- Maps that do not clash pass the walk on. -/
theorem valueCollision_of_not_clash {g p : Entries α} (h : ¬Clash (.map g) (.map p)) :
    valueCollision (.map g) (.map p) path =
      if firstValueCollision g p path ≠ "" then some (firstValueCollision g p path) else none := by
  have hcond : (g.isEmpty && !p.isEmpty) = false := by
    by_contra hboth
    refine h ?_
    simpa [Clash, and_comm] using hboth
  simp [valueCollision, hcond]

/-- Where the collisions of a longer profile come from. -/
theorem collision_cons_iff {rest : Entries α} :
    (∃ path, Collision generated ((key, p) :: rest) path) ↔ (∃ g, generated.lookup key = some g ∧
        (Clash g p ∨ ∃ g' p' path, g = .map g' ∧ p = .map p' ∧ Collision g' p' path)) ∨
      ∃ path, Collision generated rest path := by
  constructor
  · rintro ⟨path, hcollision⟩
    cases hcollision with
    | @here _ _ other g p' hg hp hclash =>
      rcases mem_cons.mp hp with heq | hmem
      · obtain ⟨rfl, rfl⟩ := Prod.mk.inj heq
        exact .inl ⟨g, hg, .inl hclash⟩
      · exact .inr ⟨_, .here hg hmem hclash⟩
    | @deeper _ _ g' p' other path hg hp hpath =>
      rcases mem_cons.mp hp with heq | hmem
      · obtain ⟨rfl, rfl⟩ := Prod.mk.inj heq
        exact .inl ⟨_, hg, .inr ⟨g', p', path, rfl, rfl, hpath⟩⟩
      · exact .inr ⟨_, .deeper hg hmem hpath⟩
  · rintro (⟨g, hg, hclash | ⟨g', p', path, rfl, rfl, hpath⟩⟩ | ⟨path, hcollision⟩)
    · exact ⟨_, .here hg (by simp) hclash⟩
    · exact ⟨_, .deeper hg (by simp) hpath⟩
    · exact ⟨path, hcollision.cons _⟩

/-- The walk over one map finds a collision exactly when there is one, given
that it does so in the maps below.  At the top it must not meet a clash under the
empty key, whose path is the empty text. -/
theorem walk_ne_empty_iff (profile : Entries α)
    (hbelow : ∀ key p, (key, .map p) ∈ profile → ∀ (g : Entries α) (path : List String),
      path ≠ [] → (firstValueCollision g p path ≠ "" ↔ ∃ sub, Collision g p sub))
    (htop : parents ≠ [] ∨ ∀ g p, generated.lookup "" = some g → ("", p) ∈ profile → ¬Clash g p) :
    firstValueCollision generated profile parents ≠ "" ↔
      ∃ path, Collision generated profile path := by
  induction profile with
  | nil =>
    refine iff_of_false (by simp [firstValueCollision]) ?_
    rintro ⟨path, hcollision⟩
    cases hcollision with
    | here _ hp _ => simp at hp
    | deeper _ hp _ => simp at hp
  | cons entry rest ih =>
    obtain ⟨key, p⟩ := entry
    have hrest := ih (fun k p hp => hbelow k p (mem_cons_of_mem _ hp))
      (htop.imp_right fun h g p hg hp => h g p hg (mem_cons_of_mem _ hp))
    rw [collision_cons_iff, ← hrest, firstValueCollision, entryCollision]
    cases hg : generated.lookup key with
    | none => simp
    | some g =>
      simp only [Option.some.injEq, exists_eq_left']
      by_cases hclash : Clash g p
      · have hkey : parents ≠ [] ∨ key ≠ "" := by
          refine htop.imp_right fun h hempty => ?_
          subst hempty
          exact h g p hg (by simp) hclash
        simp [valueCollision_of_clash hclash, hclash, join_append_ne_empty hkey]
      obtain ⟨g', p', rfl, rfl⟩ := maps_of_not_clash hclash
      have hsub := hbelow key p' (by simp) g' (parents ++ [key]) (by simp)
      rw [valueCollision_of_not_clash hclash]
      by_cases hfound : firstValueCollision g' p' (parents ++ [key]) = ""
      · rw [hfound] at hsub
        simp only [ne_eq, not_true_eq_false, false_iff] at hsub
        simp [hfound, hclash, hsub]
      · have hexists := hsub.mp hfound
        simp [hfound, hclash, hexists]

/-- Below the top the walk finds every collision. -/
theorem firstValueCollision_below (hval : value.WellFormed) :
    ∀ {profile : Entries α}, value = .map profile → ∀ (generated : Entries α)
      (parents : List String), parents ≠ [] → (firstValueCollision generated profile parents ≠ "" ↔
        ∃ path, Collision generated profile path) := by
  induction hval with
  | leaf value =>
    intro profile heq
    cases heq
  | map _ _ ih =>
    intro profile heq generated parents hparents
    obtain rfl := Value.map.inj heq
    refine walk_ne_empty_iff _ (fun key p hp g path hpath => ?_) (.inl hparents)
    exact ih _ hp rfl g path hpath

/-- Both trees have a value under the empty key, and the two clash. -/
def EmptyKeyClash (generated profile : Values α) : Prop :=
  ∃ g p, generated.entries.lookup "" = some g ∧ profile.entries.lookup "" = some p ∧ Clash g p

/-- The walk from the top finds a collision exactly when there is one, unless
the trees clash under the empty key. -/
theorem firstValueCollision_top {generated profile : Values α}
    (h : ¬EmptyKeyClash generated profile) :
    firstValueCollision generated.entries profile.entries [] ≠ "" ↔
      ∃ path, Collision generated.entries profile.entries path := by
  have hsorted := profile.wellFormed.sorted
  refine walk_ne_empty_iff _ (fun key p hp g path hpath => ?_) (.inr fun g p hg hp hclash => ?_)
  · exact firstValueCollision_below (profile.wellFormed.lookup (hsorted.lookup_of_mem hp)) rfl g
      path hpath
  · exact h ⟨g, p, hg, hsorted.lookup_of_mem hp, hclash⟩

/-- The empty key comes first, and a clash under it ends the walk with the empty
text. -/
theorem firstValueCollision_emptyKey {generated profile : Values α}
    (h : EmptyKeyClash generated profile) :
    firstValueCollision generated.entries profile.entries [] = "" := by
  obtain ⟨g, p, hg, hp, hclash⟩ := h
  have hsorted := profile.wellFormed.sorted
  have hmem := mem_of_lookup hp
  cases hents : profile.entries with
  | nil => simp [hents] at hmem
  | cons entry rest =>
    rw [hents] at hmem hsorted
    obtain ⟨rfl⟩ : ("", p) = entry := by
      rcases mem_cons.mp hmem with heq | hrest
      · exact heq
      -- No key is below the empty one.
      have hlt := (pairwise_cons.mp hsorted).1 _ hrest
      rw [String.lt_iff_toList_lt] at hlt
      simp at hlt
    rw [firstValueCollision, entryCollision, hg]
    simp [valueCollision_of_clash hclash, join]

/-! ## Leaves and paths -/

/-- The value at a path of keys. -/
def Value.valueAt : Value α → List String → Option (Value α)
  | value, [] => some value
  | .leaf _, _ :: _ => none
  | .map entries, key :: path =>
    match entries.lookup key with
    | none => none
    | some value => value.valueAt path

/-- The value at a path of a tree. -/
def Values.valueAt (values : Values α) (path : List String) : Option (Value α) :=
  (Value.map values.entries).valueAt path

/-- The tree has a value other than a map at the path or above it. -/
def Values.HasLeafAtOrAbove (values : Values α) (path : List String) : Prop :=
  ∃ above value, above <+: path ∧ values.valueAt above = some (.leaf value)

/-- The tree has some value at the path or below it. -/
def Values.HasValueAtOrBelow (values : Values α) (path : List String) : Prop :=
  ∃ below value, path <+: below ∧ values.valueAt below = some value

/-- The tree has some value strictly below the path. -/
def Values.HasValueBelow (values : Values α) (path : List String) : Prop :=
  ∃ key, values.HasValueAtOrBelow (path ++ [key])

/-- The profile has a value at, above or below a leaf of the generated tree.  An
empty generated map is a leaf for every profile value but an empty map. -/
def TouchesGenerated (generated profile : Values α) : Prop :=
  (∃ path value, generated.valueAt path = some (.leaf value) ∧
    (profile.HasLeafAtOrAbove path ∨ profile.HasValueAtOrBelow path)) ∨
  (∃ path, path ≠ [] ∧ generated.valueAt path = some (.map []) ∧
    (profile.HasLeafAtOrAbove path ∨ profile.HasValueBelow path))

/-- Every value has a leaf or an empty map in it. -/
theorem Value.WellFormed.exists_end (h : value.WellFormed) :
    ∃ path, (∃ leaf, value.valueAt path = some (.leaf leaf)) ∨
      value.valueAt path = some (.map []) := by
  induction h with
  | leaf value => exact ⟨[], .inl ⟨value, by simp [Value.valueAt]⟩⟩
  | @map entries sorted values ih =>
    cases entries with
    | nil => exact ⟨[], .inr (by simp [Value.valueAt])⟩
    | cons entry rest =>
      obtain ⟨key, value⟩ := entry
      obtain ⟨path, hpath⟩ := ih (key, value) (by simp)
      exact ⟨key :: path, by simpa [Value.valueAt] using hpath⟩

/-- Two values at comparable paths that the trees must not both have. -/
def Conflict (path above : List String) (g p : Value α) : Prop :=
  (above <+: path ∧ ∃ value, p = .leaf value) ∨ (path <+: above ∧ ∃ value, g = .leaf value) ∨
    (path <+: above ∧ path ≠ above ∧ g = .map [])

/-- A conflict of two trees is a collision.  The induction walks down both paths
as long as the two values are maps. -/
theorem collision_of_conflict (path : List String) :
    ∀ {other : List String} {generated profile : Entries α}, path ≠ [] → other ≠ [] →
      (Value.map generated).valueAt path = some g → (Value.map profile).valueAt other = some p →
      Conflict path other g p → ∃ sub, Collision generated profile sub := by
  induction path with
  | nil =>
    intro other generated profile hpath
    exact absurd rfl hpath
  | cons key path ih =>
    intro other generated profile _ hother hg hp hconflict
    obtain ⟨otherKey, other, rfl⟩ := exists_cons_of_ne_nil hother
    obtain rfl : otherKey = key := by
      rcases hconflict with ⟨h, -⟩ | ⟨h, -⟩ | ⟨h, -⟩
      · exact (cons_prefix_cons.mp h).1
      · exact (cons_prefix_cons.mp h).1.symm
      · exact (cons_prefix_cons.mp h).1.symm
    have hconflict' : Conflict path other g p := by
      simpa [Conflict, cons_prefix_cons] using hconflict
    rw [Value.valueAt] at hg hp
    cases hgkey : generated.lookup otherKey with
    | none => simp [hgkey] at hg
    | some g' =>
      cases hpkey : profile.lookup otherKey with
      | none => simp [hpkey] at hp
      | some p' =>
        simp only [hgkey] at hg
        simp only [hpkey] at hp
        by_cases hclash : Clash g' p'
        · exact ⟨_, .here hgkey (mem_of_lookup hpkey) hclash⟩
        obtain ⟨gmap, pmap, rfl, rfl⟩ := maps_of_not_clash hclash
        have hends : path ≠ [] ∧ other ≠ [] := by
          constructor
          · rintro rfl
            obtain rfl : Value.map gmap = g := by simpa [Value.valueAt] using hg
            rcases hconflict' with ⟨h, value, rfl⟩ | ⟨-, value, h⟩ | ⟨-, hne, h⟩
            · simp [prefix_nil.mp h, Value.valueAt] at hp
            · cases h
            -- The generated map is empty and the profile map is not.
            obtain rfl := Value.map.inj h
            refine hclash ⟨rfl, ?_⟩
            rintro rfl
            obtain ⟨k, rest, rfl⟩ := exists_cons_of_ne_nil (Ne.symm hne)
            simp [Value.valueAt] at hp
          · rintro rfl
            obtain rfl : Value.map pmap = p := by simpa [Value.valueAt] using hp
            rcases hconflict' with ⟨-, value, h⟩ | ⟨h, value, rfl⟩ | ⟨h, hne, -⟩
            · cases h
            · simp [prefix_nil.mp h, Value.valueAt] at hg
            · exact hne (prefix_nil.mp h)
        obtain ⟨sub, hsub⟩ := ih hends.1 hends.2 hg hp hconflict'
        exact ⟨_, .deeper hgkey (mem_of_lookup hpkey) hsub⟩

/-- A collision of two trees is a conflict. -/
theorem conflict_of_collision {sub : List String}
    (h : Collision generated profile sub) (hg : (Value.map generated).WellFormed)
    (hp : (Value.map profile).WellFormed) :
    ∃ path other g p, path ≠ [] ∧ (Value.map generated).valueAt path = some g ∧
      (Value.map profile).valueAt other = some p ∧ Conflict path other g p ∧
      ((∃ value, g = .leaf value) ∨ g = .map []) := by
  induction h with
  | @here generated profile key g p hgkey hpkey hclash =>
    have hplookup := hp.sorted.lookup_of_mem hpkey
    have hpvalue : (Value.map profile).valueAt [key] = some p := by
      simp [Value.valueAt, hplookup]
    match g, p with
    | .leaf value, p =>
      refine ⟨[key], [key], .leaf value, p, by simp, by simp [Value.valueAt, hgkey], hpvalue, ?_,
        Or.inl ⟨value, rfl⟩⟩
      exact .inr (.inl ⟨prefix_refl _, value, rfl⟩)
    | .map g, .leaf value =>
      obtain ⟨path, hend⟩ := (hg.lookup hgkey).exists_end
      have hstep : ∀ v, (Value.map g).valueAt path = some v →
          (Value.map generated).valueAt (key :: path) = some v := by
        intro v hv
        simpa [Value.valueAt, hgkey] using hv
      have hconflict : ∀ v, Conflict (key :: path) [key] v (Value.leaf value) := fun v =>
        Or.inl ⟨by simp, value, rfl⟩
      rcases hend with ⟨leaf, hleaf⟩ | hempty
      · exact ⟨_, _, _, _, by simp, hstep _ hleaf, hpvalue, hconflict _, .inl ⟨leaf, rfl⟩⟩
      · exact ⟨_, _, _, _, by simp, hstep _ hempty, hpvalue, hconflict _, .inr rfl⟩
    | .map g, .map p =>
      obtain ⟨rfl, hne⟩ := hclash
      obtain ⟨⟨k, v⟩, rest, rfl⟩ := exists_cons_of_ne_nil hne
      refine ⟨[key], [key, k], .map [], v, by simp, by simp [Value.valueAt, hgkey], ?_, ?_,
        Or.inr rfl⟩
      · simp [Value.valueAt, hplookup]
      · exact .inr (.inr ⟨by simp, by simp, rfl⟩)
  | @deeper generated profile gmap pmap key sub hgkey hpkey _ ih =>
    have hplookup := hp.sorted.lookup_of_mem hpkey
    obtain ⟨path, other, g, p, -, hgv, hpv, hconflict, hend⟩ :=
      ih (hg.lookup hgkey) (hp.lookup hplookup)
    refine ⟨key :: path, key :: other, g, p, by simp, by simpa [Value.valueAt, hgkey] using hgv,
      by simpa [Value.valueAt, hplookup] using hpv, ?_, hend⟩
    simpa [Conflict, cons_prefix_cons] using hconflict

/-- The profile touches a generated leaf exactly when the walk has something to
find. -/
theorem touchesGenerated_iff (generated profile : Values α) : TouchesGenerated generated profile ↔
      ∃ path, Collision generated.entries profile.entries path := by
  constructor
  · -- The root of a tree is a map, so no leaf is at the empty path.
    have hroot : ∀ (values : Values α) {path : List String} {value : α},
        values.valueAt path = some (.leaf value) → path ≠ [] := by
      rintro values path value h rfl
      simp [Values.valueAt, Value.valueAt] at h
    rintro (⟨path, value, hg, ⟨above, leaf, hle, hp⟩ | ⟨below, v, hle, hp⟩⟩ |
      ⟨path, hne, hg, ⟨above, leaf, hle, hp⟩ | ⟨key, below, v, hle, hp⟩⟩)
    · exact collision_of_conflict path (hroot _ hg) (hroot _ hp) hg hp
        (.inl ⟨hle, leaf, rfl⟩)
    · refine collision_of_conflict path (hroot _ hg) ?_ hg hp (.inr (.inl ⟨hle, value, rfl⟩))
      rintro rfl
      exact hroot _ hg (prefix_nil.mp hle)
    · exact collision_of_conflict path hne (hroot _ hp) hg hp (.inl ⟨hle, leaf, rfl⟩)
    have hlong := hle.length_le
    rw [length_append, length_singleton] at hlong
    refine collision_of_conflict path hne ?_ hg hp (.inr (.inr
      ⟨(prefix_append _ _).trans hle, ?_, rfl⟩))
    · rintro rfl
      simp at hlong
    · rintro rfl
      omega
  · rintro ⟨sub, hcollision⟩
    obtain ⟨path, other, g, p, hne, hg, hp, hconflict, hend⟩ :=
      conflict_of_collision hcollision generated.wellFormed profile.wellFormed
    rcases hend with ⟨value, rfl⟩ | rfl
    · refine .inl ⟨path, value, hg, ?_⟩
      rcases hconflict with ⟨hle, leaf, rfl⟩ | ⟨hle, -⟩ | ⟨hle, -⟩
      · exact .inl ⟨other, leaf, hle, hp⟩
      · exact .inr ⟨other, p, hle, hp⟩
      · exact .inr ⟨other, p, hle, hp⟩
    refine .inr ⟨path, hne, hg, ?_⟩
    rcases hconflict with ⟨hle, leaf, rfl⟩ | ⟨-, value, h⟩ | ⟨hle, hstrict, -⟩
    · exact .inl ⟨other, leaf, hle, hp⟩
    · cases h
    obtain ⟨rest, rfl⟩ := hle
    obtain ⟨key, rest, rfl⟩ := exists_cons_of_ne_nil
      (show rest ≠ [] by rintro rfl; simp at hstrict)
    exact .inr ⟨key, _, p, ⟨rest, by simp⟩, hp⟩

/-! ## The merged tree -/

/-- Without a collision the order of the two upper maps does not matter.  The
induction is on the generated value, over every map below. -/
theorem mergePlatformValues_comm (hval : value.WellFormed) :
    ∀ {generated profile operational : Entries α}, value = .map generated →
      (Value.map profile).WellFormed → (Value.map operational).WellFormed →
      (¬∃ path, Collision generated profile path) →
      mergePlatformValues (mergePlatformValues operational generated) profile =
        mergePlatformValues (mergePlatformValues operational profile) generated := by
  induction hval with
  | leaf value =>
    intro generated profile operational heq
    cases heq
  | @map entries hsorted hvals ih =>
    intro generated profile operational heq hprofile hoperational hfree
    obtain rfl := Value.map.inj heq
    refine Sorted.ext (sorted_mergePlatformValues (sorted_mergePlatformValues hoperational.sorted))
      (sorted_mergePlatformValues (sorted_mergePlatformValues hoperational.sorted)) fun key => ?_
    rw [lookup_mergePlatformValues hprofile.sorted, lookup_mergePlatformValues hsorted,
      lookup_mergePlatformValues hsorted, lookup_mergePlatformValues hprofile.sorted]
    cases hg : entries.lookup key with
    | none => rfl
    | some g =>
      cases hp : profile.lookup key with
      | none => rfl
      | some p =>
        have hmem := mem_of_lookup hp
        have hclash : ¬Clash g p := fun h => hfree ⟨_, .here hg hmem h⟩
        obtain ⟨g', p', rfl, rfl⟩ := maps_of_not_clash hclash
        have hg' := mem_of_lookup hg
        have hpwf := hprofile.lookup hp
        have hbase : (Value.map (submap (operational.lookup key))).WellFormed :=
          Value.WellFormed.submap fun v hv => hoperational.lookup hv
        have hgsorted : Sorted g' := (hvals _ hg').sorted
        simp only [mergeValue_map hgsorted, mergeValue_map hpwf.sorted, submap_map]
        rw [ih _ hg' rfl hpwf hbase fun ⟨path, hpath⟩ => hfree ⟨_, .deeper hg hmem hpath⟩]

/-- The leaves of the upper map are in the result. -/
theorem valueAt_mergePlatformValues {leaf : α} (path : List String) :
    ∀ {source destination : Entries α}, (Value.map source).WellFormed →
      (Value.map source).valueAt path = some (.leaf leaf) →
      (Value.map (mergePlatformValues destination source)).valueAt path = some (.leaf leaf) := by
  induction path with
  | nil =>
    intro source destination _ h
    simp [Value.valueAt] at h
  | cons key path ih =>
    intro source destination hsrc h
    rw [Value.valueAt] at h ⊢
    rw [lookup_mergePlatformValues hsrc.sorted]
    cases hkey : source.lookup key with
    | none => simp [hkey] at h
    | some value =>
      simp only [hkey] at h ⊢
      cases value with
      | leaf other => simpa [mergeValue] using h
      | map entries =>
        have hents := hsrc.lookup hkey
        cases path with
        | nil => simp [Value.valueAt] at h
        | cons next path =>
          rw [mergeValue_map hents.sorted]
          exact ih hents h

/-- What merging the platform values promises. -/
structure KeepsGenerated (operational generated profile : Values α) : Prop where
  /-- The merge fails exactly when the profile touches a generated leaf. -/
  fails_iff : (∃ message, operational.mergePlatformValues generated profile = .error message) ↔
    TouchesGenerated generated profile
  /-- The generated leaves stay at their paths. -/
  generated_leaves : ∀ merged path value,
    operational.mergePlatformValues generated profile = .ok merged →
    generated.valueAt path = some (.leaf value) → merged.valueAt path = some (.leaf value)
  /-- The profile leaves stay at their paths. -/
  profile_leaves : ∀ merged path value,
    operational.mergePlatformValues generated profile = .ok merged →
    profile.valueAt path = some (.leaf value) → merged.valueAt path = some (.leaf value)
  /-- The two upper trees may change places. -/
  commutes : ∀ merged, operational.mergePlatformValues generated profile = .ok merged →
    merged = (operational.merge profile).merge generated

theorem Values.ext {left right : Values α} (h : left.entries = right.entries) : left = right := by
  cases left
  cases right
  simp_all

/-- Merging keeps the generated values exactly when the trees do not clash under
the empty key. -/
theorem keepsGenerated_iff (operational generated profile : Values α) :
    KeepsGenerated operational generated profile ↔ ¬EmptyKeyClash generated profile := by
  constructor
  · -- Under the empty key the walk returns the text that means no collision.
    intro h hempty
    obtain ⟨message, herror⟩ := h.fails_iff.mpr ((touchesGenerated_iff _ _).mpr (by
      obtain ⟨g, p, hg, hp, hclash⟩ := hempty
      exact ⟨_, .here hg (mem_of_lookup hp) hclash⟩))
    simp [Values.mergePlatformValues, firstValueCollision_emptyKey hempty] at herror
  intro hempty
  have hwalk := firstValueCollision_top hempty
  rw [← touchesGenerated_iff] at hwalk
  -- A merge that succeeds met no collision.
  have hok : ∀ merged, operational.mergePlatformValues generated profile = .ok merged →
      merged = (operational.merge generated).merge profile ∧
        merged = (operational.merge profile).merge generated := by
    intro merged hmerged
    simp only [Values.mergePlatformValues] at hmerged
    split at hmerged
    · simp at hmerged
    next hnone =>
    cases hmerged
    refine ⟨rfl, Values.ext ?_⟩
    refine mergePlatformValues_comm generated.wellFormed rfl profile.wellFormed
      operational.wellFormed ?_
    rw [← touchesGenerated_iff, ← hwalk]
    exact hnone
  refine ⟨?_, ?_, ?_, fun merged hmerged => (hok merged hmerged).2⟩
  · rw [← hwalk]
    simp only [Values.mergePlatformValues]
    split
    · next hfound => exact iff_of_true ⟨_, rfl⟩ hfound
    · next hnone => exact iff_of_false (by simp) hnone
  · intro merged path value hmerged hleaf
    rw [(hok merged hmerged).2]
    exact valueAt_mergePlatformValues path generated.wellFormed hleaf
  · intro merged path value hmerged hleaf
    rw [(hok merged hmerged).1]
    exact valueAt_mergePlatformValues path profile.wellFormed hleaf

/-- A tree with one value under one key. -/
def singleValue (key : String) (value : α) : Values α where
  entries := [(key, .leaf value)]
  wellFormed := .map (List.pairwise_singleton _ _) (by simpa using Value.WellFormed.leaf value)

/-- The profile overrides the value that is generated under the empty key. -/
theorem mergePlatformValues_overrides_emptyKey :
    TouchesGenerated (singleValue "" 1) (singleValue "" 2) ∧
      ((singleValue "a" 0).mergePlatformValues (singleValue "" 1) (singleValue "" 2)).map
          Values.entries = .ok [("", .leaf 2), ("a", .leaf 0)] ∧
      ¬KeepsGenerated (singleValue "a" 0) (singleValue "" 1) (singleValue "" 2) := by
  have htouches : TouchesGenerated (singleValue "" 1) (singleValue "" 2) :=
    Or.inl ⟨[""], 1, rfl, .inr ⟨[""], .leaf 2, prefix_refl _, rfl⟩⟩
  refine ⟨htouches, rfl, fun hkeeps => ?_⟩
  obtain ⟨message, herror⟩ := hkeeps.fails_iff.mpr htouches
  cases herror

end Atum.Config
