import Atum.Release.Ladder

/-!
# One item for each version

`canonicalSemanticVersions` goes through items whose equal versions are next to each
other, and keeps one item of every group: the one that is spelled like the current
version, or else the last one that has a `v` in front exactly if the current version
has one, or else the first.

`canonicalSemanticVersions_represents` says so for every list of items.
-/

namespace Atum.Release

open Atum.Go List

variable {T : Type} (semver : Semver) (versionOf : T → String) (current : String)

/-! ## The model -/

/-- The loop over a group.  `isCurrent` says that the group has the current version. -/
def chooseItem (isCurrent : Bool) : T → List T → T
  | chosen, [] => chosen
  | chosen, item :: rest =>
    if isCurrent ∧ versionOf item = current then item
    else if hasPrefix (versionOf item) "v" = hasPrefix current "v" then
      chooseItem isCurrent item rest
    else chooseItem isCurrent chosen rest

/-- An item parses, and it has a version. -/
def hasVersion (version : Version) (item : T) : Bool :=
  (trimmedVersion semver (versionOf item)).any (semver.equal · version)

/-- The loop over the groups. -/
def canonicalItems (itemLabel : String) (currentVersion : Version) :
    List T → Except String (List T)
  | [] => .ok []
  | first :: rest =>
    match trimmedVersion semver (versionOf first) with
    | none => .error s!"{itemLabel} {quote (versionOf first)} is not semantic"
    | some version => do
      let group := rest.takeWhile (hasVersion semver versionOf version)
      let chosen := chooseItem versionOf current (semver.equal version currentVersion) first
        (first :: group)
      let result ← canonicalItems itemLabel currentVersion
        (rest.dropWhile (hasVersion semver versionOf version))
      return chosen :: result
termination_by items => items.length
decreasing_by exact Nat.lt_succ_of_le (length_dropWhile_le ..)

def canonicalSemanticVersions (currentLabel itemLabel : String) (items : List T) :
    Except String (List T) :=
  match trimmedVersion semver current with
  | none => .error s!"current {currentLabel} {quote current} is not semantic"
  | some currentVersion => canonicalItems semver versionOf current itemLabel currentVersion items

/-! ## The representatives -/

/-- Two items of one version. -/
def SameVersion (item other : T) : Prop :=
  ∃ v w, trimmedVersion semver (versionOf item) = some v ∧
    trimmedVersion semver (versionOf other) = some w ∧ semver.compare v w = .eq

/-- Between two items of one version there are only items of that version. -/
def Adjacent (items : List T) : Prop :=
  ∀ a b c, [a, b, c] <+ items → SameVersion semver versionOf a c → SameVersion semver versionOf a b

/-- An item stands for a class of items as `current` wants it. -/
structure Represents (item : T) (items : List T) : Prop where
  mem : item ∈ items
  spelled : (∃ other ∈ items, versionOf other = current) → versionOf item = current
  styled : (∃ other ∈ items, hasPrefix (versionOf other) "v" = hasPrefix current "v") →
    hasPrefix (versionOf item) "v" = hasPrefix current "v"

/-- Lists of items that are the classes of a list, one after the other. -/
structure Classes (items : List T) (classes : List (List T)) : Prop where
  flatten : classes.flatten = items
  same : ∀ group ∈ classes, ∀ item ∈ group, ∀ other ∈ group, SameVersion semver versionOf item other
  different : classes.Pairwise fun group later =>
    ∀ item ∈ group, ∀ other ∈ later, ¬SameVersion semver versionOf item other

variable {semver versionOf current}

theorem chooseItem_spec (isCurrent : Bool) (items : List T) : ∀ chosen : T,
    (chooseItem versionOf current isCurrent chosen items = chosen ∨
      chooseItem versionOf current isCurrent chosen items ∈ items) ∧
    (isCurrent = true → (∃ other ∈ items, versionOf other = current) →
      versionOf (chooseItem versionOf current isCurrent chosen items) = current) ∧
    ((∃ other ∈ chosen :: items, hasPrefix (versionOf other) "v" = hasPrefix current "v") →
      hasPrefix (versionOf (chooseItem versionOf current isCurrent chosen items)) "v" =
        hasPrefix current "v") := by
  induction items with
  | nil => simp [chooseItem]
  | cons first rest ih =>
    intro chosen
    rw [chooseItem]
    split_ifs with hspelled hstyled
    · exact ⟨.inr mem_cons_self, fun _ _ => hspelled.2, fun _ => by rw [hspelled.2]⟩
    · obtain ⟨hmem, hexact, hstyle⟩ := ih first
      refine ⟨.inr (mem_cons.mpr hmem), fun hcur hother => hexact hcur ?_,
        fun _ => hstyle ⟨first, mem_cons_self, hstyled⟩⟩
      grind
    · obtain ⟨hmem, hexact, hstyle⟩ := ih chosen
      refine ⟨hmem.imp_right (mem_cons_of_mem _), fun hcur hother => hexact hcur ?_,
        fun hother => hstyle ?_⟩
      all_goals grind

variable {first item other : T}

/-- The item that a group chooses stands for the group. -/
theorem chooseItem_represents {isCurrent : Bool} {group : List T}
    (hcur : (∃ other ∈ first :: group, versionOf other = current) → isCurrent = true) :
    Represents versionOf current (chooseItem versionOf current isCurrent first (first :: group))
      (first :: group) := by
  obtain ⟨hmem, hspelled, hstyled⟩ := chooseItem_spec isCurrent (first :: group) first
  refine ⟨hmem.elim (fun h => mem_cons.mpr (.inl h)) id, fun h => hspelled (hcur h) h, ?_⟩
  rintro ⟨other, hother, h⟩
  exact hstyled ⟨other, mem_cons_of_mem _ hother, h⟩

theorem SameVersion.symm (hlaw : semver.Lawful) :
    SameVersion semver versionOf item other → SameVersion semver versionOf other item
  | ⟨v, w, hv, hw, h⟩ => ⟨w, v, hw, hv, hlaw.eq_symm h⟩

theorem SameVersion.trans (hlaw : semver.Lawful) (h : SameVersion semver versionOf first item)
    (hother : SameVersion semver versionOf item other) :
    SameVersion semver versionOf first other := by
  obtain ⟨u, v, hu, hv, h⟩ := h
  obtain ⟨v', w, hv', hw, hother⟩ := hother
  obtain rfl := Option.some.inj (hv.symm.trans hv')
  exact ⟨u, w, hu, hw, by rw [← hlaw.congr_right hother, h]⟩

theorem hasVersion_iff {version : Version} (hlaw : semver.Lawful)
    (hfirst : trimmedVersion semver (versionOf first) = some version) :
    hasVersion semver versionOf version item = true ↔ SameVersion semver versionOf first item := by
  simp only [hasVersion, Option.any_eq_true, Semver.equal, beq_iff_eq]
  constructor
  · rintro ⟨v, hv, h⟩
    exact ⟨version, v, hfirst, hv, hlaw.eq_symm h⟩
  · rintro ⟨u, v, hu, hv, h⟩
    obtain rfl := Option.some.inj (hfirst.symm.trans hu)
    exact ⟨v, hv, hlaw.eq_symm h⟩

/-- The items after the group of the first one have other versions. -/
theorem Adjacent.different {rest : List T} {same : T → Bool}
    (hsame : ∀ item, same item = true ↔ SameVersion semver versionOf first item)
    (h : Adjacent semver versionOf (first :: rest)) :
    ∀ item ∈ rest.dropWhile same, ¬SameVersion semver versionOf first item := by
  intro item hitem hfirst
  cases hdrop : rest.dropWhile same with
  | nil => simp [hdrop] at hitem
  | cons next later =>
    have hnext : ¬SameVersion semver versionOf first next := by
      rw [← hsame]
      simpa [hdrop] using dropWhile_get_zero_not same rest (by simp [hdrop])
    rw [hdrop] at hitem
    rcases mem_cons.mp hitem with rfl | hitem
    · exact hnext hfirst
    · refine hnext (h first next item ?_ hfirst)
      have hsub : next :: later <+ rest := hdrop ▸ dropWhile_sublist _
      exact ((singleton_sublist.mpr hitem).cons_cons next |>.trans hsub).cons_cons first

theorem canonicalItems_represents {currentVersion : Version} (hlaw : semver.Lawful)
    (hcurrent : trimmedVersion semver current = some currentVersion) (itemLabel : String)
    (items : List T) :
    (∀ item ∈ items, (trimmedVersion semver (versionOf item)).isSome) →
    Adjacent semver versionOf items →
    ∃ result classes, canonicalItems semver versionOf current itemLabel currentVersion items =
        .ok result ∧ Classes semver versionOf items classes ∧
      Forall₂ (Represents versionOf current) result classes := by
  fun_induction canonicalItems semver versionOf current itemLabel currentVersion items with
  | case1 => exact fun _ _ => ⟨[], [], rfl, ⟨rfl, by simp, .nil⟩, .nil⟩
  | case2 first rest hnone =>
    intro hparse
    simpa [hnone] using hparse first mem_cons_self
  | case3 first rest version hversion group chosen ih =>
    intro hparse hadj
    have hsub : rest.dropWhile (hasVersion semver versionOf version) <+ rest := dropWhile_sublist _
    obtain ⟨result, classes, hresult, hclasses, hrep⟩ := ih
      (fun item hitem => hparse item (mem_cons_of_mem _ (hsub.mem hitem)))
      fun a b c habc => hadj a b c (habc.trans (hsub.cons first))
    have hgroup : ∀ item ∈ first :: group, SameVersion semver versionOf first item :=
      forall_mem_cons.mpr ⟨⟨version, version, hversion, hversion, hlaw.compare_self version⟩,
        fun item hitem => (hasVersion_iff hlaw hversion).mp (mem_takeWhile_imp hitem)⟩
    have hlater := hadj.different fun _ => hasVersion_iff hlaw hversion
    refine ⟨chosen :: result, (first :: group) :: classes, by rw [hresult]; rfl, ⟨?_, ?_, ?_⟩,
      .cons (chooseItem_represents ?_) hrep⟩
    · rw [flatten_cons, hclasses.flatten, cons_append, takeWhile_append_dropWhile]
    · refine forall_mem_cons.mpr ⟨fun item hitem other hother => ?_, hclasses.same⟩
      exact ((hgroup item hitem).symm hlaw).trans hlaw (hgroup other hother)
    · refine pairwise_cons.mpr ⟨fun later hlt item hitem other hother h => ?_, hclasses.different⟩
      refine hlater other ?_ ((hgroup item hitem).trans hlaw h)
      exact hclasses.flatten ▸ mem_flatten.mpr ⟨later, hlt, hother⟩
    · rintro ⟨other, hother, heq⟩
      obtain ⟨u, v, hu, hv, h⟩ := hgroup other hother
      obtain rfl := Option.some.inj (hversion.symm.trans hu)
      obtain rfl := Option.some.inj (hcurrent.symm.trans (heq ▸ hv))
      exact beq_iff_eq.mpr h

/-- Items whose equal versions are next to each other: one item for each class of
equal versions in the order of the classes, and each of them is spelled like the current
version, or has its style, if an item of its class is or has. -/
theorem canonicalSemanticVersions_represents (hlaw : semver.Lawful)
    (currentLabel itemLabel : String)
    (items : List T) (hcurrent : (trimmedVersion semver current).isSome)
    (hparse : ∀ item ∈ items, (trimmedVersion semver (versionOf item)).isSome)
    (hadj : Adjacent semver versionOf items) :
    ∃ result classes, canonicalSemanticVersions semver versionOf current currentLabel itemLabel
        items = .ok result ∧ Classes semver versionOf items classes ∧
      Forall₂ (Represents versionOf current) result classes := by
  obtain ⟨currentVersion, hcur⟩ := Option.isSome_iff_exists.mp hcurrent
  obtain ⟨result, classes, hresult, hrep⟩ :=
    canonicalItems_represents hlaw hcur itemLabel items hparse hadj
  exact ⟨result, classes, by rw [canonicalSemanticVersions, hcur, ← hresult], hrep⟩

theorem canonicalSemanticVersions_represents_sample :
    ∃ result classes, canonicalSemanticVersions
        (tableSemver [("1.1.0", ⟨1, 1, 0, "", ""⟩), ("1.0.0", ⟨1, 0, 0, "", ""⟩)]) id "v1.1.0" "a"
        "b" ["1.1.0", "v1.1.0", "1.0.0"] = .ok result ∧
      Classes (tableSemver [("1.1.0", ⟨1, 1, 0, "", ""⟩), ("1.0.0", ⟨1, 0, 0, "", ""⟩)]) id
        ["1.1.0", "v1.1.0", "1.0.0"] classes ∧ Forall₂ (Represents id "v1.1.0") result classes := by
  refine canonicalSemanticVersions_represents (tableSemver_lawful (by decide +kernel)) _ _ _
    (by decide +kernel) (by decide +kernel) fun a b c hsub _ => ?_
  cases hsub.eq_of_length rfl
  exact ⟨⟨1, 1, 0, "", ""⟩, ⟨1, 1, 0, "", ""⟩, by decide +kernel,
    by decide +kernel, by decide +kernel⟩

end Atum.Release
