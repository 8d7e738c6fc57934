import Atum.Images.Official

/-!
# Patches of kubectl

A rendered kubectl tag may name a minor version only.  `resolveKubectlMinorTags`
makes a table from the tags of the observations, and fills in the newest patch that
the registry has published.  `officialKubectlImage` looks a tag up in that table.

The table has the tags as they are rendered (`lookup_kubectlMinorTags`), and the
lookup is for the tag with a `v` in front.  So a tag without the `v` is found only if
the tag with the `v` has been observed, too.
-/

namespace Atum.Images

open Atum.Go Atum.Release SortedAssoc List

/-! ## The table of minor versions -/

/-- The reference is one of kubectl, and its tag has two components. -/
def KubectlMinor (reference : String) : Prop :=
  imageRepository reference = kubectlRepository ∧
    (split (trimPrefix (imageTag reference) "v") '.').length = 2

instance (reference : String) : Decidable (KubectlMinor reference) :=
  inferInstanceAs (Decidable (_ ∧ _))

/-- The tag has the major and the minor of the cluster. -/
def OfCluster (kubernetesVersion tag : String) : Prop :=
  split (trimPrefix tag "v") '.' = (split kubernetesVersion '.').take 2

instance (kubernetesVersion tag : String) : Decidable (OfCluster kubernetesVersion tag) :=
  inferInstanceAs (Decidable (_ = _))

/-- The value that the first loop puts in for a tag. -/
def minorEntry (kubernetesVersion tag : String) : String :=
  if OfCluster kubernetesVersion tag then "v" ++ kubernetesVersion else ""

/-- Some observation has the tag. -/
def Observed (observations : List RenderedImageObservation) (tag : String) : Prop :=
  ∃ observation ∈ observations, KubectlMinor observation.reference ∧
    imageTag observation.reference = tag

variable {kubernetesVersion : String} (hclus : (split kubernetesVersion '.').length = 3)

include hclus in
/-- One round of the first loop. -/
theorem kubectlMinorTags_concat
    (observations : List RenderedImageObservation) (observation : RenderedImageObservation) :
    kubectlMinorTags (split kubernetesVersion '.') kubernetesVersion
    (observations ++ [observation]) = if KubectlMinor observation.reference then
        SortedAssoc.insert (imageTag observation.reference)
          (minorEntry kubernetesVersion (imageTag observation.reference))
          (kubectlMinorTags (split kubernetesVersion '.') kubernetesVersion observations)
      else kubectlMinorTags (split kubernetesVersion '.') kubernetesVersion observations := by
  obtain ⟨major, minor, patch, hparts⟩ := length_eq_three.mp hclus
  rw [kubectlMinorTags, foldl_append, foldl_cons, foldl_nil, ← kubectlMinorTags]
  by_cases hrepo : imageRepository observation.reference = kubectlRepository
  · rw [if_neg (not_not_intro hrepo)]
    dsimp only
    split
    · next first second htag =>
      have hminor : KubectlMinor observation.reference := ⟨hrepo, by rw [htag]; rfl⟩
      have hsame : OfCluster kubernetesVersion (imageTag observation.reference) ↔
          (split kubernetesVersion '.')[0]? = some first ∧
            (split kubernetesVersion '.')[1]? = some second := by
        simp [OfCluster, htag, hparts, eq_comm]
      rw [if_pos hminor, minorEntry]
      simp [hsame]
    next hother =>
    have hminor : ¬KubectlMinor observation.reference := by
      rintro ⟨-, hlen⟩
      obtain ⟨first, second, htag⟩ := length_eq_two.mp hlen
      exact hother first second htag
    rw [if_neg hminor]
  · rw [if_pos hrepo, if_neg fun hminor => hrepo hminor.1]

variable {observations : List RenderedImageObservation} {tag : String}

theorem observed_concat {observation : RenderedImageObservation} :
    Observed (observations ++ [observation]) tag ↔ Observed observations tag ∨
        (KubectlMinor observation.reference ∧ imageTag observation.reference = tag) := by
  simp only [Observed, mem_append, mem_singleton, or_and_right, exists_or, exists_eq_left]

include hclus in
theorem lookup_kubectlMinorTags
    (observations : List RenderedImageObservation) (tag value : String) :
    (kubectlMinorTags (split kubernetesVersion '.') kubernetesVersion observations).lookup tag =
        some value ↔ Observed observations tag ∧ value = minorEntry kubernetesVersion tag := by
  induction observations using List.reverseRecOn with
  | nil => simp [kubectlMinorTags, Observed]
  | append_singleton observations observation ih =>
    rw [kubectlMinorTags_concat hclus, observed_concat]
    by_cases hminor : KubectlMinor observation.reference
    · rw [if_pos hminor, lookup_insert]
      by_cases htag : tag = imageTag observation.reference
      · rw [if_pos htag, Option.some_inj, htag, eq_comm]
        exact ⟨fun hval => ⟨.inr ⟨hminor, rfl⟩, hval⟩, fun h => h.2⟩
      · have hother : ¬(KubectlMinor observation.reference ∧
            imageTag observation.reference = tag) :=
          fun h => htag h.2.symm
        rw [if_neg htag, ih, or_iff_left hother]
    · rw [if_neg hminor, ih, or_iff_left fun h => hminor h.1]

/-! ## The newest patches -/

/-- The minor version of a version, as the source writes it. -/
def minorText (version : Version) : String :=
  "v" ++ toString version.major ++ "." ++ toString version.minor

/-- The tag is a stable version of the minor version. -/
structure Patch (semver : Semver) (minor tag : String) (version : Version) : Prop where
  parsed : semver.newVersion (trimPrefix tag "v") = some version
  stable : version.prerelease = ""
  minor : minorText version = minor

/-- No stable version of the minor version among the tags is greater than the tag. -/
structure Greatest (semver : Semver) (tags : List String) (minor tag : String)
    (version : Version) : Prop where
  published : tag ∈ tags
  patch : Patch semver minor tag version
  greatest : ∀ other ∈ tags, ∀ newer, Patch semver minor other newer →
    semver.greaterThan newer version = false

section Best

variable {semver : Semver} {result : List (String × String)} {minor tag : String}
  {tags : List String} {version newest : Version}

/-- What one tag does to the best patches. -/
theorem bestPatches_concat (semver : Semver) (result : List (String × String)) (tags : List String)
    (tag minor : String) (hwanted : result.lookup minor = some "") :
    (∃ version, Patch semver minor tag version ∧
      ((bestPatches semver result (tags ++ [tag])).lookup minor = some (version, tag) ∧
          (∀ newest old, (bestPatches semver result tags).lookup minor = some (newest, old) →
            semver.greaterThan version newest = true) ∨
        ∃ newest old, (bestPatches semver result tags).lookup minor = some (newest, old) ∧
          (bestPatches semver result (tags ++ [tag])).lookup minor = some (newest, old) ∧
          semver.greaterThan version newest = false)) ∨
    (∀ version, ¬Patch semver minor tag version) ∧
      (bestPatches semver result (tags ++ [tag])).lookup minor =
        (bestPatches semver result tags).lookup minor := by
  rw [bestPatches, foldl_append, foldl_cons, ← bestPatches]
  split
  · next hnone =>
    refine .inr ⟨fun version hpatch => ?_, rfl⟩
    rw [hpatch.parsed] at hnone
    cases hnone
  next version hver =>
  have hunique : ∀ other, Patch semver minor tag other → other = version :=
    fun other hpatch => Option.some.inj (hpatch.parsed.symm.trans hver)
  dsimp only
  split
  · next hskip =>
    refine .inr ⟨fun other hpatch => ?_, rfl⟩
    obtain rfl := hunique other hpatch
    rcases hskip with hprerelease | hother
    · exact hprerelease hpatch.stable
    · rw [← minorText, hpatch.minor] at hother
      exact hother hwanted
  next hkeep =>
  rw [not_or, not_not] at hkeep
  by_cases hminor : minorText version = minor
  · have hpatch : Patch semver minor tag version := ⟨hver, hkeep.1, hminor⟩
    rw [← minorText, hminor]
    refine .inl ⟨version, hpatch, ?_⟩
    split
    · next hnone =>
      refine .inl ⟨lookup_insert_self _ _ _, fun newest old hold => ?_⟩
      rw [hnone] at hold
      cases hold
    next newest old hold =>
    split
    · next hgreater =>
      refine .inl ⟨lookup_insert_self _ _ _, fun other before hbefore => ?_⟩
      rw [hold] at hbefore
      cases hbefore
      exact hgreater
    · next hgreater => exact .inr ⟨newest, old, hold, hold, Bool.eq_false_iff.mpr hgreater⟩
  · refine .inr ⟨fun other hpatch => hminor (hunique other hpatch ▸ hpatch.minor), ?_⟩
    split
    · exact lookup_insert_of_ne (Ne.symm hminor) _ _
    · split
      · exact lookup_insert_of_ne (Ne.symm hminor) _ _
      · rfl

/-- A version that is not greater than a smaller one is not greater. -/
theorem not_greater_trans (hlaw : semver.Lawful) {old : Version}
    (hnew : semver.greaterThan newest old = true) (h : semver.greaterThan version old = false) :
    semver.greaterThan version newest = false := by
  have := hlaw.transCmp
  simp only [Semver.greaterThan, beq_iff_eq, beq_eq_false_iff_ne, ne_eq] at hnew h ⊢
  intro hgreater
  exact h (Std.TransCmp.gt_trans hgreater hnew)

/-- The loop over the published tags finds the greatest patch. -/
theorem bestPatches_spec (hlaw : semver.Lawful) (hwanted : result.lookup minor = some "")
    (tags : List String) : ((bestPatches semver result tags).lookup minor = none →
      ∀ other ∈ tags, ∀ version, ¬Patch semver minor other version) ∧
    ∀ version tag, (bestPatches semver result tags).lookup minor = some (version, tag) →
      Greatest semver tags minor tag version := by
  induction tags using List.reverseRecOn with
  | nil => simp [bestPatches]
  | append_singleton tags tag ih =>
    obtain ⟨hnone, hsome⟩ := ih
    rcases bestPatches_concat semver result tags tag minor hwanted with
      ⟨version, hpatch, ⟨hnew, hgreater⟩ | ⟨newest, old, hold, hsame, hgreater⟩⟩ | ⟨hother, hsame⟩
    · -- The tag is the new best one.
      refine ⟨fun h => absurd h (by simp [hnew]), fun found best hbest => ?_⟩
      rw [hnew] at hbest
      cases hbest
      refine ⟨by simp, hpatch, fun other hmem newer hnewer => ?_⟩
      rcases mem_append.mp hmem with hmem | hmem
      · cases hbefore : (bestPatches semver result tags).lookup minor with
        | none => exact absurd hnewer (hnone hbefore other hmem newer)
        | some pair =>
          obtain ⟨newest, old⟩ := pair
          exact not_greater_trans hlaw (hgreater newest old hbefore)
            ((hsome newest old hbefore).greatest other hmem newer hnewer)
      · obtain rfl := mem_singleton.mp hmem
        obtain rfl := Option.some.inj (hnewer.parsed.symm.trans hpatch.parsed)
        simp [Semver.greaterThan, hlaw.compare_self]
    · -- The best one stays, since the tag is not greater.
      refine ⟨fun h => absurd h (by simp [hsame]), fun found best hbest => ?_⟩
      rw [hsame] at hbest
      cases hbest
      have hbefore := hsome newest old hold
      refine ⟨by simp [hbefore.published], hbefore.patch, fun other hmem newer hnewer => ?_⟩
      rcases mem_append.mp hmem with hmem | hmem
      · exact hbefore.greatest other hmem newer hnewer
      · obtain rfl := mem_singleton.mp hmem
        obtain rfl := Option.some.inj (hnewer.parsed.symm.trans hpatch.parsed)
        exact hgreater
    · rw [hsame]
      have hlast : ∀ {P : Prop} other, other ∈ tags ++ [tag] →
          (∃ version, Patch semver minor other version) → (other ∈ tags → P) → P := by
        intro P other hmem hpatch hbefore
        obtain ⟨version, hpatch⟩ := hpatch
        rcases mem_append.mp hmem with hmem | hmem
        · exact hbefore hmem
        · exact absurd (mem_singleton.mp hmem ▸ hpatch) (hother version)
      refine ⟨fun h other hmem version hpatch => ?_, fun version best hbest => ?_⟩
      · exact hlast other hmem ⟨version, hpatch⟩ fun hmem => hnone h other hmem version hpatch
      have hbefore := hsome version best hbest
      refine ⟨by simp [hbefore.published], hbefore.patch, fun other hmem newer hnewer => ?_⟩
      exact hlast other hmem ⟨newer, hnewer⟩ fun hmem =>
        hbefore.greatest other hmem newer hnewer

end Best

/-- The last loop puts the best patch in for every tag that is still open. -/
theorem fillPatches_spec {best : List (String × Version × String)} {items : List (String × String)}
    {result final : List (String × String)} (h : fillPatches best items result = .ok final)
    (minor : String) :
    ((minor, "") ∈ items → ∃ version tag, best.lookup minor = some (version, tag) ∧
      final.lookup minor = some tag) ∧
    ((minor, "") ∉ items → final.lookup minor = result.lookup minor) := by
  induction items generalizing result with
  | nil =>
    cases h
    exact ⟨fun hmem => (nomatch hmem), fun _ => rfl⟩
  | cons item items ih =>
    obtain ⟨other, selected⟩ := item
    rw [fillPatches] at h
    by_cases hsel : selected = ""
    · subst hsel
      rw [if_neg (by simp)] at h
      split at h
      · next version tag hbest =>
        split at h
        · cases h
        obtain ⟨hin, hout⟩ := ih h
        by_cases hminor : minor = other
        · subst hminor
          refine ⟨fun _ => ?_, fun hmem => absurd mem_cons_self hmem⟩
          by_cases hmem : (minor, "") ∈ items
          · exact hin hmem
          · exact ⟨version, tag, hbest, by rw [hout hmem, lookup_insert_self]⟩
        have hmem : (minor, "") ∈ (other, "") :: items ↔ (minor, "") ∈ items := by
          simp [hminor]
        rw [hmem]
        refine ⟨hin, fun hnot => ?_⟩
        rw [hout hnot, lookup_insert_of_ne hminor]
      · cases h
    · rw [if_pos hsel] at h
      have hmem : (minor, "") ∈ (other, selected) :: items ↔ (minor, "") ∈ items := by
        simp [Ne.symm hsel]
      rw [hmem]
      exact ih h

/-! ## The table -/

include hclus in
theorem sorted_kubectlMinorTags (observations : List RenderedImageObservation) :
    Sorted (kubectlMinorTags (split kubernetesVersion '.') kubernetesVersion observations) := by
  induction observations using List.reverseRecOn with
  | nil => exact List.Pairwise.nil
  | append_singleton observations observation ih =>
    rw [kubectlMinorTags_concat hclus]
    split
    · exact ih.insert _ _
    · exact ih

theorem minorEntry_ne_empty :
    minorEntry kubernetesVersion tag ≠ "" ↔ OfCluster kubernetesVersion tag := by
  unfold minorEntry
  split
  · next hclus =>
    refine iff_of_true (fun hempty => ?_) hclus
    have hlen := congrArg (fun s => s.toList.length) hempty
    simp at hlen
  · next hclus => simp [hclus]

variable {table : List (String × String)}

/-- A table that is returned has a version for every observed tag, and no others. -/
theorem resolveKubectlMinorTags_spec {semver : Semver} (hlaw : semver.Lawful)
    {order : List (String × String) → List (String × String)}
    (horder : ∀ items, (order items).Perm items) {tags : List String}
    (h : resolveKubectlMinorTags semver (.ok tags) order observations kubernetesVersion =
      .ok table) :
    (split kubernetesVersion '.').length = 3 ∧ ∀ tag,
      (Observed observations tag → ∃ version, table.lookup tag = some version ∧
        (OfCluster kubernetesVersion tag → version = "v" ++ kubernetesVersion) ∧
        (¬OfCluster kubernetesVersion tag → ∃ parsed, Greatest semver tags tag version parsed)) ∧
      (¬Observed observations tag → table.lookup tag = none) := by
  obtain ⟨hclus, h⟩ := ite_throw_bind_eq_ok.mp h
  rw [not_not] at hclus
  have hlookup := lookup_kubectlMinorTags hclus observations
  have hnone : ∀ {tag}, ¬Observed observations tag →
      (kubectlMinorTags (split kubernetesVersion '.') kubernetesVersion observations).lookup tag =
        none := by
    intro tag hobs
    by_contra hsome
    obtain ⟨value, hval⟩ := Option.ne_none_iff_exists'.mp hsome
    exact hobs ((hlookup tag value).mp hval).1
  refine ⟨hclus, fun tag => ?_⟩
  split at h
  · -- Every tag is one of the cluster.
    next hall =>
    cases h
    refine ⟨fun hobs => ?_, hnone⟩
    have hval := (hlookup tag _).mpr ⟨hobs, rfl⟩
    have hent := all_eq_true.mp hall _ (SortedAssoc.mem_of_lookup hval)
    have hof := minorEntry_ne_empty.mp (by simpa using hent)
    refine ⟨_, hval, fun _ => ?_, fun hnot => absurd hof hnot⟩
    rw [minorEntry, if_pos hof]
  · obtain ⟨published, hpub, h⟩ := bind_eq_ok.mp h
    cases hpub
    obtain ⟨hopen, hclosed⟩ := fillPatches_spec h tag
    have hmem : (tag, "") ∈ order
          (kubectlMinorTags (split kubernetesVersion '.') kubernetesVersion observations) ↔
        Observed observations tag ∧ ¬OfCluster kubernetesVersion tag := by
      rw [(horder _).mem_iff, (sorted_kubectlMinorTags hclus observations).mem_iff_lookup,
        hlookup, ← minorEntry_ne_empty, not_not, eq_comm]
    rw [hmem] at hopen hclosed
    refine ⟨fun hobs => ?_, fun hobs => ?_⟩
    · by_cases hof : OfCluster kubernetesVersion tag
      · refine ⟨"v" ++ kubernetesVersion, ?_, fun _ => rfl, fun hnot => absurd hof hnot⟩
        rw [hclosed fun hboth => hboth.2 hof, hlookup, minorEntry, if_pos hof]
        exact ⟨hobs, rfl⟩
      obtain ⟨version, best, hbest, hfinal⟩ := hopen ⟨hobs, hof⟩
      have hwanted : (kubectlMinorTags (split kubernetesVersion '.') kubernetesVersion
          observations).lookup tag = some "" := by
        rw [hlookup, minorEntry, if_neg hof]
        exact ⟨hobs, rfl⟩
      refine ⟨best, hfinal, fun hyes => absurd hyes hof, fun _ => ⟨version, ?_⟩⟩
      exact (bestPatches_spec hlaw hwanted tags).2 version best hbest
    · rw [hclosed fun hboth => hobs hboth.1, hnone hobs]

/-! ## Looking a reference up -/

/-- The version that a reference should get: the one of the cluster, or the greatest
published patch. -/
structure Wanted (semver : Semver) (tags : List String) (kubernetesVersion tag version : String) :
    Prop where
  cluster : OfCluster kubernetesVersion tag → version = "v" ++ kubernetesVersion
  patch : ¬OfCluster kubernetesVersion tag →
    ∃ parsed, Greatest semver tags ("v" ++ trimPrefix tag "v") version parsed

/-- The reference gets an official image of the wanted version. -/
def Resolves (semver : Semver) (tags : List String) (kubernetesVersion : String)
    (table : List (String × String)) (reference : String) : Prop :=
  ∃ spec version, officialKubectlImage reference kubernetesVersion table = .ok spec ∧
    spec.source = "registry.k8s.io/kubectl:" ++ version ∧
    Wanted semver tags kubernetesVersion (imageTag reference) version

include hclus in
/-- A tag with two components is looked up with a `v` in front. -/
theorem officialKubectlImage_minor {reference : String} (hminor : KubectlMinor reference) :
    (∀ version, table.lookup ("v" ++ trimPrefix (imageTag reference) "v") = some version →
      ∃ spec, officialKubectlImage reference kubernetesVersion table = .ok spec ∧
        spec.source = "registry.k8s.io/kubectl:" ++ version) ∧
    (table.lookup ("v" ++ trimPrefix (imageTag reference) "v") = none →
      ∃ message, officialKubectlImage reference kubernetesVersion table = .error message) := by
  unfold officialKubectlImage
  simp only [hclus, hminor.1, hminor.2, ne_eq, not_true_eq_false, if_false, if_true]
  constructor
  · intro version hver
    rw [hver]
    exact ⟨_, rfl, rfl⟩
  · intro hnone
    rw [hnone]
    exact ⟨_, rfl⟩

/-- If the tags are resolved, every observed minor version gets its official image
exactly if each tag without a `v` in front is also observed with it. -/
theorem kubectl_resolves_iff {semver : Semver} (hlaw : semver.Lawful)
    {order : List (String × String) → List (String × String)}
    (horder : ∀ items, (order items).Perm items)
    {observations : List RenderedImageObservation} {kubernetesVersion : String} {tags : List String}
    {table : List (String × String)}
    (h : resolveKubectlMinorTags semver (.ok tags) order observations kubernetesVersion =
      .ok table) :
    (∀ observation ∈ observations, KubectlMinor observation.reference →
      Resolves semver tags kubernetesVersion table observation.reference) ↔
    ∀ observation ∈ observations, KubectlMinor observation.reference →
      hasPrefix (imageTag observation.reference) "v" = false →
      ∃ other ∈ observations, KubectlMinor other.reference ∧
        imageTag other.reference = "v" ++ imageTag observation.reference := by
  obtain ⟨hcluster, hspec⟩ := resolveKubectlMinorTags_spec hlaw horder h
  constructor
  · intro hresolves observation hmem hminor hplain
    obtain ⟨spec, version, hok, -⟩ := hresolves observation hmem hminor
    by_contra hother
    have hnone := (hspec ("v" ++ imageTag observation.reference)).2 hother
    rw [← trimPrefix_of_not_hasPrefix hplain] at hnone
    obtain ⟨message, herror⟩ := (officialKubectlImage_minor hcluster hminor).2 hnone
    rw [hok] at herror
    cases herror
  intro hobserved observation hmem hminor
  have hfound : Observed observations ("v" ++ trimPrefix (imageTag observation.reference) "v") := by
    cases hplain : hasPrefix (imageTag observation.reference) "v" with
    | true =>
      rw [append_trimPrefix hplain]
      exact ⟨observation, hmem, hminor, rfl⟩
    | false =>
      rw [trimPrefix_of_not_hasPrefix hplain]
      exact hobserved observation hmem hminor hplain
  obtain ⟨version, hlookup, hof, hpatch⟩ := (hspec _).1 hfound
  obtain ⟨spec, hok, hsource⟩ := (officialKubectlImage_minor hcluster hminor).1 version hlookup
  -- The `v` in front does not matter for the comparison with the cluster.
  have hsame : OfCluster kubernetesVersion
      ("v" ++ trimPrefix (imageTag observation.reference) "v") ↔
      OfCluster kubernetesVersion (imageTag observation.reference) := by
    unfold OfCluster
    rw [trimPrefix_append]
  rw [hsame] at hof hpatch
  exact ⟨spec, version, hok, hsource, hof, hpatch⟩

/-- An observation of kubectl with a tag. -/
def kubectlObservation (tag : String) : RenderedImageObservation :=
  { artifact := "package/monitoring", reference := kubectlRepository ++ ":" ++ tag }

/-- Two patches of the minor version 1.29. -/
def publishedVersions : List (String × Version) :=
  [("1.29.1", { major := 1, minor := 29, patch := 1, prerelease := "", metadata := "" }),
    ("1.29.3", { major := 1, minor := 29, patch := 3, prerelease := "", metadata := "" })]

theorem kubectl_resolves_older :
    Resolves (tableSemver publishedVersions) ["v1.29.3", "v1.29.1"] "1.30.2"
      [("v1.29", "v1.29.3"), ("v1.30", "v1.30.2")] (kubectlRepository ++ ":v1.29") := by
  have hresolved : resolveKubectlMinorTags (tableSemver publishedVersions)
      (.ok ["v1.29.3", "v1.29.1"])
      id [kubectlObservation "v1.30", kubectlObservation "v1.29"] "1.30.2" =
        .ok [("v1.29", "v1.29.3"), ("v1.30", "v1.30.2")] := by decide +kernel
  have hresolves := (kubectl_resolves_iff (tableSemver_lawful (by decide +kernel))
    (fun items => List.Perm.refl items) hresolved).mpr (by decide +kernel)
  exact hresolves (kubectlObservation "v1.29") (by simp) (by decide +kernel)

/-- The minor version of the cluster without a `v`: the table has it, but it is not
found. -/
theorem kubectl_unresolved :
    resolveKubectlMinorTags (tableSemver []) (.ok []) id [kubectlObservation "1.30"] "1.30.2" =
      .ok [("1.30", "v1.30.2")] ∧ OfCluster "1.30.2" "1.30" ∧
    officialKubectlImage (kubectlRepository ++ ":1.30") "1.30.2" [("1.30", "v1.30.2")] =
      .error "rendered kubectl tag 1.30 has no resolved official patch" := by
  decide +kernel

end Atum.Images
