import Mathlib.Data.List.Sort
import Atum.Go.Outcome
import Atum.Release.Semver

/-!
# The catalog of a chart's releases

The updater lists the stable releases of a chart upstream, newest first, keeps
one release for each version and cuts the list at the release the project has
now.  The result is a `ChartCatalog`.  Its releases are fetched on demand and
kept in a cache by version, and `compatibleAt` looks for the releases that
support a given Kubernetes version, keeping for each Kubernetes version how far
it has scanned and what it has found.

`resolveChartCatalog_opened` says what a new catalog is: its versions are
distinct, nothing has been scanned yet, and the release the project has now is
in the cache and has passed its check.
-/

namespace Atum.Charts

open Atum.Go Atum.Release List SortedAssoc

/-! ## Releases -/

structure ChartRelease where
  version : String
  appVersion : String := ""
  kubeVersion : String := ""
  url : String := ""
  digest : String := ""
  archiveSHA : String := ""
  archivePath : String := ""
  deriving DecidableEq, Repr

/-- `semver.NewVersion(strings.TrimPrefix(text, "v"))`. -/
def semanticVersion (semver : Semver) (text : String) : Option Version :=
  semver.newVersion (trimPrefix text "v")

structure SemanticRelease where
  release : ChartRelease
  version : Version

/-- What `HTTPSReleases` and `OCIReleases` keep of the upstream listing: the
semantic versions that are not prereleases. -/
def stableReleases (semver : Semver) (found : List ChartRelease) : List SemanticRelease :=
  found.filterMap fun release =>
    match semanticVersion semver release.version with
    | some version => if version.prerelease = "" then some ⟨release, version⟩ else none
    | none => none

/-- The order of `sortChartReleases`: newer versions first, and the texts of one
version in the order of strings. -/
def releaseOrder (semver : Semver) (a b : SemanticRelease) : Ordering :=
  (semver.compare b.version a.version).then (compare a.release.version b.release.version)

def sortChartReleases (semver : Semver) (semantic : List SemanticRelease) : List ChartRelease :=
  (semantic.insertionSort fun a b => (releaseOrder semver a b).isLE).map (·.release)

/-- No release comes before a release of a newer version. -/
def Descending (semver : Semver) {T : Type} (versionOf : T → String) (items : List T) : Prop :=
  items.Pairwise fun a b => ∀ v w, semanticVersion semver (versionOf a) = some v →
    semanticVersion semver (versionOf b) = some w → semver.compare v w ≠ .lt

variable {semver : Semver} {a b : SemanticRelease}

theorem releaseOrder_isLE :
    (releaseOrder semver a b).isLE ↔ semver.compare b.version a.version = .lt ∨
      semver.compare b.version a.version = .eq ∧
        (compare a.release.version b.release.version).isLE :=
  Ordering.isLE_then_iff_or

theorem releaseOrder_total (hlaw : semver.Lawful) (a b : SemanticRelease) :
    (releaseOrder semver a b).isLE ∨ (releaseOrder semver b a).isLE := by
  rw [releaseOrder_isLE, releaseOrder_isLE]
  cases h : semver.compare b.version a.version with
  | lt => exact .inl (.inl rfl)
  | gt => exact .inr (.inl (hlaw.gt_iff_lt.mp h))
  | eq =>
    have hba := hlaw.eq_symm h
    cases htext : compare a.release.version b.release.version with
    | lt => exact .inl (.inr ⟨rfl, rfl⟩)
    | eq => exact .inl (.inr ⟨rfl, rfl⟩)
    | gt =>
      have hlt := Std.OrientedCmp.gt_iff_lt.mp htext
      exact .inr (.inr ⟨hba, by rw [hlt]; rfl⟩)

theorem releaseOrder_trans (hlaw : semver.Lawful) {c : SemanticRelease}
    (hab : (releaseOrder semver a b).isLE) (hbc : (releaseOrder semver b c).isLE) :
    (releaseOrder semver a c).isLE := by
  have := hlaw.transCmp
  rw [releaseOrder_isLE] at hab hbc ⊢
  rcases hab with hab | ⟨hab, htext⟩
  · rcases hbc with hbc | ⟨hbc, -⟩
    · exact .inl (Std.TransCmp.lt_trans hbc hab)
    · exact .inl (Std.TransCmp.lt_of_eq_of_lt hbc hab)
  · rcases hbc with hbc | ⟨hbc, htext'⟩
    · exact .inl (Std.TransCmp.lt_of_lt_of_eq hbc hab)
    · exact .inr ⟨Std.TransCmp.eq_trans hbc hab, Std.TransCmp.isLE_trans htext htext'⟩

variable {found : List ChartRelease}

theorem mem_stableReleases {entry : SemanticRelease} (h : entry ∈ stableReleases semver found) :
    semanticVersion semver entry.release.version = some entry.version := by
  obtain ⟨release, -, hkept⟩ := mem_filterMap.mp h
  cases hver : semanticVersion semver release.version with
  | none => simp [hver] at hkept
  | some version =>
    simp only [hver] at hkept
    by_cases hstable : version.prerelease = ""
    · rw [if_pos hstable, Option.some.injEq] at hkept
      rw [← hkept]
      exact hver
    · simp [hstable] at hkept

/-- The sorted listing is descending.  `sort.Slice` leaves open how it orders
two entries of one version text, and nothing below depends on that order. -/
theorem sortChartReleases_descending (hlaw : semver.Lawful) (found : List ChartRelease) :
    Descending semver (·.version) (sortChartReleases semver (stableReleases semver found)) := by
  have : Std.Total fun a b : SemanticRelease => (releaseOrder semver a b).isLE = true :=
    ⟨releaseOrder_total hlaw⟩
  have : IsTrans SemanticRelease fun a b => (releaseOrder semver a b).isLE = true :=
    ⟨fun _ _ _ => releaseOrder_trans hlaw⟩
  have hsorted := pairwise_insertionSort
    (fun a b => (releaseOrder semver a b).isLE = true) (stableReleases semver found)
  refine pairwise_map.mpr (hsorted.imp_of_mem fun {a b} ha hb hle v w hv hw hlt => ?_)
  rw [mem_stableReleases ((mem_insertionSort _).mp ha), Option.some.injEq] at hv
  rw [mem_stableReleases ((mem_insertionSort _).mp hb), Option.some.injEq] at hw
  subst hv hw
  have hgt : semver.compare b.version a.version = .gt := hlaw.gt_iff_lt.mpr hlt
  rw [releaseOrder_isLE, hgt] at hle
  exact hle.elim (fun h => absurd h (by decide)) fun h => absurd h.1 (by decide)

variable {release : ChartRelease}

theorem sortChartReleases_semantic
    (h : release ∈ sortChartReleases semver (stableReleases semver found)) :
    (semanticVersion semver release.version).isSome := by
  obtain ⟨entry, hent, rfl⟩ := mem_map.mp h
  rw [mem_stableReleases ((mem_insertionSort _).mp hent)]
  rfl

/-- The stable releases of a listing upstream, sorted. -/
structure ReleaseListing (semver : Semver) where
  releases : List ChartRelease
  semantic : ∀ release ∈ releases, (semanticVersion semver release.version).isSome
  descending : Descending semver (·.version) releases

/-- What `HTTPSReleases` and `OCIReleases` return for the entries they found. -/
def ReleaseListing.ofFound {semver : Semver} (hlaw : semver.Lawful) (found : List ChartRelease) :
    ReleaseListing semver :=
  ⟨sortChartReleases semver (stableReleases semver found), fun _ => sortChartReleases_semantic,
    sortChartReleases_descending hlaw found⟩

/-! ## One release for each version -/

section Canonical

variable {T : Type} (semver : Semver) (versionOf : T → String)

/-- The item has a semantic version, and it is the given one. -/
def ofVersion (version : Version) (item : T) : Bool :=
  (semanticVersion semver (versionOf item)).any (semver.equal · version)

/-- The choice among the texts of one version: the text in use now, or the last
one that has a `v` exactly if the text in use now has one, or the first one. -/
def chosenItem (current : String) (currentVersion version : Version) (first : T)
    (same : List T) : T :=
  let inUse :=
    if semver.equal version currentVersion then
      (first :: same).find? fun item => versionOf item == current
    else none
  let alike := (first :: same).filter fun item =>
    hasPrefix (versionOf item) "v" == hasPrefix current "v"
  inUse.getD (alike.getLast?.getD first)

/-- The loop of `canonicalSemanticVersions` over the groups of equal versions. -/
def canonicalGroups (current itemLabel : String) (currentVersion : Version) :
    List T → Except String (List T)
  | [] => .ok []
  | first :: rest =>
    match semanticVersion semver (versionOf first) with
    | none => .error (itemLabel ++ " " ++ quote (versionOf first) ++ " is not semantic")
    | some version => do
      let same := rest.takeWhile (ofVersion semver versionOf version)
      let chosen := chosenItem semver versionOf current currentVersion version first same
      let others ← canonicalGroups current itemLabel currentVersion
        (rest.dropWhile (ofVersion semver versionOf version))
      return chosen :: others
  termination_by items => items.length
  decreasing_by exact Nat.lt_succ_of_le (List.length_dropWhile_le _ rest)

def canonicalSemanticVersions (items : List T) (current currentLabel itemLabel : String) :
    Except String (List T) :=
  match semanticVersion semver current with
  | none => .error ("current " ++ currentLabel ++ " " ++ quote current ++ " is not semantic")
  | some currentVersion =>
    canonicalGroups semver versionOf current itemLabel currentVersion items

variable {semver versionOf}

theorem chosenItem_mem (current : String) (currentVersion version : Version) (first : T)
    (same : List T) :
    chosenItem semver versionOf current currentVersion version first same ∈ first :: same := by
  have hget : ∀ (o : Option T) (d : T), (∀ item, o = some item → item ∈ first :: same) →
      d ∈ first :: same → o.getD d ∈ first :: same := by
    intro o d ho hd
    cases o with
    | none => exact hd
    | some item => exact ho item rfl
  refine hget _ _ (fun item h => ?_)
    (hget _ _ (fun item h => ?_) (mem_cons_self ..))
  · split at h
    · exact mem_of_find?_eq_some h
    · cases h
  · exact mem_of_mem_filter (mem_of_getLast? h)

variable {currentVersion version : Version} {rest : List T} {first : T}

/-- The chosen item has the version of its group. -/
theorem chosenItem_version (hlaw : semver.Lawful) {current : String} {v : Version}
    (hfirst : semanticVersion semver (versionOf first) = some version)
    (hv : semanticVersion semver (versionOf (chosenItem semver versionOf current currentVersion
      version first (rest.takeWhile (ofVersion semver versionOf version)))) = some v) :
    semver.compare v version = .eq := by
  rcases mem_cons.mp (chosenItem_mem current currentVersion version first
    (rest.takeWhile (ofVersion semver versionOf version))) with heq | hin
  · rw [heq, hfirst, Option.some.injEq] at hv
    rw [← hv]
    exact hlaw.compare_self version
  · have hof := mem_takeWhile_imp hin
    simpa [ofVersion, hv, Semver.equal] using hof

/-- Behind the items of the first version every version is older. -/
theorem older_of_mem_dropWhile (hlaw : semver.Lawful)
    (hfirst : semanticVersion semver (versionOf first) = some version)
    (hsemantic : ∀ item ∈ rest, (semanticVersion semver (versionOf item)).isSome)
    (hsorted : Descending semver versionOf (first :: rest)) {item : T} {other : Version}
    (hother : semanticVersion semver (versionOf item) = some other)
    (hitem : item ∈ rest.dropWhile (ofVersion semver versionOf version)) :
    semver.compare version other = .gt := by
  have := hlaw.transCmp
  induction rest with
  | nil => cases hitem
  | cons head tail ih =>
    cases hhead : ofVersion semver versionOf version head with
    | true =>
      rw [dropWhile_cons_of_pos hhead] at hitem
      exact ih (fun item h => hsemantic item (mem_cons_of_mem _ h))
        (hsorted.sublist ((sublist_cons_self head tail).cons_cons first)) hitem
    | false =>
      rw [dropWhile_cons_of_neg (by simp [hhead])] at hitem
      obtain ⟨next, hnext⟩ := Option.isSome_iff_exists.mp (hsemantic head (mem_cons_self ..))
      have hne : semver.compare next version ≠ .eq := by
        intro h
        simp [ofVersion, hnext, Semver.equal, h] at hhead
      have hge : semver.compare version next ≠ .lt :=
        rel_of_pairwise_cons hsorted (mem_cons_self ..) version next hfirst hnext
      have hlt : semver.compare next version = .lt := by
        cases h : semver.compare next version with
        | lt => rfl
        | eq => exact absurd h hne
        | gt => exact absurd (hlaw.gt_iff_lt.mp h) hge
      refine hlaw.gt_iff_lt.mpr ?_
      rcases mem_cons.mp hitem with rfl | hin
      · rw [hnext, Option.some.injEq] at hother
        rw [← hother]
        exact hlt
      have hle : semver.compare next other ≠ .lt :=
        rel_of_pairwise_cons (pairwise_cons.mp hsorted).2 hin next other hnext hother
      refine Std.TransCmp.lt_of_isLE_of_lt ?_ hlt
      cases h : semver.compare other next with
      | lt => rfl
      | eq => rfl
      | gt => exact absurd (hlaw.gt_iff_lt.mp h) hle

/-- Among the items that `canonicalSemanticVersions` keeps, a later one has an
older version. -/
theorem canonicalGroups_pairwise (hlaw : semver.Lawful) {current itemLabel : String}
    (items : List T) (hsemantic : ∀ item ∈ items, (semanticVersion semver (versionOf item)).isSome)
    (hsorted : Descending semver versionOf items) {kept : List T}
    (h : canonicalGroups semver versionOf current itemLabel currentVersion items = .ok kept) :
    (∀ item ∈ kept, item ∈ items) ∧
      kept.Pairwise fun a b => ∀ v w, semanticVersion semver (versionOf a) = some v →
        semanticVersion semver (versionOf b) = some w → semver.compare v w = .gt := by
  have := hlaw.transCmp
  induction items using canonicalGroups.induct semver versionOf current currentVersion
    generalizing kept with
  | case1 =>
    rw [canonicalGroups] at h
    cases h
    exact ⟨fun _ hitem => hitem, List.Pairwise.nil⟩
  | case2 first rest hnone =>
    rw [canonicalGroups, hnone] at h
    cases h
  | case3 first rest version hfirst ih =>
    simp only [canonicalGroups, hfirst] at h
    obtain ⟨others, hothers, h⟩ := bind_eq_ok.mp h
    cases h
    have hsuf : rest.dropWhile (ofVersion semver versionOf version) <:+ rest :=
      dropWhile_suffix _
    have hrest : ∀ item ∈ rest, (semanticVersion semver (versionOf item)).isSome :=
      fun item hitem => hsemantic item (mem_cons_of_mem _ hitem)
    obtain ⟨hmem, hpairs⟩ := ih (fun item hitem => hrest item (hsuf.subset hitem))
      ((pairwise_cons.mp hsorted).2.sublist hsuf.sublist) hothers
    refine ⟨fun item hitem => ?_, pairwise_cons.mpr ⟨fun item hitem v w hv hw => ?_, hpairs⟩⟩
    · rcases mem_cons.mp hitem with rfl | hitem
      · exact cons_subset_cons first (takeWhile_subset _) (chosenItem_mem ..)
      · exact mem_cons_of_mem _ (hsuf.subset (hmem item hitem))
    · rw [Std.TransCmp.congr_left (chosenItem_version hlaw hfirst hv)]
      exact older_of_mem_dropWhile hlaw hfirst hrest hsorted hw (hmem item hitem)

end Canonical

def canonicalChartReleases (semver : Semver) (releases : List ChartRelease) (current : String) :
    Except String (List ChartRelease) :=
  canonicalSemanticVersions semver (·.version) releases current "chart version" "chart release"

variable {current : String}

/-- No version of a listing is kept twice. -/
theorem canonicalChartReleases_nodup (hlaw : semver.Lawful)
    (listing : ReleaseListing semver) {kept : List ChartRelease}
    (h : canonicalChartReleases semver listing.releases current = .ok kept) :
    (kept.map (·.version)).Nodup := by
  unfold canonicalChartReleases canonicalSemanticVersions at h
  cases hcur : semanticVersion semver current with
  | none => simp [hcur] at h
  | some currentVersion =>
    simp only [hcur] at h
    obtain ⟨hmem, hpairs⟩ :=
      canonicalGroups_pairwise hlaw listing.releases listing.semantic listing.descending h
    refine pairwise_map.mpr (hpairs.imp_of_mem fun {a b} ha _ hgt heq => ?_)
    obtain ⟨v, hv⟩ := Option.isSome_iff_exists.mp (listing.semantic a (hmem a ha))
    have hself := hgt v v hv (heq ▸ hv)
    rw [hlaw.compare_self] at hself
    cases hself

/-! ## Fetching a release -/

/-- What `readChartMetadata` reads from a chart archive. -/
structure ChartMetadata where
  name : String
  version : String
  appVersion : String
  kubeVersion : String
  deriving DecidableEq, Repr

/-- What `chartClient.Fetch` fills in: where the archive is and what it is. -/
structure Archive where
  digest : String
  archiveSHA : String
  archivePath : String
  deriving DecidableEq, Repr

/-- The registry and the chart cache on disk at one moment. -/
structure ChartClient where
  fetch : ChartRelease → Except String Archive
  readChartMetadata : String → Except String ChartMetadata

structure ChartSource where
  type : String
  url : String := ""
  digest : String := ""
  deriving DecidableEq, Repr

structure ChartCatalog where
  id : String
  name : String
  current : String
  currentArchiveSHA : String
  source : ChartSource
  releases : List ChartRelease
  deriving DecidableEq, Repr

inductive CatalogError where
  | releases (id reason : String)
  | absent (id release : String)
  | fetch (reason : String)
  | current (reason : String)
  | negativeOffset (id : String)
  | kubernetesVersion (version : String)
  | constraint (id value : String)
  | noCompatible (id version : String) (failures : List String)
  deriving DecidableEq, Repr

/-- The text of the error, up to the text of an error it wraps. -/
def CatalogError.text : CatalogError → String
  | .releases id reason => "resolve chart " ++ id ++ " releases: " ++ reason
  | .absent id release =>
    "chart " ++ id ++ " current release " ++ release ++
      " is absent from its stable upstream release set"
  | .fetch reason => reason
  | .current reason => reason
  | .negativeOffset id => "chart " ++ id ++ " compatibility offset cannot be negative"
  | .kubernetesVersion version => "parse Kubernetes version " ++ version
  | .constraint id value => "parse chart " ++ id ++ " Kubernetes constraint " ++ value
  | .noCompatible id version failures =>
    "no compatible Kubernetes release: chart " ++ id ++
      " has no release compatible with Kubernetes " ++ version ++
      " (" ++ join failures "; " ++ ")"

/-- The releases that have been fetched, by version. -/
abbrev Fetched := List (String × ChartRelease)

structure CompatibilityState where
  scanned : Nat := 0
  matched : List ChartRelease := []
  failures : List String := []
  deriving DecidableEq, Repr

/-- A release has been scanned, with the failure it shows. -/
def CompatibilityState.note (state : CompatibilityState) (fetched : ChartRelease) :
    Option String → CompatibilityState
  | none => { state with scanned := state.scanned + 1, matched := state.matched ++ [fetched] }
  | some failure =>
    { state with scanned := state.scanned + 1, failures := state.failures ++ [failure] }

structure CatalogState where
  fetched : Fetched := []
  compatibility : List (String × CompatibilityState) := []
  deriving DecidableEq, Repr

namespace ChartCatalog

variable (semver : Semver) (catalog : ChartCatalog)

/-- The part of `fetch` that leaves the cache aside. -/
def download (client : ChartClient) (release : ChartRelease) : Except String ChartRelease := do
  let archive ← client.fetch release
  let metadata ← client.readChartMetadata archive.archivePath
  if metadata.name ≠ catalog.name ∨ metadata.version ≠ release.version then
    throw ("chart " ++ catalog.id ++ " release " ++ release.version ++ " contains chart " ++
      metadata.name ++ " version " ++ metadata.version)
  return { release with
    digest := archive.digest, archiveSHA := archive.archiveSHA, archivePath := archive.archivePath,
    appVersion := metadata.appVersion, kubeVersion := metadata.kubeVersion }

def fetch (client : ChartClient) (release : ChartRelease) (fetched : Fetched) :
    Except CatalogError ChartRelease × Fetched :=
  match fetched.lookup release.version with
  | some cached => (.ok cached, fetched)
  | none =>
    match catalog.download client release with
    | .error reason => (.error (.fetch reason), fetched)
    | .ok found => (.ok found, (release.version, found) :: fetched)

def verifyCurrent (fetched : ChartRelease) : Except CatalogError Unit := do
  if fetched.version ≠ catalog.current then
    throw (.current ("chart " ++ catalog.id ++ " current material resolved release " ++
      fetched.version ++ ", want " ++ catalog.current))
  if fetched.archiveSHA ≠ catalog.currentArchiveSHA then
    throw (.current ("chart " ++ catalog.id ++ " current archive changed from " ++
      catalog.currentArchiveSHA ++ " to " ++ fetched.archiveSHA))
  if catalog.source.type = "oci" ∧ fetched.digest ≠ catalog.source.digest then
    throw (.current ("chart " ++ catalog.id ++ " current OCI digest changed from " ++
      catalog.source.digest ++ " to " ++ fetched.digest))
  if catalog.source.type = "https" ∧ fetched.url ≠ catalog.source.url then
    throw (.current ("chart " ++ catalog.id ++ " current archive URL changed from " ++
      catalog.source.url ++ " to " ++ fetched.url))

end ChartCatalog

/-! ## Compatibility of a release -/

/-- The reason why a release with this application version is not eligible, if
it is not. -/
def eligibleChartAppVersion (semver : Semver) (appVersion : String) : Option String :=
  let appVersion := trimSpace appVersion
  if appVersion = "" then some "has no appVersion"
  else
    match semanticVersion semver appVersion with
    | some version =>
      if version.prerelease ≠ "" then some ("deploys prerelease appVersion " ++ appVersion)
      else none
    | none => none

def normalizeConstraint (value : String) : String :=
  join (fields (trim value "\"'")) " "

def chartSupportsKubernetes (semver : Semver) (id constraint : String) (version : Version) :
    Except CatalogError Bool :=
  let constraint := normalizeConstraint constraint
  if constraint = "" then .ok true
  else
    match semver.newConstraint constraint with
    | none => .error (.constraint id constraint)
    | some parsed => .ok (parsed.check version)

namespace ChartCatalog

variable (semver : Semver) (catalog : ChartCatalog)

/-- The failure that the loop of `compatibleAt` notes for a release, or none if
the release is a match. -/
def judge (version : Version) (found : ChartRelease) : Except CatalogError (Option String) :=
  match eligibleChartAppVersion semver found.appVersion with
  | some reason => .ok (some (found.version ++ " " ++ reason))
  | none => do
    if ← chartSupportsKubernetes semver catalog.id found.kubeVersion version then return none
    return some (found.version ++ " requires " ++ found.kubeVersion)

/-- The loop of `compatibleAt` over one fetched release. -/
def examine (version : Version) (found : ChartRelease) :
    Except CatalogError (Option String) := do
  if found.version = catalog.current then
    catalog.verifyCurrent found
  catalog.judge semver version found

/-- The loop of `compatibleAt` over the releases that are not scanned yet.  What
it has fetched and noted stays when it stops at an error. -/
def scan (client : ChartClient) (version : Version) (offset : Nat) :
    List ChartRelease → Fetched → CompatibilityState →
      Option CatalogError × Fetched × CompatibilityState
  | [], fetched, state => (none, fetched, state)
  | release :: rest, fetched, state =>
    if offset < state.matched.length then (none, fetched, state)
    else
      match catalog.fetch client release fetched with
      | (.error err, fetched) => (some err, fetched, state)
      | (.ok found, fetched) =>
        match catalog.examine semver version found with
        | .error err => (some err, fetched, state)
        | .ok failure => scan client version offset rest fetched (state.note found failure)

def compatibleAt (client : ChartClient) (kubernetesVersion : String) (offset : Int)
    (state : CatalogState) : Except CatalogError ChartRelease × CatalogState :=
  if offset < 0 then (.error (.negativeOffset catalog.id), state)
  else
    match semanticVersion semver kubernetesVersion with
    | none => (.error (.kubernetesVersion kubernetesVersion), state)
    | some version =>
      let before := (state.compatibility.lookup kubernetesVersion).getD {}
      let (failure, fetched, after) := catalog.scan semver client version offset.toNat
        (catalog.releases.drop before.scanned) state.fetched before
      let state := ⟨fetched, (kubernetesVersion, after) :: state.compatibility⟩
      match failure with
      | some err => (.error err, state)
      | none =>
        match after.matched[offset.toNat]? with
        | some release => (.ok release, state)
        | none => (.error (.noCompatible catalog.id kubernetesVersion after.failures), state)

end ChartCatalog

/-! ## Opening a catalog -/

def chartReleaseCandidates (semver : Semver) (releases : List ChartRelease) (currentIndex : Nat)
    (currentAppVersion : String) : List ChartRelease :=
  match eligibleChartAppVersion semver currentAppVersion with
  | none => releases.take (currentIndex + 1)
  | some _ => releases

def resolveChartCatalog (semver : Semver) (client : ChartClient)
    (id name current currentArchiveSHA : String) (source : ChartSource)
    (listing : ReleaseListing semver) : Except CatalogError (ChartCatalog × CatalogState) :=
  match canonicalChartReleases semver listing.releases current with
  | .error reason => .error (.releases id reason)
  | .ok releases =>
    match releases.find? (·.version = current) with
    | none => .error (.absent id current)
    | some release => do
      let currentIndex := releases.findIdx (·.version = current)
      let catalog : ChartCatalog :=
        ⟨id, name, current, currentArchiveSHA, source, releases.take (currentIndex + 1)⟩
      let (found, fetched) := catalog.fetch client release []
      let currentRelease ← found
      catalog.verifyCurrent currentRelease
      return ({ catalog with
        releases := chartReleaseCandidates semver releases currentIndex currentRelease.appVersion },
        { fetched := fetched })

/-- What a catalog is before its first search: `client` has fetched what is in
the cache, and the release in use now is there and has passed its check. -/
structure Opened (client : ChartClient) (catalog : ChartCatalog) (state : CatalogState) :
    Prop where
  distinct : (catalog.releases.map (·.version)).Nodup
  unscanned : state.compatibility = []
  fetched : ∀ version found, state.fetched.lookup version = some found →
    ∃ release ∈ catalog.releases, release.version = version ∧
      catalog.download client release = .ok found
  current : ∃ found, state.fetched.lookup catalog.current = some found ∧
    catalog.verifyCurrent found = .ok ()

theorem chartReleaseCandidates_sublist (semver : Semver) (releases : List ChartRelease)
    (currentIndex : Nat) (currentAppVersion : String) :
    (chartReleaseCandidates semver releases currentIndex currentAppVersion).Sublist releases := by
  unfold chartReleaseCandidates
  cases eligibleChartAppVersion semver currentAppVersion with
  | none => exact take_sublist _ _
  | some reason => exact List.Sublist.refl _

theorem mem_take_findIdx {T : Type} {p : T → Bool} {items : List T} {item : T}
    (h : items.find? p = some item) : item ∈ items.take (items.findIdx p + 1) := by
  induction items with
  | nil => cases h
  | cons head tail ih =>
    cases hp : p head with
    | true =>
      rw [List.find?_cons_of_pos hp, Option.some.injEq] at h
      rw [h]
      exact mem_cons_self ..
    | false =>
      rw [List.find?_cons_of_neg (by simp [hp])] at h
      rw [findIdx_cons, hp]
      exact mem_cons_of_mem _ (ih h)

/-- The release in use now stays a candidate. -/
theorem mem_chartReleaseCandidates {releases : List ChartRelease}
    (h : releases.find? (·.version = current) = some release) (currentAppVersion : String) :
    release ∈ chartReleaseCandidates semver releases (releases.findIdx (·.version = current))
      currentAppVersion := by
  unfold chartReleaseCandidates
  cases eligibleChartAppVersion semver currentAppVersion with
  | some reason => exact mem_of_find?_eq_some h
  | none => exact mem_take_findIdx h

theorem resolveChartCatalog_opened (hlaw : semver.Lawful) {client : ChartClient}
    {id name currentArchiveSHA : String} {source : ChartSource}
    {listing : ReleaseListing semver} {catalog : ChartCatalog} {state : CatalogState}
    (h : resolveChartCatalog semver client id name current currentArchiveSHA source listing =
      .ok (catalog, state)) : Opened client catalog state := by
  unfold resolveChartCatalog at h
  cases hkept : canonicalChartReleases semver listing.releases current with
  | error reason => simp [hkept] at h
  | ok releases =>
    cases hrel : releases.find? (·.version = current) with
    | none => simp [hkept, hrel] at h
    | some release =>
      simp only [hkept, hrel, ChartCatalog.fetch, lookup_nil] at h
      set opening : ChartCatalog := ⟨id, name, current, currentArchiveSHA, source,
        releases.take (releases.findIdx (·.version = current) + 1)⟩
      cases hfound : opening.download client release with
      | error reason => simp [hfound, bind, Except.bind] at h
      | ok found =>
        simp only [hfound] at h
        obtain ⟨_, hok, h⟩ := bind_eq_ok.mp h
        cases hok
        obtain ⟨⟨⟩, hverified, h⟩ := bind_eq_ok.mp h
        cases h
        have hver : release.version = current := by
          simpa using List.find?_some hrel
        refine ⟨?_, rfl, fun version other hlook => ?_, found, ?_, hverified⟩
        · dsimp only
          exact (canonicalChartReleases_nodup hlaw listing hkept).sublist
            ((chartReleaseCandidates_sublist ..).map _)
        · rcases lookup_cons_eq_some.mp hlook with ⟨hkey, rfl⟩ | ⟨-, hnone⟩
          · dsimp only
            exact ⟨release, mem_chartReleaseCandidates hrel _, hkey.symm, hfound⟩
          · cases hnone
        · exact lookup_cons_eq_some.mpr (.inl ⟨hver.symm, rfl⟩)

end Atum.Charts
