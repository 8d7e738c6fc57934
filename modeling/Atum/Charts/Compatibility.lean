import Atum.Charts.Catalog

/-!
# Searching a catalog

A search asks a catalog for the `offset`-th release that supports a Kubernetes
version.  Searches for many versions and offsets follow one another, each one
starts from what the earlier ones have fetched and scanned, and a search that
fails leaves behind what it had done.

`compatibleReleases` is the list that all searches together work on: every
release of the catalog as it turns out to be when it is fetched, without those
that are not eligible or do not support the version.  A search that does not
fail is an access to this list (`Answers`).  What carries this over any history
of searches is `Scans`: the matches noted for a Kubernetes version are those
among the releases scanned for it.
-/

namespace Atum.Charts

open Atum.Go Atum.Release List SortedAssoc

variable {semver : Semver} {catalog : ChartCatalog}

/-! ## The list a search accesses -/

/-- The constraint of a fetched release accepts the Kubernetes version. -/
def acceptsKubernetes (semver : Semver) (version : Version) (found : ChartRelease) : Bool :=
  normalizeConstraint found.kubeVersion == "" ||
    (semver.newConstraint (normalizeConstraint found.kubeVersion)).any (·.check version)

/-- The application version is eligible and the constraint accepts. -/
def suits (semver : Semver) (version : Version) (found : ChartRelease) : Bool :=
  (eligibleChartAppVersion semver found.appVersion).isNone && acceptsKubernetes semver version found

/-- The naive search: `material` says what fetching a release gives. -/
def compatibleReleases (semver : Semver) (catalog : ChartCatalog)
    (material : ChartRelease → ChartRelease) (version : Version) : List ChartRelease :=
  (catalog.releases.map material).filter (suits semver version)

/-! ## The cache -/

/-- Nothing that was in the cache is lost or replaced. -/
def Extends (fetched fetched' : Fetched) : Prop :=
  ∀ version found, fetched.lookup version = some found → fetched'.lookup version = some found

theorem Extends.refl (fetched : Fetched) : Extends fetched fetched := fun _ _ h => h

theorem Extends.trans {a b c : Fetched} (hab : Extends a b) (hbc : Extends b c) : Extends a c :=
  fun version found h => hbc version found (hab version found h)

/-- A release in the cache has the version it is kept under, and the one in use
now is in the cache and has passed its check. -/
structure Kept (catalog : ChartCatalog) (fetched : Fetched) : Prop where
  version : ∀ version found, fetched.lookup version = some found → found.version = version
  current : ∃ found, fetched.lookup catalog.current = some found ∧
    catalog.verifyCurrent found = .ok ()

variable {version : String}

/-- A release in the cache that has the version in use now has passed its
check. -/
theorem Kept.verified {fetched : Fetched} (h : Kept catalog fetched)
    {found : ChartRelease} (hcached : fetched.lookup version = some found)
    (hver : found.version = catalog.current) : catalog.verifyCurrent found = .ok () := by
  obtain ⟨current, hcur, hverified⟩ := h.current
  rw [h.version _ _ hcached] at hver
  rw [← hver, hcached, Option.some.injEq] at hcur
  rw [hcur]
  exact hverified

/-- The cache holds what `material` says. -/
def Agrees (catalog : ChartCatalog) (material : ChartRelease → ChartRelease)
    (fetched : Fetched) : Prop :=
  ∀ release ∈ catalog.releases, ∀ found, fetched.lookup release.version = some found →
    found = material release

/-- The material in the cache, and a release that is not in it as it is listed. -/
def CatalogState.material (state : CatalogState) (release : ChartRelease) : ChartRelease :=
  (state.fetched.lookup release.version).getD release

variable {fetched fetched' : Fetched} {material : ChartRelease → ChartRelease}

theorem Agrees.anti (h : Agrees catalog material fetched') (hext : Extends fetched fetched') :
    Agrees catalog material fetched :=
  fun release hrel found hfound => h release hrel found (hext _ _ hfound)

/-- What a client downloads is what `material` says.  A search returns a release with its
archive, so two downloads with the same metadata and different archives are two results;
hence the whole release is what has to stay the same. -/
def Delivers (catalog : ChartCatalog) (material : ChartRelease → ChartRelease)
    (client : ChartClient) : Prop :=
  ∀ release ∈ catalog.releases, ∀ found, catalog.download client release = .ok found →
    found = material release

variable {client : ChartClient} {release found : ChartRelease}

theorem download_version
    (h : catalog.download client release = .ok found) : found.version = release.version := by
  obtain ⟨archive, -, h⟩ := bind_eq_ok.mp h
  obtain ⟨metadata, -, h⟩ := bind_eq_ok.mp h
  obtain ⟨-, h⟩ := ite_throw_bind_eq_ok.mp h
  cases h
  rfl

/-- A successful fetch leaves the release in the cache. -/
theorem fetch_ok (h : catalog.fetch client release fetched = (.ok found, fetched')) :
    fetched'.lookup release.version = some found ∧
      (fetched' = fetched ∨ fetched.lookup release.version = none ∧
        catalog.download client release = .ok found ∧
        fetched' = (release.version, found) :: fetched) := by
  unfold ChartCatalog.fetch at h
  cases hcached : fetched.lookup release.version with
  | some cached =>
    simp only [hcached] at h
    cases h
    exact ⟨hcached, .inl rfl⟩
  | none =>
    cases hdownload : catalog.download client release with
    | error reason => simp [hcached, hdownload] at h
    | ok downloaded =>
      simp only [hcached, hdownload] at h
      cases h
      exact ⟨lookup_cons_self, .inr ⟨rfl, rfl, rfl⟩⟩

theorem fetch_error
    {err : CatalogError} (h : catalog.fetch client release fetched = (.error err, fetched')) :
    fetched' = fetched ∧ ∃ reason, err = .fetch reason ∧
      catalog.download client release = .error reason := by
  unfold ChartCatalog.fetch at h
  cases hcached : fetched.lookup release.version with
  | some cached => simp [hcached] at h
  | none =>
    cases hdownload : catalog.download client release with
    | ok downloaded => simp [hcached, hdownload] at h
    | error reason =>
      simp only [hcached, hdownload] at h
      cases h
      exact ⟨rfl, reason, rfl, rfl⟩

theorem extends_cons {fetched : Fetched} {found : ChartRelease}
    (h : fetched.lookup version = none) : Extends fetched ((version, found) :: fetched) := by
  intro key other hother
  refine lookup_cons_eq_some.mpr (.inr ⟨?_, hother⟩)
  rintro rfl
  rw [h] at hother
  cases hother

theorem fetch_extends (h : catalog.fetch client release fetched = (.ok found, fetched')) :
    Extends fetched fetched' := by
  rcases (fetch_ok h).2 with rfl | ⟨hnone, -, rfl⟩
  · exact Extends.refl _
  · exact extends_cons hnone

theorem fetch_kept (hkept : Kept catalog fetched)
    (h : catalog.fetch client release fetched = (.ok found, fetched')) : Kept catalog fetched' := by
  obtain ⟨current, hcur, hverified⟩ := hkept.current
  refine ⟨fun version other hother => ?_, current, fetch_extends h _ _ hcur, hverified⟩
  rcases (fetch_ok h).2 with rfl | ⟨-, hdownload, rfl⟩
  · exact hkept.version version other hother
  rcases lookup_cons_eq_some.mp hother with ⟨hkey, rfl⟩ | ⟨-, hother⟩
  · rw [download_version hdownload, hkey]
  · exact hkept.version version other hother

/-- The cache goes on agreeing with `material` when the client delivers it. -/
theorem fetch_agrees (hdist : (catalog.releases.map (·.version)).Nodup)
    (hdelivers : Delivers catalog material client) (hagrees : Agrees catalog material fetched)
    (hrel : release ∈ catalog.releases)
    (h : catalog.fetch client release fetched = (.ok found, fetched')) :
    Agrees catalog material fetched' := by
  rcases (fetch_ok h).2 with rfl | ⟨-, hdownload, rfl⟩
  · exact hagrees
  intro other hother value hval
  rcases lookup_cons_eq_some.mp hval with ⟨hkey, rfl⟩ | ⟨-, hval⟩
  · rw [inj_on_of_nodup_map hdist hother hrel hkey]
    exact hdelivers release hrel found hdownload
  · exact hagrees other hother value hval

/-! ## One release -/

/-- A constraint of an eligible release that the package does not read. -/
def BadConstraint (semver : Semver) (found : ChartRelease) : Prop :=
  eligibleChartAppVersion semver found.appVersion = none ∧
    normalizeConstraint found.kubeVersion ≠ "" ∧
    semver.newConstraint (normalizeConstraint found.kubeVersion) = none

/-- A constraint is read or not, and what is read accepts or not. -/
theorem chartSupportsKubernetes_cases (semver : Semver) (id : String) (version : Version)
    (found : ChartRelease) : (normalizeConstraint found.kubeVersion ≠ "" ∧
        semver.newConstraint (normalizeConstraint found.kubeVersion) = none ∧
        chartSupportsKubernetes semver id found.kubeVersion version =
          .error (.constraint id (normalizeConstraint found.kubeVersion))) ∨
      chartSupportsKubernetes semver id found.kubeVersion version =
        .ok (acceptsKubernetes semver version found) := by
  by_cases hempty : normalizeConstraint found.kubeVersion = ""
  · right
    simp [chartSupportsKubernetes, acceptsKubernetes, hempty]
  cases hparsed : semver.newConstraint (normalizeConstraint found.kubeVersion) with
  | none =>
    left
    exact ⟨hempty, rfl, by simp [chartSupportsKubernetes, hempty, hparsed]⟩
  | some parsed =>
    right
    simp [chartSupportsKubernetes, acceptsKubernetes, hempty, hparsed]

/-- A release that passes the check of the release in use now is judged by its
application version and its constraint. -/
theorem examine_cases (semver : Semver) (version : Version) {found : ChartRelease}
    (hcur : found.version = catalog.current → catalog.verifyCurrent found = .ok ()) :
    (BadConstraint semver found ∧ catalog.examine semver version found =
        .error (.constraint catalog.id (normalizeConstraint found.kubeVersion))) ∨
      ∃ failure, catalog.examine semver version found = .ok failure ∧
        failure.isNone = suits semver version found := by
  have hjudge : catalog.examine semver version found = catalog.judge semver version found := by
    unfold ChartCatalog.examine
    by_cases h : found.version = catalog.current
    · rw [if_pos h, hcur h]
      rfl
    · rw [if_neg h]
  rw [hjudge]
  unfold ChartCatalog.judge suits
  cases heligible : eligibleChartAppVersion semver found.appVersion with
  | some reason => exact .inr ⟨_, rfl, rfl⟩
  | none =>
    rcases chartSupportsKubernetes_cases semver catalog.id version found with
      ⟨hempty, hparsed, herr⟩ | hok
    · exact .inl ⟨⟨heligible, hempty, hparsed⟩, by rw [herr]; rfl⟩
    right
    rw [hok]
    cases acceptsKubernetes semver version found with
    | true => exact ⟨_, rfl, rfl⟩
    | false => exact ⟨_, rfl, rfl⟩

/-! ## The scan -/

/-- The matches noted for a version are those among the releases scanned. -/
def Scanned (semver : Semver) (catalog : ChartCatalog) (material : ChartRelease → ChartRelease)
    (version : Version) (state : CompatibilityState) : Prop :=
  state.scanned ≤ catalog.releases.length ∧
    state.matched =
      ((catalog.releases.take state.scanned).map material).filter (suits semver version)

/-- Why a search of a catalog can fail before it has an answer. -/
inductive Blocked (semver : Semver) (catalog : ChartCatalog)
    (material : ChartRelease → ChartRelease) (client : ChartClient) : CatalogError → Prop
  | fetch {release : ChartRelease} {reason : String} : release ∈ catalog.releases →
    catalog.download client release = .error reason →
    Blocked semver catalog material client (.fetch reason)
  | constraint {release : ChartRelease} : release ∈ catalog.releases →
    BadConstraint semver (material release) →
    Blocked semver catalog material client
      (.constraint catalog.id (normalizeConstraint (material release).kubeVersion))

/-- A scan ends with enough matches, at the end of the catalog, or blocked. -/
def Ended (semver : Semver) (catalog : ChartCatalog) (material : ChartRelease → ChartRelease)
    (client : ChartClient) (offset : Nat) (after : CompatibilityState) :
    Option CatalogError → Prop
  | some err => Blocked semver catalog material client err
  | none => offset < after.matched.length ∨ after.scanned = catalog.releases.length

theorem scanned_zero (material : ChartRelease → ChartRelease) (version : Version) :
    Scanned semver catalog material version {} :=
  ⟨Nat.zero_le _, rfl⟩

variable {version : Version} {rest : List ChartRelease} {state : CompatibilityState}

/-- Noting the next release. -/
theorem Scanned.note (h : Scanned semver catalog material version state)
    (hrest : catalog.releases.drop state.scanned = release :: rest) {failure : Option String}
    (hfailure : failure.isNone = suits semver version (material release)) :
    Scanned semver catalog material version (state.note (material release) failure) ∧
      catalog.releases.drop (state.note (material release) failure).scanned = rest := by
  have hlt : state.scanned < catalog.releases.length := by
    rw [← drop_eq_nil_iff.not.trans Nat.not_le, hrest]
    exact cons_ne_nil _ _
  have hnext : catalog.releases[state.scanned]? = some release := by
    rw [← List.head?_drop, hrest]
    rfl
  have hdrop : catalog.releases.drop (state.scanned + 1) = rest := by
    rw [← tail_drop, hrest]
    rfl
  have htake : catalog.releases.take (state.scanned + 1) =
      catalog.releases.take state.scanned ++ [release] := by
    rw [take_add_one, hnext]
    rfl
  have hscanned : (state.note (material release) failure).scanned = state.scanned + 1 := by
    cases failure <;> rfl
  rw [Scanned, hscanned, htake, map_append, filter_append, ← h.2, map_singleton, filter_singleton,
    ← hfailure]
  refine ⟨⟨hlt, ?_⟩, hdrop⟩
  cases failure with
  | none => rfl
  | some reason => exact (append_nil _).symm

variable {offset : Nat} {failure : Option CatalogError} {after : CompatibilityState}

variable
  (hscan : catalog.scan semver client version offset rest fetched state =
    (failure, fetched', after))

include hscan in
/-- What every fetch and every note keeps, a scan keeps. -/
theorem scan_keeps {P : Fetched → CompatibilityState → Prop}
    (hfetch : ∀ release ∈ rest, ∀ state fetched found fetched', P fetched state →
      catalog.fetch client release fetched = (.ok found, fetched') → P fetched' state)
    (hnote : ∀ fetched state found failure, P fetched state → P fetched (state.note found failure))
    (h : P fetched state) : P fetched' after := by
  induction rest generalizing fetched state with
  | nil =>
    cases hscan
    exact h
  | cons release rest ih =>
    rw [ChartCatalog.scan] at hscan
    by_cases hfull : offset < state.matched.length
    · rw [if_pos hfull] at hscan
      cases hscan
      exact h
    rw [if_neg hfull] at hscan
    obtain ⟨result, between, hres⟩ : ∃ result between,
      catalog.fetch client release fetched = (result, between) := ⟨_, _, rfl⟩
    rw [hres] at hscan
    cases result with
    | error err =>
      cases hscan
      obtain ⟨rfl, -⟩ := fetch_error hres
      exact h
    | ok found =>
      have hbetween := hfetch release (mem_cons_self ..) state fetched found between h hres
      cases hexamine : catalog.examine semver version found with
      | error err =>
        simp only [hexamine] at hscan
        cases hscan
        exact hbetween
      | ok failure =>
        simp only [hexamine] at hscan
        exact ih hscan (fun other hother => hfetch other (mem_cons_of_mem _ hother))
          (hnote between state found failure hbetween)

include hscan in
theorem scan_kept (hkept : Kept catalog fetched) :
    Extends fetched fetched' ∧ Kept catalog fetched' :=
  scan_keeps (P := fun fetched' _ => Extends fetched fetched' ∧ Kept catalog fetched') hscan
    (fun _ _ _ _ _ _ h hfetch => ⟨h.1.trans (fetch_extends hfetch), fetch_kept h.2 hfetch⟩)
    (fun _ _ _ _ h => h) ⟨Extends.refl _, hkept⟩

include hscan in
/-- Matches are only added, at the end. -/
theorem scan_matched : state.matched <+: after.matched := by
  refine scan_keeps (P := fun _ after => state.matched <+: after.matched) hscan
    (fun _ _ _ _ _ _ h _ => h) (fun _ noted found failure h => ?_) prefix_rfl
  cases failure with
  | none => exact h.trans (prefix_append _ _)
  | some reason => exact h

include hscan in
/-- The scan notes what it finds, and it ends as it should. -/
theorem scan_scanned (hkept : Kept catalog fetched)
    (hrest : catalog.releases.drop state.scanned = rest)
    (hscanned : Scanned semver catalog material version state)
    (hagrees : Agrees catalog material fetched') : Scanned semver catalog material version after ∧
      Ended semver catalog material client offset after failure := by
  induction rest generalizing fetched state with
  | nil =>
    cases hscan
    exact ⟨hscanned, .inr (le_antisymm hscanned.1 (drop_eq_nil_iff.mp hrest))⟩
  | cons release rest ih =>
    have hrel : release ∈ catalog.releases :=
      mem_of_mem_drop (hrest ▸ mem_cons_self ..)
    rw [ChartCatalog.scan] at hscan
    by_cases hfull : offset < state.matched.length
    · rw [if_pos hfull] at hscan
      cases hscan
      exact ⟨hscanned, .inl hfull⟩
    rw [if_neg hfull] at hscan
    obtain ⟨result, between, hfetch⟩ : ∃ result between,
      catalog.fetch client release fetched = (result, between) := ⟨_, _, rfl⟩
    rw [hfetch] at hscan
    cases result with
    | error err =>
      cases hscan
      obtain ⟨rfl, reason, rfl, hdownload⟩ := fetch_error hfetch
      exact ⟨hscanned, Blocked.fetch hrel hdownload⟩
    | ok found =>
      have hbetween := fetch_kept hkept hfetch
      have hcached := (fetch_ok hfetch).1
      rcases examine_cases semver version (hbetween.verified hcached) with
        ⟨hbad, hexamine⟩ | ⟨noted, hexamine, hnoted⟩
      · simp only [hexamine] at hscan
        cases hscan
        obtain rfl := hagrees release hrel found hcached
        exact ⟨hscanned, Blocked.constraint hrel hbad⟩
      simp only [hexamine] at hscan
      obtain rfl := hagrees.anti (scan_kept hscan hbetween).1 release hrel found hcached
      obtain ⟨hnext, hdrop⟩ := hscanned.note hrest hnoted
      exact ih hscan hbetween hdrop hnext

/-! ## A search and a history of searches -/

/-- One search. -/
structure Search where
  client : ChartClient
  kubernetesVersion : String
  offset : Int

/-- The searches one after another, with their outcomes. -/
def searches (semver : Semver) (catalog : ChartCatalog) :
    List Search → CatalogState → List (Except CatalogError ChartRelease) × CatalogState
  | [], state => ([], state)
  | search :: rest, state =>
    let (outcome, state) :=
      catalog.compatibleAt semver search.client search.kubernetesVersion search.offset state
    let (outcomes, state) := searches semver catalog rest state
    (outcome :: outcomes, state)

/-- What is noted for each Kubernetes version is what the scan of it found. -/
structure Scans (semver : Semver) (catalog : ChartCatalog) (material : ChartRelease → ChartRelease)
    (state : CatalogState) : Prop where
  kept : Kept catalog state.fetched
  scanned : ∀ kubernetesVersion noted, state.compatibility.lookup kubernetesVersion = some noted →
    ∃ version, semanticVersion semver kubernetesVersion = some version ∧
      Scanned semver catalog material version noted

/-- The outcome of a search against the naive search.  A search fails without
an answer for a negative offset, for a Kubernetes version or a constraint that
does not parse, and when a fetch fails; it has no other way to fail. -/
inductive Answers (semver : Semver) (catalog : ChartCatalog)
    (material : ChartRelease → ChartRelease) (search : Search) :
    Except CatalogError ChartRelease → Prop
  | negativeOffset : search.offset < 0 →
    Answers semver catalog material search (.error (.negativeOffset catalog.id))
  | kubernetesVersion : semanticVersion semver search.kubernetesVersion = none →
    Answers semver catalog material search (.error (.kubernetesVersion search.kubernetesVersion))
  | blocked {err : CatalogError} : Blocked semver catalog material search.client err →
    Answers semver catalog material search (.error err)
  | found {version : Version} {release : ChartRelease} : 0 ≤ search.offset →
    semanticVersion semver search.kubernetesVersion = some version →
    (compatibleReleases semver catalog material version)[search.offset.toNat]? = some release →
    Answers semver catalog material search (.ok release)
  | exhausted {version : Version} {failures : List String} : 0 ≤ search.offset →
    semanticVersion semver search.kubernetesVersion = some version →
    (compatibleReleases semver catalog material version).length ≤ search.offset.toNat →
    Answers semver catalog material search
      (.error (.noCompatible catalog.id search.kubernetesVersion failures))

/-- A search is refused at once, or it scans on from where the last scan for its version
ended. -/
theorem compatibleAt_cases (semver : Semver) (catalog : ChartCatalog) (search : Search)
    (state : CatalogState) :
    (∃ err, catalog.compatibleAt semver search.client search.kubernetesVersion search.offset state =
        (.error err, state) ∧ ∀ material, Answers semver catalog material search (.error err)) ∨
    ∃ version, 0 ≤ search.offset ∧ semanticVersion semver search.kubernetesVersion = some version ∧
    ∃ before failure fetched after,
      before = (state.compatibility.lookup search.kubernetesVersion).getD {} ∧
      catalog.scan semver search.client version search.offset.toNat
        (catalog.releases.drop before.scanned) state.fetched before = (failure, fetched, after) ∧
      catalog.compatibleAt semver search.client search.kubernetesVersion search.offset state =
        (match failure, after.matched[search.offset.toNat]? with
          | some err, _ => .error err
          | none, some release => .ok release
          | none, none =>
            .error (.noCompatible catalog.id search.kubernetesVersion after.failures),
          ⟨fetched, (search.kubernetesVersion, after) :: state.compatibility⟩) := by
  unfold ChartCatalog.compatibleAt
  by_cases hoffset : search.offset < 0
  · rw [if_pos hoffset]
    exact .inl ⟨_, rfl, fun _ => .negativeOffset hoffset⟩
  rw [if_neg hoffset]
  cases hver : semanticVersion semver search.kubernetesVersion with
  | none => exact .inl ⟨_, rfl, fun _ => .kubernetesVersion hver⟩
  | some version =>
    obtain ⟨failure, fetched, after, hscan⟩ : ∃ failure fetched after,
      catalog.scan semver search.client version search.offset.toNat
        (catalog.releases.drop
          ((state.compatibility.lookup search.kubernetesVersion).getD {}).scanned)
        state.fetched ((state.compatibility.lookup search.kubernetesVersion).getD {}) =
        (failure, fetched, after) := ⟨_, _, _, rfl⟩
    refine .inr ⟨version, not_lt.mp hoffset, rfl, _, failure, fetched, after, rfl, hscan, ?_⟩
    simp only [hscan]
    cases failure with
    | some err => rfl
    | none => cases after.matched[search.offset.toNat]? <;> rfl

theorem Scanned.matched_initial (h : Scanned semver catalog material version state) :
    state.matched <+: compatibleReleases semver catalog material version := by
  have htake : catalog.releases.take state.scanned <+: catalog.releases := take_prefix _ _
  rw [h.2]
  exact (htake.map material).filter _

/-- Once the catalog is scanned to its end, there are no more matches. -/
theorem Scanned.matched_eq (h : Scanned semver catalog material version state)
    (hend : state.scanned = catalog.releases.length) :
    state.matched = compatibleReleases semver catalog material version := by
  rw [h.2, hend, take_length]
  rfl

variable {state : CatalogState}

/-- A search answers as the naive search does, whatever was searched before. -/
theorem compatibleAt_answers (search : Search)
    (hscans : Scans semver catalog material state)
    (hagrees : Agrees catalog material (catalog.compatibleAt semver search.client
      search.kubernetesVersion search.offset state).2.fetched) :
    Answers semver catalog material search
        (catalog.compatibleAt semver search.client search.kubernetesVersion search.offset state).1 ∧
      Scans semver catalog material
        (catalog.compatibleAt semver search.client search.kubernetesVersion search.offset
          state).2 := by
  rcases compatibleAt_cases semver catalog search state with ⟨err, hres, hanswers⟩ |
    ⟨version, hoffset, hver, before, failure, fetched, after, hbefore, hscan, hres⟩
  · rw [hres]
    exact ⟨hanswers material, hscans⟩
  have hstart : Scanned semver catalog material version before := by
    rw [hbefore]
    cases hnoted : state.compatibility.lookup search.kubernetesVersion with
    | none => exact scanned_zero material version
    | some noted =>
      obtain ⟨_, hparsed, hnoted'⟩ := hscans.scanned _ noted hnoted
      cases hver.symm.trans hparsed
      exact hnoted'
  rw [hres] at hagrees ⊢
  have hkept := (scan_kept hscan hscans.kept).2
  obtain ⟨hafter, hend⟩ := scan_scanned hscan hscans.kept rfl hstart hagrees
  refine ⟨?_, hkept, fun k noted hnoted => ?_⟩
  · cases failure with
    | some err => exact .blocked hend
    | none =>
      cases hmatch : after.matched[search.offset.toNat]? with
      | some release =>
        obtain ⟨rest, hrest⟩ := hafter.matched_initial
        obtain ⟨hlt, -⟩ := List.getElem?_eq_some_iff.mp hmatch
        refine .found hoffset hver ?_
        rw [← hrest, List.getElem?_append_left hlt]
        exact hmatch
      | none =>
        have hshort := List.getElem?_eq_none_iff.mp hmatch
        have heq := hafter.matched_eq (hend.resolve_left (not_lt.mpr hshort))
        exact .exhausted hoffset hver (heq ▸ hshort)
  · rcases lookup_cons_eq_some.mp hnoted with ⟨rfl, rfl⟩ | ⟨-, hnoted⟩
    · exact ⟨version, hver, hafter⟩
    · exact hscans.scanned k noted hnoted

theorem compatibleAt_agrees (semver : Semver) {search : Search}
    (hdist : (catalog.releases.map (·.version)).Nodup)
    (hdelivers : Delivers catalog material search.client)
    (hagrees : Agrees catalog material state.fetched) :
    Agrees catalog material (catalog.compatibleAt semver search.client
      search.kubernetesVersion search.offset state).2.fetched := by
  rcases compatibleAt_cases semver catalog search state with ⟨err, hres, -⟩ |
    ⟨_, -, -, _, _, _, _, -, hscan, hres⟩
  · rw [hres]
    exact hagrees
  · rw [hres]
    exact scan_keeps (P := fun fetched _ => Agrees catalog material fetched) hscan
      (fun release hrel _ _ _ _ h hfetch =>
        fetch_agrees hdist hdelivers h (mem_of_mem_drop hrel) hfetch)
      (fun _ _ _ _ h => h) hagrees

/-- Every search of a history answers as the naive search does. -/
theorem searches_answer (hdist : (catalog.releases.map (·.version)).Nodup) (history : List Search)
    (hscans : Scans semver catalog material state) (hagrees : Agrees catalog material state.fetched)
    (hdelivers : ∀ search ∈ history, Delivers catalog material search.client) :
    List.Forall₂ (Answers semver catalog material) history
      (searches semver catalog history state).1 := by
  induction history generalizing state with
  | nil => exact List.Forall₂.nil
  | cons search rest ih =>
    have hagrees' := compatibleAt_agrees semver hdist
      (hdelivers search (mem_cons_self ..)) hagrees
    obtain ⟨hanswer, hscans'⟩ := compatibleAt_answers search hscans hagrees'
    exact List.Forall₂.cons hanswer (ih hscans' hagrees'
      fun other hother => hdelivers other (mem_cons_of_mem _ hother))

theorem Opened.scans (h : Opened client catalog state) (material : ChartRelease → ChartRelease) :
    Scans semver catalog material state := by
  refine ⟨⟨fun version found hfound => ?_, h.current⟩, fun k noted hnoted => ?_⟩
  · obtain ⟨release, -, hver, hdownload⟩ := h.fetched version found hfound
    rw [download_version hdownload, hver]
  · rw [h.unscanned] at hnoted
    cases hnoted

theorem Opened.agrees (h : Opened client catalog state)
    (hdelivers : Delivers catalog material client) : Agrees catalog material state.fetched := by
  intro release hrel found hfound
  obtain ⟨other, hother, hver, hdownload⟩ := h.fetched _ found hfound
  rw [← inj_on_of_nodup_map h.distinct hother hrel hver]
  exact hdelivers other hother found hdownload

/-- The searches of a catalog, in any number and order and with failures at any
fetch, answer as the naive search of the same catalog does. -/
theorem compatibleAt_refines_naive_search (hlaw : semver.Lawful) {client : ChartClient}
    {id name current currentArchiveSHA : String} {source : ChartSource}
    {listing : ReleaseListing semver} {state : CatalogState}
    (hopened : resolveChartCatalog semver client id name current currentArchiveSHA source listing =
      .ok (catalog, state)) (history : List Search) (material : ChartRelease → ChartRelease)
    (hclient : Delivers catalog material client)
    (hdelivers : ∀ search ∈ history, Delivers catalog material search.client) :
    List.Forall₂ (Answers semver catalog material) history
      (searches semver catalog history state).1 := by
  have hopen := resolveChartCatalog_opened hlaw hopened
  exact searches_answer hopen.distinct history (hopen.scans material) (hopen.agrees hclient)
    hdelivers

/-! ## What a catalog knows

A catalog remembers the first material that it fetched for a release.  So what
its searches find needs no assumption on the registry: it is the material that
is in the cache. -/

/-- The matches noted for a Kubernetes version. -/
def CatalogState.matched (state : CatalogState) (kubernetesVersion : String) :
    List ChartRelease :=
  ((state.compatibility.lookup kubernetesVersion).getD {}).matched

/-- The notes are right for whatever material the cache leaves possible. -/
structure Faithful (semver : Semver) (catalog : ChartCatalog) (state : CatalogState) : Prop where
  distinct : (catalog.releases.map (·.version)).Nodup
  kept : Kept catalog state.fetched
  scans : ∀ material, Agrees catalog material state.fetched → Scans semver catalog material state

theorem Opened.faithful (h : Opened client catalog state) : Faithful semver catalog state :=
  ⟨h.distinct, (h.scans id : Scans semver catalog id state).kept,
    fun material _ => h.scans material⟩

theorem CatalogState.material_agrees (state : CatalogState) :
    Agrees catalog state.material state.fetched := by
  intro release _ found hfound
  rw [CatalogState.material, hfound]
  rfl

theorem Kept.version_material (h : Kept catalog state.fetched)
    (release : ChartRelease) : (state.material release).version = release.version := by
  unfold CatalogState.material
  cases hfound : state.fetched.lookup release.version with
  | none => rfl
  | some found => exact h.version _ found hfound

/-- The matches are releases that suit the version, for whatever material the
cache leaves possible. -/
theorem Faithful.matched_initial (h : Faithful semver catalog state)
    (hagrees : Agrees catalog material state.fetched) (kubernetesVersion : String) :
    state.matched kubernetesVersion = [] ∨ ∃ version,
      semanticVersion semver kubernetesVersion = some version ∧
      state.matched kubernetesVersion <+: compatibleReleases semver catalog material version := by
  unfold CatalogState.matched
  cases hnoted : state.compatibility.lookup kubernetesVersion with
  | none => exact .inl rfl
  | some noted =>
    obtain ⟨version, hver, hscanned⟩ := (h.scans material hagrees).scanned _ noted hnoted
    exact .inr ⟨version, hver, hscanned.matched_initial⟩

/-- No release is a match twice. -/
theorem Faithful.matched_nodup (h : Faithful semver catalog state)
    (kubernetesVersion : String) : (state.matched kubernetesVersion).Nodup := by
  rcases h.matched_initial state.material_agrees kubernetesVersion with hnil | ⟨version, -, hinit⟩
  · rw [hnil]
    exact nodup_nil
  have hvers : (catalog.releases.map state.material).map (·.version) =
      catalog.releases.map (·.version) := by
    rw [map_map]
    exact map_congr_left fun release _ => h.kept.version_material release
  have hdist := h.distinct
  rw [← hvers] at hdist
  exact (hdist.of_map.filter _).sublist hinit.sublist

/-- There are at most as many matches as releases. -/
theorem Faithful.length_matched_le (h : Faithful semver catalog state)
    (kubernetesVersion : String) :
    (state.matched kubernetesVersion).length ≤ catalog.releases.length := by
  rcases h.matched_initial state.material_agrees kubernetesVersion with hnil | ⟨version, -, hinit⟩
  · rw [hnil]
    exact Nat.zero_le _
  calc (state.matched kubernetesVersion).length
      ≤ (compatibleReleases semver catalog state.material version).length := hinit.length_le
    _ ≤ (catalog.releases.map state.material).length := length_filter_le _ _
    _ = catalog.releases.length := length_map _

/-- A search keeps the notes right, adds matches at the end, and returns the
match at its offset. -/
theorem compatibleAt_faithful (search : Search)
    (h : Faithful semver catalog state) {result : Except CatalogError ChartRelease}
    {after : CatalogState}
    (hres : catalog.compatibleAt semver search.client search.kubernetesVersion search.offset
      state = (result, after)) : Faithful semver catalog after ∧
      state.matched search.kubernetesVersion <+: after.matched search.kubernetesVersion ∧
      ∀ release, result = .ok release →
        (after.matched search.kubernetesVersion)[search.offset.toNat]? = some release := by
  rcases compatibleAt_cases semver catalog search state with ⟨err, hrun, -⟩ |
    ⟨version, -, -, before, failure, fetched, noted, hbefore, hscan, hrun⟩
  · cases hrun.symm.trans hres
    exact ⟨h, prefix_rfl, nofun⟩
  obtain ⟨houtcome, hafter⟩ := Prod.mk.inj (hres.symm.trans hrun)
  obtain ⟨hext, hkept⟩ := scan_kept hscan h.kept
  have hnoted : after.matched search.kubernetesVersion = noted.matched := by
    rw [hafter, CatalogState.matched, lookup_cons_self]
    rfl
  refine ⟨⟨h.distinct, hafter ▸ hkept, fun material hagrees => ?_⟩, ?_, fun release hok => ?_⟩
  · have hbefore : Agrees catalog material state.fetched := by
      rw [hafter] at hagrees
      exact hagrees.anti hext
    have hend :=
      (compatibleAt_answers search (h.scans material hbefore) (by rw [hres]; exact hagrees)).2
    rw [hres] at hend
    exact hend
  · rw [hnoted, CatalogState.matched, ← hbefore]
    exact scan_matched hscan
  rw [hnoted]
  cases failure with
  | some err => cases hok.symm.trans houtcome
  | none =>
    cases hmatch : noted.matched[search.offset.toNat]? with
    | some found =>
      rw [hok, hmatch] at houtcome
      cases houtcome
      rfl
    | none =>
      rw [hok, hmatch] at houtcome
      cases houtcome

/-! ## A run -/

/-- The chart and Kubernetes versions of the run. -/
def demoSemver : Semver :=
  tableSemver [("1.0.0", ⟨1, 0, 0, "", ""⟩), ("1.1.0", ⟨1, 1, 0, "", ""⟩),
    ("1.2.0", ⟨1, 2, 0, "", ""⟩), ("1.35.2", ⟨1, 35, 2, "", ""⟩)]

theorem demoSemver_lawful : demoSemver.Lawful :=
  tableSemver_lawful (by decide +kernel)

/-- A registry whose archives are named after the version.  Release `1.2.0` has
no application version, and release `1.1.0` has the given constraint. -/
def demoClient (constraint : String) : ChartClient where
  fetch release := .ok ⟨"sha256:demo", "sha-" ++ release.version, release.version⟩
  readChartMetadata path :=
    .ok ⟨"demo", path, if path = "1.2.0" then "" else path,
      if path = "1.1.0" then constraint else ""⟩

/-- A registry that does not answer. -/
def silentClient : ChartClient where
  fetch _ := .error "connection refused"
  readChartMetadata _ := .error "no archive"

def demoRelease (version : String) : ChartRelease :=
  ⟨version, "", "", "oci://registry.invalid/demo", "", "", ""⟩

/-- A release as `demoClient` delivers it. -/
def demoMaterial (constraint : String) (release : ChartRelease) : ChartRelease :=
  { release with
    digest := "sha256:demo", archiveSHA := "sha-" ++ release.version,
    archivePath := release.version,
    appVersion := if release.version = "1.2.0" then "" else release.version,
    kubeVersion := if release.version = "1.1.0" then constraint else "" }

def demoListing : ReleaseListing demoSemver :=
  .ofFound demoSemver_lawful [demoRelease "1.0.0", demoRelease "1.2.0", demoRelease "1.1.0"]

def demoCatalog : ChartCatalog :=
  ⟨"demo", "demo", "1.0.0", "sha-1.0.0", ⟨"oci", "oci://registry.invalid/demo", "sha256:demo"⟩,
    [demoRelease "1.2.0", demoRelease "1.1.0", demoRelease "1.0.0"]⟩

def demoState (constraint : String) : CatalogState :=
  ⟨[("1.0.0", demoMaterial constraint (demoRelease "1.0.0"))], []⟩

theorem demoClient_delivers (constraint : String) :
    Delivers demoCatalog (demoMaterial constraint) (demoClient constraint) := by
  intro release _ found h
  obtain ⟨archive, harchive, h⟩ := bind_eq_ok.mp h
  cases harchive
  obtain ⟨metadata, hmetadata, h⟩ := bind_eq_ok.mp h
  cases hmetadata
  obtain ⟨-, h⟩ := ite_throw_bind_eq_ok.mp h
  cases h
  rfl

theorem silentClient_delivers (material : ChartRelease → ChartRelease) :
    Delivers demoCatalog material silentClient := by
  intro release _ found h
  cases h

/-- The catalog as it is opened. -/
theorem demoCatalog_opened :
    resolveChartCatalog demoSemver (demoClient "") "demo" "demo" "1.0.0" "sha-1.0.0"
      demoCatalog.source demoListing = .ok (demoCatalog, demoState "") := by
  decide +kernel

/-- The first search cannot fetch the newest release, the second one skips it,
the third one needs no fetch, and the last one comes to the end of the catalog. -/
def demoHistory : List Search :=
  [⟨silentClient, "v1.35.2", 0⟩, ⟨demoClient "", "v1.35.2", 0⟩, ⟨silentClient, "1.35.2", 1⟩,
    ⟨demoClient "", "v1.35.2", 2⟩]

theorem demoHistory_delivers :
    ∀ search ∈ demoHistory, Delivers demoCatalog (demoMaterial "") search.client := by
  have hdemo := demoClient_delivers ""
  have hsilent := silentClient_delivers (demoMaterial "")
  intro search hsearch
  simp only [demoHistory, mem_cons, not_mem_nil, or_false] at hsearch
  rcases hsearch with rfl | rfl | rfl | rfl
  · exact hsilent
  · exact hdemo
  · exact hsilent
  · exact hdemo

theorem compatibleAt_refines_naive_search_demo :
    (searches demoSemver demoCatalog demoHistory (demoState "")).1 =
        [.error (.fetch "connection refused"), .ok (demoMaterial "" (demoRelease "1.1.0")),
          .ok (demoMaterial "" (demoRelease "1.0.0")),
          .error (.noCompatible "demo" "v1.35.2" ["1.2.0 has no appVersion"])] ∧
      List.Forall₂ (Answers demoSemver demoCatalog (demoMaterial "")) demoHistory
        (searches demoSemver demoCatalog demoHistory (demoState "")).1 :=
  ⟨by decide +kernel, compatibleAt_refines_naive_search demoSemver_lawful demoCatalog_opened
    demoHistory (demoMaterial "") (demoClient_delivers "") demoHistory_delivers⟩

/-- A search can also fail at a constraint or a Kubernetes version that does not
parse, or at a negative offset, where every fetch succeeds. -/
theorem compatibleAt_fails_without_fetch_error :
    (resolveChartCatalog demoSemver (demoClient ">= one") "demo" "demo" "1.0.0" "sha-1.0.0"
        demoCatalog.source demoListing).toOption = some (demoCatalog, demoState ">= one") ∧
      (∀ release ∈ demoCatalog.releases,
        (demoCatalog.download (demoClient ">= one") release).toOption.isSome) ∧
      (searches demoSemver demoCatalog
        [⟨demoClient ">= one", "v1.35.2", 0⟩, ⟨demoClient ">= one", "latest", 0⟩,
          ⟨demoClient ">= one", "v1.35.2", -1⟩] (demoState ">= one")).1 =
        [.error (.constraint "demo" ">= one"), .error (.kubernetesVersion "latest"),
          .error (.negativeOffset "demo")] := by
  decide +kernel

end Atum.Charts
