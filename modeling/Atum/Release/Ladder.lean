import Mathlib.Data.List.Chain
import Atum.Config.Checks
import Atum.Release.Semver

/-!
# The committed release ladder

The orchestration section of a project commits a list of exact cluster
releases.  `validateClusterReleases` is the check that the loader makes of it.
This module embeds the check, with the problems it reports, and says what an
accepted list is: `LadderVersions` gives every entry its parsed version, and
consecutive versions advance by a patch or by exactly one minor.

`ladderVersions_of_accepted` is the bridge.  Every later result about a ladder
uses it and never looks at the check again.
-/

namespace Atum.Release

open Atum.Go Atum.Config List

/-! ## The release records -/

structure Asset where
  id : String
  url : String
  file : String
  sourceSHA256 : String
  sha256 : String
  deriving DecidableEq, Repr

structure GitSource where
  url : String
  version : String
  ref : String := ""
  branch : String := ""
  commit : String
  patches : List String := []
  kubeVersion : String := ""
  assets : List Asset := []
  deriving DecidableEq, Repr

structure KubernetesChecksums where
  kubelet : String
  kubeadm : String
  kubectl : String
  deriving DecidableEq, Repr

structure ClusterRelease where
  kubernetes : String
  kubespray : GitSource
  checksums : KubernetesChecksums
  deriving DecidableEq, Repr

/-! ## The check of one Git source -/

/-- The asset loop of `validateGitSource`.  `ids` and `files` are the assets
seen so far. -/
def validateAssets (name : String) :
    Nat → List String → List String → List Asset → List String
  | _, _, _, [] => []
  | i, ids, files, asset :: rest =>
    (if asset.id = "" ∨ ¬hasPrefix asset.url "https://" ∨
        ¬validHexSHA256 asset.sourceSHA256 ∨ ¬validHexSHA256 asset.sha256 then
      [s!"{name} asset {i} has invalid identity"] else []) ++
    validateRelative (name ++ " asset " ++ asset.id) asset.file ++
    (if asset.id ∈ ids then
      [s!"{name} asset id {quote asset.id} is duplicated"] else []) ++
    (if asset.file ∈ files then
      [s!"{name} asset file {quote asset.file} is duplicated"] else []) ++
    validateAssets name (i + 1) (asset.id :: ids) (asset.file :: files) rest

/-- `validateGitSource`. -/
def validateGitSource (name : String) (source : GitSource) : List String :=
  if ¬hasPrefix source.url "https://" ∨ source.version = "" ∨ len source.commit ≠ 40 then
    [s!"{name} source requires URL, version, and 40-character commit"]
  else
    (if source.ref ≠ "" ∧ trimPrefix source.ref "v" ≠ trimPrefix source.version "v" then
      [s!"{name} ref {quote source.ref} does not identify version {quote source.version}"]
      else []) ++
    (if source.branch ≠ "" ∧ (¬validGitBranch source.branch ∨ source.ref ≠ "") then
      [s!"{name} branch {quote source.branch} is invalid or conflicts with ref"]
      else []) ++
    (if lowerHex source.commit then []
      else [s!"{name} commit must be lowercase hexadecimal"]) ++
    source.patches.flatMap (validateRelative (name ++ " patch")) ++
    validateAssets name 0 [] [] source.assets

/-! ## The check of the ladder -/

section Validate

variable (semver : Semver)

/-- What the loop of `validateClusterReleases` carries from one release to the
next. -/
structure LadderScan where
  previousKubernetes : Option Version := none
  previousKubespray : Option Version := none
  kubesprayURL : String := ""

/-- `semver.NewVersion(strings.TrimPrefix(text, "v"))`. -/
def trimmedVersion (text : String) : Option Version :=
  semver.newVersion (trimPrefix text "v")

/-- The problem of a Kubernetes version that is not a canonical stable
release. -/
def canonicalProblems (label : String) (release : ClusterRelease) : List String :=
  let problem :=
    s!"{label} Kubernetes version {quote release.kubernetes} is not a canonical stable release"
  match trimmedVersion semver release.kubernetes with
  | none => [problem]
  | some v =>
    if v.prerelease ≠ "" ∨ release.kubernetes ≠ semver.string v then [problem] else []

/-- The problem of a Kubespray version that is not a stable release. -/
def kubesprayProblems (label : String) (release : ClusterRelease) : List String :=
  let problem :=
    s!"{label} Kubespray version {quote release.kubespray.version} is not a stable semantic release"
  match trimmedVersion semver release.kubespray.version with
  | none => [problem]
  | some v => if v.prerelease ≠ "" then [problem] else []

/-- The problems of the three checksums. -/
def checksumProblems (label : String) (checksums : KubernetesChecksums) : List String :=
  [("kubeadm", checksums.kubeadm), ("kubectl", checksums.kubectl),
    ("kubelet", checksums.kubelet)].flatMap fun entry =>
      if validDigest entry.2 then [] else [s!"{label} {entry.1} checksum is invalid"]

/-- `int64(next.Minor()) - int64(previous.Minor())`, with the wrap-around of
the machine integers. -/
def minorDelta (previous next : Version) : Int64 :=
  next.minor.toInt64 - previous.minor.toInt64

/-- The problems of one step of the ladder: Kubernetes advances by a patch or
one minor, and Kubespray advances along with it. -/
def progressionProblems (scan : LadderScan) (label : String)
    (kubernetes kubespray : Option Version) : List String :=
  match scan.previousKubernetes, kubernetes with
  | some previous, some next =>
    let delta := minorDelta previous next
    (if ¬semver.greaterThan next previous ∨ next.major ≠ previous.major ∨
        delta < 0 ∨ delta > 1 then
      [s!"{label} must advance Kubernetes by a patch or exactly one " ++
        s!"minor from {semver.string previous}"]
      else []) ++
    (match scan.previousKubespray, kubespray with
    | some previousKubespray, some nextKubespray =>
      if nextKubespray.major ≠ previousKubespray.major ∨
          semver.lessThan nextKubespray previousKubespray ∨
          minorDelta previousKubespray nextKubespray ≠ delta then
        [s!"{label} Kubespray release does not align with Kubernetes " ++
          s!"progression from {semver.string previous}"]
      else []
    | _, _ => [])
  | _, _ => []

/-- The body of the loop: the problems of release `index`. -/
def validateRelease (scan : LadderScan) (index : Nat) (release : ClusterRelease) :
    List String :=
  let label := s!"orchestration release {index}"
  canonicalProblems semver label release ++
    validateGitSource (label ++ " Kubespray") release.kubespray ++
    kubesprayProblems semver label release ++
    (if index ≠ 0 ∧ release.kubespray.url ≠ scan.kubesprayURL then
      [s!"{label} changes the Kubespray repository"] else []) ++
    checksumProblems label release.checksums ++
    progressionProblems semver scan label (trimmedVersion semver release.kubernetes)
      (trimmedVersion semver release.kubespray.version)

/-- The state of the loop after a release.  A version that does not parse
leaves the previous one in place. -/
def LadderScan.next (scan : LadderScan) (index : Nat) (release : ClusterRelease) :
    LadderScan where
  previousKubernetes :=
    (trimmedVersion semver release.kubernetes).or scan.previousKubernetes
  previousKubespray :=
    (trimmedVersion semver release.kubespray.version).or scan.previousKubespray
  kubesprayURL := if index = 0 then release.kubespray.url else scan.kubesprayURL

/-- The loop of `validateClusterReleases` from release `index` on. -/
def validateReleases : LadderScan → Nat → List ClusterRelease → List String
  | _, _, [] => []
  | scan, index, release :: rest =>
    validateRelease semver scan index release ++
      validateReleases (scan.next semver index release) (index + 1) rest

/-- `validateClusterReleases`. -/
def validateClusterReleases (releases : List ClusterRelease) : List String :=
  if releases = [] then ["orchestration requires at least one exact cluster release"]
  else validateReleases semver {} 0 releases

end Validate

/-! ## What an accepted ladder is -/

section Ladder

variable (semver : Semver)

/-- One entry of a ladder and its version: the text is the canonical form of a
stable version. -/
structure Rung (release : ClusterRelease) (v : Version) : Prop where
  parsed : semver.newVersion release.kubernetes = some v
  canonical : semver.string v = release.kubernetes
  stable : v.prerelease = ""

/-- One step of a ladder: a higher version of the same major, at most one minor
up. -/
structure Advances (a b : Version) : Prop where
  lt : semver.compare a b = .lt
  major : b.major = a.major
  minor : b.minor = a.minor ∨ b.minor.toNat = a.minor.toNat + 1

/-- The versions of an accepted ladder. -/
structure LadderVersions (releases : List ClusterRelease) (versions : List Version) :
    Prop where
  nonempty : releases ≠ []
  rungs : List.Forall₂ (Rung semver) releases versions
  chain : versions.IsChain (Advances semver)

variable {semver} {release : ClusterRelease} {label : String}

/-- The canonical form of a version does not start with `v`, so the check and
the later code parse the same text. -/
theorem rung_of_canonical (hlaw : semver.Lawful) (h : canonicalProblems semver label release = []) :
    ∃ v, trimmedVersion semver release.kubernetes = some v ∧ Rung semver release v := by
  unfold canonicalProblems at h
  cases hparse : trimmedVersion semver release.kubernetes with
  | none => simp [hparse] at h
  | some v =>
    simp only [hparse, ite_eq_right_iff, cons_ne_self, imp_false, not_or, not_not] at h
    obtain ⟨hstable, hcanon⟩ := h
    have hpre : hasPrefix release.kubernetes "v" = false := by
      rw [hcanon]
      exact hlaw.string_no_v _ v hparse
    refine ⟨v, rfl, ⟨?_, hcanon.symm, hstable⟩⟩
    rw [trimmedVersion, trimPrefix_of_not_hasPrefix hpre] at hparse
    exact hparse

variable {a b : Version}

/-- A difference of zero or one between two machine minors, read as unsigned
numbers. -/
theorem minor_of_minorDelta (h0 : ¬minorDelta a b < 0)
    (h1 : ¬minorDelta a b > 1) : b.minor = a.minor ∨ b.minor = a.minor + 1 := by
  have hcases : minorDelta a b = 0 ∨ minorDelta a b = 1 := by
    rw [Int64.lt_iff_toInt_lt] at h0
    rw [gt_iff_lt, Int64.lt_iff_toInt_lt] at h1
    have hzero : (0 : Int64).toInt = 0 := by decide
    have hone : (1 : Int64).toInt = 1 := by decide
    rw [← Int64.toInt_inj, ← Int64.toInt_inj]
    omega
  have hsub : b.minor.toInt64 = a.minor.toInt64 + minorDelta a b := by
    unfold minorDelta
    rw [Int64.add_comm, Int64.sub_add_cancel]
  rcases hcases with h | h
  · left
    rw [h, Int64.add_zero] at hsub
    exact congrArg Int64.toUInt64 hsub
  · right
    rw [h] at hsub
    exact congrArg Int64.toUInt64 hsub

/-- A step without a problem advances. -/
theorem advances_of_progression (hlaw : semver.Lawful) {scan : LadderScan}
    {kubespray : Option Version} (hprev : scan.previousKubernetes = some a)
    (h : progressionProblems semver scan label (some b) kubespray = []) : Advances semver a b := by
  simp only [progressionProblems, hprev, append_eq_nil_iff,
    ite_eq_right_iff, cons_ne_self, imp_false, not_or, not_not] at h
  obtain ⟨⟨hgreater, hmajor, h0, h1⟩, -⟩ := h
  have hlt : semver.compare a b = .lt := by
    rw [← hlaw.gt_iff_lt]
    simpa [Semver.greaterThan] using hgreater
  refine ⟨hlt, hmajor, ?_⟩
  rcases minor_of_minorDelta h0 h1 with heq | hsucc
  · exact .inl heq
  -- The order of the two versions excludes a wrap from the largest minor to zero.
  right
  have hle := UInt64.le_iff_toNat_le.mp (hlaw.minor_le_of_lt hmajor.symm hlt)
  rw [hsucc, UInt64.toNat_add] at hle ⊢
  have hone : (1 : UInt64).toNat = 1 := rfl
  omega

/-- The loop of the check, from any state of the scan.  The versions of the
remaining entries continue the chain of the last version seen. -/
theorem versions_of_validateReleases (hlaw : semver.Lawful) (releases : List ClusterRelease) :
    ∀ (scan : LadderScan) (index : Nat), validateReleases semver scan index releases = [] →
      ∃ versions, List.Forall₂ (Rung semver) releases versions ∧
        (scan.previousKubernetes.toList ++ versions).IsChain (Advances semver) := by
  induction releases with
  | nil =>
    intro scan index _
    refine ⟨[], .nil, ?_⟩
    cases scan.previousKubernetes <;> simp
  | cons release rest ih =>
    intro scan index h
    simp only [validateReleases, validateRelease, append_eq_nil_iff] at h
    obtain ⟨⟨⟨⟨⟨⟨hcanon, -⟩, -⟩, -⟩, -⟩, hprogress⟩, hrest⟩ := h
    obtain ⟨v, hparse, hrung⟩ := rung_of_canonical hlaw hcanon
    obtain ⟨versions, hrungs, hchain⟩ := ih _ _ hrest
    have hnext : (scan.next semver index release).previousKubernetes = some v := by
      simp [LadderScan.next, hparse]
    rw [hnext] at hchain
    refine ⟨v :: versions, .cons hrung hrungs, ?_⟩
    cases hprev : scan.previousKubernetes with
    | none => simpa using hchain
    | some a =>
      rw [hparse] at hprogress
      have hstep := advances_of_progression hlaw hprev hprogress
      simpa [isChain_cons_cons, hstep] using hchain

variable {releases : List ClusterRelease}

/-- An accepted ladder has versions. -/
theorem ladderVersions_of_accepted (hlaw : semver.Lawful)
    (h : validateClusterReleases semver releases = []) :
    ∃ versions, LadderVersions semver releases versions := by
  unfold validateClusterReleases at h
  split at h
  · simp at h
  · next hne =>
    obtain ⟨versions, hrungs, hchain⟩ := versions_of_validateReleases hlaw releases _ _ h
    exact ⟨versions, hne, hrungs, by simpa using hchain⟩

/-- Consecutive entries of a ladder, with their versions. -/
def LadderStep (semver : Semver) (r s : ClusterRelease) : Prop :=
  ∃ v w, Rung semver r v ∧ Rung semver s w ∧ Advances semver v w

variable {versions : List Version}

theorem isChain_ladderStep (hrungs : List.Forall₂ (Rung semver) releases versions)
    (hchain : versions.IsChain (Advances semver)) : releases.IsChain (LadderStep semver) := by
  induction hrungs with
  | nil => exact isChain_nil
  | cons hr hrungs ih =>
    cases hrungs with
    | nil => exact isChain_singleton _
    | cons hs hrungs =>
      obtain ⟨hadvance, hrest⟩ := isChain_cons_cons.mp hchain
      exact isChain_cons_cons.mpr ⟨⟨_, _, hr, hs, hadvance⟩, ih hrest⟩

/-- The steps of an accepted ladder. -/
theorem LadderVersions.steps
    (h : LadderVersions semver releases versions) : releases.IsChain (LadderStep semver) :=
  isChain_ladderStep h.rungs h.chain

/-- Every entry of an accepted ladder has a version. -/
theorem LadderVersions.rung_of_mem (h : LadderVersions semver releases versions)
    (hmem : release ∈ releases) : ∃ v, Rung semver release v := by
  have hrungs := h.rungs
  clear h
  induction hrungs with
  | nil => simp at hmem
  | cons hr _ ih =>
    rcases mem_cons.mp hmem with rfl | hmem
    · exact ⟨_, hr⟩
    · exact ih hmem

/-- An earlier entry of an accepted ladder has a lower version than a later
one. -/
theorem LadderVersions.pairwise (hlaw : semver.Lawful)
    (h : LadderVersions semver releases versions) : releases.Pairwise fun r s =>
      ∀ v w, Rung semver r v → Rung semver s w → semver.compare v w = .lt := by
  have hvers : versions.Pairwise fun v w => semver.compare v w = .lt := by
    have : Trans (fun v w => semver.compare v w = .lt)
        (fun v w => semver.compare v w = .lt) (fun v w => semver.compare v w = .lt) :=
      ⟨hlaw.lt_trans⟩
    exact isChain_iff_pairwise.mp (h.chain.imp fun _ _ hadvance => hadvance.lt)
  have hrungs := h.rungs
  clear h
  induction hrungs with
  | nil => exact .nil
  | @cons r v releases versions hr hrungs ih =>
    rw [pairwise_cons] at hvers ⊢
    refine ⟨fun s hs v' w hv' hw => ?_, ih hvers.2⟩
    obtain rfl : v = v' := by simpa [hr.parsed] using hv'.parsed
    obtain ⟨w', hw', hsw'⟩ : ∃ w' ∈ versions, Rung semver s w' := by
      clear ih hvers
      induction hrungs with
      | nil => simp at hs
      | cons hr' _ ih' =>
        rcases mem_cons.mp hs with rfl | hs
        · exact ⟨_, by simp, hr'⟩
        · obtain ⟨w', hmem, hw'⟩ := ih' hs
          exact ⟨w', by simp [hmem], hw'⟩
    obtain rfl : w' = w := by simpa [hsw'.parsed] using hw.parsed
    exact hvers.1 w' hw'

end Ladder

end Atum.Release
