import Atum.Go.Outcome
import Atum.Release.Ladder

/-!
# Building the next release ladder

`buildReleaseLadder` extends the committed ladder to a selected Kubernetes
candidate, and `retireCompletedReleaseSteps` drops the entries that the live
cluster has passed.

The extension looks its steps up in a table that keeps the first candidate of
each minor.  `releaseTable_lookup` says exactly that, and `appendSteps_spec` is
the invariant of the loop over the minors.  The last entry of a result is
therefore the first candidate of the selected minor and not the selected
candidate itself; `buildReleaseLadder_target_iff` says when the two agree.
-/

namespace Atum.Release

open Atum.Go List

/-! ## The candidates -/

/-- The part of a resolved Git source that the ladder reads. -/
structure ResolvedGit where
  source : GitSource
  deriving DecidableEq, Repr

structure KubernetesRelease where
  version : String
  checksums : KubernetesChecksums
  deriving DecidableEq, Repr

structure KubernetesCandidate where
  kubespray : ResolvedGit
  kubernetes : KubernetesRelease
  deriving DecidableEq, Repr

/-- The ladder entry of a candidate. -/
def KubernetesCandidate.release (c : KubernetesCandidate) : ClusterRelease where
  kubernetes := c.kubernetes.version
  kubespray := c.kubespray.source
  checksums := c.kubernetes.checksums

/-- `releaseCoordinate`: a major and a minor number. -/
abbrev Coordinate := UInt64 × UInt64

def Version.coordinate (v : Version) : Coordinate := (v.major, v.minor)

section Build

variable (semver : Semver)

/-- One candidate goes into the table `byCoordinate`, unless its minor already
has an entry. -/
def addStep (table : List (Coordinate × KubernetesCandidate)) (step : KubernetesCandidate) :
    Except String (List (Coordinate × KubernetesCandidate)) :=
  match semver.newVersion step.kubernetes.version with
  | none => .error s!"parse compatible Kubernetes release {step.kubernetes.version}"
  | some version =>
    if (table.lookup version.coordinate).isSome then .ok table
    else .ok (table ++ [(version.coordinate, step)])

/-- The loop that fills `byCoordinate`. -/
def releaseTable : List (Coordinate × KubernetesCandidate) → List KubernetesCandidate →
    Except String (List (Coordinate × KubernetesCandidate))
  | table, [] => .ok table
  | table, step :: rest => do
      let table ← addStep semver table step
      releaseTable table rest

/-- The loop `for minor := terminal.Minor() + 1; minor <= candidate.Minor(); minor++`.
The counter is a machine integer.  `fuel` bounds the number of rounds; a loop
that uses it up never returns. -/
def appendSteps (table : List (Coordinate × KubernetesCandidate)) (major last : UInt64) :
    Nat → UInt64 → List ClusterRelease → Outcome (List ClusterRelease)
  | 0, _, _ => .diverges
  | fuel + 1, minor, result =>
    if minor ≤ last then
      match table.lookup (major, minor) with
      | none => .error s!"no exact Kubespray release is compatible with Kubernetes {major}.{minor}"
      | some step => appendSteps table major last fuel (minor + 1) (result ++ [step.release])
    else .ok result

/-- The number of rounds after which the counter of `appendSteps` has passed
every machine integer. -/
def allMinors : Nat := 2 ^ 64 + 1

/-- `buildReleaseLadder`. -/
def buildReleaseLadder (current : List ClusterRelease) (candidates : List KubernetesCandidate)
    (selected : KubernetesCandidate) : Outcome (List ClusterRelease) :=
  match current.getLast? with
  | none => .ok [selected.release]
  | some entry =>
    match semver.newVersion entry.kubernetes with
    | none => .error "parse current terminal Kubernetes release"
    | some terminal =>
      match semver.newVersion selected.kubernetes.version with
      | none => .error "parse selected Kubernetes release"
      | some candidate =>
        if semver.lessThan candidate terminal then
          .error (s!"selected Kubernetes {semver.string candidate} is older than " ++
              s!"release ladder target {semver.string terminal}")
        else if semver.equal candidate terminal then .ok current
        else if candidate.major = terminal.major ∧ candidate.minor = terminal.minor then
          .ok (current.dropLast ++ [selected.release])
        else if candidate.major ≠ terminal.major then
          .error (s!"selected Kubernetes {semver.string candidate} changes major " ++
              s!"version from {semver.string terminal}")
        else
          match releaseTable semver [] candidates with
          | .error message => .error message
          | .ok table =>
            appendSteps table terminal.major candidate.minor allMinors
              (terminal.minor + 1) current

/-- The loop of `retireCompletedReleaseSteps` from one release on. -/
def retireFrom (liveVersion : Version) :
    List ClusterRelease → Except String (List ClusterRelease)
  | [] =>
    .error s!"live Kubernetes {semver.string liveVersion} is absent from the active release plan"
  | release :: rest =>
    match semver.newVersion release.kubernetes with
    | none => .error s!"parse committed Kubernetes release {release.kubernetes}"
    | some releaseVersion =>
      if semver.equal liveVersion releaseVersion then .ok (release :: rest)
      else retireFrom liveVersion rest

/-- `retireCompletedReleaseSteps`. -/
def retireCompletedReleaseSteps (releases : List ClusterRelease) (live : String) :
    Except String (List ClusterRelease) :=
  if releases.length ≤ 1 then .ok releases
  else
    match trimmedVersion semver live with
    | none => .error s!"live Kubernetes version {quote live} is not a stable semantic release"
    | some liveVersion =>
      if liveVersion.prerelease ≠ "" ∨ liveVersion.metadata ≠ "" then
        .error s!"live Kubernetes version {quote live} is not a stable semantic release"
      else retireFrom semver liveVersion releases

end Build

variable {semver : Semver}

/-! ## The table of steps -/

/-- The coordinate under which a candidate enters the table. -/
def candidateCoordinate (semver : Semver) (c : KubernetesCandidate) : Option Coordinate :=
  (semver.newVersion c.kubernetes.version).map Version.coordinate

/-- The table answers with the first candidate of a coordinate. -/
theorem releaseTable_lookup (candidates : List KubernetesCandidate) :
    ∀ {table out : List (Coordinate × KubernetesCandidate)},
      releaseTable semver table candidates = .ok out → ∀ key, out.lookup key = (table.lookup key).or
        (candidates.find? fun c => candidateCoordinate semver c == some key) := by
  induction candidates with
  | nil =>
    intro table out h key
    obtain rfl : table = out := by simpa [releaseTable] using h
    simp
  | cons step rest ih =>
    intro table out h key
    cases hparse : semver.newVersion step.kubernetes.version with
    | none => simp [releaseTable, addStep, hparse, Bind.bind, Except.bind] at h
    | some version =>
      have hcoordinate : candidateCoordinate semver step = some version.coordinate := by
        simp [candidateCoordinate, hparse]
      rw [List.find?_cons, hcoordinate]
      simp only [releaseTable, addStep, hparse] at h
      split at h
      · next hsome =>
        rw [ih h key]
        obtain ⟨first, hfirst⟩ := Option.isSome_iff_exists.mp hsome
        by_cases hkey : version.coordinate = key
        · subst hkey
          simp [hfirst]
        · have hne : (version.coordinate == key) = false := beq_eq_false_iff_ne.mpr hkey
          simp [hne]
      next hnone =>
      rw [ih h key, lookup_append]
      have hempty : table.lookup version.coordinate = none :=
        Option.not_isSome_iff_eq_none.mp hnone
      by_cases hkey : version.coordinate = key
      · subst hkey
        simp [hempty]
      have hne : (version.coordinate == key) = false := beq_eq_false_iff_ne.mpr hkey
      have hne' : (key == version.coordinate) = false :=
        beq_eq_false_iff_ne.mpr fun heq => hkey heq.symm
      simp [hne, hne', lookup_cons]

variable {candidates : List KubernetesCandidate} {table : List (Coordinate × KubernetesCandidate)}
  {major : UInt64}

/-- An answer of the table parses to the coordinate it was asked for. -/
theorem coordinate_of_lookup {step : KubernetesCandidate}
    {minor : UInt64} (htable : releaseTable semver [] candidates = .ok table)
    (h : table.lookup (major, minor) = some step) :
    ∃ v, semver.newVersion step.release.kubernetes = some v ∧
      v.major = major ∧ v.minor = minor := by
  rw [releaseTable_lookup candidates htable] at h
  have hcoordinate := List.find?_some h
  rw [beq_iff_eq, candidateCoordinate, Option.map_eq_some_iff] at hcoordinate
  obtain ⟨v, hparse, hv⟩ := hcoordinate
  obtain ⟨hmajor, hminor⟩ := Prod.mk.inj hv
  exact ⟨v, hparse, hmajor, hminor⟩

/-! ## The loop over the minors -/

/-- Two ladder entries whose versions do not skip a minor. -/
def AdjacentMinor (semver : Semver) (r s : ClusterRelease) : Prop :=
  ∃ v w, semver.newVersion r.kubernetes = some v ∧ semver.newVersion s.kubernetes = some w ∧
    w.major = v.major ∧ v.minor.toNat ≤ w.minor.toNat ∧ w.minor.toNat ≤ v.minor.toNat + 1

/-- The last entry of a ladder has the version `major.minor`. -/
def TipAt (semver : Semver) (releases : List ClusterRelease) (major : UInt64) (minor : Nat) :
    Prop :=
  ∃ entry v, releases.getLast? = some entry ∧
    semver.newVersion entry.kubernetes = some v ∧ v.major = major ∧ v.minor.toNat = minor

variable {last : UInt64}

/-- The loop that returns has not been asked for the largest minor.  There the
counter wraps, and the test of the loop never fails. -/
theorem last_lt_of_appendSteps : ∀ {fuel : Nat} {minor : UInt64} {result out : List ClusterRelease},
      appendSteps table major last fuel minor result = .ok out → last.toNat + 1 < 2 ^ 64 := by
  intro fuel
  induction fuel with
  | zero =>
    intro minor result out h
    simp [appendSteps] at h
  | succ fuel ih =>
    intro minor result out h
    rw [appendSteps] at h
    split at h
    · split at h
      · simp at h
      · exact ih h
    next hgt =>
    have hlt := minor.toNat_lt
    rw [UInt64.le_iff_toNat_le] at hgt
    omega

variable {result : List ClusterRelease} {v : Version}

/-- One more step keeps the ladder free of gaps and moves its tip up by one
minor. -/
theorem tip_append {step : ClusterRelease} {minor : Nat}
    (hchain : result.IsChain (AdjacentMinor semver))
    (htip : TipAt semver result major minor) (hparse : semver.newVersion step.kubernetes = some v)
    (hmajor : v.major = major) (hminor : v.minor.toNat = minor + 1) :
    (result ++ [step]).IsChain (AdjacentMinor semver) ∧
      TipAt semver (result ++ [step]) major (minor + 1) := by
  obtain ⟨entry, w, hlast, hw, hwmajor, hwminor⟩ := htip
  refine ⟨?_, step, v, by simp, hparse, hmajor, hminor⟩
  refine isChain_append.mpr ⟨hchain, isChain_singleton _, ?_⟩
  intro x hx y hy
  obtain rfl : entry = x := by simpa [hlast] using hx
  obtain rfl : step = y := by simpa using hy
  exact ⟨w, v, hw, hparse, by rw [hmajor, hwmajor], by omega, by omega⟩

/-- The loop over the minors.  A run from a gap-free ladder whose tip is right
below the counter ends in a gap-free ladder that extends it, with its tip at the
last minor; if the loop makes a step, that tip is the table's answer for it. -/
theorem appendSteps_spec (htable : releaseTable semver [] candidates = .ok table) :
    ∀ {fuel : Nat} {minor : UInt64} {result out : List ClusterRelease} {below : Nat},
      appendSteps table major last fuel minor result = .ok out →
      minor.toNat = below + 1 → below ≤ last.toNat →
      result.IsChain (AdjacentMinor semver) → TipAt semver result major below →
      result <+: out ∧ out.IsChain (AdjacentMinor semver) ∧
        (below < last.toNat → ∃ step, table.lookup (major, last) = some step ∧
          out.getLast? = some step.release) := by
  intro fuel
  induction fuel with
  | zero =>
    intro minor result out below h
    simp [appendSteps] at h
  | succ fuel ih =>
    intro minor result out below h hminor hbelow hchain htip
    have hlast := last_lt_of_appendSteps h
    rw [appendSteps] at h
    split at h
    · next hle =>
      rw [UInt64.le_iff_toNat_le] at hle
      split at h
      · simp at h
      next step hstep =>
      obtain ⟨v, hparse, hmajor, hv⟩ := coordinate_of_lookup htable hstep
      have hvminor : v.minor.toNat = below + 1 := by rw [hv, hminor]
      obtain ⟨hchain', htip'⟩ := tip_append hchain htip hparse hmajor hvminor
      have hnext : (minor + 1).toNat = (below + 1) + 1 := by
        rw [UInt64.toNat_add]
        have hone : (1 : UInt64).toNat = 1 := rfl
        omega
      obtain ⟨hpre, hout, htop⟩ := ih h hnext (by omega) hchain' htip'
      refine ⟨(prefix_append _ _).trans hpre, hout, fun _ => ?_⟩
      rcases Nat.lt_or_ge (below + 1) last.toNat with hlt | hge
      · exact htop hlt
      -- The counter is at the last minor, so the loop stops after this step.
      have heq : minor = last := UInt64.toNat_inj.mp (by omega)
      have hstop : ¬minor + 1 ≤ last := by
        rw [UInt64.le_iff_toNat_le]
        omega
      refine ⟨step, heq ▸ hstep, ?_⟩
      cases fuel with
      | zero => simp [appendSteps] at h
      | succ fuel =>
        rw [appendSteps, if_neg hstop] at h
        simp only [Outcome.ok.injEq] at h
        rw [← h]
        simp
    · next hgt =>
      simp only [Outcome.ok.injEq] at h
      subst h
      refine ⟨prefix_refl _, hchain, fun hlt => ?_⟩
      rw [UInt64.le_iff_toNat_le] at hgt
      omega

/-! ## The result of a successful build -/

variable {selected : KubernetesCandidate} {current : List ClusterRelease} {entry : ClusterRelease}

/-- The three ways in which `buildReleaseLadder` succeeds on a ladder that ends
in `entry`. -/
theorem buildReleaseLadder_cases (hlaw : semver.Lawful) (hent : current.getLast? = some entry)
    (hbuild : buildReleaseLadder semver current candidates selected = .ok result) :
    ∃ terminal candidate, semver.newVersion entry.kubernetes = some terminal ∧
      semver.newVersion selected.kubernetes.version = some candidate ∧
      (semver.compare candidate terminal = .eq ∧ result = current ∨
        semver.compare terminal candidate = .lt ∧
            (candidate.major = terminal.major ∧ candidate.minor = terminal.minor) ∧
            result = current.dropLast ++ [selected.release] ∨
        candidate.major = terminal.major ∧ terminal.minor < candidate.minor ∧
          ∃ table, releaseTable semver [] candidates = .ok table ∧
            appendSteps table terminal.major candidate.minor allMinors
              (terminal.minor + 1) current = .ok result) := by
  simp only [buildReleaseLadder, hent] at hbuild
  cases hterminal : semver.newVersion entry.kubernetes with
  | none => simp [hterminal] at hbuild
  | some terminal =>
    cases hcand : semver.newVersion selected.kubernetes.version with
    | none => simp [hterminal, hcand] at hbuild
    | some candidate =>
      simp only [hterminal, hcand] at hbuild
      refine ⟨terminal, candidate, rfl, rfl, ?_⟩
      split at hbuild
      · simp at hbuild
      next hless =>
      split at hbuild
      · next hequal =>
        simp only [Outcome.ok.injEq] at hbuild
        exact .inl ⟨by simpa [Semver.equal] using hequal, hbuild.symm⟩
      next hequal =>
      have hlt : semver.compare terminal candidate = .lt := by
        rw [← hlaw.gt_iff_lt]
        cases hcompare : semver.compare candidate terminal with
        | lt => simp [Semver.lessThan, hcompare] at hless
        | eq => simp [Semver.equal, hcompare] at hequal
        | gt => rfl
      right
      split at hbuild
      · next hsame =>
        simp only [Outcome.ok.injEq] at hbuild
        exact .inl ⟨hlt, hsame, hbuild.symm⟩
      next hdiffer =>
      right
      split at hbuild
      · simp at hbuild
      next hmajor =>
      rw [not_not] at hmajor
      have hle := hlaw.minor_le_of_lt hmajor.symm hlt
      have hne : terminal.minor ≠ candidate.minor :=
        fun heq => hdiffer ⟨hmajor, heq.symm⟩
      split at hbuild
      · simp at hbuild
      · next table htable =>
        exact ⟨hmajor, UInt64.lt_of_le_of_ne hle hne, table, htable, hbuild⟩

/-- The entries of a ladder do not skip a minor. -/
theorem LadderVersions.adjacent {releases : List ClusterRelease} {versions : List Version}
    (h : LadderVersions semver releases versions) : releases.IsChain (AdjacentMinor semver) := by
  refine h.steps.imp fun r s hstep => ?_
  obtain ⟨v, w, hv, hw, hadvance⟩ := hstep
  refine ⟨v, w, hv.parsed, hw.parsed, hadvance.major, ?_, ?_⟩
  · rcases hadvance.minor with heq | hsucc
    · rw [heq]
    · omega
  rcases hadvance.minor with heq | hsucc
  · rw [heq]
    omega
  · omega

variable {w : Version}

/-- A patch of the terminal minor in the place of the terminal entry leaves no
gap. -/
theorem adjacent_dropLast_append {patch : ClusterRelease} (hent : current.getLast? = some entry)
    (hchain : current.IsChain (AdjacentMinor semver))
    (hv : semver.newVersion entry.kubernetes = some v)
    (hw : semver.newVersion patch.kubernetes = some w)
    (hmajor : w.major = v.major) (hminor : w.minor = v.minor) :
    (current.dropLast ++ [patch]).IsChain (AdjacentMinor semver) := by
  have hsplit : current.dropLast ++ [entry] = current :=
    dropLast_append_getLast? entry hent
  rw [← hsplit, isChain_append] at hchain
  obtain ⟨hinit, -, hlink⟩ := hchain
  refine isChain_append.mpr ⟨hinit, isChain_singleton _, ?_⟩
  intro x hx y hy
  obtain rfl : patch = y := by simpa using hy
  obtain ⟨a, b, ha, hb, hlinked⟩ := hlink x hx entry (by simp)
  obtain rfl : v = b := by simpa [hv] using hb
  refine ⟨a, w, ha, hw, ?_⟩
  rw [hmajor, hminor]
  exact hlinked

/-- The result of a build reaches the selected version, keeps the ladder below
its terminal entry, and skips no minor. -/
structure LadderTarget (semver : Semver) (current : List ClusterRelease)
    (selected : KubernetesCandidate) (result : List ClusterRelease) : Prop where
  last : ∃ entry, result.getLast? = some entry ∧
    semver.sameVersion entry.kubernetes selected.kubernetes.version = true
  kept : current.dropLast <+: result
  adjacent : result.IsChain (AdjacentMinor semver)

/-- A candidate list that is ordered newest first. -/
def NewestFirst (semver : Semver) (candidates : List KubernetesCandidate) : Prop :=
  candidates.Pairwise fun a b =>
    semver.newer b.kubernetes.version a.kubernetes.version = false

/-- The selected candidate has the minor of the terminal entry. -/
def SelectsTerminalMinor (semver : Semver) (current : List ClusterRelease)
    (selected : KubernetesCandidate) : Prop :=
  ∃ entry ∈ current.getLast?,
    semver.sameMinor entry.kubernetes selected.kubernetes.version = true

/-- No candidate of the selected minor is newer than the selected one. -/
def NewestOfMinor (semver : Semver) (candidates : List KubernetesCandidate)
    (selected : KubernetesCandidate) : Prop :=
  ∀ c ∈ candidates,
    semver.sameMinor c.kubernetes.version selected.kubernetes.version = true →
    semver.newer c.kubernetes.version selected.kubernetes.version = false

/-- In a list ordered newest first, the first candidate of the selected minor
is the selected version exactly when the selected version is the newest of its
minor. -/
theorem first_equal_iff_newest (hlaw : semver.Lawful) {first : KubernetesCandidate}
    (hsorted : NewestFirst semver candidates) (hsel : selected ∈ candidates)
    (hw : semver.newVersion selected.kubernetes.version = some w) (hfirst : candidates.find?
      (fun c => candidateCoordinate semver c == some w.coordinate) = some first)
    (hv : semver.newVersion first.kubernetes.version = some v) :
    semver.equal v w = true ↔ NewestOfMinor semver candidates selected := by
  obtain ⟨hmatch, before, after, hsplit, hbefore⟩ := List.find?_eq_some_iff_append.mp hfirst
  -- No candidate of this minor is newer than the first one.
  have hmax : ∀ c ∈ candidates, ∀ u, semver.newVersion c.kubernetes.version = some u →
      u.coordinate = w.coordinate → semver.compare u v ≠ .gt := by
    intro c hc u hu hcoordinate hgt
    rw [hsplit, mem_append, mem_cons] at hc
    rcases hc with hc | rfl | hc
    · have hno := hbefore c hc
      simp [candidateCoordinate, hu, hcoordinate] at hno
    · obtain rfl : u = v := by simpa [hv] using hu.symm
      rw [hlaw.compare_self] at hgt
      exact absurd hgt (by decide)
    rw [NewestFirst, hsplit, pairwise_append] at hsorted
    have hle := (pairwise_cons.mp hsorted.2.1).1 c hc
    rw [Semver.newer, Semver.relates_of_parsed hu hv, Semver.greaterThan, hgt] at hle
    exact absurd hle (by decide)
  have hvw : v.coordinate = w.coordinate := by
    simpa [candidateCoordinate, hv] using hmatch
  constructor
  · intro hequal c hc hsame
    have heq : semver.compare v w = .eq := by simpa [Semver.equal] using hequal
    cases hu : semver.newVersion c.kubernetes.version with
    | none => simp [Semver.newer, Semver.relates, hu]
    | some u =>
      rw [Semver.sameMinor, Semver.relates_of_parsed hu hw, Bool.and_eq_true, beq_iff_eq,
        beq_iff_eq] at hsame
      have hnot := hmax c hc u hu (Prod.ext hsame.1 hsame.2)
      rw [hlaw.congr_right heq] at hnot
      rw [Semver.newer, Semver.relates_of_parsed hu hw]
      simpa [Semver.greaterThan] using hnot
  · intro hnewest
    have hcoordinates := Prod.mk.inj hvw
    have hfirstMem : first ∈ candidates := by
      rw [hsplit]
      simp
    have hle := hnewest first hfirstMem (by
      rw [Semver.sameMinor, Semver.relates_of_parsed hv hw]
      simp [hcoordinates])
    rw [Semver.newer, Semver.relates_of_parsed hv hw] at hle
    have hge := hmax selected hsel w hw rfl
    rw [Ne, hlaw.gt_iff_lt] at hge
    cases hcompare : semver.compare v w with
    | lt => exact absurd hcompare hge
    | eq => simp [Semver.equal, hcompare]
    | gt => simp [Semver.greaterThan, hcompare] at hle

/-- A successful build reaches its target exactly when the selected candidate
is a patch of the terminal minor or the newest candidate of its own minor. -/
theorem buildReleaseLadder_target_iff (semver : Semver) (hlaw : semver.Lawful)
    (current : List ClusterRelease) (candidates : List KubernetesCandidate)
    (selected : KubernetesCandidate) (result : List ClusterRelease)
    (haccepted : validateClusterReleases semver current = [])
    (hsorted : NewestFirst semver candidates) (hselected : selected ∈ candidates)
    (hbuild : buildReleaseLadder semver current candidates selected = .ok result) :
    LadderTarget semver current selected result ↔ SelectsTerminalMinor semver current selected ∨
        NewestOfMinor semver candidates selected := by
  obtain ⟨versions, hladder⟩ := ladderVersions_of_accepted hlaw haccepted
  obtain ⟨entry, hentry⟩ : ∃ entry, current.getLast? = some entry :=
    ⟨_, List.getLast?_eq_some_getLast hladder.nonempty⟩
  have hchain := hladder.adjacent
  obtain ⟨terminal, candidate, hterminal, hcandidate, hcases⟩ :=
    buildReleaseLadder_cases hlaw hentry hbuild
  rcases hcases with ⟨hequal, rfl⟩ | ⟨hlt, ⟨hmajor, hminor⟩, rfl⟩ |
    ⟨hmajor, hminor, table, htable, hloop⟩
  · -- The selected version is the terminal one: the ladder stays as it is.
    have hcoordinates := hlaw.coordinates_of_eq hequal
    refine iff_of_true ⟨⟨entry, hentry, ?_⟩, dropLast_prefix _, hchain⟩
      (.inl ⟨entry, hentry, ?_⟩)
    · rw [Semver.sameVersion, Semver.relates_of_parsed hterminal hcandidate]
      simp [Semver.equal, hlaw.eq_symm hequal]
    · rw [Semver.sameMinor, Semver.relates_of_parsed hterminal hcandidate]
      simp [hcoordinates]
  · -- A newer patch of the terminal minor replaces the terminal entry.
    refine iff_of_true ⟨⟨selected.release, by simp, ?_⟩, prefix_append _ _, ?_⟩
      (.inl ⟨entry, hentry, ?_⟩)
    · rw [Semver.sameVersion, Semver.relates_of_parsed (show semver.newVersion
        selected.release.kubernetes = some candidate from hcandidate) hcandidate]
      simp [Semver.equal, hlaw.compare_self]
    · exact adjacent_dropLast_append hentry hchain hterminal hcandidate hmajor hminor
    · rw [Semver.sameMinor, Semver.relates_of_parsed hterminal hcandidate]
      simp [hmajor, hminor]
  · -- A later minor is reached step by step through the table.
    have hminorNat := UInt64.lt_iff_toNat_lt.mp hminor
    have hcounter : (terminal.minor + 1).toNat = terminal.minor.toNat + 1 := by
      rw [UInt64.toNat_add]
      have hbound := candidate.minor.toNat_lt
      have hone : (1 : UInt64).toNat = 1 := rfl
      omega
    obtain ⟨hpre, hout, htop⟩ := appendSteps_spec htable hloop hcounter (by omega) hchain
      ⟨entry, terminal, hentry, hterminal, rfl, rfl⟩
    obtain ⟨first, hfirst, hresult⟩ := htop hminorNat
    obtain ⟨v, hv, -, -⟩ := coordinate_of_lookup htable hfirst
    rw [releaseTable_lookup candidates htable, ← hmajor] at hfirst
    have hnewest := first_equal_iff_newest hlaw hsorted hselected hcandidate hfirst hv
    have hother : ¬SelectsTerminalMinor semver current selected := by
      rintro ⟨entry', hentry', hsame⟩
      obtain rfl : entry = entry' := by simpa [hentry] using hentry'
      rw [Semver.sameMinor, Semver.relates_of_parsed hterminal hcandidate, Bool.and_eq_true,
        beq_iff_eq, beq_iff_eq] at hsame
      rw [hsame.2] at hminorNat
      exact Nat.lt_irrefl _ hminorNat
    have hversion : semver.sameVersion first.release.kubernetes selected.kubernetes.version =
        semver.equal v candidate := Semver.relates_of_parsed hv hcandidate
    rw [or_iff_right hother, ← hnewest, ← hversion]
    constructor
    · rintro ⟨⟨last, hlast, hsame⟩, -, -⟩
      obtain rfl : first.release = last := by simpa [hresult] using hlast
      exact hsame
    · intro hsame
      have hshorter : current.dropLast <+: current := dropLast_prefix _
      exact ⟨⟨first.release, hresult, hsame⟩, hshorter.trans hpre, hout⟩

/-! ## Concrete ladders -/

/-- `testClusterRelease` of the ladder tests, with one commit and one checksum
for all. -/
def testClusterRelease (kubernetesVersion kubesprayVersion : String) : ClusterRelease where
  kubernetes := kubernetesVersion
  kubespray :=
    { url := "https://example.invalid/kubespray.git"
      version := kubesprayVersion
      commit := "aaaaaaaaaaaaaaaaaaaaaaaaaaaaaaaaaaaaaaaa" }
  checksums :=
    { kubelet := "sha256:1111111111111111111111111111111111111111111111111111111111111111"
      kubeadm := "sha256:1111111111111111111111111111111111111111111111111111111111111111"
      kubectl := "sha256:1111111111111111111111111111111111111111111111111111111111111111" }

/-- `testKubernetesCandidate` of the ladder tests. -/
def testKubernetesCandidate (kubernetesVersion kubesprayVersion : String) :
    KubernetesCandidate :=
  let release := testClusterRelease kubernetesVersion kubesprayVersion
  { kubespray := { source := release.kubespray }
    kubernetes := { version := release.kubernetes, checksums := release.checksums } }

/-- The versions that the concrete ladders mention. -/
def testVersions : List (String × Version) :=
  [("1.34.3", ⟨1, 34, 3, "", ""⟩), ("1.35.0", ⟨1, 35, 0, "", ""⟩),
    ("1.35.2", ⟨1, 35, 2, "", ""⟩), ("1.35.4", ⟨1, 35, 4, "", ""⟩),
    ("2.30.0", ⟨2, 30, 0, "", ""⟩), ("2.31.0", ⟨2, 31, 0, "", ""⟩)]

def testSemver : Semver := tableSemver testVersions

theorem testSemver_lawful : testSemver.Lawful :=
  tableSemver_lawful (by decide +kernel)

theorem validateGitSource_test (name k s : String) (hs : s ≠ "") :
    validateGitSource name (testClusterRelease k s).kubespray = [] := by
  have hurl : hasPrefix "https://example.invalid/kubespray.git" "https://" = true := by
    decide +kernel
  have hlen : len "aaaaaaaaaaaaaaaaaaaaaaaaaaaaaaaaaaaaaaaa" = 40 := by decide +kernel
  have hhex : Config.lowerHex "aaaaaaaaaaaaaaaaaaaaaaaaaaaaaaaaaaaaaaaa" = true := by
    decide +kernel
  simp [validateGitSource, testClusterRelease, hurl, hs, hlen, hhex, validateAssets]

theorem checksumProblems_test (label k s : String) :
    checksumProblems label (testClusterRelease k s).checksums = [] := by
  have hdig : Config.validDigest
      "sha256:1111111111111111111111111111111111111111111111111111111111111111" = true := by
    decide +kernel
  simp [checksumProblems, testClusterRelease, hdig]

theorem accepted_testLadder :
    validateClusterReleases testSemver [testClusterRelease "1.34.3" "v2.30.0"] = [] := by
  simp only [validateClusterReleases, validateReleases, validateRelease,
    validateGitSource_test _ "1.34.3" "v2.30.0" (by decide), checksumProblems_test]
  decide +kernel

/-- Two candidates of one minor, newest first. -/
def testCandidates : List KubernetesCandidate :=
  [testKubernetesCandidate "1.35.4" "v2.31.0", testKubernetesCandidate "1.35.2" "v2.31.0"]

theorem newestFirst_testCandidates : NewestFirst testSemver testCandidates := by
  unfold NewestFirst testCandidates
  decide +kernel

/-- The older patch is selected, and the ladder ends in the newer one. -/
theorem buildReleaseLadder_misses_older_patch :
    validateClusterReleases testSemver [testClusterRelease "1.34.3" "v2.30.0"] = [] ∧
      NewestFirst testSemver testCandidates ∧
      testKubernetesCandidate "1.35.2" "v2.31.0" ∈ testCandidates ∧
      buildReleaseLadder testSemver [testClusterRelease "1.34.3" "v2.30.0"] testCandidates
          (testKubernetesCandidate "1.35.2" "v2.31.0") =
        .ok [testClusterRelease "1.34.3" "v2.30.0", testClusterRelease "1.35.4" "v2.31.0"] ∧
      ¬LadderTarget testSemver [testClusterRelease "1.34.3" "v2.30.0"]
        (testKubernetesCandidate "1.35.2" "v2.31.0")
        [testClusterRelease "1.34.3" "v2.30.0", testClusterRelease "1.35.4" "v2.31.0"] := by
  refine ⟨accepted_testLadder, newestFirst_testCandidates, by decide +kernel,
    by decide +kernel, fun htarget => ?_⟩
  obtain ⟨entry, hentry, hsame⟩ := htarget.last
  obtain rfl : testClusterRelease "1.35.4" "v2.31.0" = entry := by simpa using hentry
  exact absurd hsame (by decide +kernel)

/-- The newest patch is selected, and the ladder reaches it. -/
theorem buildReleaseLadder_reaches_newest_patch :
    LadderTarget testSemver [testClusterRelease "1.34.3" "v2.30.0"]
      (testKubernetesCandidate "1.35.4" "v2.31.0")
      [testClusterRelease "1.34.3" "v2.30.0", testClusterRelease "1.35.4" "v2.31.0"] := by
  refine (buildReleaseLadder_target_iff testSemver testSemver_lawful _ testCandidates _ _
    accepted_testLadder newestFirst_testCandidates (by decide +kernel)
    (by decide +kernel)).mpr (.inr ?_)
  unfold NewestOfMinor testCandidates
  decide +kernel

end Atum.Release
