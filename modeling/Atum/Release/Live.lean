import Atum.Release.Plan

/-!
# The live cluster across an update

An update first retires the entries that the live cluster has passed and then
builds the next ladder.  A live cluster on the ladder stays on it with one
exception, which the contract of the updater states: a patch refresh replaces
the terminal entry.  If the live cluster already runs the terminal entry, the
new ladder does not list its version any more and `liveReleasePosition` refuses
it.

`update_keeps_live_iff` says that this is the only exception, both for the
entries of the new ladder and for the position on it.
-/

namespace Atum.Release

open Atum.Go List

/-- `canonicalKubernetesVersion`: the live version as the cluster state holds
it. -/
def canonicalKubernetesVersion (semver : Semver) (raw : String) : Except String String :=
  let problem := s!"live Kubernetes version {quote raw} is not a stable semantic release"
  match trimmedVersion semver raw with
  | none => .error problem
  | some version =>
    if version.prerelease ≠ "" ∨ version.metadata ≠ "" then .error problem
    else .ok (semver.string version)

variable {semver : Semver} {ladder retired result : List ClusterRelease}
  {candidates : List KubernetesCandidate} {selected : KubernetesCandidate}
  {entry : ClusterRelease} {live : String} {v : Version}

/-! ## Retiring entries -/

/-- The loop keeps the ladder from one entry on. -/
theorem suffix_of_retireFrom (h : retireFrom semver v ladder = .ok retired) :
    retired <:+ ladder ∧ retired ≠ [] := by
  induction ladder with
  | nil => simp [retireFrom] at h
  | cons release rest ih =>
    rw [retireFrom] at h
    split at h
    · simp at h
    split at h
    · obtain rfl : release :: rest = retired := by simpa using h
      exact ⟨suffix_refl _, by simp⟩
    · obtain ⟨hsuf, hne⟩ := ih h
      exact ⟨hsuf.trans (suffix_cons _ _), hne⟩

/-- The loop keeps the entry of the live version. -/
theorem mem_of_retireFrom (hlaw : semver.Lawful) (hmem : entry ∈ ladder)
    (hv : semver.newVersion entry.kubernetes = some v)
    (h : retireFrom semver v ladder = .ok retired) : entry ∈ retired := by
  induction ladder with
  | nil => simp at hmem
  | cons release rest ih =>
    rw [retireFrom] at h
    split at h
    · simp at h
    next w hw =>
    split at h
    · obtain rfl : release :: rest = retired := by simpa using h
      exact hmem
    next hdiffer =>
    rcases mem_cons.mp hmem with rfl | hmem
    · obtain rfl : v = w := by simpa [hv] using hw
      simp [Semver.equal, hlaw.compare_self] at hdiffer
    · exact ih hmem h

/-- An observed live version parses to the version of its entry. -/
theorem trimmedVersion_of_canonical (hlaw : semver.Lawful)
    (hv : semver.newVersion entry.kubernetes = some v)
    (hlive : canonicalKubernetesVersion semver live = .ok entry.kubernetes) :
    trimmedVersion semver live = some v := by
  unfold canonicalKubernetesVersion at hlive
  split at hlive
  · simp at hlive
  next w hw =>
  split at hlive
  · simp at hlive
  simp only [Except.ok.injEq] at hlive
  have hback := hlaw.newVersion_string _ w hw
  rw [hlive, hv] at hback
  rw [hw, hback]

/-- Retiring keeps the live entry and everything above it. -/
theorem retire_spec (hlaw : semver.Lawful) (hmem : entry ∈ ladder)
    (hv : semver.newVersion entry.kubernetes = some v)
    (hlive : canonicalKubernetesVersion semver live = .ok entry.kubernetes)
    (h : retireCompletedReleaseSteps semver ladder live = .ok retired) :
    retired <:+ ladder ∧ retired ≠ [] ∧ entry ∈ retired := by
  unfold retireCompletedReleaseSteps at h
  split at h
  · obtain rfl : ladder = retired := by simpa using h
    exact ⟨suffix_refl _, ne_nil_of_mem hmem, hmem⟩
  rw [trimmedVersion_of_canonical hlaw hv hlive] at h
  simp only at h
  split at h
  · simp at h
  · obtain ⟨hsuf, hne⟩ := suffix_of_retireFrom h
    exact ⟨hsuf, hne, mem_of_retireFrom hlaw hmem hv h⟩

/-- A non-empty end of a list has the same last element. -/
theorem getLast?_of_suffix (hsuf : retired <:+ ladder) (hne : retired ≠ []) :
    retired.getLast? = ladder.getLast? := by
  obtain ⟨before, rfl⟩ := hsuf
  rw [List.getLast?_append_of_ne_nil _ hne]

/-! ## Building the next ladder -/

/-- The loop over the minors only adds entries. -/
theorem prefix_of_appendSteps {table : List (Coordinate × KubernetesCandidate)}
    {major last : UInt64} (fuel : Nat) : ∀ {minor : UInt64} {start out : List ClusterRelease},
      appendSteps table major last fuel minor start = .ok out → start <+: out := by
  induction fuel with
  | zero =>
    intro minor start out h
    simp [appendSteps] at h
  | succ fuel ih =>
    intro minor start out h
    rw [appendSteps] at h
    split at h
    · split at h
      · simp at h
      · exact (prefix_append _ _).trans (ih h)
    · obtain rfl : start = out := by simpa using h
      exact prefix_refl _

/-- The update puts a newer patch in the place of the entry that the live
cluster runs. -/
structure ReplacesLive (semver : Semver) (ladder : List ClusterRelease)
    (entry : ClusterRelease) (selected : KubernetesCandidate) : Prop where
  terminal : ladder.getLast? = some entry
  sameMinor : semver.sameMinor entry.kubernetes selected.kubernetes.version = true
  newer : semver.newer selected.kubernetes.version entry.kubernetes = true

/-- Some entry of a ladder has the text of `entry`. -/
def Lists (ladder : List ClusterRelease) (entry : ClusterRelease) : Prop :=
  ∃ release ∈ ladder, release.kubernetes = entry.kubernetes

variable {versions : List Version}

/-- No entry below the terminal one has its text. -/
theorem LadderVersions.terminal_text_unique (hlaw : semver.Lawful)
    (hladder : LadderVersions semver ladder versions) (hlast : ladder.getLast? = some entry) :
    ¬Lists ladder.dropLast entry := by
  rintro ⟨release, hmem, htext⟩
  obtain ⟨i, hi⟩ := mem_iff_getElem?.mp hmem
  rw [List.getElem?_dropLast] at hi
  split at hi
  · next hbound =>
    have hidx := hladder.releaseIndex_of_getElem hlaw hi
    rw [htext, hladder.releaseIndex_of_getElem hlaw (getElem?_of_getLast? hlast)] at hidx
    have := Option.some.inj hidx
    omega
  · simp at hi

/-- The next ladder lists the live entry, unless it replaces it. -/
theorem build_lists_iff (hlaw : semver.Lawful)
    (hladder : LadderVersions semver ladder versions) (hsuf : retired <:+ ladder)
    (hne : retired ≠ []) (hmem : entry ∈ retired)
    (hbuild : buildReleaseLadder semver retired candidates selected = .ok result) :
    Lists result entry ↔ ¬ReplacesLive semver ladder entry selected := by
  obtain ⟨last, hlast⟩ : ∃ last, retired.getLast? = some last :=
    ⟨_, List.getLast?_eq_some_getLast hne⟩
  have hterminalEntry : ladder.getLast? = some last := by
    rw [← getLast?_of_suffix hsuf hne, hlast]
  obtain ⟨terminal, candidate, hterminal, hcand, hcases⟩ :=
    buildReleaseLadder_cases hlaw hlast hbuild
  -- A replaced live entry is the terminal one, and the selected version is above it.
  have hreps : ReplacesLive semver ladder entry selected → entry = last ∧
      semver.compare candidate terminal = .gt ∧ candidate.minor = terminal.minor := by
    rintro ⟨hent, hminor, hnewer⟩
    obtain rfl : last = entry := by simpa [hterminalEntry] using hent
    rw [Semver.sameMinor, Semver.relates_of_parsed hterminal hcand, Bool.and_eq_true,
      beq_iff_eq, beq_iff_eq] at hminor
    rw [Semver.newer, Semver.relates_of_parsed hcand hterminal, Semver.greaterThan,
      beq_iff_eq] at hnewer
    exact ⟨rfl, hnewer, hminor.2.symm⟩
  rcases hcases with ⟨hequal, rfl⟩ | ⟨hlt, ⟨hmajor, hminor⟩, rfl⟩ |
    ⟨hmajor, hminor, table, htable, hloop⟩
  · refine iff_of_true ⟨entry, hmem, rfl⟩ fun hlost => ?_
    rw [hequal] at hreps
    exact absurd (hreps hlost).2.1 (by decide)
  · have hsplit : retired.dropLast ++ [last] = retired :=
      dropLast_append_getLast? last hlast
    by_cases hend : entry = last
    · subst hend
      refine iff_of_false ?_ (not_not.mpr ⟨hterminalEntry, ?_, ?_⟩)
      · rintro ⟨release, hrel, htext⟩
        rcases mem_append.mp hrel with hbelow | hsel
        · refine hladder.terminal_text_unique hlaw hterminalEntry ⟨release, ?_, htext⟩
          obtain ⟨before, rfl⟩ := hsuf
          rw [dropLast_append_of_ne_nil hne]
          exact mem_append_right _ hbelow
        -- The selected version is above the live one, so the texts differ.
        obtain rfl : release = selected.release := by simpa using hsel
        have hsame : terminal = candidate := by
          rw [← htext] at hterminal
          exact Option.some.inj (hterminal.symm.trans hcand)
        rw [hsame, hlaw.compare_self] at hlt
        exact absurd hlt (by decide)
      · rw [Semver.sameMinor, Semver.relates_of_parsed hterminal hcand]
        simp [hmajor, hminor]
      · rw [Semver.newer, Semver.relates_of_parsed hcand hterminal, Semver.greaterThan,
          beq_iff_eq, hlaw.gt_iff_lt]
        exact hlt
    · refine iff_of_true ⟨entry, ?_, rfl⟩ fun hlost => hend (hreps hlost).1
      rw [← hsplit, mem_append, mem_singleton] at hmem
      exact mem_append_left _ (hmem.resolve_right hend)
  · refine iff_of_true ⟨entry, (prefix_of_appendSteps _ hloop).mem hmem, rfl⟩ fun hlost => ?_
    rw [(hreps hlost).2.2] at hminor
    exact absurd hminor (UInt64.lt_irrefl _)

/-! ## The position on the next ladder -/

/-- On an accepted ladder, a live entry has a position exactly when the ladder
lists it. -/
theorem position_iff_lists (hlaw : semver.Lawful) {service : Service} {project : Project}
    {target : ClusterRelease} (hproj : service.project = some project)
    (hladder : LadderVersions semver project.orchestration.releases versions)
    (htgt : project.orchestration.targetRelease = .ok target) (hv : Rung semver entry v) :
    (∃ position, liveReleasePosition semver service { kubernetes := entry.kubernetes } target =
        .ok position) ↔ Lists project.orchestration.releases entry := by
  have hlast := targetRelease_ok.mp htgt
  constructor
  · rintro ⟨position, hpos⟩
    have h := liveReleasePosition_ok hlaw hproj hladder hlast hpos
    obtain ⟨release, hrel, hrung⟩ := h.entry
    obtain rfl : v = position.current := Option.some.inj (hv.parsed.symm.trans h.parsed)
    exact ⟨release, mem_of_getElem? hrel, hrung.canonical.symm.trans hv.canonical⟩
  rintro ⟨release, hmem, htext⟩
  obtain ⟨i, hi⟩ := mem_iff_getElem?.mp hmem
  obtain ⟨w, hw⟩ := hladder.rung_of_mem (mem_of_getLast? hlast)
  have hrung : Rung semver release v :=
    ⟨htext ▸ hv.parsed, htext ▸ hv.canonical, hv.stable⟩
  exact ⟨⟨v, w, i⟩, liveReleasePosition_of_onLadder hlaw hproj hladder
    ⟨hv.parsed, ⟨release, hi, hrung⟩, hlast, hw⟩⟩

/-- An update keeps the live cluster on the ladder exactly when it does not
replace the entry that the cluster runs.  Once the new ladder is committed, that
is also when the planner finds the cluster. -/
theorem update_keeps_live_iff (semver : Semver) (hlaw : semver.Lawful)
    (ladder : List ClusterRelease) (haccepted : validateClusterReleases semver ladder = [])
    (entry : ClusterRelease) (hentry : entry ∈ ladder) (live : String)
    (hlive : canonicalKubernetesVersion semver live = .ok entry.kubernetes)
    (candidates : List KubernetesCandidate) (selected : KubernetesCandidate)
    (retired result : List ClusterRelease)
    (hretire : retireCompletedReleaseSteps semver ladder live = .ok retired)
    (hbuild : buildReleaseLadder semver retired candidates selected = .ok result) :
    ((∃ release ∈ result, release.kubernetes = entry.kubernetes) ↔
        ¬ReplacesLive semver ladder entry selected) ∧
      ∀ (service : Service) (project : Project) (target : ClusterRelease),
        service.project = some project → project.orchestration.releases = result →
        validateClusterReleases semver result = [] →
        project.orchestration.targetRelease = .ok target →
        ((∃ position, liveReleasePosition semver service { kubernetes := entry.kubernetes }
            target = .ok position) ↔ ¬ReplacesLive semver ladder entry selected) := by
  obtain ⟨versions, hladder⟩ := ladderVersions_of_accepted hlaw haccepted
  obtain ⟨v, hv⟩ := hladder.rung_of_mem hentry
  obtain ⟨hsuffix, hne, hmem⟩ := retire_spec hlaw hentry hv.parsed hlive hretire
  have hlists := build_lists_iff hlaw hladder hsuffix hne hmem hbuild
  refine ⟨hlists, ?_⟩
  rintro service project target hproject rfl hresult htarget
  obtain ⟨versions', hladder'⟩ := ladderVersions_of_accepted hlaw hresult
  rw [position_iff_lists hlaw hproject hladder' htarget hv, hlists]

/-- The live cluster runs the terminal entry, and a patch refresh replaces
it. -/
theorem update_strands_refreshed_terminal : validateClusterReleases testSemver testLadder = [] ∧
      canonicalKubernetesVersion testSemver "1.35.0" = .ok "1.35.0" ∧
      retireCompletedReleaseSteps testSemver testLadder "1.35.0" =
        .ok [testClusterRelease "1.35.0" "v2.31.0"] ∧
      buildReleaseLadder testSemver [testClusterRelease "1.35.0" "v2.31.0"]
          [testKubernetesCandidate "1.35.4" "v2.31.0"]
          (testKubernetesCandidate "1.35.4" "v2.31.0") =
        .ok [testClusterRelease "1.35.4" "v2.31.0"] ∧
      liveReleasePosition testSemver (testService [testClusterRelease "1.35.4" "v2.31.0"])
          { kubernetes := "1.35.0" } (testClusterRelease "1.35.4" "v2.31.0") =
        .error "live Kubernetes 1.35.0 is absent from the committed release ladder" :=
  ⟨accepted_testLadder_minor, by decide +kernel, by decide +kernel, by decide +kernel,
    by decide +kernel⟩

/-- The live cluster runs the first entry, and a patch refresh of the terminal
one keeps it. -/
theorem update_keeps_live_below_terminal :
    ∃ release ∈ [testClusterRelease "1.34.3" "v2.30.0", testClusterRelease "1.35.4" "v2.31.0"],
      release.kubernetes = "1.34.3" := by
  refine (update_keeps_live_iff testSemver testSemver_lawful testLadder accepted_testLadder_minor
    (testClusterRelease "1.34.3" "v2.30.0") (by decide +kernel) "1.34.3" (by decide +kernel)
    [testKubernetesCandidate "1.35.4" "v2.31.0"] (testKubernetesCandidate "1.35.4" "v2.31.0")
    testLadder _ (by decide +kernel) (by decide +kernel)).1.mpr ?_
  intro hlost
  exact absurd hlost.terminal (by decide +kernel)

end Atum.Release
