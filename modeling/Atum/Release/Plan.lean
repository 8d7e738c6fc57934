import Atum.Release.Build

/-!
# Planning an upgrade along the ladder

`liveReleasePosition` finds the live cluster on the committed ladder,
`upgradePlan` selects the next entry, and `ValidatePlan` checks a plan before it
is carried out.  The three are written independently of each other; this module
embeds them and joins them.

* `liveReleasePosition_ok` inverts a successful position: the live version is an
  entry of the ladder, and the target is the last one.
* `upgradePlan_at` computes the plan at every entry of an accepted ladder.
* `climb` repeats the plan and moves the cluster to the planned step each time.

The planner compares minors with a machine addition.  At the largest minor that
addition wraps to zero, and the planner refuses a step that the ladder check
accepts.  `upgradePlanning_exact_iff` says that this is the only thing that keeps
a repeated plan from the target.
-/

namespace Atum.Release

open Atum.Go List Option

/-! ## The project and its plans -/

/-- The orchestration fields that planning reads. -/
structure Orchestration where
  automaticUpgrade : Bool
  releases : List ClusterRelease

/-- `TargetRelease`. -/
def Orchestration.targetRelease (orchestration : Orchestration) : Except String ClusterRelease :=
  match orchestration.releases.getLast? with
  | none => .error "orchestration release ladder is empty"
  | some target => .ok target

structure CompatibilityConstraint where
  id : String
  constraint : String

/-- The desired orchestration and the constraints of the lock. -/
structure Project where
  orchestration : Orchestration
  constraints : List CompatibilityConstraint

/-- A service; the project is absent until it is loaded. -/
structure Service where
  project : Option Project

structure ClusterState where
  kubernetes : String

inductive UpgradeOrder where
  | installTarget
  | platformFirst
  | kubernetesFirst
  | alreadyCurrent
  /-- Any other text in the order field. -/
  | other (name : String)
  deriving DecidableEq, Repr

inductive ConvergenceMode where
  | applyConvergence
  | upgradeConvergence
  | fullConvergence
  | other (mode : UInt8)
  deriving DecidableEq, Repr

structure UpgradePlan where
  current : String := ""
  target : String
  order : UpgradeOrder
  steps : List ClusterRelease := []
  deriving DecidableEq, Repr

structure FluxRootObservation where
  found : Bool
  targetCurrent : Bool
  sourceReady : Bool
  helmReleaseReady : Bool

/-- `FluxRootObservation.Complete`. -/
def FluxRootObservation.complete (observation : FluxRootObservation) : Bool :=
  observation.found && observation.targetCurrent && observation.sourceReady &&
    observation.helmReleaseReady

structure LiveReleasePosition where
  current : Version
  target : Version
  currentIndex : Nat
  deriving DecidableEq, Repr

/-- `releaseIndex`; `none` stands for the index `-1`. -/
def releaseIndex (releases : List ClusterRelease) (version : String) : Option Nat :=
  releases.findIdx? fun release => release.kubernetes == version

section Planning

variable (semver : Semver)

/-- `liveReleasePosition`. -/
def liveReleasePosition (service : Service) (state : ClusterState) (target : ClusterRelease) :
    Outcome LiveReleasePosition :=
  match semver.newVersion state.kubernetes with
  | none => .error s!"parse live Kubernetes version {state.kubernetes}"
  | some current =>
    match semver.newVersion target.kubernetes with
    | none => .error s!"parse committed target Kubernetes version {target.kubernetes}"
    | some targetVersion =>
      if semver.greaterThan current targetVersion then
        .error (s!"live Kubernetes {semver.string current} is newer than committed target " ++
            s!"{semver.string targetVersion}; refusing mutation")
      else
        match service.project with
        | none => .panics "nil project"
        | some project =>
          let releases := project.orchestration.releases
          match releaseIndex releases (semver.string current) with
          | none =>
            .error
            s!"live Kubernetes {semver.string current} is absent from the committed release ladder"
          | some currentIndex =>
            match releaseIndex releases (semver.string targetVersion) with
            | none =>
              .error ("committed target Kubernetes " ++
                s!"{semver.string targetVersion} is absent from its release ladder")
            | some targetIndex =>
              if currentIndex > targetIndex ∨
                  (semver.lessThan current targetVersion ∧ currentIndex = targetIndex) then
                .error (s!"live Kubernetes {semver.string current} is not an earlier committed " ++
                    s!"step toward {semver.string targetVersion}")
              else .ok { current, target := targetVersion, currentIndex }

/-- `parsePlatformConstraints`; `seen` holds the ids read so far. -/
def parsePlatformConstraints : List String → List CompatibilityConstraint →
    Except String (List (String × Constraints))
  | _, [] => .ok []
  | seen, entry :: rest =>
    if entry.id = "" ∨ entry.constraint = "" then
      .error "platform constraint requires an id and expression"
    else if entry.id ∈ seen then
      .error s!"platform constraint id {quote entry.id} is duplicated"
    else
      match semver.newConstraint entry.constraint with
      | none => .error s!"{entry.id}={entry.constraint}"
      | some constraint => do
          let parsed ← parsePlatformConstraints (entry.id :: seen) rest
          .ok ((entry.id, constraint) :: parsed)

/-- `firstUnsupportedConstraint`: the first constraint that a version breaks,
versions first, or the empty text. -/
def firstUnsupportedConstraint (constraints : List (String × Constraints))
    (versions : List Version) : String :=
  let unsupported := versions.flatMap fun version =>
    constraints.filter fun constraint => !constraint.2.check version
  match unsupported with
  | [] => ""
  | constraint :: _ => constraint.1 ++ "=" ++ constraint.2.string

/-- `upgradePlan`.  An index behind the end of the ladder panics. -/
def upgradePlan (service : Service) (root : FluxRootObservation)
    (position : LiveReleasePosition) : Outcome UpgradePlan :=
  match service.project with
  | none => .panics "nil project"
  | some project =>
    let current := position.current
    let plan : UpgradePlan :=
      { current := semver.string current
        target := semver.string position.target
        order := .other "" }
    if semver.equal current position.target then .ok { plan with order := .alreadyCurrent }
    else
      match project.orchestration.releases[position.currentIndex + 1]? with
      | none => .panics "index out of range"
      | some next =>
        match semver.newVersion next.kubernetes with
        | none => .error s!"parse next committed Kubernetes version {next.kubernetes}"
        | some first =>
          if first.major ≠ current.major ∨ first.minor > current.minor + 1 then
            .error
              (s!"release ladder skips Kubernetes {current.major}.{current.minor + 1} between " ++
                s!"{semver.string current} and {semver.string first}")
          else
            match parsePlatformConstraints semver [] project.constraints with
            | .error message =>
              .error s!"parse desired platform Kubernetes constraints: {message}"
            | .ok constraints =>
              let platformCompatible :=
                firstUnsupportedConstraint constraints [current, first] == ""
              if !root.complete && platformCompatible then
                .ok { plan with steps := [next], order := .platformFirst }
              else .ok { plan with steps := [next], order := .kubernetesFirst }

/-- `ValidatePlan`. -/
def validatePlan (service : Service) (plan : UpgradePlan) (mode : ConvergenceMode) :
    Except String Unit :=
  match service.project with
  | none => .error "Atum project is not loaded"
  | some project => do
    let releases := project.orchestration.releases
    match plan.order with
    | .other name => .error s!"unsupported orchestration upgrade order {quote name}"
    | _ => .ok ()
    let target ← project.orchestration.targetRelease
    if plan.target ≠ target.kubernetes then
      .error (s!"orchestration plan target {plan.target} does not match " ++
          s!"committed target {target.kubernetes}")
    if plan.order = .installTarget ∧ (plan.current ≠ "" ∨ plan.steps ≠ [target]) then
      .error "cluster install plan must contain its one exact target release"
    if plan.order = .alreadyCurrent ∧ (plan.current ≠ plan.target ∨ plan.steps ≠ []) then
      .error "current cluster plan must match the committed target without upgrade steps"
    if plan.order = .kubernetesFirst ∨ plan.order = .platformFirst then
      match releaseIndex releases plan.current with
      | none =>
        .error s!"live Kubernetes {plan.current} is absent from the committed release ladder"
      | some currentIndex =>
        if releases[currentIndex + 1]?.map (fun next => [next]) ≠ some plan.steps then
          .error "Kubernetes upgrade plan must contain only the next exact committed release"
    match mode with
    | .applyConvergence | .fullConvergence =>
      if (plan.order = .kubernetesFirst ∨
            (plan.order = .platformFirst ∧ plan.current ≠ plan.target)) ∧
          ¬project.orchestration.automaticUpgrade then
        .error
          "automatic Kubernetes upgrades are disabled; run atum orchestration upgrade explicitly"
    | .upgradeConvergence =>
      if plan.order = .installTarget then
        .error "orchestration upgrade requires an existing cluster"
    | .other mode => .error s!"unsupported orchestration convergence mode {mode}"
    if plan.order = .platformFirst ∧ mode ≠ .fullConvergence then
      .error ("the desired Big Bang release must be reconciled before " ++
          "this Kubernetes upgrade; run atum apply")

/-- `Plan` on an existing cluster, with the two observations it makes. -/
def planObserved (service : Service) (root : FluxRootObservation) (live : String) :
    Outcome UpgradePlan :=
  match service.project with
  | none => .error "Atum project is not loaded"
  | some project => do
    let target ← Outcome.ofExcept project.orchestration.targetRelease
    let position ← liveReleasePosition semver service { kubernetes := live } target
    upgradePlan semver service root position

/-- Repeat the plan from round `n` on, and move the cluster to the planned step
each time.  The result lists the steps; the repetition ends with a plan that has
none. -/
def climb (service : Service) (roots : Nat → FluxRootObservation) :
    Nat → Nat → String → Outcome (List ClusterRelease)
  | 0, _, _ => .diverges
  | fuel + 1, n, live => do
      let plan ← planObserved semver service (roots n) live
      match plan.steps with
      | [] => .ok []
      | step :: _ => do
          let later ← climb service roots fuel (n + 1) step.kubernetes
          .ok (step :: later)

end Planning

variable {semver : Semver}

/-! ## Positions on an accepted ladder -/

section Position

variable {releases : List ClusterRelease} {versions : List Version} {v w : Version}

/-- The version of an entry is unique. -/
theorem Rung.unique {release : ClusterRelease} (hv : Rung semver release v)
    (hw : Rung semver release w) : v = w := by
  simpa [hv.parsed] using hw.parsed

variable {r s : ClusterRelease} {i j : Nat}

/-- The position of an entry on the ladder is the order of its version. -/
theorem LadderVersions.compare_of_lt (hlaw : semver.Lawful)
    (h : LadderVersions semver releases versions) (hij : i < j) (hr : releases[i]? = some r)
    (hs : releases[j]? = some s)
    (hv : Rung semver r v) (hw : Rung semver s w) : semver.compare v w = .lt := by
  obtain ⟨hi, rfl⟩ := List.getElem?_eq_some_iff.mp hr
  obtain ⟨hj, rfl⟩ := List.getElem?_eq_some_iff.mp hs
  exact pairwise_iff_getElem.mp (h.pairwise hlaw) i j hi hj hij v w hv hw

/-- Entries of equal versions are one entry. -/
theorem LadderVersions.index_unique (hlaw : semver.Lawful)
    (h : LadderVersions semver releases versions) (hr : releases[i]? = some r)
    (hs : releases[j]? = some s)
    (hv : Rung semver r v) (hw : Rung semver s w) (heq : semver.compare v w = .eq) : i = j := by
  rcases Nat.lt_trichotomy i j with hlt | rfl | hgt
  · rw [h.compare_of_lt hlaw hlt hr hs hv hw] at heq
    exact absurd heq (by decide)
  · rfl
  · have hback := hlaw.eq_symm heq
    rw [h.compare_of_lt hlaw hgt hs hr hw hv] at hback
    exact absurd hback (by decide)

/-- An index that `releaseIndex` finds holds an entry of that text. -/
theorem releaseIndex_eq_some {version : String} (h : releaseIndex releases version = some i) :
    ∃ entry, releases[i]? = some entry ∧ entry.kubernetes = version := by
  obtain ⟨hi, hmatch, -⟩ := List.findIdx?_eq_some_iff_getElem.mp h
  exact ⟨releases[i], List.getElem?_eq_getElem hi, by simpa using hmatch⟩

/-- `releaseIndex` finds every entry of an accepted ladder at its own index. -/
theorem LadderVersions.releaseIndex_of_getElem (hlaw : semver.Lawful)
    (h : LadderVersions semver releases versions) {entry : ClusterRelease}
    (hent : releases[i]? = some entry) : releaseIndex releases entry.kubernetes = some i := by
  obtain ⟨v, hv⟩ := h.rung_of_mem (mem_of_getElem? hent)
  obtain ⟨hi, rfl⟩ := List.getElem?_eq_some_iff.mp hent
  refine List.findIdx?_eq_some_iff_getElem.mpr ⟨hi, by simp, fun j hj => ?_⟩
  rw [beq_iff_eq]
  intro hsame
  have hget : releases[j]? = some releases[j] := List.getElem?_eq_getElem (hj.trans hi)
  obtain ⟨w, hw⟩ := h.rung_of_mem (mem_of_getElem? hget)
  obtain rfl : w = v := by simpa [← hsame, hw.parsed] using hv.parsed
  have hlt := h.compare_of_lt hlaw hj hget hent hw hv
  rw [hlaw.compare_self] at hlt
  exact absurd hlt (by decide)

variable {target : ClusterRelease}

/-- The last entry of a list, by its index. -/
theorem getElem?_of_getLast? (h : releases.getLast? = some target) :
    releases[releases.length - 1]? = some target := by
  rw [← List.getLast?_eq_getElem?, h]

theorem targetRelease_ok {orchestration : Orchestration} :
    orchestration.targetRelease = .ok target ↔ orchestration.releases.getLast? = some target := by
  unfold Orchestration.targetRelease
  split
  · next hnone => simp [hnone]
  · next entry hent => simp [hent]

end Position

/-- A live text that stands for an entry of the ladder below or at the target. -/
structure OnLadder (semver : Semver) (releases : List ClusterRelease) (live : String)
    (target : ClusterRelease) (position : LiveReleasePosition) : Prop where
  parsed : semver.newVersion live = some position.current
  entry : ∃ entry, releases[position.currentIndex]? = some entry ∧
    Rung semver entry position.current
  last : releases.getLast? = some target
  target : Rung semver target position.target

section Plan

variable {service : Service} {project : Project} {versions : List Version} {live : String}
  {target : ClusterRelease} {position : LiveReleasePosition} (hlaw : semver.Lawful)
  (hproject : service.project = some project)
  (hladder : LadderVersions semver project.orchestration.releases versions)
  (h : OnLadder semver project.orchestration.releases live target position)

include hlaw hproject hladder in
/-- A position that was found is an entry of the ladder. -/
theorem liveReleasePosition_ok (htgt : project.orchestration.releases.getLast? = some target)
    (h : liveReleasePosition semver service { kubernetes := live } target = .ok position) :
    OnLadder semver project.orchestration.releases live target position := by
  obtain ⟨w, hw⟩ := hladder.rung_of_mem (mem_of_getLast? htgt)
  simp only [liveReleasePosition, hw.parsed, hproject] at h
  cases hcur : semver.newVersion live with
  | none => simp [hcur] at h
  | some current =>
    simp only [hcur] at h
    split at h
    · simp at h
    split at h
    · simp at h
    next currentIndex hidx =>
    split at h
    · simp at h
    split at h
    · simp at h
    simp only [Outcome.ok.injEq] at h
    subst h
    obtain ⟨entry, hent, htext⟩ := releaseIndex_eq_some hidx
    obtain ⟨v, hv⟩ := hladder.rung_of_mem (mem_of_getElem? hent)
    -- The text of the entry is the canonical form of the live version.
    obtain rfl : v = current := by
      have hback := hlaw.newVersion_string live current hcur
      rw [← htext, hv.parsed] at hback
      exact Option.some.inj hback
    exact ⟨hcur, ⟨entry, hent, hv⟩, htgt, hw⟩

include hlaw hproject hladder h in
/-- A live text that stands for an entry has a position. -/
theorem liveReleasePosition_of_onLadder :
    liveReleasePosition semver service { kubernetes := live } target = .ok position := by
  obtain ⟨entry, hent, hv⟩ := h.entry
  have hlast := getElem?_of_getLast? h.last
  have hidx : releaseIndex project.orchestration.releases
      (semver.string position.current) = some position.currentIndex := by
    rw [hv.canonical]
    exact hladder.releaseIndex_of_getElem hlaw hent
  have htargetIndex : releaseIndex project.orchestration.releases
      (semver.string position.target) = some (project.orchestration.releases.length - 1) := by
    rw [h.target.canonical]
    exact hladder.releaseIndex_of_getElem hlaw hlast
  have hbound : position.currentIndex < project.orchestration.releases.length :=
    (List.getElem?_eq_some_iff.mp hent).1
  have hnotGreater : semver.greaterThan position.current position.target = false := by
    rcases Nat.lt_or_ge position.currentIndex (project.orchestration.releases.length - 1)
      with hlt | hge
    · simp [Semver.greaterThan, hladder.compare_of_lt hlaw hlt hent hlast hv h.target]
    obtain rfl : entry = target := by
      have heq : position.currentIndex = project.orchestration.releases.length - 1 := by omega
      simpa [heq, hlast] using hent.symm
    simp [Semver.greaterThan, hv.unique h.target, hlaw.compare_self]
  have hearlier : ¬(position.currentIndex > project.orchestration.releases.length - 1 ∨
      semver.lessThan position.current position.target ∧
        position.currentIndex = project.orchestration.releases.length - 1) := by
    rintro (hgt | ⟨hless, heq⟩)
    · omega
    · obtain rfl : entry = target := by simpa [heq, hlast] using hent.symm
      simp [Semver.lessThan, hv.unique h.target, hlaw.compare_self] at hless
  simp [liveReleasePosition, h.parsed, h.target.parsed, hproject,
    hidx, htargetIndex, hnotGreater, if_neg hearlier]

/-- The machine minor of an entry has a successor. -/
def HasNextMinor (semver : Semver) (release : ClusterRelease) : Prop :=
  ∀ v, semver.newVersion release.kubernetes = some v → v.minor.toNat + 1 < 2 ^ 64

/-- A plan for one step from `entry` towards `target`. -/
structure PlansStep (entry next target : ClusterRelease) (plan : UpgradePlan) : Prop where
  current : plan.current = entry.kubernetes
  target : plan.target = target.kubernetes
  steps : plan.steps = [next]
  order : plan.order = .platformFirst ∨ plan.order = .kubernetesFirst

include hlaw hproject in
/-- The plan at the target has no step. -/
theorem upgradePlan_at_target (root : FluxRootObservation)
    (h : OnLadder semver project.orchestration.releases live target position)
    (hend : position.currentIndex + 1 = project.orchestration.releases.length) :
    upgradePlan semver service root position =
      .ok { current := target.kubernetes, target := target.kubernetes,
            order := .alreadyCurrent } := by
  obtain ⟨entry, hent, hv⟩ := h.entry
  have hlast := getElem?_of_getLast? h.last
  rw [← hend, Nat.add_sub_cancel, hent] at hlast
  cases hlast
  have hsame := hv.unique h.target
  simp [upgradePlan, hproject, Semver.equal, ← hsame, hlaw.compare_self, hv.canonical]

/-- The test of the planner passes on a step of the ladder exactly when the
minor of the live version has a successor. -/
theorem skips_iff {v w : Version} (h : Advances semver v w) :
    (w.major ≠ v.major ∨ w.minor > v.minor + 1) ↔ ¬v.minor.toNat + 1 < 2 ^ 64 := by
  have hone : (1 : UInt64).toNat = 1 := rfl
  rw [or_iff_right (not_not.mpr h.major), gt_iff_lt, UInt64.lt_iff_toNat_lt, UInt64.toNat_add, hone]
  rcases h.minor with heq | hsucc
  · rw [heq]
    omega
  · omega

variable {entry : ClusterRelease}

include hlaw hproject hladder in
/-- Below the target the planner plans the next entry or refuses.  It refuses
exactly when the live minor has no successor or a constraint does not parse. -/
theorem upgradePlan_below_target (root : FluxRootObservation)
    (h : OnLadder semver project.orchestration.releases live target position)
    {next : ClusterRelease}
    (hent : project.orchestration.releases[position.currentIndex]? = some entry)
    (hnext : project.orchestration.releases[position.currentIndex + 1]? = some next) :
    (∃ plan, upgradePlan semver service root position = .ok plan ∧
        PlansStep entry next target plan ∧ HasNextMinor semver entry ∧
        ∃ constraints, parsePlatformConstraints semver [] project.constraints = .ok constraints) ∨
      (∃ message, upgradePlan semver service root position = .error message) ∧
        ¬(HasNextMinor semver entry ∧
          ∃ constraints, parsePlatformConstraints semver [] project.constraints =
            .ok constraints) := by
  obtain ⟨entry', hent', hv⟩ := h.entry
  obtain rfl : entry = entry' := by simpa [hent] using hent'
  obtain ⟨hbound, -⟩ := List.getElem?_eq_some_iff.mp hnext
  -- The live version is below the target version.
  have hlt : semver.compare position.current position.target = .lt :=
    hladder.compare_of_lt hlaw (by omega) hent (getElem?_of_getLast? h.last) hv h.target
  have hequal : semver.equal position.current position.target = false := by
    simp [Semver.equal, hlt]
  obtain ⟨v, w, hv', hw, hadvance⟩ : LadderStep semver entry next := by
    obtain ⟨hi, rfl⟩ := List.getElem?_eq_some_iff.mp hent
    obtain ⟨hj, rfl⟩ := List.getElem?_eq_some_iff.mp hnext
    exact isChain_iff_getElem.mp hladder.steps _ hj
  obtain rfl := hv.unique hv'
  have hminor : HasNextMinor semver entry ↔ position.current.minor.toNat + 1 < 2 ^ 64 := by
    simp [HasNextMinor, hv.parsed]
  simp only [upgradePlan, hproject, hequal, hnext, hw.parsed, Bool.false_eq_true, if_false,
    skips_iff hadvance]
  rw [hminor]
  split
  · next hwrap => exact .inr ⟨⟨_, rfl⟩, fun hboth => hwrap hboth.1⟩
  next hroom =>
  rw [not_not] at hroom
  cases hcons : parsePlatformConstraints semver [] project.constraints with
  | error message =>
    refine .inr ⟨⟨_, rfl⟩, ?_⟩
    rintro ⟨-, constraints, hok⟩
    simp at hok
  | ok constraints =>
    refine .inl ?_
    simp only
    split
    · exact ⟨_, rfl, ⟨hv.canonical, h.target.canonical, rfl, .inl rfl⟩, hroom, _, rfl⟩
    · exact ⟨_, rfl, ⟨hv.canonical, h.target.canonical, rfl, .inr rfl⟩, hroom, _, rfl⟩

include hproject in
/-- The validator accepts the plan at the target. -/
theorem validatePlan_at_target (hlast : project.orchestration.releases.getLast? = some target) :
    validatePlan service { current := target.kubernetes, target := target.kubernetes,
                           order := .alreadyCurrent } .fullConvergence = .ok () := by
  simp [validatePlan, hproject, targetRelease_ok.mpr hlast, Bind.bind, Except.bind, pure,
    Except.pure]

variable {plan : UpgradePlan} {i : Nat}

include hlaw hproject hladder in
/-- The validator accepts every plan for the next step, when automatic upgrades
are on. -/
theorem validatePlan_below_target (hautomatic : project.orchestration.automaticUpgrade = true)
    (hlast : project.orchestration.releases.getLast? = some target) {next : ClusterRelease}
    (hent : project.orchestration.releases[i]? = some entry)
    (hnext : project.orchestration.releases[i + 1]? = some next)
    (hplan : PlansStep entry next target plan) :
    validatePlan service plan .fullConvergence = .ok () := by
  have hidx : releaseIndex project.orchestration.releases plan.current = some i := by
    rw [hplan.current]
    exact hladder.releaseIndex_of_getElem hlaw hent
  rcases hplan.order with horder | horder <;>
    simp [validatePlan, hproject, targetRelease_ok.mpr hlast, horder, hplan.target, hidx,
      hnext, hplan.steps, hautomatic, Bind.bind, Except.bind, pure, Except.pure]

include hlaw hproject hladder in
/-- A round of the repetition plans from the position of the live text. -/
theorem planObserved_of_onLadder (root : FluxRootObservation)
    (h : OnLadder semver project.orchestration.releases live target position) :
    planObserved semver service root live = upgradePlan semver service root position := by
  simp [planObserved, hproject, targetRelease_ok.mpr h.last, Outcome.ofExcept,
    liveReleasePosition_of_onLadder hlaw hproject hladder h, Bind.bind, Outcome.bind]

/-- After a step the live text stands for the next entry. -/
theorem OnLadder.next (hladder : LadderVersions semver project.orchestration.releases versions)
    (h : OnLadder semver project.orchestration.releases live target position)
    {next : ClusterRelease}
    (hnext : project.orchestration.releases[position.currentIndex + 1]? = some next) :
    ∃ w, OnLadder semver project.orchestration.releases next.kubernetes target
      { position with current := w, currentIndex := position.currentIndex + 1 } := by
  obtain ⟨w, hw⟩ := hladder.rung_of_mem (mem_of_getElem? hnext)
  exact ⟨w, hw.parsed, ⟨next, hnext, hw⟩, h.last, h.target⟩

include hlaw hproject hladder in
/-- What a repetition from one position does: it lists the entries above the
position in order, or it stops with an error below an entry that has no next
minor. -/
theorem climb_cases (roots : Nat → FluxRootObservation) (above : Nat) (hcons : 0 < above →
      ∃ constraints, parsePlatformConstraints semver [] project.constraints = .ok constraints) :
    ∀ (n : Nat) {live : String} {position : LiveReleasePosition},
      OnLadder semver project.orchestration.releases live target position →
      position.currentIndex + above + 1 = project.orchestration.releases.length →
      (∀ j entry, position.currentIndex ≤ j → j < position.currentIndex + above →
          project.orchestration.releases[j]? = some entry → HasNextMinor semver entry) ∧
        climb semver service roots (above + 1) n live =
          .ok (project.orchestration.releases.drop (position.currentIndex + 1)) ∨
      (∃ j entry, position.currentIndex ≤ j ∧ j < position.currentIndex + above ∧
          project.orchestration.releases[j]? = some entry ∧ ¬HasNextMinor semver entry) ∧
        ∃ message, climb semver service roots (above + 1) n live = .error message := by
  induction above with
  | zero =>
    intro n live position h hend
    refine .inl ⟨by omega, ?_⟩
    rw [climb, planObserved_of_onLadder hlaw hproject hladder _ h,
      upgradePlan_at_target hlaw hproject _ h (by omega), drop_of_length_le (by omega)]
    rfl
  | succ above ih =>
    intro n live position h hend
    obtain ⟨entry, hent, -⟩ := h.entry
    have hbound : position.currentIndex + 1 < project.orchestration.releases.length := by omega
    have hnext := List.getElem?_eq_getElem hbound
    rw [climb, planObserved_of_onLadder hlaw hproject hladder _ h]
    rcases upgradePlan_below_target hlaw hproject hladder (roots n) h hent hnext with
      ⟨plan, hplan, hstep, hminor, -⟩ | ⟨⟨message, hplan⟩, hrefuse⟩
    · obtain ⟨w, hlater⟩ := h.next hladder hnext
      rw [hplan]
      simp only [Bind.bind, Outcome.bind, hstep.steps]
      rcases ih (fun _ => hcons (by omega)) (n + 1) hlater (by simp only; omega) with
        ⟨hroom, hclimb⟩ |
        ⟨⟨j, full, hj, hj', hfull, hwrap⟩, message, hclimb⟩
      · refine .inl ⟨fun j other hj hj' hother => ?_, ?_⟩
        · rcases Nat.eq_or_lt_of_le hj with rfl | hlt
          · obtain rfl : entry = other := by simpa [hent] using hother
            exact hminor
          · exact hroom j other hlt (by simp only; omega) hother
        · rw [hclimb, drop_eq_getElem_cons hbound]
      refine .inr ⟨⟨j, full, ?_, ?_, hfull, hwrap⟩, message, by rw [hclimb]⟩
      · simp only at hj
        omega
      · simp only at hj'
        omega
    · refine .inr ⟨⟨_, entry, Nat.le_refl _, by omega, hent, fun hminor => ?_⟩, message, ?_⟩
      · exact hrefuse ⟨hminor, hcons (by omega)⟩
      · rw [hplan]
        rfl

include hlaw hproject hladder in
/-- A repetition never reads behind the end of the ladder, however long it
runs. -/
theorem climb_safe (roots : Nat → FluxRootObservation) (reason : String) (fuel : Nat) :
    ∀ (n : Nat) {live : String} {position : LiveReleasePosition},
      OnLadder semver project.orchestration.releases live target position →
      climb semver service roots fuel n live ≠ .panics reason := by
  induction fuel with
  | zero =>
    intro n live position _
    simp [climb]
  | succ fuel ih =>
    intro n live position h
    obtain ⟨entry, hent, -⟩ := h.entry
    obtain ⟨hbound, -⟩ := List.getElem?_eq_some_iff.mp hent
    rw [climb, planObserved_of_onLadder hlaw hproject hladder _ h]
    rcases Nat.eq_or_lt_of_le hbound with hend | hlt
    · rw [upgradePlan_at_target hlaw hproject _ h hend]
      simp [Bind.bind, Outcome.bind]
    have hnext := List.getElem?_eq_getElem hlt
    rcases upgradePlan_below_target hlaw hproject hladder (roots n) h hent hnext with
      ⟨plan, hplan, hstep, -⟩ | ⟨⟨message, hplan⟩, -⟩
    · obtain ⟨w, hlater⟩ := h.next hladder hnext
      have hrest := ih (n + 1) hlater
      rw [hplan]
      simp only [Bind.bind, Outcome.bind, hstep.steps]
      split <;> simp_all
    · rw [hplan]
      simp [Bind.bind, Outcome.bind]

include hlaw hproject hladder in
/-- A plan that was made from a position on the ladder: its steps are the entry
above the live one, the validator accepts it, and the constraints parsed if it
has a step. -/
theorem upgradePlan_ok
    (hautomatic : project.orchestration.automaticUpgrade = true) {root : FluxRootObservation}
    (h : OnLadder semver project.orchestration.releases live target position)
    (hplan : upgradePlan semver service root position = .ok plan) :
    plan.steps = project.orchestration.releases[position.currentIndex + 1]?.toList ∧
      validatePlan service plan .fullConvergence = .ok () ∧
      (position.currentIndex + 1 < project.orchestration.releases.length →
        ∃ constraints, parsePlatformConstraints semver [] project.constraints =
          .ok constraints) := by
  obtain ⟨entry, hent, -⟩ := h.entry
  obtain ⟨hbound, -⟩ := List.getElem?_eq_some_iff.mp hent
  rcases Nat.eq_or_lt_of_le hbound with hend | hlt
  · rw [upgradePlan_at_target hlaw hproject _ h hend, Outcome.ok.injEq] at hplan
    subst hplan
    refine ⟨?_, validatePlan_at_target hproject h.last, by omega⟩
    rw [List.getElem?_eq_none (by omega), toList_none]
  have hnext := List.getElem?_eq_getElem hlt
  rcases upgradePlan_below_target hlaw hproject hladder root h hent hnext with
    ⟨plan', hplan', hstep, -, hcons⟩ | ⟨⟨message, herr⟩, -⟩
  · obtain rfl : plan' = plan := by simpa [hplan'] using hplan
    refine ⟨?_, ?_, fun _ => hcons⟩
    · rw [hstep.steps, hnext, toList_some]
    · exact validatePlan_below_target hlaw hproject hladder hautomatic h.last hent hnext
        hstep
  · simp [herr] at hplan

include hlaw hladder h in
/-- The live text stands for one entry only. -/
theorem OnLadder.sameVersion_iff (hent : project.orchestration.releases[i]? = some entry) :
    semver.sameVersion live entry.kubernetes = true ↔ i = position.currentIndex := by
  obtain ⟨current, hcur, hv⟩ := h.entry
  obtain ⟨w, hw⟩ := hladder.rung_of_mem (mem_of_getElem? hent)
  rw [Semver.sameVersion, Semver.relates_of_parsed h.parsed hw.parsed, Semver.equal, beq_iff_eq]
  constructor
  · intro heq
    exact hladder.index_unique hlaw hent hcur hw hv (hlaw.eq_symm heq)
  · rintro rfl
    obtain rfl : entry = current := by simpa [hent] using hcur
    rw [hw.unique hv, hlaw.compare_self]

include hlaw hladder h in
/-- The entries that are not older than the live version are those from its
index on. -/
theorem OnLadder.newer_eq_false_iff {j : Nat}
    (hent : project.orchestration.releases[j]? = some entry) :
    semver.newer live entry.kubernetes = false ↔ position.currentIndex ≤ j := by
  obtain ⟨current, hcur, hv⟩ := h.entry
  obtain ⟨w, hw⟩ := hladder.rung_of_mem (mem_of_getElem? hent)
  rw [Semver.newer, Semver.relates_of_parsed h.parsed hw.parsed, Semver.greaterThan,
    beq_eq_false_iff_ne, Ne, hlaw.gt_iff_lt]
  constructor
  · intro hnot
    by_contra hlt
    exact hnot (hladder.compare_of_lt hlaw (by omega) hent hcur hw hv)
  intro hle hlt
  rcases Nat.eq_or_lt_of_le hle with rfl | hgt
  · obtain rfl : entry = current := by simpa [hent] using hcur
    rw [hw.unique hv, hlaw.compare_self] at hlt
    exact absurd hlt (by decide)
  · rw [← hlaw.gt_iff_lt, hladder.compare_of_lt hlaw hgt hcur hent hv hw] at hlt
    exact absurd hlt (by decide)

include hlaw hladder h in
/-- The entries below the target and not below the live version, by index. -/
theorem OnLadder.hasNextMinor_iff : (∀ release ∈ project.orchestration.releases.dropLast,
        semver.newer live release.kubernetes = false → HasNextMinor semver release) ↔
      ∀ j entry, position.currentIndex ≤ j → j + 1 < project.orchestration.releases.length →
        project.orchestration.releases[j]? = some entry → HasNextMinor semver entry := by
  constructor
  · intro hall j entry hj hbound hent
    refine hall entry (mem_of_getElem? (i := j) ?_)
      ((h.newer_eq_false_iff hlaw hladder hent).mpr hj)
    rw [List.getElem?_dropLast, if_pos (by omega), hent]
  intro hall release hmem hnewer
  obtain ⟨j, hj⟩ := mem_iff_getElem?.mp hmem
  rw [List.getElem?_dropLast] at hj
  split at hj
  · next hbound =>
    exact hall j release ((h.newer_eq_false_iff hlaw hladder hj).mp hnewer) (by omega) hj
  · simp at hj

/-- What planning promises about a ladder, a live version and the plan for it.
The live version is the entry at `i`. -/
structure StepExact (semver : Semver) (service : Service) (releases : List ClusterRelease)
    (roots : Nat → FluxRootObservation) (live : String) (plan : UpgradePlan) : Prop where
  /-- The plan passes the validator. -/
  validates : validatePlan service plan .fullConvergence = .ok ()
  /-- There is no step exactly at the target. -/
  idle_iff : plan.steps = [] ↔
    ∃ target ∈ releases.getLast?, semver.sameVersion live target.kubernetes = true
  /-- The plan has the entry right above the live one, and nothing else. -/
  step : ∀ i entry, releases[i]? = some entry →
    semver.sameVersion live entry.kubernetes = true → plan.steps = releases[i + 1]?.toList
  /-- The repetition lists the entries above the live one, and its round after
  the last of them has no step. -/
  climbs : ∀ i entry, releases[i]? = some entry →
    semver.sameVersion live entry.kubernetes = true →
    climb semver service roots (releases.length - i) 0 live = .ok (releases.drop (i + 1))
  /-- No round reads behind the end of the ladder. -/
  safe : ∀ fuel reason, climb semver service roots fuel 0 live ≠ .panics reason

/-- Planning is step-exact exactly when no entry from the live one up to the
one below the target has the largest machine minor. -/
theorem upgradePlanning_exact_iff (semver : Semver) (hlaw : semver.Lawful) (service : Service)
    (project : Project) (hproject : service.project = some project)
    (haccepted : validateClusterReleases semver project.orchestration.releases = [])
    (hautomatic : project.orchestration.automaticUpgrade = true)
    (target : ClusterRelease) (htarget : project.orchestration.targetRelease = .ok target)
    (live : String) (roots : Nat → FluxRootObservation) (position : LiveReleasePosition)
    (hposition : liveReleasePosition semver service { kubernetes := live } target =
      .ok position)
    (plan : UpgradePlan) (hplan : upgradePlan semver service (roots 0) position = .ok plan) :
    StepExact semver service project.orchestration.releases roots live plan ↔
      ∀ release ∈ project.orchestration.releases.dropLast,
        semver.newer live release.kubernetes = false → HasNextMinor semver release := by
  obtain ⟨versions, hladder⟩ := ladderVersions_of_accepted hlaw haccepted
  have h := liveReleasePosition_ok hlaw hproject hladder (targetRelease_ok.mp htarget) hposition
  obtain ⟨hsteps, hvalid, hconstraints⟩ := upgradePlan_ok hlaw hproject hladder hautomatic h hplan
  obtain ⟨current, hcurrent, -⟩ := h.entry
  obtain ⟨hbound, -⟩ := List.getElem?_eq_some_iff.mp hcurrent
  rw [h.hasNextMinor_iff hlaw hladder]
  rcases climb_cases hlaw hproject hladder roots
      (project.orchestration.releases.length - position.currentIndex - 1)
      (fun habove => hconstraints (by omega)) 0 h (by omega) with
    ⟨hroom, hclimb⟩ | ⟨⟨j, entry, hj, hj', hentry, hwrap⟩, message, hclimb⟩
  · have hfuel : project.orchestration.releases.length - position.currentIndex - 1 + 1 =
        project.orchestration.releases.length - position.currentIndex := by omega
    refine iff_of_true ⟨hvalid, ?_, ?_, ?_, ?_⟩ ?_
    · have hlast := getElem?_of_getLast? h.last
      rw [hsteps, toList_eq_nil_iff, List.getElem?_eq_none_iff]
      simp only [h.last, mem_some_iff, exists_eq_left', h.sameVersion_iff hlaw hladder hlast]
      omega
    · intro i entry hentry hsame
      rw [(h.sameVersion_iff hlaw hladder hentry).mp hsame, hsteps]
    · intro i entry hentry hsame
      rw [(h.sameVersion_iff hlaw hladder hentry).mp hsame, ← hfuel, hclimb]
    · intro fuel reason
      exact climb_safe hlaw hproject hladder roots reason fuel 0 h
    · intro j entry hj hj' hentry
      exact hroom j entry hj (by omega) hentry
  · -- The repetition stops with an error, so it does not list the entries.
    refine iff_of_false (fun hexact => ?_) fun hall => ?_
    · have hlist := hexact.climbs position.currentIndex current hcurrent
        ((h.sameVersion_iff hlaw hladder hcurrent).mpr rfl)
      rw [show project.orchestration.releases.length - position.currentIndex =
        project.orchestration.releases.length - position.currentIndex - 1 + 1 by omega,
        hclimb] at hlist
      simp at hlist
    · exact hwrap (hall j entry hj (by omega) hentry)

end Plan

/-! ## Concrete plans -/

/-- A loaded project with automatic upgrades and no constraint. -/
def testProject (releases : List ClusterRelease) : Project where
  orchestration := { automaticUpgrade := true, releases }
  constraints := []

def testService (releases : List ClusterRelease) : Service where
  project := some (testProject releases)

/-- The platform has not reached its target in any round. -/
def testRoots (_ : Nat) : FluxRootObservation where
  found := true
  targetCurrent := false
  sourceReady := true
  helmReleaseReady := false

/-- One minor up. -/
def testLadder : List ClusterRelease :=
  [testClusterRelease "1.34.3" "v2.30.0", testClusterRelease "1.35.0" "v2.31.0"]

theorem accepted_testLadder_minor : validateClusterReleases testSemver testLadder = [] := by
  simp only [testLadder, validateClusterReleases, validateReleases, validateRelease,
    validateGitSource_test _ "1.34.3" "v2.30.0" (by decide),
    validateGitSource_test _ "1.35.0" "v2.31.0" (by decide), checksumProblems_test]
  decide +kernel

/-- From the first entry of a ladder of two, planning is step-exact. -/
theorem upgradePlanning_exact_minor :
    StepExact testSemver (testService testLadder) testLadder testRoots "1.34.3"
      { current := "1.34.3", target := "1.35.0", order := .platformFirst
        steps := [testClusterRelease "1.35.0" "v2.31.0"] } := by
  refine (upgradePlanning_exact_iff testSemver testSemver_lawful (testService testLadder)
    (testProject testLadder) rfl accepted_testLadder_minor rfl
    (testClusterRelease "1.35.0" "v2.31.0") rfl "1.34.3" testRoots
    { current := ⟨1, 34, 3, "", ""⟩, target := ⟨1, 35, 0, "", ""⟩, currentIndex := 0 }
    (by decide +kernel) _ (by decide +kernel)).mpr ?_
  intro release hmem _ v hv
  obtain rfl : release = testClusterRelease "1.34.3" "v2.30.0" := by
    simpa [testProject, testLadder] using hmem
  obtain rfl : v = ⟨1, 34, 3, "", ""⟩ := (Option.some.inj hv).symm
  decide

/-- Versions at the top of the machine minors. -/
def largeSemver : Semver :=
  tableSemver
    [("1.18446744073709551614.0", ⟨1, 18446744073709551614, 0, "", ""⟩),
      ("1.18446744073709551615.0", ⟨1, 18446744073709551615, 0, "", ""⟩),
      ("1.18446744073709551615.1", ⟨1, 18446744073709551615, 1, "", ""⟩),
      ("2.30.0", ⟨2, 30, 0, "", ""⟩), ("2.31.0", ⟨2, 31, 0, "", ""⟩),
      ("2.31.1", ⟨2, 31, 1, "", ""⟩)]

theorem largeSemver_lawful : largeSemver.Lawful :=
  tableSemver_lawful (by decide +kernel)

/-- A ladder that takes a patch step at the largest minor. -/
def largeLadder : List ClusterRelease :=
  [testClusterRelease "1.18446744073709551614.0" "v2.30.0",
    testClusterRelease "1.18446744073709551615.0" "v2.31.0",
    testClusterRelease "1.18446744073709551615.1" "v2.31.1"]

theorem accepted_largeLadder : validateClusterReleases largeSemver largeLadder = [] := by
  simp only [largeLadder, validateClusterReleases, validateReleases, validateRelease,
    validateGitSource_test _ "1.18446744073709551614.0" "v2.30.0" (by decide),
    validateGitSource_test _ "1.18446744073709551615.0" "v2.31.0" (by decide),
    validateGitSource_test _ "1.18446744073709551615.1" "v2.31.1" (by decide),
    checksumProblems_test]
  decide +kernel

/-- The first plan succeeds, and the plan for the patch step is refused as a
skipped minor. -/
theorem upgradePlanning_refuses_patch_at_largest_minor :
    largeSemver.Lawful ∧ validateClusterReleases largeSemver largeLadder = [] ∧
      planObserved largeSemver (testService largeLadder) (testRoots 0) "1.18446744073709551614.0" =
        .ok { current := "1.18446744073709551614.0", target := "1.18446744073709551615.1"
              order := .platformFirst
              steps := [testClusterRelease "1.18446744073709551615.0" "v2.31.0"] } ∧
      climb largeSemver (testService largeLadder) testRoots 3 0 "1.18446744073709551614.0" =
        .error ("release ladder skips Kubernetes 1.0 between " ++
            "1.18446744073709551615.0 and 1.18446744073709551615.1") ∧
      ¬StepExact largeSemver (testService largeLadder) largeLadder testRoots
        "1.18446744073709551614.0"
        { current := "1.18446744073709551614.0", target := "1.18446744073709551615.1"
          order := .platformFirst
          steps := [testClusterRelease "1.18446744073709551615.0" "v2.31.0"] } := by
  have hclimb : climb largeSemver (testService largeLadder) testRoots 3 0
      "1.18446744073709551614.0" =
        .error ("release ladder skips Kubernetes 1.0 between " ++
          "1.18446744073709551615.0 and 1.18446744073709551615.1") := by
    decide +kernel
  refine ⟨largeSemver_lawful, accepted_largeLadder, by decide +kernel, hclimb,
    fun hexact => ?_⟩
  have hlist := hexact.climbs 0 _ rfl (by decide +kernel)
  rw [show largeLadder.length - 0 = 3 from rfl, hclimb] at hlist
  cases hlist

end Atum.Release
