import Atum.Release.Plan

/-!
# Convergence to the target release

`convergeOrchestration` plans, validates and carries out one step after the other:
an installation, the step to the next entry of the ladder, or a handoff to the
platform before such a step.  It gives up after `2 * n + 3` rounds on a ladder of `n`
releases.

`Host` collects what the service calls outside of the process.  `Cooperates` states
what is assumed of these calls: a planned step leads to the planned release, and a
handoff completes the Flux root until the next step.  Two rounds then climb one entry
(`convergeLoop_climbs`), and the rounds are enough whenever every plan on the way can
be made (`convergeOrchestration_reaches_iff`).
-/

namespace Atum.Release

open Atum.Go List

/-! ## The calls of the service -/

/-- The calls to the cluster, to the machines and to the prepared toolchains, on a
state that the calls change.  A toolchain is given by its release. -/
structure Host (σ : Type) where
  /-- `clusterClient`; `false` stands for `ErrClusterAbsent`. -/
  clusterClient : σ → Except String Bool
  discoverState : σ → Except String ClusterState
  bigBangObservation : σ → Except String FluxRootObservation
  validateClusterIdentity : σ → Except String Unit
  orchestrationInputSHA256 : σ → Except String String
  prepareReleases : List ClusterRelease → σ → Except String (List ClusterRelease × σ)
  waitForInstallConnections : ClusterRelease → σ → Except String σ
  runKubespray : ClusterRelease → String → σ → Except String σ
  waitHealthy : String → σ → Except String σ

section Converge

variable {σ : Type} (host : Host σ)

/-- The client of a cluster that has to be there. -/
def requireClient (s : σ) : Except String Unit := do
  if ← host.clusterClient s then .ok () else .error "cluster kubeconfig is absent"

/-- `requireOrchestrationInput`. -/
def requireOrchestrationInput (expected : String) (s : σ) : Except String Unit := do
  let actual ← host.orchestrationInputSHA256 s
  if actual ≠ expected then
    .error s!"orchestration inputs changed during convergence: found {actual}, want {expected}"
  else .ok ()

/-- `convergeExistingKubespray`. -/
def convergeExistingKubespray (toolchain : ClusterRelease) (playbook kubernetes : String) (s : σ) :
    Except String σ := do
  let s ← host.runKubespray toolchain playbook s
  (host.waitHealthy kubernetes s).mapError fun e => s!"post-Kubespray health gate: {e}"

/-- `convergeCurrentConfiguration`. -/
def convergeCurrentConfiguration (target : ClusterRelease) (s : σ) : Except String σ := do
  let inputSHA ← host.orchestrationInputSHA256 s
  let (toolchains, s) ← host.prepareReleases [target] s
  match toolchains with
  | [toolchain] => do
      let s ← (host.waitHealthy target.kubernetes s).mapError fun e =>
        s!"pre-Kubespray health gate: {e}"
      let s ← (convergeExistingKubespray host toolchain "cluster.yml" target.kubernetes s).mapError
        fun e => s!"current cluster configuration convergence: {e}"
      requireOrchestrationInput host inputSHA s
      return s
  | _ => .error "prepared Kubespray toolchain does not match the current release"

/-- `validateCurrentTargetState`. -/
def validateCurrentTargetState (state : ClusterState) (target : ClusterRelease) (s : σ) :
    Except String Unit :=
  if state.kubernetes ≠ target.kubernetes then
    .error
      s!"live Kubernetes changed from committed target {target.kubernetes} to {state.kubernetes}"
  else host.validateClusterIdentity s

/-- `ConvergePlanned` on a cluster at its target. -/
def convergeCurrent (target : ClusterRelease) (mode : ConvergenceMode) (s : σ) :
    Except String σ := do
  requireClient host s
  let state ← host.discoverState s
  validateCurrentTargetState host state target s
  if mode = .applyConvergence then convergeCurrentConfiguration host target s
  else host.waitHealthy target.kubernetes s

/-- `ConvergePlanned` for an installation. -/
def convergeInstall (plan : UpgradePlan) (toolchain : ClusterRelease) (s : σ) :
    Except String σ := do
  let inputSHA ← host.orchestrationInputSHA256 s
  let s ← host.waitForInstallConnections toolchain s
  let s ← host.runKubespray toolchain "cluster.yml" s
  (requireClient host s).mapError fun e => s!"load installed cluster: {e}"
  let s ← host.waitHealthy plan.target s
  requireOrchestrationInput host inputSHA s
  let verified ← (host.discoverState s).mapError fun e =>
    s!"verify installed Kubernetes version: {e}"
  if verified.kubernetes ≠ plan.target then
    .error s!"installed Kubernetes reports {verified.kubernetes}, want {plan.target}"
  else do
    host.validateClusterIdentity s
    return s

/-- The loop of `ConvergePlanned` over the steps and their toolchains. -/
def convergeSteps (inputSHA : String) :
    List (ClusterRelease × ClusterRelease) → String → σ → Except String σ
  | [], _, s => .ok s
  | (release, toolchain) :: rest, live, s => do
      let s ← (host.waitHealthy live s).mapError fun e => s!"pre-upgrade health gate: {e}"
      if toolchain.kubernetes ≠ release.kubernetes ∨
          toolchain.kubespray.commit ≠ release.kubespray.commit then
        .error (s!"prepared Kubespray toolchain {toolchain.kubespray.commit} does " ++
            s!"not match Kubernetes {release.kubernetes}")
      else do
        let s ← (convergeExistingKubespray host toolchain "upgrade-cluster.yml"
          release.kubernetes s).mapError fun e =>
            s!"converge existing cluster at Kubernetes {release.kubernetes}: {e}"
        requireOrchestrationInput host inputSHA s
        let state ← host.discoverState s
        if state.kubernetes ≠ release.kubernetes then
          .error s!"post-Kubespray Kubernetes reports {state.kubernetes}, want {release.kubernetes}"
        else convergeSteps inputSHA rest state.kubernetes s

/-- `ConvergePlanned` for the steps of an existing cluster. -/
def convergeUpgrade (plan : UpgradePlan) (toolchains : List ClusterRelease) (s : σ) :
    Except String σ := do
  requireClient host s
  let state ← host.discoverState s
  if state.kubernetes ≠ plan.current then
    .error
      s!"live Kubernetes changed from planned {plan.current} to {state.kubernetes} before Kubespray"
  else do
    host.validateClusterIdentity s
    let inputSHA ← host.orchestrationInputSHA256 s
    convergeSteps host inputSHA (plan.steps.zip toolchains) state.kubernetes s

/-- `ConvergePlanned` once the toolchains are needed. -/
def convergePrepared (plan : UpgradePlan) (s : σ) : Except String σ := do
  let (toolchains, s) ← host.prepareReleases plan.steps s
  if toolchains.length ≠ plan.steps.length then
    .error "prepared Kubespray toolchains do not match the upgrade ladder"
  else
    match plan.order, toolchains with
    | .installTarget, toolchain :: _ => convergeInstall host plan toolchain s
    | _, toolchains => convergeUpgrade host plan toolchains s

/-- `ConvergePlanned`, with the state that it leaves. -/
def convergePlanned (service : Service) (plan : UpgradePlan) (mode : ConvergenceMode) (s : σ) :
    Except String σ := do
  validatePlan service plan mode
  match service.project with
  | none => .error "Atum project is not loaded"
  | some project =>
    if plan.order = .platformFirst then
      .error ("the desired Big Bang release must be reconciled before " ++
          "this Kubernetes upgrade; run atum apply")
    else if plan.order = .alreadyCurrent then do
      let target ← project.orchestration.targetRelease
      convergeCurrent host target mode s
    else convergePrepared host plan s

end Converge

/-! ## The loop -/

/-- A run of the loop: the states in which the platform was handed off, the last
state, and whether the platform was applied. -/
structure ConvergenceRun (σ : Type) where
  handoffs : List σ := []
  state : σ
  result : Outcome Bool

/-- A run with one handoff before it. -/
def ConvergenceRun.after {σ : Type} (s : σ) (run : ConvergenceRun σ) : ConvergenceRun σ :=
  { run with handoffs := s :: run.handoffs }

section Loop

variable {σ : Type} (semver : Semver) (host : Host σ) (service : Service) (mode : ConvergenceMode)
  (platformHandoff : Option (σ → Except String σ))

/-- `Plan`. -/
def plan (s : σ) : Outcome UpgradePlan :=
  match service.project with
  | none => .error "Atum project is not loaded"
  | some project => do
    let target ← Outcome.ofExcept project.orchestration.targetRelease
    let present ← Outcome.ofExcept (host.clusterClient s)
    if present then do
      let state ← Outcome.ofExcept (host.discoverState s)
      let position ← liveReleasePosition semver service state target
      let root ← Outcome.ofExcept (host.bigBangObservation s)
      upgradePlan semver service root position
    else .ok { target := target.kubernetes, order := .installTarget, steps := [target] }

/-- A round of the loop that does not hand off; `rest` is the rest of the loop. -/
def convergeRound (current : UpgradePlan) (applied : Bool) (rest : σ → ConvergenceRun σ) (s : σ) :
    ConvergenceRun σ :=
  match convergePlanned host service current mode s with
  | .error e => { state := s, result := .error e }
  | .ok s' =>
    if current.order = .alreadyCurrent then { state := s', result := .ok applied } else rest s'

/-- The loop of `convergeOrchestration`; an error leaves the state open. -/
def convergeLoop : Nat → Bool → σ → ConvergenceRun σ
  | 0, _, s =>
    { state := s
      result :=
        .error "orchestration convergence exceeded the committed release and platform handoff bound"
        }
  | limit + 1, applied, s =>
    match (do
      let current ← plan semver host service s
      Outcome.ofExcept (validatePlan service current mode)
      return current : Outcome UpgradePlan) with
    | .error e => { state := s, result := .error e }
    | .panics reason => { state := s, result := .panics reason }
    | .diverges => { state := s, result := .diverges }
    | .ok current =>
      match platformHandoff with
      | none => convergeRound host service mode current applied (convergeLoop limit applied) s
      | some handoff =>
        if current.order = .platformFirst then
          match handoff s with
          | .error e => { handoffs := [s], state := s, result := .error e }
          | .ok s' => (convergeLoop limit true s').after s
        else convergeRound host service mode current applied (convergeLoop limit applied) s

/-- `convergeOrchestration`. -/
def convergeOrchestration (s : σ) : ConvergenceRun σ :=
  match service.project with
  | none => { state := s, result := .panics "nil project" }
  | some project =>
    convergeLoop semver host service mode platformHandoff
      (project.orchestration.releases.length * 2 + 3) false s

end Loop

/-! ## What is assumed and what is promised -/

section Specification

variable {σ : Type}

/-- The cluster is absent or runs a release of the ladder. -/
def LiveOn (project : Project) (live : Option String) : Prop :=
  ∀ version, live = some version →
    ∃ release ∈ project.orchestration.releases, release.kubernetes = version

/-- The calls work, a planned step leads to the planned release, and a handoff
completes the Flux root and does not touch the release. -/
structure Cooperates (semver : Semver) (host : Host σ) (service : Service) (project : Project)
    (handoff : σ → Except String σ) (live : σ → Option String) (root : σ → FluxRootObservation) :
    Prop where
  client : ∀ s, host.clusterClient s = .ok (live s).isSome
  state : ∀ s version, live s = some version → host.discoverState s = .ok { kubernetes := version }
  observation : ∀ s, host.bigBangObservation s = .ok (root s)
  step : ∀ s current release, LiveOn project (live s) → plan semver host service s = .ok current →
    current.order ≠ .platformFirst → current.steps = [release] →
    ∃ s', convergePlanned host service current .fullConvergence s = .ok s' ∧
      live s' = some release.kubernetes
  idle : ∀ s current, LiveOn project (live s) → plan semver host service s = .ok current →
    current.order = .alreadyCurrent →
    ∃ s', convergePlanned host service current .fullConvergence s = .ok s' ∧ live s' = live s
  handoff : ∀ s, ∃ s', handoff s = .ok s' ∧ live s' = live s ∧ (root s').complete = true

/-- The live release and the one above it satisfy all constraints of the lock. -/
def Supported (semver : Semver) (project : Project) (live : Option String) : Prop :=
  ∃ i entry next v w constraints, project.orchestration.releases[i]? = some entry ∧
    project.orchestration.releases[i + 1]? = some next ∧ live = some entry.kubernetes ∧
    semver.newVersion entry.kubernetes = some v ∧ semver.newVersion next.kubernetes = some w ∧
    parsePlatformConstraints semver [] project.constraints = .ok constraints ∧
    ∀ constraint ∈ constraints, constraint.2.check v = true ∧ constraint.2.check w = true

/-- The constraints of the lock can be read. -/
def Readable (semver : Semver) (project : Project) : Prop :=
  ∃ constraints, parsePlatformConstraints semver [] project.constraints = .ok constraints

/-- Every plan from the live release up to the target can be made: the constraints
parse, and no entry on the way has the largest machine minor. -/
def Passable (semver : Semver) (project : Project) (live : Option String) : Prop :=
  ∀ version, live = some version →
    (∀ target, project.orchestration.releases.getLast? = some target → version ≠ target.kubernetes →
      ∃ constraints, parsePlatformConstraints semver [] project.constraints = .ok constraints) ∧
    ∀ release ∈ project.orchestration.releases.dropLast,
      semver.newer version release.kubernetes = false → HasNextMinor semver release

end Specification

/-- A run that ends well, at the target. -/
def Reached {σ : Type} (live : σ → Option String) (target : ClusterRelease)
    (run : ConvergenceRun σ) : Prop :=
  (∃ applied, run.result = .ok applied) ∧ live run.state = some target.kubernetes

/-! ## One plan -/

section Plans

variable {semver : Semver} {σ : Type} {host : Host σ} {service : Service} {project : Project}
  {versions : List Version} {target : ClusterRelease} {handoff : σ → Except String σ}
  {live : σ → Option String} {root : σ → FluxRootObservation} {s : σ}

theorem plan_absent (hcooperates : Cooperates semver host service project handoff live root)
    (hproject : service.project = some project)
    (htgt : project.orchestration.releases.getLast? = some target)
    (hlive : live s = none) : plan semver host service s =
      .ok { target := target.kubernetes, order := .installTarget, steps := [target] } := by
  simp [plan, hproject, targetRelease_ok.mpr htgt, hcooperates.client, hlive, Outcome.ofExcept,
    Bind.bind, Outcome.bind]

theorem plan_present (hcooperates : Cooperates semver host service project handoff live root)
    (hproject : service.project = some project) {version : String} (hlive : live s = some version) :
    plan semver host service s = planObserved semver service (root s) version := by
  simp only [plan, planObserved, hproject, hcooperates.client, hlive, hcooperates.state s version,
    hcooperates.observation]
  rfl

/-- The constraints that have no unsupported version. -/
theorem check_of_firstUnsupportedConstraint {constraints : List (String × Constraints)}
    {supported : List Version} (h : firstUnsupportedConstraint constraints supported = "") :
    ∀ version ∈ supported, ∀ constraint ∈ constraints, constraint.2.check version = true := by
  intro version hver constraint hcon
  by_contra hcheck
  unfold firstUnsupportedConstraint at h
  have hmem : constraint ∈ supported.flatMap fun version =>
      constraints.filter fun constraint => !constraint.2.check version :=
    mem_flatMap.mpr ⟨version, hver, mem_filter.mpr ⟨hcon, by simpa using hcheck⟩⟩
  dsimp only at h
  split at h
  · next hnone =>
    rw [hnone] at hmem
    cases hmem
  · have hlen := congrArg String.length h
    simp [String.length_append] at hlen

/-- A plan that puts the platform first was made on an incomplete root, for supported
versions. -/
theorem upgradePlan_platformFirst (hproject : service.project = some project)
    {observation : FluxRootObservation} {position : LiveReleasePosition} {current : UpgradePlan}
    (h : upgradePlan semver service observation position = .ok current)
    (horder : current.order = .platformFirst) : observation.complete = false ∧ ∃ next w constraints,
      project.orchestration.releases[position.currentIndex + 1]? = some next ∧
      semver.newVersion next.kubernetes = some w ∧
      parsePlatformConstraints semver [] project.constraints = .ok constraints ∧
      ∀ constraint ∈ constraints,
        constraint.2.check position.current = true ∧ constraint.2.check w = true := by
  simp only [upgradePlan, hproject] at h
  split at h
  · cases h
    cases horder
  split at h
  · cases h
  next next hnext =>
  split at h
  · cases h
  next w hw =>
  split at h
  · cases h
  split at h
  · cases h
  next constraints hcons =>
  split at h
  · next hfirst =>
    rw [Bool.and_eq_true, Bool.not_eq_true', beq_iff_eq] at hfirst
    have hcheck := check_of_firstUnsupportedConstraint hfirst.2
    exact ⟨hfirst.1, next, w, constraints, hnext, hw, hcons,
      fun constraint hmem => ⟨hcheck _ (by simp) _ hmem, hcheck _ (by simp) _ hmem⟩⟩
  · cases h
    cases horder

end Plans

/-! ## The rounds -/

section Rounds

variable {semver : Semver} {σ : Type} {host : Host σ} {service : Service} {project : Project}
  {versions : List Version} {target entry next : ClusterRelease} {handoff : σ → Except String σ}
  {live : σ → Option String} {root : σ → FluxRootObservation} {s : σ}

theorem liveOn_of_getElem {i : Nat} (hent : project.orchestration.releases[i]? = some entry)
    (hlive : live s = some entry.kubernetes) : LiveOn project (live s) := by
  intro version hver
  rw [hlive] at hver
  exact ⟨entry, mem_of_getElem? hent, Option.some.inj hver⟩

variable {applied : Bool} {limit : Nat}

theorem convergeLoop_of_error {e : String} (h : plan semver host service s = .error e) :
    convergeLoop semver host service .fullConvergence (some handoff) (limit + 1) applied s =
      { state := s, result := .error e } := by
  simp [convergeLoop, h, Bind.bind, Outcome.bind]

variable {current : UpgradePlan}

theorem convergeLoop_of_plan (h : plan semver host service s = .ok current)
    (hvalid : validatePlan service current .fullConvergence = .ok ()) :
    convergeLoop semver host service .fullConvergence (some handoff) (limit + 1) applied s =
      if current.order = .platformFirst then
        match handoff s with
        | .error e => { handoffs := [s], state := s, result := .error e }
        | .ok s' => (convergeLoop semver host service .fullConvergence (some handoff) limit true
            s').after s
      else
        convergeRound host service .fullConvergence current applied
          (convergeLoop semver host service .fullConvergence (some handoff) limit applied) s := by
  simp [convergeLoop, h, hvalid, Outcome.ofExcept, Bind.bind, Outcome.bind, Pure.pure]

/-- A round that carries out a planned step. -/
theorem convergeLoop_step (hcooperates : Cooperates semver host service project handoff live root)
    (hon : LiveOn project (live s)) {release : ClusterRelease}
    (h : plan semver host service s = .ok current)
    (hvalid : validatePlan service current .fullConvergence = .ok ())
    (hplatform : current.order ≠ .platformFirst) (hidle : current.order ≠ .alreadyCurrent)
    (hsteps : current.steps = [release]) (limit : Nat) (applied : Bool) :
    ∃ s', live s' = some release.kubernetes ∧
      convergeLoop semver host service .fullConvergence (some handoff) (limit + 1) applied s =
        convergeLoop semver host service .fullConvergence (some handoff) limit applied s' := by
  obtain ⟨s', hs', hlive⟩ := hcooperates.step s current release hon h hplatform hsteps
  refine ⟨s', hlive, ?_⟩
  rw [convergeLoop_of_plan h hvalid, if_neg hplatform, convergeRound, hs']
  simp [hidle]

/-- The live release is an entry of the ladder. -/
structure Stands (semver : Semver) (project : Project) (target : ClusterRelease)
    (live : Option String) (entry : ClusterRelease) (position : LiveReleasePosition) : Prop where
  live : live = some entry.kubernetes
  onLadder : OnLadder semver project.orchestration.releases entry.kubernetes target position
  entry : project.orchestration.releases[position.currentIndex]? = some entry

variable {position : LiveReleasePosition} (hlaw : semver.Lawful)
  (hcooperates : Cooperates semver host service project handoff live root)
  (hproject : service.project = some project)
  (hladder : LadderVersions semver project.orchestration.releases versions)

include hlaw hcooperates hproject hladder

theorem Stands.plan_eq (h : Stands semver project target (live s) entry position) :
    plan semver host service s = upgradePlan semver service (root s) position := by
  rw [plan_present hcooperates hproject h.live,
    planObserved_of_onLadder hlaw hproject hladder _ h.onLadder]

/-- The round at the target is the last one. -/
theorem convergeLoop_at_target (h : Stands semver project target (live s) entry position)
    (hend : position.currentIndex + 1 = project.orchestration.releases.length) (limit : Nat)
    (applied : Bool) : ∃ s', live s' = some entry.kubernetes ∧
      convergeLoop semver host service .fullConvergence (some handoff) (limit + 1) applied s =
        { state := s', result := .ok applied } := by
  have hplan := h.plan_eq hlaw hcooperates hproject hladder
  rw [upgradePlan_at_target hlaw hproject _ h.onLadder hend] at hplan
  obtain ⟨s', hs', hlive'⟩ := hcooperates.idle s _ (liveOn_of_getElem h.entry h.live) hplan rfl
  refine ⟨s', hlive'.trans h.live, ?_⟩
  rw [convergeLoop_of_plan hplan (validatePlan_at_target hproject h.onLadder.last),
    if_neg (by simp), convergeRound, hs']
  rfl

variable (hautomatic : project.orchestration.automaticUpgrade = true)

include hautomatic

/-- What at most two rounds below the target do: they stop with the error of the plan,
or they climb to the next entry and hand the platform off at most once before that, in
a supported state. -/
theorem convergeLoop_climbs (h : Stands semver project target (live s) entry position)
    (hnext : project.orchestration.releases[position.currentIndex + 1]? = some next) (limit : Nat)
    (applied : Bool) :
    (∃ e, convergeLoop semver host service .fullConvergence (some handoff) (limit + 2) applied s =
          { state := s, result := .error e }) ∧
        ¬(HasNextMinor semver entry ∧ Readable semver project) ∨
      (HasNextMinor semver entry ∧ Readable semver project) ∧
        ∃ s' applied' limit', limit ≤ limit' ∧ live s' = some next.kubernetes ∧
          (convergeLoop semver host service .fullConvergence (some handoff) (limit + 2) applied s =
              convergeLoop semver host service .fullConvergence (some handoff) limit' applied' s' ∨
            Supported semver project (live s) ∧
              convergeLoop semver host service .fullConvergence (some handoff) (limit + 2) applied
                  s =
                (convergeLoop semver host service .fullConvergence (some handoff) limit' applied'
                  s').after s) := by
  have hplanAt := h.plan_eq hlaw hcooperates hproject hladder
  rcases upgradePlan_below_target hlaw hproject hladder (root s) h.onLadder h.entry hnext with
    ⟨current, hplan, hstep, hminor, hcons⟩ | ⟨⟨e, hplan⟩, hrefuse⟩
  · refine .inr ⟨⟨hminor, hcons⟩, ?_⟩
    have hvalid : ∀ {plan : UpgradePlan}, PlansStep entry next target plan →
        validatePlan service plan .fullConvergence = .ok () := fun hstep =>
      validatePlan_below_target hlaw hproject hladder hautomatic h.onLadder.last h.entry hnext hstep
    rcases hstep.order with horder | horder
    · -- The platform first: after the handoff the same plan puts Kubernetes first.
      obtain ⟨handed, hhanded, hsame, hcompl⟩ := hcooperates.handoff s
      have hstands : Stands semver project target (live handed) entry position :=
        { h with live := hsame.trans h.live }
      rcases upgradePlan_below_target hlaw hproject hladder (root handed) h.onLadder h.entry hnext
        with ⟨current', hplan', hstep', -⟩ | ⟨-, hrefuse⟩
      · have hplatform : current'.order ≠ .platformFirst := by
          intro hfirst
          have hincomplete := (upgradePlan_platformFirst hproject hplan' hfirst).1
          rw [hcompl] at hincomplete
          cases hincomplete
        have hkube : current'.order = .kubernetesFirst := hstep'.order.resolve_left hplatform
        obtain ⟨climbed, hclimbed, hloop⟩ := convergeLoop_step hcooperates
          (liveOn_of_getElem h.entry hstands.live)
          ((hstands.plan_eq hlaw hcooperates hproject hladder).trans hplan') (hvalid hstep')
          hplatform (by simp [hkube]) hstep'.steps limit true
        refine ⟨climbed, true, limit, le_refl _, hclimbed, .inr ⟨?_, ?_⟩⟩
        · obtain ⟨-, above, w, constraints, habove, hw, hparse, hcheck⟩ :=
            upgradePlan_platformFirst hproject hplan horder
          exact ⟨position.currentIndex, entry, above, position.current, w, constraints, h.entry,
            habove, h.live, h.onLadder.parsed, hw, hparse, hcheck⟩
        · rw [convergeLoop_of_plan (hplanAt.trans hplan) (hvalid hstep), if_pos horder, hhanded]
          exact congrArg (ConvergenceRun.after s) hloop
      · exact absurd ⟨hminor, hcons⟩ hrefuse
    · obtain ⟨climbed, hclimbed, hloop⟩ := convergeLoop_step hcooperates
        (liveOn_of_getElem h.entry h.live) (hplanAt.trans hplan) (hvalid hstep) (by simp [horder])
        (by simp [horder]) hstep.steps (limit + 1) applied
      exact ⟨climbed, applied, limit + 1, by omega, hclimbed, .inl hloop⟩
  · exact .inl ⟨⟨e, convergeLoop_of_error (hplanAt.trans hplan)⟩, hrefuse⟩

/-- The whole run from an entry with `above` entries above it. -/
theorem convergeLoop_run (above : Nat) :
    ∀ (limit : Nat) (applied : Bool) {s : σ} {entry : ClusterRelease}
      {position : LiveReleasePosition}, 2 * above + 1 ≤ limit →
      Stands semver project target (live s) entry position →
      position.currentIndex + above + 1 = project.orchestration.releases.length →
      (Reached live target
          (convergeLoop semver host service .fullConvergence (some handoff) limit applied s) ↔
        (0 < above → Readable semver project) ∧
          ∀ j other, position.currentIndex ≤ j → j < position.currentIndex + above →
            project.orchestration.releases[j]? = some other → HasNextMinor semver other) ∧
        ∀ t ∈ (convergeLoop semver host service .fullConvergence (some handoff) limit applied
          s).handoffs, Supported semver project (live t) := by
  induction above with
  | zero =>
    intro limit applied s entry position hlimit h hend
    obtain ⟨limit, rfl⟩ : ∃ rest, limit = rest + 1 := ⟨limit - 1, by omega⟩
    obtain ⟨s', hlive', hloop⟩ := convergeLoop_at_target hlaw hcooperates hproject hladder h
      (by omega) limit applied
    have htgt : entry.kubernetes = target.kubernetes := by
      have hlast := getElem?_of_getLast? h.onLadder.last
      rw [← hend, Nat.add_zero, Nat.add_sub_cancel, h.entry] at hlast
      rw [Option.some.inj hlast]
    rw [hloop]
    refine ⟨iff_of_true ⟨⟨applied, rfl⟩, htgt ▸ hlive'⟩ ⟨by omega, by omega⟩, by simp⟩
  | succ above ih =>
    intro limit applied s entry position hlimit h hend
    obtain ⟨limit, rfl⟩ : ∃ rest, limit = rest + 2 := ⟨limit - 2, by omega⟩
    have hbound : position.currentIndex + 1 < project.orchestration.releases.length := by omega
    have hnext := List.getElem?_eq_getElem hbound
    rcases convergeLoop_climbs hlaw hcooperates hproject hladder hautomatic h hnext limit
        applied with
      ⟨⟨e, hloop⟩, hrefuse⟩ | ⟨⟨hminor, hcons⟩, s', applied', limit', hle, hlive', hloop⟩
    · rw [hloop]
      refine ⟨iff_of_false ?_ fun hall => hrefuse ⟨?_, hall.1 (by omega)⟩, by simp⟩
      · rintro ⟨⟨applied', hok⟩, -⟩
        cases hok
      · exact hall.2 _ entry (le_refl _) (by omega) h.entry
    obtain ⟨w, hlater⟩ := h.onLadder.next hladder hnext
    obtain ⟨hreached, hhandoffs⟩ :=
      ih limit' applied' (by omega) ⟨hlive', hlater, hnext⟩ (by simp only; omega)
    have hall : ((0 < above → Readable semver project) ∧
        ∀ j other, position.currentIndex + 1 ≤ j → j < position.currentIndex + 1 + above →
          project.orchestration.releases[j]? = some other → HasNextMinor semver other) ↔
        (0 < above + 1 → Readable semver project) ∧
        ∀ j other, position.currentIndex ≤ j → j < position.currentIndex + (above + 1) →
          project.orchestration.releases[j]? = some other → HasNextMinor semver other := by
      refine ⟨fun hrest => ⟨fun _ => hcons, fun j other hj hj' hother => ?_⟩,
        fun hrest => ⟨fun _ => hcons, fun j other hj hj' hother => ?_⟩⟩
      · rcases Nat.eq_or_lt_of_le hj with rfl | hlt
        · rw [h.entry] at hother
          exact Option.some.inj hother ▸ hminor
        · exact hrest.2 j other hlt (by omega) hother
      · exact hrest.2 j other (by omega) (by omega) hother
    rcases hloop with hloop | ⟨hsupported, hloop⟩
    · rw [hloop]
      exact ⟨hreached.trans hall, hhandoffs⟩
    rw [hloop]
    refine ⟨hreached.trans hall, fun t ht => ?_⟩
    rcases mem_cons.mp ht with rfl | ht
    · exact hsupported
    · exact hhandoffs t ht

end Rounds

/-- With cooperating calls the convergence returns without an error at the target
exactly if every plan on the way can be made, and it hands the platform off in
supported states only. -/
theorem convergeOrchestration_reaches_iff {σ : Type} (semver : Semver) (hlaw : semver.Lawful)
    (host : Host σ) (service : Service) (project : Project)
    (hproject : service.project = some project)
    (haccepted : validateClusterReleases semver project.orchestration.releases = [])
    (hautomatic : project.orchestration.automaticUpgrade = true) (target : ClusterRelease)
    (htarget : project.orchestration.targetRelease = .ok target)
    (handoff : σ → Except String σ) (live : σ → Option String) (root : σ → FluxRootObservation)
    (hcooperates : Cooperates semver host service project handoff live root) (s : σ)
    (hstart : LiveOn project (live s)) : (Reached live target
        (convergeOrchestration semver host service .fullConvergence (some handoff) s) ↔
      Passable semver project (live s)) ∧
      ∀ t ∈ (convergeOrchestration semver host service .fullConvergence (some handoff) s).handoffs,
        Supported semver project (live t) := by
  obtain ⟨versions, hladder⟩ := ladderVersions_of_accepted hlaw haccepted
  have hlast := targetRelease_ok.mp htarget
  have htargetAt := getElem?_of_getLast? hlast
  obtain ⟨v, hv⟩ := hladder.rung_of_mem (mem_of_getLast? hlast)
  have hnonempty : 0 < project.orchestration.releases.length :=
    length_pos_of_mem (mem_of_getLast? hlast)
  have honLadder : ∀ {i : Nat} {entry : ClusterRelease},
      project.orchestration.releases[i]? = some entry → ∃ w,
        OnLadder semver project.orchestration.releases entry.kubernetes target
          { current := w, target := v, currentIndex := i } := by
    intro i entry hentry
    obtain ⟨w, hw⟩ := hladder.rung_of_mem (mem_of_getElem? hentry)
    exact ⟨w, hw.parsed, ⟨entry, hentry, hw⟩, hlast, hv⟩
  simp only [convergeOrchestration, hproject]
  cases hlive : live s with
  | none =>
    have hplan := plan_absent hcooperates hproject hlast hlive
    have hvalid : validatePlan service
        { target := target.kubernetes, order := .installTarget, steps := [target] }
        .fullConvergence = .ok () := by
      simp [validatePlan, hproject, htarget, Bind.bind, Except.bind, pure, Except.pure]
    obtain ⟨installed, hinstalled, hloop⟩ := convergeLoop_step hcooperates hstart hplan hvalid
      (by simp) (by simp) rfl (project.orchestration.releases.length * 2 + 2) false
    obtain ⟨w, hposition⟩ := honLadder htargetAt
    obtain ⟨s', hlive', hlast'⟩ := convergeLoop_at_target hlaw hcooperates hproject hladder
      ⟨hinstalled, hposition, htargetAt⟩ (by simp only; omega)
      (project.orchestration.releases.length * 2 + 1) false
    rw [hloop, hlast']
    refine ⟨iff_of_true ⟨⟨false, rfl⟩, hlive'⟩ ?_, by simp⟩
    intro version hversion
    cases hversion
  | some version =>
    obtain ⟨entry, hentry, rfl⟩ := hstart version hlive
    obtain ⟨i, hi⟩ := mem_iff_getElem?.mp hentry
    obtain ⟨hbound, -⟩ := List.getElem?_eq_some_iff.mp hi
    obtain ⟨w, hposition⟩ := honLadder hi
    obtain ⟨hreached, hhandoffs⟩ := convergeLoop_run hlaw hcooperates hproject hladder hautomatic
      (project.orchestration.releases.length - i - 1)
      (project.orchestration.releases.length * 2 + 3) false (by omega) ⟨hlive, hposition, hi⟩
      (by simp only; omega)
    refine ⟨hreached.trans ?_, hhandoffs⟩
    -- The live release is the target exactly if no entry is above it.
    have habove : 0 < project.orchestration.releases.length - i - 1 ↔
        entry.kubernetes ≠ target.kubernetes := by
      constructor
      · intro hpos heq
        obtain ⟨w', hw'⟩ := hladder.rung_of_mem hentry
        have hsame : w' = v := by simpa [← heq, hw'.parsed] using hv.parsed
        have hindex := hladder.index_unique hlaw hi htargetAt hw' hv
          (hsame ▸ hlaw.compare_self _)
        omega
      intro hne
      by_contra hzero
      have heq : i = project.orchestration.releases.length - 1 := by omega
      rw [heq, htargetAt] at hi
      exact hne (Option.some.inj hi ▸ rfl)
    rw [habove]
    constructor
    · rintro ⟨hconstraints, hminors⟩ version hversion
      cases hversion
      refine ⟨fun other hother hne => hconstraints ?_, ?_⟩
      · rw [hlast] at hother
        exact Option.some.inj hother ▸ hne
      · refine (hposition.hasNextMinor_iff hlaw hladder).mpr fun j other hj hj' => ?_
        exact hminors j other hj (by simp only at hj ⊢; omega)
    intro hpassable
    obtain ⟨hconstraints, hminors⟩ := hpassable entry.kubernetes rfl
    refine ⟨hconstraints target hlast, fun j other hj hj' => ?_⟩
    exact (hposition.hasNextMinor_iff hlaw hladder).mp hminors j other hj
      (by simp only at hj'; omega)

/-! ## A host that does what it is told -/

section Ideal

/-- The live release, and whether the Flux root is complete. -/
structure IdealState where
  live : Option String
  complete : Bool
  deriving DecidableEq, Repr

def IdealState.root (s : IdealState) : FluxRootObservation where
  found := true
  targetCurrent := s.complete
  sourceReady := true
  helmReleaseReady := true

/-- Every call works; a run of Kubespray installs its release and leaves the root
incomplete. -/
def idealHost : Host IdealState where
  clusterClient s := .ok s.live.isSome
  discoverState s := .ok { kubernetes := s.live.getD "" }
  bigBangObservation s := .ok s.root
  validateClusterIdentity _ := .ok ()
  orchestrationInputSHA256 _ := .ok ""
  prepareReleases releases s := .ok (releases, s)
  waitForInstallConnections _ s := .ok s
  runKubespray release _ _ := .ok { live := some release.kubernetes, complete := false }
  waitHealthy _ s := .ok s

def idealHandoff (s : IdealState) : Except String IdealState := .ok { s with complete := true }

/-- What is planned in a state is done: a step leads to its release, and at the target the
cluster stays as it is. -/
def IdealState.obeys (semver : Semver) (service : Service) (s : IdealState) : Bool :=
  match plan semver idealHost service s with
  | .ok current =>
    let leads (live : Option String) : Bool :=
      (convergePlanned idealHost service current .fullConvergence s).toOption.any (·.live == live)
    (current.order == .platformFirst ||
        current.steps.all fun release => leads (some release.kubernetes)) &&
      (current.order != .alreadyCurrent || leads s.live)
  | _ => true

theorem exists_of_leads {result : Except String IdealState} {live : Option String}
    (h : result.toOption.any (·.live == live) = true) : ∃ s', result = .ok s' ∧ s'.live = live := by
  cases result with
  | ok s' => exact ⟨s', rfl, beq_iff_eq.mp h⟩
  | error e => cases h

/-- The ideal host cooperates if it obeys in every state on the ladder. -/
theorem idealHost_cooperates {semver : Semver} {service : Service} {project : Project}
    (h : ∀ live ∈ none :: project.orchestration.releases.map fun release => some release.kubernetes,
      ∀ complete, IdealState.obeys semver service ⟨live, complete⟩ = true) :
    Cooperates semver idealHost service project idealHandoff IdealState.live IdealState.root := by
  have hobeys : ∀ s : IdealState, LiveOn project s.live → s.obeys semver service = true := by
    intro ⟨live, complete⟩ hon
    refine h live ?_ complete
    cases live with
    | none => exact mem_cons_self
    | some version =>
      obtain ⟨release, hrelease, rfl⟩ := hon version rfl
      exact mem_cons_of_mem _ (mem_map_of_mem hrelease)
  refine ⟨fun _ => rfl, fun s version hver => ?_, fun _ => rfl, ?_, ?_,
    fun s => ⟨_, rfl, rfl, rfl⟩⟩
  · simp [idealHost, hver]
  · intro s current release hon hplan hplatform hsteps
    have hstep := hobeys s hon
    rw [IdealState.obeys, hplan, Bool.and_eq_true] at hstep
    have hleads := (Bool.or_eq_true_iff.mp hstep.1).resolve_left
      fun horder => hplatform (beq_iff_eq.mp horder)
    rw [hsteps, all_cons, all_nil, Bool.and_true] at hleads
    exact exists_of_leads hleads
  · intro s current hon hplan horder
    have hidle := hobeys s hon
    rw [IdealState.obeys, hplan, Bool.and_eq_true] at hidle
    exact exists_of_leads ((Bool.or_eq_true_iff.mp hidle.2).resolve_left
      fun hne => bne_iff_ne.mp hne horder)

end Ideal

/-- A ladder of two releases is climbed, with a handoff before the step. -/
theorem convergeOrchestration_reaches_minor :
    Reached IdealState.live (testClusterRelease "1.35.0" "v2.31.0")
      (convergeOrchestration testSemver idealHost (testService testLadder) .fullConvergence
        (some idealHandoff) { live := some "1.34.3", complete := false }) := by
  refine (convergeOrchestration_reaches_iff testSemver testSemver_lawful idealHost
    (testService testLadder) (testProject testLadder) rfl accepted_testLadder_minor rfl
    (testClusterRelease "1.35.0" "v2.31.0") rfl idealHandoff IdealState.live IdealState.root
    (idealHost_cooperates (by decide +kernel))
    { live := some "1.34.3", complete := false } ?_).1.mpr ?_
  · intro version hversion
    cases hversion
    exact ⟨testClusterRelease "1.34.3" "v2.30.0", by simp [testProject, testLadder], rfl⟩
  intro version hversion
  refine ⟨fun _ _ _ => ⟨[], rfl⟩, fun release hmem _ v hv => ?_⟩
  obtain rfl : release = testClusterRelease "1.34.3" "v2.30.0" := by
    simpa [testProject, testLadder] using hmem
  obtain rfl : v = ⟨1, 34, 3, "", ""⟩ := (Option.some.inj hv).symm
  decide

/-- The run on the ladder that takes a patch step at the largest minor. -/
def largestMinorRun : ConvergenceRun IdealState :=
  convergeOrchestration largeSemver idealHost (testService largeLadder) .fullConvergence
    (some idealHandoff) { live := some "1.18446744073709551614.0", complete := false }

/-- All calls work, and the convergence stops below the target. -/
theorem convergeOrchestration_stops_at_largest_minor :
    largeSemver.Lawful ∧ validateClusterReleases largeSemver largeLadder = [] ∧
      Cooperates largeSemver idealHost (testService largeLadder) (testProject largeLadder)
        idealHandoff IdealState.live IdealState.root ∧
      largestMinorRun.result =
        .error ("release ladder skips Kubernetes 1.0 between " ++
          "1.18446744073709551615.0 and 1.18446744073709551615.1") ∧
      largestMinorRun.state.live = some "1.18446744073709551615.0" := by
  have hcooperates : Cooperates largeSemver idealHost (testService largeLadder)
      (testProject largeLadder) idealHandoff IdealState.live IdealState.root :=
    idealHost_cooperates (by decide +kernel)
  exact ⟨largeSemver_lawful, accepted_largeLadder, hcooperates, by decide +kernel,
    by decide +kernel⟩

end Atum.Release
