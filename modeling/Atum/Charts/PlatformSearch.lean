import Mathlib.Algebra.Order.BigOperators.Group.List
import Atum.Charts.Compatibility

/-!
# The search for a compatible platform

`selectCompatiblePlatform` tries the Kubernetes candidates one after another.
For a candidate it resolves every configured chart to a compatible release,
renders the result and checks it.  When the check blames a chart, the search
goes on to the next compatible release of that chart and tries again, in a loop
that has no bound of its own.

What the rest of the updater and the registry do in an attempt is a `World`:
the archives the registry delivers, which error a group of goroutines reports,
and the outcome of each stage for the charts that were resolved.  A `World` is
given for each attempt, and nothing is assumed of it but that a blamed chart is
a configured one.

* `attempt_spec` says what one attempt does: the catalogs keep what they know
  and learn more, the combination of releases is read off at the offsets, and
  a retry has a blamed chart behind it.
* `attempts_spec` is the loop.  The offsets never pass the matches that are
  known (`Within`), each retry raises their sum, and two attempts differ at a
  chart that was blamed between them.
-/

namespace Atum.Charts

open Atum.Go Atum.Release List

/-! ## Charts and offsets -/

inductive Family where
  | tracked
  | bootstrap
  deriving DecidableEq, Repr

/-- A configured chart: the offsets of the two families are kept apart. -/
abbrev ChartKey := Family × String

/-- A configured chart with its catalog. -/
structure Slot where
  key : ChartKey
  catalog : ChartCatalog
  state : CatalogState
  deriving DecidableEq, Repr

/-- The maps `trackedOffsets` and `bootstrapOffsets`. -/
abbrev Offsets := List (ChartKey × Nat)

def offsetOf (offsets : Offsets) (key : ChartKey) : Nat := (offsets.lookup key).getD 0

/-- The configured chart that an artifact id names. -/
def chartKey (id : String) : Option ChartKey :=
  match cut id '/' with
  | none => none
  | some (family, name) =>
    if family = "chart" then some (.tracked, name)
    else if family = "bootstrap" then some (.bootstrap, name)
    else none

/-- The offsets after `backtrackChart`, if it finds a chart to go on with. -/
def backtrackChart (id : String) (offsets : Offsets) : Option Offsets :=
  (chartKey id).map fun key => (key, offsetOf offsets key + 1) :: offsets

theorem offsetOf_backtrack (offsets : Offsets) (key other : ChartKey) :
    offsetOf ((key, offsetOf offsets key + 1) :: offsets) other =
      if other = key then offsetOf offsets other + 1 else offsetOf offsets other := by
  unfold offsetOf
  rw [lookup_cons]
  by_cases h : other = key
  · rw [beq_iff_eq.mpr h, if_pos h, h]
    rfl
  · rw [beq_eq_false_iff_ne.mpr h, if_neg h]

/-! ## The stages of an attempt -/

/-- An error that may blame an artifact (`artifactRenderError`). -/
structure InspectionError where
  text : String
  blamed : Option (String × Bool)
  deriving DecidableEq, Repr

/-- The outcomes of the stages behind the resolution of the charts. -/
structure Stages where
  compatibleKubernetes : Except String Unit
  updateGeneratedVersions : Except String Unit
  mergePlatformValues : Except String Unit
  candidateArtifacts : Except String Unit
  selectedArtifacts : Except String Unit
  inspectArtifacts : Except InspectionError Unit
  inspectionsByArtifactID : Except String Unit
  validateOpenSearchMeshContract : Except InspectionError Unit
  validateFormerWaitResourceAbsence : Except InspectionError Unit
  buildReleaseLadder : Except String Unit

/-- The artifact ids that the stages of inspection blame. -/
def Stages.blamed (stages : Stages) : List String :=
  [stages.inspectArtifacts, stages.validateOpenSearchMeshContract,
    stages.validateFormerWaitResourceAbsence].filterMap fun outcome =>
      match outcome with
      | .error ⟨_, some (id, _)⟩ => some id
      | _ => none

/-- How the loop goes on after an attempt. -/
inductive Next where
  | retry (offsets : Offsets)
  | skip (failure : String)
  | abort (err : String)
  | select
  deriving DecidableEq, Repr

/-- The next release of the blamed chart, or the next candidate. -/
def afterInspection (coordinate : String) (offsets : Offsets) (err : InspectionError) : Next :=
  let skipped := Next.skip (coordinate ++ ": " ++ err.text)
  match err.blamed with
  | some (id, true) => (backtrackChart id offsets).elim skipped .retry
  | _ => skipped

def runStages (coordinate : String) (offsets : Offsets) (stages : Stages) : Except Next Unit := do
  let wrap (label err : String) : Next := .abort (label ++ coordinate ++ ": " ++ err)
  stages.compatibleKubernetes.mapError fun err => .skip (coordinate ++ ": " ++ err)
  stages.updateGeneratedVersions.mapError (wrap "prepare generated values for ")
  stages.mergePlatformValues.mapError (wrap "merge platform values for ")
  stages.candidateArtifacts.mapError (wrap "assemble candidate artifacts for ")
  stages.selectedArtifacts.mapError (wrap "assemble selected artifacts for ")
  stages.inspectArtifacts.mapError (afterInspection coordinate offsets)
  stages.inspectionsByArtifactID.mapError .abort
  stages.validateOpenSearchMeshContract.mapError (afterInspection coordinate offsets)
  stages.validateFormerWaitResourceAbsence.mapError (afterInspection coordinate offsets)
  stages.buildReleaseLadder.mapError fun err => .skip (coordinate ++ ": " ++ err)

def afterStages (coordinate : String) (offsets : Offsets) (stages : Stages) : Next :=
  match runStages coordinate offsets stages with
  | .ok () => .select
  | .error next => next

/-! ## Resolving the charts -/

/-- Everything outside the search during one attempt. -/
structure World where
  /-- The registry, as each goroutine of a group sees it. -/
  clients : Family → Nat → ChartClient
  /-- Which of its errors a group reports. -/
  first : Family → Nat
  /-- `replaceImageTag` on the target of a bootstrap chart. -/
  replaceImageTag : String → String → Except String Unit
  stages : List ChartRelease → List ChartRelease → Stages

inductive ResolveError where
  | catalog (err : CatalogError)
  | target (id reason : String)
  deriving DecidableEq, Repr

def ResolveError.text : ResolveError → String
  | .catalog err => err.text
  | .target id reason => "update bootstrap chart target " ++ id ++ ": " ++ reason

section

variable (semver : Semver) (world : World) (kubernetesVersion : String) (offsets : Offsets)

/-- What one goroutine of `resolveChartsForKubernetes` does. -/
def resolveSlot (index : Nat) (slot : Slot) : Except ResolveError ChartRelease × Slot :=
  let (result, state) := slot.catalog.compatibleAt semver (world.clients slot.key.1 index)
    kubernetesVersion (offsetOf offsets slot.key) slot.state
  let resolved := do
    let release ← result.mapError .catalog
    if slot.key.1 = .bootstrap then
      (world.replaceImageTag slot.key.2 release.version).mapError (.target slot.key.2)
    return release
  (resolved, { slot with state := state })

def resolveSlots : Nat → List Slot → List (Except ResolveError ChartRelease × Slot)
  | _, [] => []
  | index, slot :: rest =>
    resolveSlot semver world kubernetesVersion offsets index slot :: resolveSlots (index + 1) rest

/-- The results of a group of goroutines, or one of their errors. -/
def errgroup {ε α : Type} (first : Nat) (results : List (Except ε α)) : Except ε (List α) :=
  match results.mapM id with
  | .ok values => .ok values
  | .error err =>
    let errors := results.filterMap fun result =>
      match result with
      | .ok _ => none
      | .error err => some err
    .error (errors.getD first err)

def resolveChartsForKubernetes (family : Family) (slots : List Slot) :
    Except ResolveError (List ChartRelease) × List Slot :=
  let results := resolveSlots semver world kubernetesVersion offsets 0 slots
  (errgroup (world.first family) (results.map (·.1)), results.map (·.2))

end

/-! ## The loop -/

/-- The configured charts of the two families. -/
structure Platform where
  tracked : List Slot
  bootstrap : List Slot

def Platform.slots (platform : Platform) : List Slot := platform.tracked ++ platform.bootstrap

/-- An attempt: the offsets it starts from, the releases it resolves if it
resolves them all, and how the loop goes on. -/
structure Attempt where
  offsets : Offsets
  combination : Option (List ChartRelease)
  next : Next
  deriving DecidableEq, Repr

/-- A chart without a compatible release ends the candidate, any other error
ends the search. -/
def afterResolution (coordinate label : String) (err : ResolveError) : Next :=
  match err with
  | .catalog (.noCompatible ..) => .skip (coordinate ++ ": " ++ err.text)
  | _ => .abort ("resolve " ++ label ++ " charts for " ++ coordinate ++ ": " ++ err.text)

def attempt (semver : Semver) (world : World) (coordinate kubernetesVersion : String)
    (offsets : Offsets) (platform : Platform) : Attempt × Platform :=
  let (resolved, slots) := resolveChartsForKubernetes semver world kubernetesVersion offsets
    .tracked platform.tracked
  let platform := { platform with tracked := slots }
  match resolved with
  | .error err => (⟨offsets, none, afterResolution coordinate "tracked" err⟩, platform)
  | .ok tracked =>
    let (resolved, slots) := resolveChartsForKubernetes semver world kubernetesVersion offsets
      .bootstrap platform.bootstrap
    let platform := { platform with bootstrap := slots }
    match resolved with
    | .error err => (⟨offsets, none, afterResolution coordinate "bootstrap" err⟩, platform)
    | .ok bootstrap =>
      (⟨offsets, some (tracked ++ bootstrap),
        afterStages coordinate offsets (world.stages tracked bootstrap)⟩, platform)

/-- A Kubernetes candidate, and the world at each attempt that is made for it. -/
structure Candidate where
  kubernetes : String
  world : Nat → World

/-- The attempts for a candidate, from attempt number `number` on, and how the
last one ends.  The loop of the source has no bound; here it runs on fuel, and
without any there is no result. -/
def attempts (semver : Semver) (bigBang : String) (candidate : Candidate) :
    Nat → Nat → Offsets → Platform → Option (List Attempt × Next × Platform)
  | 0, _, _, _ => none
  | fuel + 1, number, offsets, platform =>
    let coordinate := bigBang ++ "/Kubernetes " ++ candidate.kubernetes
    let (current, platform) := attempt semver (candidate.world number) coordinate
      candidate.kubernetes offsets platform
    match current.next with
    | .retry offsets =>
      (attempts semver bigBang candidate fuel (number + 1) offsets platform).map
        fun (rest, ending) => (current :: rest, ending)
    | next => some ([current], next, platform)

/-- The attempts made for a candidate, and the charts as they are after them. -/
structure Trace where
  kubernetes : String
  attempts : List Attempt
  platform : Platform

def incompatibleBigBangError (version : String) (pinned : Bool) (failures : List String) : String :=
  (if pinned then "pinned Big Bang" else "newest Big Bang") ++ " " ++ version ++
    " is incompatible: " ++ join failures "; "

/-- The loop over the candidates, with the failures noted so far: the attempts
it makes and the releases it selects. -/
def selectCandidate (semver : Semver) (bigBang : String) (pinned : Bool) (fuel : Nat) :
    List Candidate → List String → Platform →
      Option (List Trace × Except String (List ChartRelease))
  | [], failures, _ => some ([], .error (incompatibleBigBangError bigBang pinned failures))
  | candidate :: rest, failures, platform =>
    match attempts semver bigBang candidate fuel 1 [] platform with
    | none => none
    | some (made, ending, platform) =>
      let trace : Trace := ⟨candidate.kubernetes, made, platform⟩
      match ending with
      | .skip failure =>
        (selectCandidate semver bigBang pinned fuel rest (failures ++ [failure]) platform).map
          fun (traces, result) => (trace :: traces, result)
      | .abort err => some ([trace], .error err)
      | _ => some ([trace], .ok ((made.getLast?.bind (·.combination)).getD []))

/-- `selectCompatiblePlatform`, from the point where the charts have catalogs and
the Kubernetes candidates are known. -/
def selectCompatiblePlatform (semver : Semver) (bigBang : String) (pinned : Bool) (fuel : Nat)
    (candidates : List Candidate) (platform : Platform) :
    Option (List Trace × Except String (List ChartRelease)) :=
  selectCandidate semver bigBang pinned fuel (if pinned then candidates.reverse else candidates) []
    platform

/-! ## One attempt -/

variable {semver : Semver}

/-- The catalog of a chart is in order. -/
def Slot.Faithful (semver : Semver) (slot : Slot) : Prop :=
  Charts.Faithful semver slot.catalog slot.state

/-- A chart later in the search: its catalog is still in order and knows all the
matches it knew before. -/
structure Grown (semver : Semver) (kubernetesVersion : String) (slot slot' : Slot) : Prop where
  key : slot'.key = slot.key
  catalog : slot'.catalog = slot.catalog
  faithful : slot'.Faithful semver
  matched : slot.state.matched kubernetesVersion <+: slot'.state.matched kubernetesVersion

variable {slot : Slot}

theorem Grown.refl (h : slot.Faithful semver) (kubernetesVersion : String) :
    Grown semver kubernetesVersion slot slot :=
  ⟨rfl, rfl, h, prefix_rfl⟩

variable {kubernetesVersion : String}

theorem Grown.trans {a b c : Slot}
    (hab : Grown semver kubernetesVersion a b) (hbc : Grown semver kubernetesVersion b c) :
    Grown semver kubernetesVersion a c :=
  ⟨hbc.key.trans hab.key, hbc.catalog.trans hab.catalog, hbc.faithful,
    hab.matched.trans hbc.matched⟩

/-- The release is the match of the chart at its offset. -/
def ResolvedAt (kubernetesVersion : String) (offsets : Offsets) (slot : Slot)
    (release : ChartRelease) : Prop :=
  (slot.state.matched kubernetesVersion)[offsetOf offsets slot.key]? = some release

variable {offsets : Offsets} {slot' : Slot}

theorem ResolvedAt.grown
    {release : ChartRelease} (h : ResolvedAt kubernetesVersion offsets slot release)
    (hgrown : Grown semver kubernetesVersion slot slot') :
    ResolvedAt kubernetesVersion offsets slot' release := by
  obtain ⟨rest, hrest⟩ := hgrown.matched
  obtain ⟨hlt, -⟩ := List.getElem?_eq_some_iff.mp h
  unfold ResolvedAt
  rw [hgrown.key, ← hrest, List.getElem?_append_left hlt]
  exact h

variable {world : World}

theorem resolveSlot_spec {index : Nat} {result : Except ResolveError ChartRelease}
    (hslot : slot.Faithful semver)
    (h : resolveSlot semver world kubernetesVersion offsets index slot = (result, slot')) :
    Grown semver kubernetesVersion slot slot' ∧
      ∀ release, result = .ok release → ResolvedAt kubernetesVersion offsets slot' release := by
  obtain ⟨outcome, state, houtcome⟩ : ∃ outcome state,
      slot.catalog.compatibleAt semver (world.clients slot.key.1 index) kubernetesVersion
        (offsetOf offsets slot.key) slot.state = (outcome, state) := ⟨_, _, rfl⟩
  obtain ⟨hfaithful, hmatched, hfound⟩ := compatibleAt_faithful
    ⟨world.clients slot.key.1 index, kubernetesVersion, offsetOf offsets slot.key⟩ hslot houtcome
  simp only [resolveSlot, houtcome] at h
  cases h
  refine ⟨⟨rfl, rfl, hfaithful, hmatched⟩, fun release hres => ?_⟩
  obtain ⟨found, hok, hrel⟩ := bind_eq_ok.mp hres
  cases outcome with
  | error err => cases hok
  | ok value =>
    cases hok
    have heq : found = release := by
      by_cases hfamily : slot.key.1 = .bootstrap
      · rw [if_pos hfamily] at hrel
        obtain ⟨-, -, hreturn⟩ := bind_eq_ok.mp hrel
        exact Except.ok.inj hreturn
      · rw [if_neg hfamily] at hrel
        exact Except.ok.inj hrel
    exact heq ▸ hfound found rfl

/-- A group that reports no error has the results of all. -/
theorem errgroup_ok {ε α : Type} {first : Nat} {results : List (Except ε α)} {values : List α}
    (h : errgroup first results = .ok values) :
    List.Forall₂ (fun result value => result = .ok value) results values := by
  have hall : results.mapM id = .ok values := by
    unfold errgroup at h
    cases hmap : results.mapM id with
    | ok values' => rw [hmap] at h; exact h
    | error err => rw [hmap] at h; cases h
  clear h
  induction results generalizing values with
  | nil =>
    obtain rfl := Except.ok.inj (mapM_nil.symm.trans hall)
    exact List.Forall₂.nil
  | cons result rest ih =>
    rw [mapM_cons] at hall
    obtain ⟨value, hval, hall⟩ := bind_eq_ok.mp hall
    obtain ⟨others, hothers, hall⟩ := bind_eq_ok.mp hall
    cases hall
    exact List.Forall₂.cons hval (ih hothers)

theorem resolveSlots_spec (world : World) (kubernetesVersion : String) (offsets : Offsets)
    (slots : List Slot) (hslots : ∀ slot ∈ slots, slot.Faithful semver) (index : Nat) :
    List.Forall₂ (fun slot resolved => Grown semver kubernetesVersion slot resolved.2) slots
        (resolveSlots semver world kubernetesVersion offsets index slots) ∧
      ∀ resolved ∈ resolveSlots semver world kubernetesVersion offsets index slots,
        ∀ release, resolved.1 = .ok release →
          ResolvedAt kubernetesVersion offsets resolved.2 release := by
  induction slots generalizing index with
  | nil => exact ⟨List.Forall₂.nil, fun _ h => by cases h⟩
  | cons slot rest ih =>
    obtain ⟨hslot, hrest⟩ := forall_mem_cons.mp hslots
    obtain ⟨hgrown, hres⟩ := resolveSlot_spec hslot
      (rfl : resolveSlot semver world kubernetesVersion offsets index slot = _)
    obtain ⟨hgrowns, hall⟩ := ih hrest (index + 1)
    exact ⟨List.Forall₂.cons hgrown hgrowns, forall_mem_cons.mpr ⟨hres, hall⟩⟩

variable {slots' : List Slot}

/-- The charts of a family learn more, and if they are all resolved, then each
to the match at its offset. -/
theorem resolveChartsForKubernetes_spec {family : Family} {slots : List Slot}
    {result : Except ResolveError (List ChartRelease)}
    (hslots : ∀ slot ∈ slots, slot.Faithful semver)
    (h : resolveChartsForKubernetes semver world kubernetesVersion offsets family slots =
      (result, slots')) : List.Forall₂ (Grown semver kubernetesVersion) slots slots' ∧
      ∀ releases, result = .ok releases →
        List.Forall₂ (ResolvedAt kubernetesVersion offsets) slots' releases := by
  obtain ⟨hgrown, hres⟩ := resolveSlots_spec world kubernetesVersion offsets slots hslots 0
  cases h
  refine ⟨forall₂_map_right_iff.mpr hgrown, fun releases hok => ?_⟩
  have hall := forall₂_map_left_iff.mp (errgroup_ok hok)
  exact forall₂_map_left_iff.mpr
    (((forall₂_and_left _ _).mpr ⟨hres, hall⟩).imp fun _ release h => h.1 release h.2)

theorem mapError_bind_eq_error {ε α β : Type} {x : Except ε α} {f : ε → Next}
    {g : α → Except Next β} {next : Next} (h : (x.mapError f >>= g) = .error next) :
    (∃ err, x = .error err ∧ f err = next) ∨ ∃ a, g a = .error next := by
  cases x with
  | error err => exact .inl ⟨err, rfl, Except.error.inj h⟩
  | ok a => exact .inr ⟨a, h⟩

variable {offsets' : Offsets} {coordinate : String} {err : InspectionError}

theorem afterInspection_retry (h : afterInspection coordinate offsets err = .retry offsets') :
    ∃ id candidate, err.blamed = some (id, candidate) ∧
      backtrackChart id offsets = some offsets' := by
  unfold afterInspection at h
  match hblamed : err.blamed with
  | none => simp [hblamed] at h
  | some (id, false) => simp [hblamed] at h
  | some (id, true) =>
    simp only [hblamed] at h
    cases hback : backtrackChart id offsets with
    | none => simp [hback] at h
    | some offsets'' =>
      rw [hback, Option.elim_some, Next.retry.injEq] at h
      exact ⟨id, true, rfl, by rw [hback, h]⟩

variable {id : String} {stages : Stages}

/-- An artifact that a stage of inspection blames is among those blamed. -/
theorem mem_blamed {outcome : Except InspectionError Unit} {candidate : Bool}
    (hstage : outcome ∈ [stages.inspectArtifacts, stages.validateOpenSearchMeshContract,
      stages.validateFormerWaitResourceAbsence])
    (houtcome : outcome = .error err) (hblamed : err.blamed = some (id, candidate)) :
    id ∈ stages.blamed := by
  refine mem_filterMap.mpr ⟨outcome, hstage, ?_⟩
  obtain ⟨text, blamed⟩ := err
  cases hblamed
  rw [houtcome]

/-- A retry has a blamed chart behind it. -/
theorem afterStages_retry (h : afterStages coordinate offsets stages = .retry offsets') :
    ∃ id ∈ stages.blamed, backtrackChart id offsets = some offsets' := by
  have hrun : runStages coordinate offsets stages = .error (.retry offsets') := by
    unfold afterStages at h
    cases hrun : runStages coordinate offsets stages with
    | ok value => simp [hrun] at h
    | error next => simp only [hrun] at h; rw [h]
  have hinspection : ∀ outcome ∈ [stages.inspectArtifacts, stages.validateOpenSearchMeshContract,
      stages.validateFormerWaitResourceAbsence], ∀ err, outcome = .error err →
      afterInspection coordinate offsets err = .retry offsets' →
      ∃ id ∈ stages.blamed, backtrackChart id offsets = some offsets' := by
    intro outcome hstage err houtcome hretry
    obtain ⟨id, candidate, hblamed, hback⟩ := afterInspection_retry hretry
    exact ⟨id, mem_blamed hstage houtcome hblamed, hback⟩
  -- Only the stages of inspection can answer with a retry.
  rcases mapError_bind_eq_error hrun with ⟨_, -, hno⟩ | ⟨_, h₁⟩
  · cases hno
  rcases mapError_bind_eq_error h₁ with ⟨_, -, hno⟩ | ⟨_, h₂⟩
  · cases hno
  rcases mapError_bind_eq_error h₂ with ⟨_, -, hno⟩ | ⟨_, h₃⟩
  · cases hno
  rcases mapError_bind_eq_error h₃ with ⟨_, -, hno⟩ | ⟨_, h₄⟩
  · cases hno
  rcases mapError_bind_eq_error h₄ with ⟨_, -, hno⟩ | ⟨_, h₅⟩
  · cases hno
  rcases mapError_bind_eq_error h₅ with ⟨err, herr, hretry⟩ | ⟨_, h₆⟩
  · exact hinspection _ (by simp) err herr hretry
  rcases mapError_bind_eq_error h₆ with ⟨_, -, hno⟩ | ⟨_, h₇⟩
  · cases hno
  rcases mapError_bind_eq_error h₇ with ⟨err, herr, hretry⟩ | ⟨_, h₈⟩
  · exact hinspection _ (by simp) err herr hretry
  rcases mapError_bind_eq_error h₈ with ⟨err, herr, hretry⟩ | ⟨_, h₉⟩
  · exact hinspection _ (by simp) err herr hretry
  cases hladder : stages.buildReleaseLadder with
  | ok value => rw [hladder] at h₉; cases h₉
  | error err => rw [hladder] at h₉; cases h₉

theorem afterResolution_ne_retry (coordinate label : String) (err : ResolveError)
    (offsets : Offsets) : afterResolution coordinate label err ≠ .retry offsets := by
  unfold afterResolution
  split <;> exact Next.noConfusion

variable {platform : Platform}

/-- What an attempt does to the charts, what it resolves, and what a retry has
behind it. -/
theorem attempt_spec {platform' : Platform} {current : Attempt}
    (hslots : ∀ slot ∈ platform.slots, slot.Faithful semver)
    (h : attempt semver world coordinate kubernetesVersion offsets platform =
      (current, platform')) : current.offsets = offsets ∧
      List.Forall₂ (Grown semver kubernetesVersion) platform.slots platform'.slots ∧
      (∀ combination, current.combination = some combination →
        List.Forall₂ (ResolvedAt kubernetesVersion offsets) platform'.slots combination) ∧
      ∀ offsets', current.next = .retry offsets' → ∃ tracked bootstrap,
        current.combination = some (tracked ++ bootstrap) ∧
        ∃ id ∈ (world.stages tracked bootstrap).blamed,
          backtrackChart id offsets = some offsets' := by
  have htracked : ∀ slot ∈ platform.tracked, slot.Faithful semver :=
    fun slot hslot => hslots slot (mem_append_left _ hslot)
  have hbootstrap : ∀ slot ∈ platform.bootstrap, slot.Faithful semver :=
    fun slot hslot => hslots slot (mem_append_right _ hslot)
  obtain ⟨resolved, tracked', hres⟩ : ∃ resolved tracked',
      resolveChartsForKubernetes semver world kubernetesVersion offsets .tracked platform.tracked =
        (resolved, tracked') := ⟨_, _, rfl⟩
  obtain ⟨hgrown, hrels⟩ := resolveChartsForKubernetes_spec htracked hres
  simp only [attempt, hres] at h
  cases resolved with
  | error err =>
    cases h
    have hsame : List.Forall₂ (Grown semver kubernetesVersion) platform.bootstrap
        platform.bootstrap :=
      forall₂_same.mpr fun slot hslot => Grown.refl (hbootstrap slot hslot) _
    exact ⟨rfl, rel_append hgrown hsame, (fun _ h => by cases h),
      fun _ h => absurd h (afterResolution_ne_retry _ _ _ _)⟩
  | ok tracked =>
    obtain ⟨resolved', bootstrap', hres'⟩ : ∃ resolved' bootstrap',
        resolveChartsForKubernetes semver world kubernetesVersion offsets .bootstrap
          platform.bootstrap = (resolved', bootstrap') := ⟨_, _, rfl⟩
    obtain ⟨hgrown', hrels'⟩ := resolveChartsForKubernetes_spec hbootstrap hres'
    simp only [hres'] at h
    cases resolved' with
    | error err =>
      cases h
      exact ⟨rfl, rel_append hgrown hgrown', (fun _ h => by cases h),
        fun _ h => absurd h (afterResolution_ne_retry _ _ _ _)⟩
    | ok bootstrap =>
      cases h
      refine ⟨rfl, rel_append hgrown hgrown', fun combination h => ?_,
        fun offsets' h => ⟨tracked, bootstrap, rfl, afterStages_retry h⟩⟩
      cases h
      exact rel_append (hrels tracked rfl) (hrels' bootstrap rfl)

/-! ## The loop for one candidate -/

/-- The chart's offset is not past the matches that are known. -/
def Within (kubernetesVersion : String) (offsets : Offsets) (slot : Slot) : Prop :=
  offsetOf offsets slot.key ≤ (slot.state.matched kubernetesVersion).length

/-- Every artifact that a stage blames as a chart is a configured chart. -/
def BlamesConfigured (slots : List Slot) (world : World) : Prop :=
  ∀ tracked bootstrap, ∀ id ∈ (world.stages tracked bootstrap).blamed, ∀ key,
    chartKey id = some key → key ∈ slots.map (·.key)

/-- How far the offsets of all charts are together. -/
def progress (offsets : Offsets) (keys : List ChartKey) : Nat :=
  (keys.map (offsetOf offsets)).sum

/-- The matches known for all charts together. -/
def matchedTotal (kubernetesVersion : String) (slots : List Slot) : Nat :=
  (slots.map fun slot => (slot.state.matched kubernetesVersion).length).sum

/-- A backtrack moves the blamed chart on by one and no other chart. -/
theorem backtrackChart_spec (h : backtrackChart id offsets = some offsets') :
    ∃ key, chartKey id = some key ∧ ∀ other, offsetOf offsets' other =
      if other = key then offsetOf offsets other + 1 else offsetOf offsets other := by
  obtain ⟨key, hkey, rfl⟩ := Option.map_eq_some_iff.mp h
  exact ⟨key, hkey, offsetOf_backtrack offsets key⟩

/-- Progress at one configured chart is progress. -/
theorem progress_lt (h : ∀ key, offsetOf offsets key ≤ offsetOf offsets' key) {keys : List ChartKey}
    {key : ChartKey} (hkey : key ∈ keys) (hlt : offsetOf offsets key < offsetOf offsets' key) :
    progress offsets keys < progress offsets' keys :=
  sum_lt_sum _ _ (fun other _ => h other) ⟨key, hkey, hlt⟩

variable {slots : List Slot}

theorem progress_le (h : ∀ slot ∈ slots, Within kubernetesVersion offsets slot) :
    progress offsets (slots.map (·.key)) ≤ matchedTotal kubernetesVersion slots := by
  unfold progress matchedTotal
  rw [map_map]
  exact sum_le_sum h

theorem exists_of_mem_right {α β : Type} {R : α → β → Prop} {as : List α} {bs : List β}
    (h : List.Forall₂ R as bs) {b : β} (hb : b ∈ bs) : ∃ a ∈ as, R a b := by
  induction h with
  | nil => cases hb
  | cons hab _ ih =>
    rcases mem_cons.mp hb with rfl | hb
    · exact ⟨_, mem_cons_self .., hab⟩
    · obtain ⟨a, ha, hab⟩ := ih hb
      exact ⟨a, mem_cons_of_mem _ ha, hab⟩

section Growth

variable {kubernetesVersion : String} {slots slots' : List Slot}
  (h : List.Forall₂ (Grown semver kubernetesVersion) slots slots')

include h in
theorem faithful_of_grown : ∀ slot ∈ slots', slot.Faithful semver := by
  intro slot' hslot'
  obtain ⟨slot, -, hgrown⟩ := exists_of_mem_right h hslot'
  exact hgrown.faithful

/-- What each chart keeps, the list of charts keeps. -/
theorem map_of_grown {α : Type} {f : Slot → α}
    (hf : ∀ slot slot', Grown semver kubernetesVersion slot slot' → f slot' = f slot)
    (h : List.Forall₂ (Grown semver kubernetesVersion) slots slots') :
    slots'.map f = slots.map f := by
  induction h with
  | nil => rfl
  | cons hab _ ih => rw [map_cons, map_cons, hf _ _ hab, ih]

include h in
theorem keys_of_grown : slots'.map (·.key) = slots.map (·.key) :=
  map_of_grown (fun _ _ h => h.key) h

variable {offsets : Offsets}

include h in
theorem within_of_grown (hwithin : ∀ slot ∈ slots, Within kubernetesVersion offsets slot) :
    ∀ slot ∈ slots', Within kubernetesVersion offsets slot := by
  intro slot' hslot'
  obtain ⟨slot, hslot, hgrown⟩ := exists_of_mem_right h hslot'
  unfold Within
  rw [hgrown.key]
  exact (hwithin slot hslot).trans hgrown.matched.length_le

variable {combination : List ChartRelease}

include h in
theorem resolved_of_grown
    (hres : List.Forall₂ (ResolvedAt kubernetesVersion offsets) slots combination) :
    List.Forall₂ (ResolvedAt kubernetesVersion offsets) slots' combination := by
  induction h generalizing combination with
  | nil => exact hres
  | cons hab _ ih =>
    cases hres with
    | cons hrel hrest => exact List.Forall₂.cons (hrel.grown hab) (ih hrest)

include h in
theorem grown_trans {slots'' : List Slot}
    (h' : List.Forall₂ (Grown semver kubernetesVersion) slots' slots'') :
    List.Forall₂ (Grown semver kubernetesVersion) slots slots'' := by
  induction h generalizing slots'' with
  | nil => exact h'
  | cons hab _ ih =>
    cases h' with
    | cons hbc hrest => exact List.Forall₂.cons (hab.trans hbc) (ih hrest)

/-- Resolved charts have not come to the end of their matches. -/
theorem lt_of_resolved (h : List.Forall₂ (ResolvedAt kubernetesVersion offsets) slots combination) :
    ∀ slot ∈ slots, offsetOf offsets slot.key < (slot.state.matched kubernetesVersion).length := by
  intro slot hslot
  induction h with
  | nil => cases hslot
  | cons hrel _ ih =>
    rcases mem_cons.mp hslot with rfl | hslot
    · exact (List.getElem?_eq_some_iff.mp hrel).1
    · exact ih hslot

/-- One combination of releases is resolved at one offset of each chart. -/
theorem offsets_of_resolved (hslots : ∀ slot ∈ slots, slot.Faithful semver) {offsets' : Offsets}
    (h : List.Forall₂ (ResolvedAt kubernetesVersion offsets) slots combination)
    (h' : List.Forall₂ (ResolvedAt kubernetesVersion offsets') slots combination) :
    ∀ slot ∈ slots, offsetOf offsets slot.key = offsetOf offsets' slot.key := by
  intro slot hslot
  induction h with
  | nil => cases hslot
  | cons hrel _ ih =>
    cases h' with
    | cons hrel' hrest =>
      rcases mem_cons.mp hslot with rfl | hslot
      · have hnodup := (hslots slot (mem_cons_self ..)).matched_nodup kubernetesVersion
        obtain ⟨hlt, hget⟩ := List.getElem?_eq_some_iff.mp hrel
        obtain ⟨hlt', hget'⟩ := List.getElem?_eq_some_iff.mp hrel'
        exact (hnodup.getElem_inj_iff).mp (hget.trans hget'.symm)
      · exact ih (fun other hother => hslots other (mem_cons_of_mem _ hother)) hrest hslot

end Growth

/-- What a run of attempts from some offsets on does. -/
structure AttemptsSpec (semver : Semver) (kubernetesVersion : String) (offsets : Offsets)
    (slots slots' : List Slot) (made : List Attempt) : Prop where
  grown : List.Forall₂ (Grown semver kubernetesVersion) slots slots'
  length : made.length + progress offsets (slots.map (·.key)) ≤
    1 + matchedTotal kubernetesVersion slots'
  resolved : ∀ current ∈ made, ∀ combination, current.combination = some combination →
    List.Forall₂ (ResolvedAt kubernetesVersion current.offsets) slots' combination
  ahead : ∀ current ∈ made, ∀ key, offsetOf offsets key ≤ offsetOf current.offsets key
  apart : made.Pairwise fun earlier later => ∃ slot ∈ slots',
    offsetOf earlier.offsets slot.key < offsetOf later.offsets slot.key

/-- The first attempt of a run that is retried. -/
theorem retry_spec {slots : List Slot} (hblames : BlamesConfigured slots world)
    (hgrown : List.Forall₂ (Grown semver kubernetesVersion) slots slots')
    {tracked bootstrap : List ChartRelease}
    (hres : List.Forall₂ (ResolvedAt kubernetesVersion offsets) slots' (tracked ++ bootstrap))
    (hid : id ∈ (world.stages tracked bootstrap).blamed)
    (hback : backtrackChart id offsets = some offsets') :
    (∀ key, offsetOf offsets key ≤ offsetOf offsets' key) ∧
      (∃ slot ∈ slots', offsetOf offsets slot.key < offsetOf offsets' slot.key) ∧
      ∀ slot ∈ slots', Within kubernetesVersion offsets' slot := by
  obtain ⟨key, hkey, hoffsets⟩ := backtrackChart_spec hback
  have hmem : key ∈ slots'.map (·.key) := by
    rw [keys_of_grown hgrown]
    exact hblames tracked bootstrap id hid key hkey
  obtain ⟨slot, hslot, rfl⟩ := mem_map.mp hmem
  refine ⟨fun other => ?_, ⟨slot, hslot, ?_⟩, fun other hother => ?_⟩
  · rw [hoffsets other]
    split <;> omega
  · rw [hoffsets slot.key, if_pos rfl]
    omega
  have hlt := lt_of_resolved hres other hother
  unfold Within
  rw [hoffsets other.key]
  split <;> omega

variable {bigBang : String}

/-- The releases of all catalogs together. -/
def capacity (slots : List Slot) : Nat := (slots.map fun slot => slot.catalog.releases.length).sum

theorem matchedTotal_le_capacity (kubernetesVersion : String)
    (hslots : ∀ slot ∈ slots, slot.Faithful semver) :
    matchedTotal kubernetesVersion slots ≤ capacity slots :=
  sum_le_sum fun slot hslot => (hslots slot hslot).length_matched_le kubernetesVersion

theorem capacity_of_grown {slots : List Slot}
    (h : List.Forall₂ (Grown semver kubernetesVersion) slots slots') :
    capacity slots' = capacity slots := by
  unfold capacity
  rw [map_of_grown (fun _ _ hgrown => by rw [hgrown.catalog]) h]

/-- With fuel for every release of every catalog the loop comes to an end, by induction on
the fuel. -/
theorem attempts_spec (bigBang : String) {candidate : Candidate} (fuel number : Nat)
    (hslots : ∀ slot ∈ platform.slots, slot.Faithful semver)
    (hwithin : ∀ slot ∈ platform.slots, Within candidate.kubernetes offsets slot)
    (hblames : ∀ number, BlamesConfigured platform.slots (candidate.world number))
    (hfuel : capacity platform.slots < fuel + progress offsets (platform.slots.map (·.key))) :
    ∃ made ending platform', attempts semver bigBang candidate fuel number offsets platform =
        some (made, ending, platform') ∧
      AttemptsSpec semver candidate.kubernetes offsets platform.slots platform'.slots made := by
  induction fuel generalizing number offsets platform with
  | zero =>
    have hprogress := progress_le hwithin
    have hcapacity := matchedTotal_le_capacity candidate.kubernetes hslots
    omega
  | succ fuel ih =>
    obtain ⟨current, between, hcur⟩ : ∃ current between,
        attempt semver (candidate.world number)
          (bigBang ++ "/Kubernetes " ++ candidate.kubernetes)
            candidate.kubernetes offsets platform =
          (current, between) := ⟨_, _, rfl⟩
    obtain ⟨hoffsets, hgrown, hres, hretry⟩ := attempt_spec hslots hcur
    rw [attempts]
    simp only [hcur]
    have hkeys := keys_of_grown hgrown
    have hlast : AttemptsSpec semver candidate.kubernetes offsets platform.slots between.slots
        [current] := by
      refine ⟨hgrown, ?_, ?_, ?_, pairwise_singleton _ _⟩
      · have hle := progress_le (within_of_grown hgrown hwithin)
        rw [hkeys] at hle
        exact Nat.add_le_add_left hle 1
      · intro attempt hattempt
        rw [mem_singleton.mp hattempt, hoffsets]
        exact hres
      · intro attempt hattempt key
        rw [mem_singleton.mp hattempt, hoffsets]
    cases hnext : current.next with
    | skip failure => exact ⟨_, _, _, rfl, hlast⟩
    | abort err => exact ⟨_, _, _, rfl, hlast⟩
    | select => exact ⟨_, _, _, rfl, hlast⟩
    | retry offsets' =>
      obtain ⟨tracked, bootstrap, hcombination, id, hid, hback⟩ := hretry offsets' hnext
      obtain ⟨hahead, ⟨slot, hslot, hlt⟩, hwithin'⟩ := retry_spec (hblames number) hgrown
        (hres _ hcombination) hid hback
      have hkey : slot.key ∈ platform.slots.map (·.key) := hkeys ▸ mem_map_of_mem hslot
      have hcapacity := capacity_of_grown hgrown
      have hprogress := progress_lt hahead hkey hlt
      obtain ⟨rest, last, final, hrest, hspec⟩ := ih (number + 1)
        (faithful_of_grown hgrown) hwithin'
        (fun number => by unfold BlamesConfigured; rw [hkeys]; exact hblames number)
        (by rw [hkeys]; omega)
      simp only [hrest]
      refine ⟨_, _, _, rfl, grown_trans hgrown hspec.grown, ?_, ?_, ?_,
        pairwise_cons.mpr ⟨?_, hspec.apart⟩⟩
      · have hlen := hspec.length
        rw [hkeys] at hlen
        show rest.length + 1 + _ ≤ _
        omega
      · refine forall_mem_cons.mpr ⟨fun combination h => ?_, hspec.resolved⟩
        rw [hoffsets]
        exact resolved_of_grown hspec.grown (hres combination h)
      · refine forall_mem_cons.mpr ⟨fun key => by rw [hoffsets], fun later hlater key => ?_⟩
        exact (hahead key).trans (hspec.ahead later hlater key)
      intro later hlater
      have hkey' : slot.key ∈ final.slots.map (·.key) := by
        rw [keys_of_grown hspec.grown]
        exact mem_map_of_mem hslot
      obtain ⟨slot', hslot', heq⟩ := mem_map.mp hkey'
      refine ⟨slot', hslot', ?_⟩
      rw [hoffsets, heq]
      exact hlt.trans_le (hspec.ahead later hlater slot.key)

/-! ## The whole search -/

/-- The number of releases of a catalog that suit a Kubernetes version. -/
def compatibleCount (semver : Semver) (kubernetesVersion : String) (catalog : ChartCatalog)
    (material : ChartRelease → ChartRelease) : Nat :=
  match semanticVersion semver kubernetesVersion with
  | none => 0
  | some version => (compatibleReleases semver catalog material version).length

theorem length_matched_le_count (h : slot.Faithful semver) {material : ChartRelease → ChartRelease}
    (hagrees : Agrees slot.catalog material slot.state.fetched) (kubernetesVersion : String) :
    (slot.state.matched kubernetesVersion).length ≤
      compatibleCount semver kubernetesVersion slot.catalog material := by
  rcases h.matched_initial hagrees kubernetesVersion with hnil | ⟨version, hver, hinit⟩
  · rw [hnil]
    exact Nat.zero_le _
  · rw [compatibleCount, hver]
    exact hinit.length_le

/-- The charts with what their releases are: `materials` agrees with everything
that was fetched for them. -/
def Materials (slots : List Slot) (materials : List (ChartRelease → ChartRelease)) : Prop :=
  List.Forall₂ (fun slot material => Agrees slot.catalog material slot.state.fetched)
    slots materials

/-- The compatible releases of all charts together. -/
def compatibleTotal (semver : Semver) (kubernetesVersion : String) (slots : List Slot)
    (materials : List (ChartRelease → ChartRelease)) : Nat :=
  (List.zipWith (fun slot material =>
    compatibleCount semver kubernetesVersion slot.catalog material) slots materials).sum

theorem matchedTotal_le_total (hslots : ∀ slot ∈ slots, slot.Faithful semver)
    {materials : List (ChartRelease → ChartRelease)} (h : Materials slots materials)
    (kubernetesVersion : String) : matchedTotal kubernetesVersion slots ≤
      compatibleTotal semver kubernetesVersion slots materials := by
  induction h with
  | nil => exact Nat.le_refl _
  | cons hagrees _ ih =>
    obtain ⟨hslot, hrest⟩ := forall_mem_cons.mp hslots
    exact Nat.add_le_add (length_matched_le_count hslot hagrees kubernetesVersion) (ih hrest)

/-- The attempts of a trace are bounded by the compatible releases, and none of
them repeats a combination. -/
def Trace.Bounded (semver : Semver) (trace : Trace) : Prop :=
  (∀ materials, Materials trace.platform.slots materials → trace.attempts.length ≤
      1 + compatibleTotal semver trace.kubernetes trace.platform.slots materials) ∧
  (trace.attempts.filterMap (·.combination)).Nodup

theorem AttemptsSpec.bounded {made : List Attempt}
    (h : AttemptsSpec semver kubernetesVersion [] slots platform.slots made) :
    Trace.Bounded semver ⟨kubernetesVersion, made, platform⟩ := by
  have hfaithful := faithful_of_grown h.grown
  constructor
  · intro materials hmaterials
    have hlen := h.length
    have htotal := matchedTotal_le_total hfaithful hmaterials kubernetesVersion
    show made.length ≤ 1 + compatibleTotal semver kubernetesVersion platform.slots materials
    omega
  refine pairwise_filterMap.mpr (h.apart.imp_of_mem ?_)
  intro earlier later hearlier hlater hapart combination hcombination combination' hcombination'
  rintro rfl
  obtain ⟨slot, hslot, hlt⟩ := hapart
  have heq := offsets_of_resolved hfaithful (h.resolved earlier hearlier _ hcombination)
    (h.resolved later hlater _ hcombination') slot hslot
  omega

theorem within_start (kubernetesVersion : String) (slot : Slot) :
    Within kubernetesVersion [] slot :=
  Nat.zero_le _

/-- The loop over the candidates. -/
theorem selectCandidate_bounded {pinned : Bool} {fuel : Nat}
    (candidates : List Candidate) (failures : List String) (platform : Platform)
    (hslots : ∀ slot ∈ platform.slots, slot.Faithful semver)
    (hblames : ∀ candidate ∈ candidates, ∀ number,
      BlamesConfigured platform.slots (candidate.world number))
    (hfuel : capacity platform.slots < fuel) :
    ∃ traces result, selectCandidate semver bigBang pinned fuel candidates failures platform =
        some (traces, result) ∧ ∀ trace ∈ traces, trace.Bounded semver := by
  induction candidates generalizing failures platform with
  | nil => exact ⟨_, _, rfl, fun _ h => by cases h⟩
  | cons candidate rest ih =>
    obtain ⟨hcand, hrest⟩ := forall_mem_cons.mp hblames
    have hwithin : ∀ slot ∈ platform.slots, Within candidate.kubernetes [] slot :=
      fun slot _ => within_start _ slot
    obtain ⟨made, ending, platform', hmade, hspec⟩ := attempts_spec bigBang fuel 1 hslots
      hwithin hcand (by omega)
    have hbnd := hspec.bounded
    simp only [selectCandidate, hmade]
    have hsingle : ∀ trace ∈ [(⟨candidate.kubernetes, made, platform'⟩ : Trace)],
        trace.Bounded semver := by
      intro trace htrace
      rw [mem_singleton.mp htrace]
      exact hbnd
    cases ending with
    | retry offsets => exact ⟨_, _, rfl, hsingle⟩
    | select => exact ⟨_, _, rfl, hsingle⟩
    | abort err => exact ⟨_, _, rfl, hsingle⟩
    | skip failure =>
      have hkeys := keys_of_grown hspec.grown
      have hcapacity := capacity_of_grown hspec.grown
      obtain ⟨traces, result, hselect, htraces⟩ := ih (failures ++ [failure]) platform'
        (faithful_of_grown hspec.grown)
        (fun other hother number => by
          unfold BlamesConfigured
          rw [hkeys]
          exact hrest other hother number)
        (by rw [hcapacity]; exact hfuel)
      simp only [hselect]
      exact ⟨_, _, rfl, forall_mem_cons.mpr ⟨hbnd, htraces⟩⟩

/-- The catalog of the chart is as `resolveChartCatalog` opens it. -/
def Slot.Resolved (semver : Semver) (slot : Slot) : Prop :=
  ∃ client id name current currentArchiveSHA source listing,
    resolveChartCatalog semver client id name current currentArchiveSHA source listing =
      .ok (slot.catalog, slot.state)

/-- The search comes to an end, the attempts for each Kubernetes candidate are
at most one more than the compatible releases of all charts, and no two of them
use the same combination of releases. -/
theorem selectCompatiblePlatform_bounded (hlaw : semver.Lawful) {bigBang : String} {pinned : Bool}
    {fuel : Nat} (candidates : List Candidate) (platform : Platform)
    (hresolved : ∀ slot ∈ platform.slots, slot.Resolved semver)
    (hblames : ∀ candidate ∈ candidates, ∀ number,
      BlamesConfigured platform.slots (candidate.world number))
    (hfuel : capacity platform.slots < fuel) : ∃ traces result,
      selectCompatiblePlatform semver bigBang pinned fuel candidates platform =
        some (traces, result) ∧ ∀ trace ∈ traces, trace.Bounded semver := by
  have hslots : ∀ slot ∈ platform.slots, slot.Faithful semver := by
    intro slot hslot
    obtain ⟨client, id, name, current, currentArchiveSHA, source, listing, hopened⟩ :=
      hresolved slot hslot
    exact (resolveChartCatalog_opened hlaw hopened).faithful
  refine selectCandidate_bounded _ [] platform hslots (fun candidate hcandidate => ?_) hfuel
  refine hblames candidate ?_
  cases pinned with
  | false => exact hcandidate
  | true => exact mem_reverse.mp hcandidate

/-- Every stage passes but the inspection, which blames the chart `demo`. -/
def demoStages : Stages where
  compatibleKubernetes := .ok ()
  updateGeneratedVersions := .ok ()
  mergePlatformValues := .ok ()
  candidateArtifacts := .ok ()
  selectedArtifacts := .ok ()
  inspectArtifacts := .error ⟨"render chart/demo", some ("chart/demo", true)⟩
  inspectionsByArtifactID := .ok ()
  validateOpenSearchMeshContract := .ok ()
  validateFormerWaitResourceAbsence := .ok ()
  buildReleaseLadder := .ok ()

def demoWorld : World where
  clients _ _ := demoClient ""
  first _ := 0
  replaceImageTag _ _ := .ok ()
  stages _ _ := demoStages

def demoPlatform : Platform := ⟨[⟨(.tracked, "demo"), demoCatalog, demoState ""⟩], []⟩

theorem demoWorld_blames : BlamesConfigured demoPlatform.slots demoWorld := by
  intro tracked bootstrap id hid key hkey
  have hblamed : demoStages.blamed = ["chart/demo"] := by decide +kernel
  have heq : id = "chart/demo" := mem_singleton.mp (hblamed ▸ hid)
  have hdemo : chartKey "chart/demo" = some (.tracked, "demo") := by decide +kernel
  rw [heq, hdemo] at hkey
  cases hkey
  exact mem_singleton.mpr rfl

theorem demoPlatform_resolved : ∀ slot ∈ demoPlatform.slots, slot.Resolved demoSemver := by
  intro slot hslot
  rw [mem_singleton.mp hslot]
  exact ⟨_, _, _, _, _, _, _, demoCatalog_opened⟩

/-- Both releases that suit the version are tried, and the third attempt finds
that there is no other. -/
theorem selectCompatiblePlatform_bounded_demo :
    ((selectCompatiblePlatform demoSemver "3.0.0" false 4 [⟨"v1.35.2", fun _ => demoWorld⟩]
        demoPlatform).map fun (traces, result) =>
          (traces.map (·.attempts.length), result)) =
      some ([3], .error ("newest Big Bang 3.0.0 is incompatible: 3.0.0/Kubernetes v1.35.2: " ++
        "no compatible Kubernetes release: chart demo has no release compatible with " ++
        "Kubernetes v1.35.2 (1.2.0 has no appVersion)")) ∧ ∃ traces result,
      selectCompatiblePlatform demoSemver "3.0.0" false 4 [⟨"v1.35.2", fun _ => demoWorld⟩]
        demoPlatform = some (traces, result) ∧ ∀ trace ∈ traces, trace.Bounded demoSemver := by
  refine ⟨by decide +kernel, selectCompatiblePlatform_bounded demoSemver_lawful _ demoPlatform
    demoPlatform_resolved (fun candidate hcandidate number => ?_) (by decide +kernel)⟩
  rw [mem_singleton.mp hcandidate]
  exact demoWorld_blames

end Atum.Charts
