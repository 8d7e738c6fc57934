import Atum.Mesh.Renders

/-!
# The observation fails closed

Documents are observed one after the other, and observations are merged and sorted in any
order.  `Collected` is such a history; its observation either has overflowed, and then no
projection uses it, or it lists what was observed of every document.
-/

namespace Atum.Mesh

open Atum.Go List

/-! ## The lists that have no observer -/

/-- The list of workloads. -/
def workloadList : Listed WorkloadObservation where
  kept := .workloads
  observe := observedWorkload
  adds h := by
    obtain ⟨hnone, hworkloads, -⟩ := observeResource_adds.grown h
    exact ⟨hnone, hworkloads⟩

/-- The list of services. -/
def serviceList : Listed ServiceObservation where
  kept := .services
  observe := observedService
  adds h := by
    obtain ⟨hnone, -, hservices, -⟩ := observeResource_adds.grown h
    exact ⟨hnone, hservices⟩

/-! ## The lists stay bounded -/

variable {observation : PlatformSecurityObservation}

theorem observePlatformSecurity_bounded {value : Any} {path defaultNamespace : String}
    (h : observation.Bounded) :
    (observePlatformSecurity value path defaultNamespace observation).Bounded := by
  unfold observePlatformSecurity
  split
  · dsimp only
    split
    · exact h
    · split
      · exact observeResource_adds.bounded h
      · exact bounded_reject h
  · exact h

theorem length_of_firstTooMany {T : Type} {count : Nat} {source : List T}
    (hcount : count ≤ maxSecurityResources) (h : firstTooMany count source = none) :
    count + source.length ≤ maxSecurityResources := by
  unfold firstTooMany at h
  split at h
  · rw [List.getElem?_eq_none_iff] at h
    omega
  · omega

variable {source target : PlatformSecurityObservation} {pathPrefix : String}

theorem mergeSecurityObservations_bounded {T : Type} {kept : Kept T}
    (hkept : ∀ {observation : PlatformSecurityObservation}, observation.Bounded →
      (kept.values observation).length ≤ maxSecurityResources ∧
      ∀ values, values.length ≤ maxSecurityResources → (kept.withValues observation values).Bounded)
    (h : target.Bounded) : (mergeSecurityObservations kept pathPrefix source target).Bounded := by
  obtain ⟨hvals, hset⟩ := hkept h
  unfold mergeSecurityObservations
  split
  · exact h
  split
  · exact { h with }
  next hfits =>
  apply hset
  rw [length_append, length_map]
  exact length_of_firstTooMany hvals hfits

theorem mergePlatformSecurityObservation_bounded (h : target.Bounded) :
    (mergePlatformSecurityObservation target source pathPrefix).Bounded := by
  unfold mergePlatformSecurityObservation
  split
  · exact h
  split
  · exact { h with }
  -- The last list is merged outermost.
  apply mergeSecurityObservations_bounded fun h => ⟨h.probeRewrites, fun _ hv =>
    { h with probeRewrites := hv }⟩
  apply mergeSecurityObservations_bounded fun h => ⟨h.networkPolicies, fun _ hv =>
    { h with networkPolicies := hv }⟩
  apply mergeSecurityObservations_bounded fun h => ⟨h.authorizationPolicies, fun _ hv =>
    { h with authorizationPolicies := hv }⟩
  apply mergeSecurityObservations_bounded fun h => ⟨h.peerAuthentications, fun _ hv =>
    { h with peerAuthentications := hv }⟩
  apply mergeSecurityObservations_bounded fun h => ⟨h.services, fun _ hv =>
    { h with services := hv }⟩
  apply mergeSecurityObservations_bounded fun h => ⟨h.workloads, fun _ hv =>
    { h with workloads := hv }⟩
  exact mergeSecurityObservations_bounded (fun h => ⟨h.namespaces, fun _ hv =>
    { h with namespaces := hv }⟩) h

theorem normalizePlatformSecurity_bounded
    (h : observation.Bounded) : (normalizePlatformSecurity observation).Bounded where
  namespaces := (length_insertionSort _ _).trans_le h.namespaces
  workloads := (length_insertionSort _ _).trans_le h.workloads
  services := (length_insertionSort _ _).trans_le h.services
  peerAuthentications := (length_insertionSort _ _).trans_le h.peerAuthentications
  authorizationPolicies := (length_insertionSort _ _).trans_le h.authorizationPolicies
  networkPolicies := (length_insertionSort _ _).trans_le h.networkPolicies
  probeRewrites := (length_insertionSort _ _).trans_le h.probeRewrites

/-! ## Histories of an observation -/

/-- How an observation comes about. -/
inductive Collected where
  | empty
  | document (collected : Collected) (value : Any) (path defaultNamespace : String)
  | merge (target source : Collected) (pathPrefix : String)
  | normalized (collected : Collected)

namespace Collected

/-- The observation that the code makes. -/
def security : Collected → PlatformSecurityObservation
  | empty => {}
  | document collected value path defaultNamespace =>
    observePlatformSecurity value path defaultNamespace collected.security
  | merge target source pathPrefix =>
    mergePlatformSecurityObservation target.security source.security pathPrefix
  | normalized collected => normalizePlatformSecurity collected.security

/-- What is observed of each document, with the paths of the merges. -/
def observed {T : Type} (listed : Listed T) : Collected → List T
  | empty => []
  | document collected value path defaultNamespace =>
    collected.observed listed ++ (listed.document defaultNamespace (value, path)).toList
  | merge target source pathPrefix =>
    target.observed listed ++ (source.observed listed).map fun value =>
      listed.kept.relocated value ((listed.kept.resource value).below pathPrefix)
  | normalized collected => collected.observed listed

theorem bounded (collected : Collected) : collected.security.Bounded := by
  induction collected with
  | empty => constructor <;> exact Nat.zero_le _
  | document collected value path defaultNamespace ih =>
    exact observePlatformSecurity_bounded ih
  | merge target source pathPrefix htgt _ =>
    exact mergePlatformSecurityObservation_bounded htgt
  | normalized collected ih => exact normalizePlatformSecurity_bounded ih

/-- Without overflow nothing is lost and nothing comes twice. -/
theorem perm_observed {T : Type} (listed : Listed T) {collected : Collected}
    (h : collected.security.overflow = none) :
    (listed.kept.values collected.security).Perm (collected.observed listed) := by
  induction collected with
  | empty => exact listed.empty ▸ .refl _
  | document collected value path defaultNamespace ih =>
    obtain ⟨hnone, hvals⟩ := @Listed.observePlatformSecurity_adds T listed _ (value, path) _ h
    simp only [security, observed, hvals]
    exact (ih hnone).append_right _
  | merge target source pathPrefix htgt hsrc =>
    obtain ⟨hnone, hnone', hvals⟩ := listed.merged h
    simp only [security, observed, hvals]
    exact (htgt hnone).append ((hsrc hnone').map _)
  | normalized collected ih =>
    rw [security, listed.normalized]
    exact (perm_insertionSort _ _).trans (ih h)

/-- Every named workload, service and policy of the observed namespaces is listed,
once for each of its documents. -/
structure Complete (collected : Collected) : Prop where
  workloads : collected.security.workloads.Perm (collected.observed workloadList)
  services : collected.security.services.Perm (collected.observed serviceList)
  peerAuthentications : collected.security.peerAuthentications.Perm
    (collected.observed peerObserver.toListed)
  authorizationPolicies : collected.security.authorizationPolicies.Perm
    (collected.observed authorizationObserver.toListed)
  networkPolicies : collected.security.networkPolicies.Perm
    (collected.observed networkObserver.toListed)

end Collected

/-- A selected artifact that has overflowed makes the projection fail. -/
theorem projectOpenSearchMesh_overflow {inspections : List (String × PlatformSecurityObservation)}
    {artifact : String} {security : PlatformSecurityObservation}
    (hsel : artifact ∈ selectedMeshArtifactIDs)
    (hlookup : inspections.lookup artifact = some security) (h : security.overflow ≠ none) :
    ∃ failure, projectOpenSearchMesh inspections = .error failure := by
  cases hres : projectOpenSearchMesh inspections with
  | error failure => exact ⟨failure, rfl⟩
  | ok projection =>
    obtain ⟨other, hother, hnone⟩ :=
      (peerObserver.foldlM_projectArtifact hres).2 artifact hsel
    rw [hlookup] at hother
    exact absurd (Option.some.inj hother ▸ hnone) h

/-- An observation has overflowed, and then the projection fails for a selected
artifact, or it lists every document that it was made of; and its lists are bounded. -/
theorem security_fails_closed (collected : Collected) : (collected.security.overflow ≠ none ∧
        (∀ inspections, ∀ artifact ∈ selectedMeshArtifactIDs,
          inspections.lookup artifact = some collected.security →
          ∃ failure, projectOpenSearchMesh inspections = .error failure) ∨ collected.Complete) ∧
    collected.security.Bounded := by
  refine ⟨?_, collected.bounded⟩
  by_cases h : collected.security.overflow = none
  · exact .inr ⟨collected.perm_observed workloadList h, collected.perm_observed serviceList h,
      collected.perm_observed peerObserver.toListed h,
      collected.perm_observed authorizationObserver.toListed h,
      collected.perm_observed networkObserver.toListed h⟩
  · exact .inl ⟨h, fun inspections artifact hselected hlookup =>
      projectOpenSearchMesh_overflow hselected hlookup h⟩

end Atum.Mesh
