import Atum.Mesh.Contract

/-!
# From rendered documents to the projection

What the mesh contract sees of the policies is what the selected artifacts render.
A `Listed` list of an observation holds what a function `observe` makes of the
documents.  `Observer.Sees` says that a list holds exactly the observations of what is
rendered, and it is carried from one document over a release and an artifact to the
projection.  The three kinds of policies each have such an `Observer`.
-/

namespace Atum.Mesh

open Atum.Go List

/-! ## The renders of all artifacts -/

/-- The renders of the artifacts, as a map. -/
structure ChartRenders where
  artifacts : List (String × ArtifactRender)
  nodup : (artifacts.map Prod.fst).Nodup

/-- What `inspectionsByArtifactID` gives to the contract. -/
def ChartRenders.inspections (renders : ChartRenders) :
    List (String × PlatformSecurityObservation) :=
  renders.artifacts.map fun entry => (entry.1, entry.2.security)

/-- The resource at another path. -/
def RenderedResource.placed (resource : RenderedResource) (path : String) : RenderedResource :=
  { resource with path }

/-- A release renders a resource.  The path of the resource is open, because the
releases of an artifact are told apart by it. -/
def ReleaseRender.Renders (release : ReleaseRender) (object : List (String × Any))
    (resource : RenderedResource) : Prop :=
  resource.name ≠ "" ∧ ∃ path path', (Any.map object, path) ∈ release.managed ∧
    resource = (resourceOf object path release.namespaceName).placed path'

variable {resource : RenderedResource}

theorem ReleaseRender.Renders.placed {release : ReleaseRender} {object : List (String × Any)}
    (h : release.Renders object resource) (path : String) :
    release.Renders object (resource.placed path) := by
  obtain ⟨hname, place, _, hdoc, rfl⟩ := h
  exact ⟨hname, place, path, hdoc, rfl⟩

/-- An artifact renders a resource. -/
def ChartRenders.Renders (renders : ChartRenders) (artifact : String)
    (object : List (String × Any)) (resource : RenderedResource) : Prop :=
  ∃ render, (artifact, render) ∈ renders.artifacts ∧
    ∃ release ∈ render.releases, release.Renders object resource

/-! ## The steps from a document to the projection -/

theorem overflow_reject (observation : PlatformSecurityObservation)
    (resource : RenderedResource) : (observation.reject resource).overflow ≠ none := by
  unfold PlatformSecurityObservation.reject
  split
  · simp
  · next h => simpa using h

theorem overflow_admitResource {observation : PlatformSecurityObservation}
    {count : Nat} {append : PlatformSecurityObservation → PlatformSecurityObservation}
    (h : (observation.admitResource resource count append).overflow = none) :
    observation.overflow = none ∧ observation.admitResource resource count append =
    append observation := by
  unfold PlatformSecurityObservation.admitResource at h ⊢
  split at h
  · next hsome => simp [h] at hsome
  next hnone =>
  split at h
  · next hcount => exact ⟨by simpa using hnone, by simp [hnone, hcount]⟩
  · cases h

/-- The specification of a resource. -/
def specOf (object : List (String × Any)) : List (String × Any) := (Any.field object "spec").entries

/-- What is observed of a `PeerAuthentication`. -/
def observedPeer (resource : RenderedResource) (object : List (String × Any)) :
    Option PeerAuthenticationObservation :=
  if resource.kind = "PeerAuthentication" ∧ resource.namespaceName = "opensearch" then
    some (observePeerAuthentication resource (specOf object))
  else none

/-- What is observed of an `AuthorizationPolicy`. -/
def observedAuthorization (resource : RenderedResource) (object : List (String × Any)) :
    Option AuthorizationPolicyObservation :=
  if resource.kind = "AuthorizationPolicy" ∧ resource.namespaceName = "opensearch" then
    some (observeAuthorizationPolicy resource (specOf object))
  else none

/-- What is observed of a `NetworkPolicy`. -/
def observedNetwork (resource : RenderedResource) (object : List (String × Any)) :
    Option NetworkPolicyObservation :=
  if resource.kind = "NetworkPolicy" ∧
      (resource.namespaceName = "opensearch" ∨ resource.namespaceName = "fluentbit") then
    some (observeNetworkPolicy resource (specOf object))
  else none

/-- What is observed of a workload. -/
def observedWorkload (resource : RenderedResource) (object : List (String × Any)) :
    Option WorkloadObservation :=
  if (resource.kind = "Deployment" ∨ resource.kind = "DaemonSet" ∨ resource.kind = "StatefulSet") ∧
      (resource.namespaceName = "opensearch" ∨ resource.namespaceName = "fluentbit") then
    some (observeWorkload resource object)
  else none

/-- What is observed of a `Service`.  One whose ports cannot be read is rejected. -/
def observedService (resource : RenderedResource) (object : List (String × Any)) :
    Option ServiceObservation :=
  if resource.kind = "Service" ∧ resource.namespaceName = "opensearch" then
    some { resource
           selector := observeDirectSelector (specOf object) "selector"
           ports := ((boundedSecurityMapSlice (Any.field (specOf object) "ports")).getD []).map
             observeServicePort }
  else none

/-- What a document adds to the lists of workloads, services and policies. -/
def observedLists (resource : RenderedResource) (object : List (String × Any)) :
    PlatformSecurityObservation where
  workloads := (observedWorkload resource object).toList
  services := (observedService resource object).toList
  peerAuthentications := (observedPeer resource object).toList
  authorizationPolicies := (observedAuthorization resource object).toList
  networkPolicies := (observedNetwork resource object).toList

/-- No list has more entries than the code allows. -/
structure PlatformSecurityObservation.Bounded (observation : PlatformSecurityObservation) :
    Prop where
  namespaces : observation.namespaces.length ≤ maxSecurityResources
  workloads : observation.workloads.length ≤ maxSecurityResources
  services : observation.services.length ≤ maxSecurityResources
  peerAuthentications : observation.peerAuthentications.length ≤ maxSecurityResources
  authorizationPolicies : observation.authorizationPolicies.length ≤ maxSecurityResources
  networkPolicies : observation.networkPolicies.length ≤ maxSecurityResources
  probeRewrites : observation.probeRewrites.length ≤ maxSecurityResources

/-- The lists of an observation have grown by those of another one. -/
def Grown (observation result added : PlatformSecurityObservation) : Prop :=
  result.workloads = observation.workloads ++ added.workloads ∧
  result.services = observation.services ++ added.services ∧
  result.peerAuthentications = observation.peerAuthentications ++ added.peerAuthentications ∧
  result.authorizationPolicies = observation.authorizationPolicies ++ added.authorizationPolicies ∧
  result.networkPolicies = observation.networkPolicies ++ added.networkPolicies

/-- A step keeps the lists bounded, and adds the given entries or overflows. -/
structure Adds (observation result added : PlatformSecurityObservation) : Prop where
  bounded : observation.Bounded → result.Bounded
  grown : result.overflow = none → observation.overflow = none ∧ Grown observation result added

section Adding

variable {observation added : PlatformSecurityObservation} {resource : RenderedResource}
  {object : List (String × Any)}

theorem Adds.self : Adds observation observation {} := ⟨id, fun h => ⟨h, by simp [Grown]⟩⟩

theorem bounded_reject (h : observation.Bounded) : (observation.reject resource).Bounded := by
  unfold PlatformSecurityObservation.reject
  split
  · exact { h with }
  · exact h

theorem Adds.reject : Adds observation (observation.reject resource) added :=
  ⟨bounded_reject, fun h => absurd h (overflow_reject _ _)⟩

theorem Adds.admitted {count : Nat}
    {append : PlatformSecurityObservation → PlatformSecurityObservation}
    (hbnd : observation.Bounded → count + 1 ≤ maxSecurityResources →
      (append observation).Bounded) (hgrown : Grown observation (append observation) added) :
    Adds observation (observation.admitResource resource count append) added := by
  constructor
  · intro h
    unfold PlatformSecurityObservation.admitResource
    split
    · exact h
    · split
      · next hcount => exact hbnd h hcount
      · exact { h with }
  · intro hovf
    obtain ⟨hnone, heq⟩ := overflow_admitResource hovf
    exact ⟨hnone, heq ▸ hgrown⟩

/-- What a document adds. -/
theorem observeResource_adds : Adds observation (observation.observeResource resource object)
      (observedLists resource object) := by
  unfold PlatformSecurityObservation.observeResource observedLists observedWorkload observedService
    observedPeer observedAuthorization observedNetwork
  dsimp only
  split
  · next hkind =>
    simp only [hkind, String.reduceEq, or_self, false_and, ↓reduceIte, Option.toList_none]
    split
    · exact .admitted (fun h hcount => { h with probeRewrites := by simpa using hcount })
        (by simp [Grown])
    · exact .self
  split
  · next hkind =>
    simp only [hkind, String.reduceEq, or_self, false_and, ↓reduceIte, Option.toList_none]
    split
    · exact .admitted (fun h hcount => { h with namespaces := by simpa using hcount })
        (by simp [Grown])
    · exact .self
  split
  · next hkind =>
    have hother : resource.kind ≠ "Service" ∧ resource.kind ≠ "PeerAuthentication" ∧
        resource.kind ≠ "AuthorizationPolicy" ∧ resource.kind ≠ "NetworkPolicy" := by
      rcases hkind with hkind | hkind | hkind
      · simp [hkind]
      · simp [hkind]
      · simp [hkind]
    simp only [hkind, hother, true_and, false_and, ↓reduceIte, Option.toList_none]
    split
    · exact .admitted (fun h hcount => { h with workloads := by simpa using hcount })
        (by simp [Grown])
    · exact .self
  next hworkload =>
  simp only [hworkload, false_and, ↓reduceIte, Option.toList_none]
  split
  · next hkind =>
    simp only [hkind, String.reduceEq, true_and, false_and, ↓reduceIte, Option.toList_none]
    split
    · split
      · exact .reject
      · next hports =>
        exact .admitted (fun h hcount => { h with services := by simpa using hcount })
          (by simp [Grown, specOf, hports])
    · exact .self
  split
  · next hkind =>
    simp only [hkind, String.reduceEq, false_and, true_and, ↓reduceIte, Option.toList_none]
    split
    · exact .admitted (fun h hcount => { h with peerAuthentications := by simpa using hcount })
        (by simp [Grown, specOf])
    · exact .self
  split
  · next hkind =>
    simp only [hkind, String.reduceEq, false_and, true_and, ↓reduceIte, Option.toList_none]
    split
    · exact .admitted (fun h hcount => { h with authorizationPolicies := by simpa using hcount })
        (by simp [Grown, specOf])
    · exact .self
  next hservice hpeer hauth =>
  simp only [hservice, hpeer, hauth, false_and, ↓reduceIte, Option.toList_none]
  split
  · next hkind =>
    simp only [hkind, true_and]
    split
    · exact .admitted (fun h hcount => { h with networkPolicies := by simpa using hcount })
        (by simp [Grown, specOf])
    · exact .self
  · next hkind =>
    simp only [hkind, false_and, ↓reduceIte, Option.toList_none]
    exact .self

end Adding

/-- The values of one list, with their resources below a release. -/
def Kept.below {T : Type} (kept : Kept T) (pathPrefix : String)
    (observation : PlatformSecurityObservation) : List T :=
  (kept.values observation).map fun value =>
    kept.relocated value ((kept.resource value).below pathPrefix)

variable {source target : PlatformSecurityObservation} {pathPrefix : String}

theorem mergeSecurityObservations_ok {T : Type} {kept : Kept T}
    (h : (mergeSecurityObservations kept pathPrefix source target).overflow = none) :
    target.overflow = none ∧ mergeSecurityObservations kept pathPrefix source target =
      kept.withValues target (kept.values target ++ kept.below pathPrefix source) := by
  unfold mergeSecurityObservations at h ⊢
  split at h
  · next hsome => simp [h] at hsome
  next hnone =>
  rw [if_neg hnone]
  split at h
  · cases h
  · exact ⟨by simpa using hnone, rfl⟩

/-- The merge of two observations that do not overflow. -/
theorem mergePlatformSecurityObservation_ok
    (h : (mergePlatformSecurityObservation target source pathPrefix).overflow = none) :
    target.overflow = none ∧ source.overflow = none ∧
      mergePlatformSecurityObservation target source pathPrefix =
        { namespaces := target.namespaces ++ Kept.namespaces.below pathPrefix source
          workloads := target.workloads ++ Kept.workloads.below pathPrefix source
          services := target.services ++ Kept.services.below pathPrefix source
          peerAuthentications := target.peerAuthentications ++
            Kept.peerAuthentications.below pathPrefix source
          authorizationPolicies := target.authorizationPolicies ++
            Kept.authorizationPolicies.below pathPrefix source
          networkPolicies := target.networkPolicies ++ Kept.networkPolicies.below pathPrefix source
          probeRewrites := target.probeRewrites ++ Kept.probeRewrites.below pathPrefix source
          overflow := none } := by
  unfold mergePlatformSecurityObservation at h ⊢
  split at h
  · next hsome => simp [h] at hsome
  next hnone =>
  rw [if_neg hnone]
  split at h
  · cases h
  next hsrc =>
  -- The lists are merged one after the other, the last one outermost.
  obtain ⟨h₆, e₇⟩ := mergeSecurityObservations_ok h
  obtain ⟨h₅, e₆⟩ := mergeSecurityObservations_ok h₆
  obtain ⟨h₄, e₅⟩ := mergeSecurityObservations_ok h₅
  obtain ⟨h₃, e₄⟩ := mergeSecurityObservations_ok h₄
  obtain ⟨h₂, e₃⟩ := mergeSecurityObservations_ok h₃
  obtain ⟨h₁, e₂⟩ := mergeSecurityObservations_ok h₂
  obtain ⟨h₀, e₁⟩ := mergeSecurityObservations_ok h₁
  refine ⟨h₀, hsrc, ?_⟩
  rw [e₇, e₆, e₅, e₄, e₃, e₂, e₁]
  simp only [Kept.namespaces, Kept.workloads, Kept.services, Kept.peerAuthentications,
    Kept.authorizationPolicies, Kept.networkPolicies, Kept.probeRewrites, h₀]

variable {security : PlatformSecurityObservation} {artifact : String}

theorem appendAttributedMeshObservations_ok {T : Type} {kept : Kept T}
    {target result : List (Attributed T)}
    (h : appendAttributedMeshObservations kept target artifact security = .ok result) :
    result = target ++ (kept.values security).map (Attributed.mk artifact) := by
  unfold appendAttributedMeshObservations at h
  split at h
  · cases h
  · exact (Except.ok.inj h).symm

variable {inspections : List (String × PlatformSecurityObservation)}
  {projection : OpenSearchMeshProjection}

/-- One artifact in a projection that succeeds. -/
theorem projectArtifact_ok {result : OpenSearchMeshProjection}
    (h : projectArtifact inspections projection artifact = .ok result) :
    ∃ security, inspections.lookup artifact = some security ∧ security.overflow = none ∧
      result.peerAuthentications = projection.peerAuthentications ++
        security.peerAuthentications.map (Attributed.mk artifact) ∧
      result.authorizationPolicies = projection.authorizationPolicies ++
        security.authorizationPolicies.map (Attributed.mk artifact) ∧
      result.networkPolicies = projection.networkPolicies ++
        security.networkPolicies.map (Attributed.mk artifact) := by
  unfold projectArtifact at h
  split at h
  · cases h
  next security hsecurity =>
  split at h
  · cases h
  next hovf =>
  obtain ⟨namespaces, -, h⟩ := bind_eq_ok.mp h
  obtain ⟨workloads, -, h⟩ := bind_eq_ok.mp h
  obtain ⟨services, -, h⟩ := bind_eq_ok.mp h
  obtain ⟨peers, hpeers, h⟩ := bind_eq_ok.mp h
  obtain ⟨authorization, hauth, h⟩ := bind_eq_ok.mp h
  obtain ⟨network, hnet, h⟩ := bind_eq_ok.mp h
  obtain ⟨rewrites, -, h⟩ := bind_eq_ok.mp h
  cases h
  exact ⟨security, hsecurity, hovf, appendAttributedMeshObservations_ok hpeers,
    appendAttributedMeshObservations_ok hauth,
    appendAttributedMeshObservations_ok hnet⟩

/-! ## Observers -/

/-- One list of an observation: which documents it is made of, and that merging and
sorting keep it, which holds by the definitions of the list. -/
structure Listed (T : Type) where
  kept : Kept T
  observe : RenderedResource → List (String × Any) → Option T
  adds : ∀ {observation : PlatformSecurityObservation} {resource : RenderedResource}
    {object : List (String × Any)},
    (observation.observeResource resource object).overflow = none →
    observation.overflow = none ∧ kept.values (observation.observeResource resource object) =
      kept.values observation ++ (observe resource object).toList
  normalized : ∀ observation,
    kept.values (normalizePlatformSecurity observation) = kept.sorted observation := by
      exact fun _ => rfl
  merged : ∀ {source target : PlatformSecurityObservation} {pathPrefix : String},
    (mergePlatformSecurityObservation target source pathPrefix).overflow = none →
    target.overflow = none ∧ source.overflow = none ∧
      kept.values (mergePlatformSecurityObservation target source pathPrefix) =
        kept.values target ++ kept.below pathPrefix source := by
      intro source target pathPrefix h
      obtain ⟨htgt, hsrc, heq⟩ := mergePlatformSecurityObservation_ok h
      exact ⟨htgt, hsrc, by rw [heq]; rfl⟩
  empty : kept.values {} = [] := by rfl

namespace Listed

variable {T : Type} (listed : Listed T)

/-- What the list has of a document with its place. -/
def document (defaultNamespace : String) (document : Any × String) : Option T := do
  let object ← document.1.entries?
  let resource := resourceOf object document.2 defaultNamespace
  if resource.name = "" then none else listed.observe resource object

theorem observePlatformSecurity_adds {observation : PlatformSecurityObservation}
    {document : Any × String} {defaultNamespace : String}
    (h : (observePlatformSecurity document.1 document.2 defaultNamespace observation).overflow =
      none) : observation.overflow = none ∧ listed.kept.values
      (observePlatformSecurity document.1 document.2 defaultNamespace observation) =
        listed.kept.values observation ++ (listed.document defaultNamespace document).toList := by
  obtain ⟨value, path⟩ := document
  cases value with
  | map object =>
    simp only [observePlatformSecurity, Listed.document, Any.entries?] at h ⊢
    split at h
    · next hname => exact ⟨h, by simp [hname]⟩
    next hname =>
    split at h
    · next hbnd =>
      obtain ⟨hnone, hvals⟩ := listed.adds h
      refine ⟨hnone, ?_⟩
      rw [if_neg hname, if_pos hbnd, hvals]
      simp [hname]
    · exact absurd h (overflow_reject _ _)
  | _ => exact ⟨h, by simp [observePlatformSecurity, Listed.document, Any.entries?]⟩

end Listed

/-- A list of policies, which the projection has for all artifacts. -/
structure Observer (T : Type) extends Listed T where
  projected : OpenSearchMeshProjection → List (Attributed T)
  resource : ∀ {resource : RenderedResource} {object : List (String × Any)} {value : T},
    observe resource object = some value → kept.resource value = resource := by
      intro resource object value h
      obtain ⟨-, heq⟩ := Option.ite_none_right_eq_some.mp h
      obtain rfl := Option.some.inj heq
      rfl
  /-- The path of the resource is only copied. -/
  relocated : ∀ {resource : RenderedResource} {object : List (String × Any)} {value : T}
    (path : String), observe resource object = some value →
    observe (resource.placed path) object = some (kept.relocated value (resource.placed path)) := by
      intro resource object value path h
      obtain ⟨hkind, heq⟩ := Option.ite_none_right_eq_some.mp h
      obtain rfl := Option.some.inj heq
      exact if_pos hkind
  appended : ∀ {inspections : List (String × PlatformSecurityObservation)}
    {projection result : OpenSearchMeshProjection} {artifact : String},
    projectArtifact inspections projection artifact = .ok result →
    ∃ security, inspections.lookup artifact = some security ∧ security.overflow = none ∧
      projected result = projected projection ++
        (kept.values security).map (Attributed.mk artifact)
  start : projected {} = [] := by rfl

namespace Observer

variable {T : Type} (observer : Observer T)

/-- A list has the observations of what is rendered and no others. -/
structure Sees (rendered : List (String × Any) → RenderedResource → Prop) (values : List T) :
    Prop where
  sound : ∀ value ∈ values, ∃ object resource, rendered object resource ∧
    observer.observe resource object = some value
  complete : ∀ object resource, rendered object resource →
    (observer.observe resource object).isSome → ∃ path, ∃ value ∈ values,
      observer.observe (resource.placed path) object = some value

/-- The list after all documents of a release. -/
theorem foldl_observePlatformSecurity {defaultNamespace : String} :
    ∀ {documents : List (Any × String)} {observation : PlatformSecurityObservation},
      (documents.foldl (fun observation document => observePlatformSecurity document.1 document.2
        defaultNamespace observation) observation).overflow = none →
      observer.kept.values (documents.foldl (fun observation document => observePlatformSecurity
          document.1 document.2 defaultNamespace observation) observation) =
        observer.kept.values observation ++
          documents.filterMap (observer.document defaultNamespace) ∧
        observation.overflow = none := by
  intro documents
  induction documents with
  | nil => exact fun h => ⟨by simp, h⟩
  | cons document rest ih =>
    intro observation h
    rw [foldl_cons] at h ⊢
    obtain ⟨hvals, hnone⟩ := ih h
    obtain ⟨hbefore, hdoc⟩ := observer.observePlatformSecurity_adds hnone
    refine ⟨?_, hbefore⟩
    rw [hvals, hdoc, append_assoc, filterMap_cons]
    cases observer.document defaultNamespace document <;> rfl

theorem mem_sorted {observation : PlatformSecurityObservation} {value : T} :
    value ∈ observer.kept.values (normalizePlatformSecurity observation) ↔
      value ∈ observer.kept.values observation := by
  rw [observer.normalized, Kept.sorted, mem_insertionSort]

/-- A release without overflow. -/
theorem sees_release {release : ReleaseRender} (h : release.security.overflow = none) :
    observer.Sees release.Renders (observer.kept.values release.security) := by
  have hvals := (observer.foldl_observePlatformSecurity h).1
  rw [observer.empty, nil_append] at hvals
  have hmem : ∀ value, value ∈ observer.kept.values release.security ↔
      ∃ document ∈ release.managed, observer.document release.namespaceName document =
        some value := by
    intro value
    rw [ReleaseRender.security, observer.mem_sorted, hvals, mem_filterMap]
  constructor
  · intro value hval
    obtain ⟨⟨document, path⟩, hdoc, hobs⟩ := (hmem value).mp hval
    cases document with
    | map object =>
      simp only [Listed.document, Any.entries?, Option.bind_eq_bind, Option.bind_some] at hobs
      split at hobs
      · cases hobs
      · next hname => exact ⟨object, _, ⟨hname, path, path, hdoc, rfl⟩, hobs⟩
    | _ => cases hobs
  · intro object resource hrend hsome
    obtain ⟨hname, path, path', hdoc, rfl⟩ := hrend
    obtain ⟨value, hval⟩ := Option.isSome_iff_exists.mp hsome
    have hobs := observer.relocated path hval
    refine ⟨path, _, (hmem _).mpr ⟨_, hdoc, ?_⟩, hobs⟩
    exact (if_neg hname).trans hobs

/-- The list after all releases of an artifact. -/
theorem foldl_mergePlatformSecurityObservation :
    ∀ {releases : List ReleaseRender} {combined : PlatformSecurityObservation},
      (releases.foldl (fun combined release => mergePlatformSecurityObservation combined
        release.security (release.identity ++ "/")) combined).overflow = none →
      observer.kept.values (releases.foldl (fun combined release => mergePlatformSecurityObservation
          combined release.security (release.identity ++ "/")) combined) =
        observer.kept.values combined ++ releases.flatMap (fun release =>
          observer.kept.below (release.identity ++ "/") release.security) ∧
        combined.overflow = none ∧ ∀ release ∈ releases, release.security.overflow = none := by
  intro releases
  induction releases with
  | nil => exact fun h => ⟨by simp, h, by simp⟩
  | cons release rest ih =>
    intro combined h
    rw [foldl_cons] at h ⊢
    obtain ⟨hvals, hnone, hrest⟩ := ih h
    obtain ⟨hbefore, hrel, hmerged⟩ := observer.merged hnone
    refine ⟨?_, hbefore, forall_mem_cons.mpr ⟨hrel, hrest⟩⟩
    rw [hvals, hmerged, append_assoc, flatMap_cons]

/-- An artifact without overflow. -/
theorem sees_artifact {render : ArtifactRender} (h : render.security.overflow = none) :
    observer.Sees (fun object resource => ∃ release ∈ render.releases,
      release.Renders object resource) (observer.kept.values render.security) := by
  cases render with
  | single release =>
    have hsees : observer.Sees release.Renders (observer.kept.values release.security) :=
      observer.sees_release h
    simp only [ArtifactRender.releases, mem_singleton, exists_eq_left]
    exact hsees
  | instances releases =>
    obtain ⟨hvals, -, hrels⟩ := observer.foldl_mergePlatformSecurityObservation h
    rw [observer.empty, nil_append] at hvals
    have hmem : ∀ value, value ∈ observer.kept.values (ArtifactRender.instances releases).security ↔
        ∃ release ∈ releases,
          value ∈ observer.kept.below (release.identity ++ "/") release.security := by
      intro value
      rw [ArtifactRender.security, observer.mem_sorted, hvals, mem_flatMap]
    constructor
    · intro value hval
      obtain ⟨release, hrel, hbelow⟩ := (hmem value).mp hval
      obtain ⟨original, horig, rfl⟩ := mem_map.mp hbelow
      obtain ⟨object, resource, hrend, hobs⟩ :=
        (observer.sees_release (hrels release hrel)).sound original horig
      rw [observer.resource hobs]
      exact ⟨object, _, ⟨release, hrel, hrend.placed _⟩, observer.relocated _ hobs⟩
    intro object resource hrend hsome
    obtain ⟨release, hrel, hrend⟩ := hrend
    obtain ⟨path, value, hval, hobs⟩ :=
      (observer.sees_release (hrels release hrel)).complete object resource hrend hsome
    have hrelocated := observer.relocated (release.identity ++ "/" ++ path) hobs
    refine ⟨_, _, (hmem _).mpr ⟨release, hrel, mem_map.mpr ⟨value, hval, ?_⟩⟩, hrelocated⟩
    rw [observer.resource hobs]
    rfl

/-- The projected list after some artifacts. -/
theorem foldlM_projectArtifact {result : OpenSearchMeshProjection} :
    ∀ {artifacts : List String} {projection : OpenSearchMeshProjection},
      artifacts.foldlM (projectArtifact inspections) projection = .ok result →
      (∀ attributed, attributed ∈ observer.projected result ↔
        attributed ∈ observer.projected projection ∨ ∃ artifact ∈ artifacts, ∃ security,
          inspections.lookup artifact = some security ∧
          attributed ∈ (observer.kept.values security).map (Attributed.mk artifact)) ∧
        ∀ artifact ∈ artifacts, ∃ security, inspections.lookup artifact = some security ∧
          security.overflow = none := by
  intro artifacts
  induction artifacts with
  | nil =>
    intro projection h
    cases h
    simp
  | cons artifact rest ih =>
    intro projection h
    obtain ⟨between, hbetween, h⟩ := bind_eq_ok.mp h
    obtain ⟨security, hlook, hovf, happended⟩ := observer.appended hbetween
    obtain ⟨hmem, hall⟩ := ih h
    refine ⟨fun attributed => ?_, forall_mem_cons.mpr ⟨⟨security, hlook, hovf⟩, hall⟩⟩
    rw [hmem, happended, mem_append, exists_mem_cons_iff, or_assoc]
    simp only [hlook, Option.some.injEq, exists_eq_left']

end Observer

/-- The observer of `PeerAuthentication` resources. -/
def peerObserver : Observer PeerAuthenticationObservation where
  kept := .peerAuthentications
  observe := observedPeer
  projected projection := projection.peerAuthentications
  adds h := by
    obtain ⟨hnone, -, -, hpeers, -⟩ := observeResource_adds.grown h
    exact ⟨hnone, hpeers⟩
  appended h := by
    obtain ⟨security, hlook, hovf, hpeers, -⟩ := projectArtifact_ok h
    exact ⟨security, hlook, hovf, hpeers⟩

/-- The observer of `AuthorizationPolicy` resources. -/
def authorizationObserver : Observer AuthorizationPolicyObservation where
  kept := .authorizationPolicies
  observe := observedAuthorization
  projected projection := projection.authorizationPolicies
  adds h := by
    obtain ⟨hnone, -, -, -, hauth, -⟩ := observeResource_adds.grown h
    exact ⟨hnone, hauth⟩
  appended h := by
    obtain ⟨security, hlook, hovf, -, hauth, -⟩ := projectArtifact_ok h
    exact ⟨security, hlook, hovf, hauth⟩

/-- The observer of `NetworkPolicy` resources. -/
def networkObserver : Observer NetworkPolicyObservation where
  kept := .networkPolicies
  observe := observedNetwork
  projected projection := projection.networkPolicies
  adds h := by
    obtain ⟨hnone, -, -, -, -, hnet⟩ := observeResource_adds.grown h
    exact ⟨hnone, hnet⟩
  appended h := by
    obtain ⟨security, hlook, hovf, -, -, hnet⟩ := projectArtifact_ok h
    exact ⟨security, hlook, hovf, hnet⟩

variable {renders : ChartRenders}

theorem ChartRenders.lookup_inspections : renders.inspections.lookup artifact = some security ↔
      ∃ render, (artifact, render) ∈ renders.artifacts ∧ render.security = security := by
  have hnodup : (renders.inspections.map Prod.fst).Nodup := by
    rw [ChartRenders.inspections, map_map]
    exact renders.nodup
  constructor
  · intro h
    obtain ⟨⟨_, render⟩, hmem, heq⟩ := mem_map.mp (SortedAssoc.mem_of_lookup h)
    cases heq
    exact ⟨render, hmem, rfl⟩
  · rintro ⟨render, hmem, rfl⟩
    exact SortedAssoc.lookup_of_mem hnodup (mem_map.mpr ⟨_, hmem, rfl⟩)

/-- What the contract sees of all renders: the selected artifacts, and all of
them. -/
theorem Observer.sees_projection {T : Type} (observer : Observer T)
    (h : projectOpenSearchMesh renders.inspections = .ok projection) :
    (∀ attributed ∈ observer.projected projection, ∃ object resource,
      renders.Renders attributed.artifact object resource ∧
        observer.observe resource object = some attributed.value) ∧
      ∀ artifact ∈ selectedMeshArtifactIDs, ∀ object resource,
        renders.Renders artifact object resource → (observer.observe resource object).isSome →
        ∃ path value, observer.observe (resource.placed path) object = some value ∧
          Attributed.mk artifact value ∈ observer.projected projection := by
  obtain ⟨hmem, hall⟩ := observer.foldlM_projectArtifact h
  simp only [observer.start, not_mem_nil, false_or] at hmem
  have hsees : ∀ {artifact render}, artifact ∈ selectedMeshArtifactIDs →
      (artifact, render) ∈ renders.artifacts →
      observer.Sees (fun object resource => ∃ release ∈ render.releases,
        release.Renders object resource) (observer.kept.values render.security) := by
    intro artifact render hartifact hrender
    obtain ⟨security, hlook, hovf⟩ := hall artifact hartifact
    have hsame := ChartRenders.lookup_inspections.mpr ⟨render, hrender, rfl⟩
    rw [hsame] at hlook
    exact observer.sees_artifact (Option.some.inj hlook ▸ hovf)
  constructor
  · intro attributed hattributed
    obtain ⟨artifact, hartifact, security, hlook, hval⟩ := (hmem attributed).mp hattributed
    obtain ⟨value, hmember, rfl⟩ := mem_map.mp hval
    obtain ⟨render, hrender, rfl⟩ := ChartRenders.lookup_inspections.mp hlook
    obtain ⟨object, resource, hrend, hobs⟩ :=
      (hsees hartifact hrender).sound value hmember
    exact ⟨object, resource, ⟨render, hrender, hrend⟩, hobs⟩
  intro artifact hartifact object resource hrend hsome
  obtain ⟨render, hrender, hrend⟩ := hrend
  obtain ⟨path, value, hval, hobs⟩ :=
    (hsees hartifact hrender).complete object resource hrend hsome
  refine ⟨path, value, hobs, (hmem _).mpr ⟨artifact, hartifact, _,
    ChartRenders.lookup_inspections.mpr ⟨render, hrender, rfl⟩, mem_map.mpr ⟨value, hval, rfl⟩⟩⟩

/-! ## What an accepted contract has passed -/

theorem attributedMeshResourceError_ok {α : Type} {result : Checked α} {value : α}
    (h : attributedMeshResourceError result = .ok value) : result = .ok value := by
  cases result with
  | ok other => exact congrArg _ (Except.ok.inj h)
  | error failure => cases h

/-- The checks of the policies that an accepted contract has passed. -/
structure Accepted (projection : OpenSearchMeshProjection) : Prop where
  peers : strictPeerFailure projection selectedOpenSearchLabels 9200 = .ok ()
  authorization : authorizationPathFailure projection selectedOpenSearchLabels
    "cluster.local/ns/fluentbit/sa/fluentbit-fluent-bit" 9200 = .ok ()
  egress : fluentEgressFailure projection selectedFluentBitLabels selectedOpenSearchLabels 9200 =
    .ok ()
  ingress : openSearchIngressFailure projection selectedOpenSearchLabels selectedFluentBitLabels
    9200 = .ok ()

theorem accepted_of_validateOpenSearchMeshContract
    (h : validateOpenSearchMeshContract inspections = .ok ()) :
    ∃ projection, projectOpenSearchMesh inspections = .ok projection ∧ Accepted projection := by
  obtain ⟨projection, hproj, h⟩ := bind_eq_ok.mp h
  obtain ⟨-, -, h⟩ := bind_eq_ok.mp h
  obtain ⟨openSearch, -, h⟩ := bind_eq_ok.mp h
  obtain ⟨-, -, h⟩ := bind_eq_ok.mp h
  obtain ⟨dashboards, -, h⟩ := bind_eq_ok.mp h
  obtain ⟨fluentBit, -, h⟩ := bind_eq_ok.mp h
  obtain ⟨_, hpeers, h⟩ := bind_eq_ok.mp h
  obtain ⟨_, hauth, h⟩ := bind_eq_ok.mp h
  obtain ⟨_, hegress, h⟩ := bind_eq_ok.mp h
  obtain ⟨_, hingress, -⟩ := bind_eq_ok.mp h
  exact ⟨projection, hproj, attributedMeshResourceError_ok hpeers,
    attributedMeshResourceError_ok hauth, attributedMeshResourceError_ok hegress,
    attributedMeshResourceError_ok hingress⟩

/-- A search that succeeds has found a resource of the expected artifact. -/
theorem Selection.selectOne_ok {T : Type} {selection : Selection}
    {resource : T → RenderedResource} {observed : List (Attributed T)} {selected : Attributed T}
    (h : selection.selectOne resource observed = .ok selected) :
    selected ∈ observed ∧ selection.same (resource selected.value) = true ∧
      selected.artifact = selection.expected.artifact := by
  have hsearch : ∀ (rest : List (Attributed T)) (before : Option (Attributed T))
      (lookalike last : AttributedResource) (result : Option (Attributed T)),
      selection.search resource before lookalike rest = .ok (result, last) →
      ∀ found, result = some found → before = some found ∨
        found ∈ rest ∧ selection.same (resource found.value) = true := by
    intro rest
    induction rest with
    | nil =>
      intro before lookalike last result hres found hfound
      cases hres
      exact .inl hfound
    | cons next rest ih =>
      intro before lookalike last result hres found hfound
      simp only [Selection.search] at hres
      split at hres
      · next hsame =>
        split at hres
        · cases hres
        rcases ih _ _ _ _ hres found hfound with hnext | ⟨hmem, hfit⟩
        · cases hnext
          exact .inr ⟨by simp, hsame⟩
        · exact .inr ⟨by simp [hmem], hfit⟩
      · rcases ih _ _ _ _ hres found hfound with hbefore | ⟨hmem, hfit⟩
        · exact .inl hbefore
        · exact .inr ⟨by simp [hmem], hfit⟩
  obtain ⟨⟨result, lookalike⟩, hres, h⟩ := bind_eq_ok.mp h
  cases result with
  | none => cases h
  | some found =>
    dsimp only at h
    split at h
    · cases h
    next hartifact =>
    obtain rfl := Except.ok.inj h
    rcases hsearch _ _ _ _ _ hres found rfl with hnone | ⟨hmem, hsame⟩
    · cases hnone
    · exact ⟨hmem, hsame, by simpa using hartifact⟩

/-! ## Renders that are accepted -/

section Sample

/-- A map of strings. -/
def stringsValue (labels : List (String × String)) : Any :=
  .map (labels.map fun entry => (entry.1, .string entry.2))

/-- A selector by labels. -/
def selectorValue (labels : List (String × String)) : Any :=
  .map [("matchLabels", stringsValue labels)]

/-- A rendered resource. -/
def resourceValue (apiVersion kind namespaceName name : String)
    (spec : List (String × Any)) : Any :=
  .map [("apiVersion", .string apiVersion), ("kind", .string kind),
    ("metadata", stringsValue [("name", name), ("namespace", namespaceName)]), ("spec", .map spec)]

/-- A workload with the labels of its selector. -/
def workloadValue (kind namespaceName name : String) (labels : List (String × String))
    (podSpec : List (String × Any)) : Any :=
  resourceValue "apps/v1" kind namespaceName name
    [("selector", selectorValue labels),
      ("template", .map [("metadata", .map [("labels", stringsValue labels)]),
        ("spec", .map podSpec)])]

/-- The labels of a namespace with injection. -/
def namespaceValue (name : String) : Any :=
  .map [("apiVersion", .string "v1"), ("kind", .string "Namespace"),
    ("metadata", .map [("name", .string name),
      ("labels", stringsValue [("istio-injection", "enabled")])])]

/-- One rule of a network policy. -/
def networkRuleValue (peerField namespaceName : String) (labels : List (String × String)) : Any :=
  .map [(peerField, .list [.map [
      ("namespaceSelector", selectorValue [("kubernetes.io/metadata.name", namespaceName)]),
      ("podSelector", selectorValue labels)]]),
    ("ports", .list [.map [("port", .int 9200), ("protocol", .string "TCP")]])]

/-- One rule of an authorization policy. -/
def authorizationRuleValue (principal port : String) : Any :=
  .map [("from", .list [.map [("source", .map [("principals", .list [.string principal])])]]),
    ("to", .list [.map [("operation", .map [("ports", .list [.string port])])]])]

/-- A probe of a port. -/
def probeValue (port : Int) : Any := .map [("tcpSocket", .map [("port", .int port)])]

/-- The documents of an artifact with their places. -/
def sampleRelease (namespaceName : String) (documents : List Any) : ArtifactRender :=
  .single
    { identity := namespaceName
      namespaceName
      documents := documents.zipIdx.map fun document =>
        (document.1, "all.yaml#" ++ toString document.2) }

/-- The documents of the OpenSearch chart. -/
def openSearchDocuments : List Any :=
  [workloadValue "StatefulSet" "opensearch" "opensearch-cluster-master" selectedOpenSearchLabels
      [("containers", .list [.map [("startupProbe", probeValue 9200),
        ("readinessProbe", probeValue 9200)]]),
        ("initContainers", .list [.map [("name", .string "configfile"),
          ("args", .list [.string "cp -r /tmp/configfolder/*  /tmp/config/"])]])],
    resourceValue "v1" "Service" "opensearch" "opensearch-cluster-master"
      [("selector", stringsValue selectedOpenSearchLabels),
        ("ports", .list [.map [("name", .string "https"), ("port", .int 9200)]])]]

/-- The documents of the wrapper, before the further ones. -/
def wrapperDocuments : List Any :=
  [resourceValue "security.istio.io/v1beta1" "PeerAuthentication" "opensearch" "opensearch"
      [("mtls", stringsValue [("mode", "STRICT")])],
    resourceValue "security.istio.io/v1" "AuthorizationPolicy" "opensearch"
      "allow-fluentbit-opensearch"
      [("action", .string "ALLOW"), ("selector", selectorValue selectedOpenSearchLabels),
        ("rules", .list [authorizationRuleValue
          "cluster.local/ns/fluentbit/sa/fluentbit-fluent-bit" "9200"])],
    resourceValue "networking.k8s.io/v1" "NetworkPolicy" "opensearch" "allow-fluentbit-opensearch"
      [("podSelector", selectorValue selectedOpenSearchLabels),
        ("policyTypes", .list [.string "Ingress"]),
        ("ingress", .list [networkRuleValue "from" "fluentbit" selectedFluentBitLabels])]]

/-- Renders of all selected artifacts, with further documents in the wrapper. -/
def sampleRenders (further : List Any) : ChartRenders where
  artifacts :=
    [("bigbang", sampleRelease "bigbang" [namespaceValue "opensearch", namespaceValue "fluentbit"]),
      ("wrapper/wrapper", sampleRelease "opensearch" (wrapperDocuments ++ further)),
      ("chart/opensearch", sampleRelease "opensearch" openSearchDocuments),
      ("chart/opensearch-dashboards", sampleRelease "opensearch"
        [workloadValue "Deployment" "opensearch" "opensearch-dashboards" selectedDashboardsLabels
          []]),
      ("package/fluentbit", sampleRelease "fluentbit"
        [workloadValue "DaemonSet" "fluentbit" "fluentbit-fluent-bit" selectedFluentBitLabels
          [("serviceAccountName", .string "fluentbit-fluent-bit")],
        resourceValue "networking.k8s.io/v1" "NetworkPolicy" "fluentbit"
          "allow-egress-from-fluent-bit-to-ns-opensearch-pod-opensearch-tcp-port-9200"
          [("podSelector", selectorValue selectedFluentBitLabels),
            ("policyTypes", .list [.string "Egress"]),
            ("egress", .list [networkRuleValue "to" "opensearch" selectedOpenSearchLabels])]]),
      ("package/istiod", sampleRelease "istio-system"
        [.map [("apiVersion", .string "v1"), ("kind", .string "ConfigMap"),
          ("metadata", stringsValue [("name", "values"), ("namespace", "istio-system")]),
          ("data", stringsValue [("merged-values", "\"rewriteAppHTTPProbe\": true")])]])]
  nodup := by simp

end Sample

end Atum.Mesh
