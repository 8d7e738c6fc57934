import Atum.Mesh.Observation

/-!
# The mesh contract of OpenSearch

`validateOpenSearchMeshContract` looks at what was observed of six selected
artifacts: that OpenSearch, its dashboards and Fluent Bit are captured by the
service mesh, that OpenSearch demands mutual TLS, and that the log path from Fluent
Bit to OpenSearch is open in the policies that are made for it.

Seven checks look for one resource with a given identity; they share `selectOne`.
-/

namespace Atum.Mesh

open Atum.Go

/-! ## Observations of several releases -/

/-- One list of an observation. -/
structure Kept (T : Type) where
  values : PlatformSecurityObservation → List T
  withValues : PlatformSecurityObservation → List T → PlatformSecurityObservation
  resource : T → RenderedResource
  relocated : T → RenderedResource → T

namespace Kept

def namespaces : Kept NamespaceObservation where
  values o := o.namespaces
  withValues o values := { o with namespaces := values }
  resource v := v.resource
  relocated v resource := { v with resource }

def workloads : Kept WorkloadObservation where
  values o := o.workloads
  withValues o values := { o with workloads := values }
  resource v := v.resource
  relocated v resource := { v with resource }

def services : Kept ServiceObservation where
  values o := o.services
  withValues o values := { o with services := values }
  resource v := v.resource
  relocated v resource := { v with resource }

def peerAuthentications : Kept PeerAuthenticationObservation where
  values o := o.peerAuthentications
  withValues o values := { o with peerAuthentications := values }
  resource v := v.resource
  relocated v resource := { v with resource }

def authorizationPolicies : Kept AuthorizationPolicyObservation where
  values o := o.authorizationPolicies
  withValues o values := { o with authorizationPolicies := values }
  resource v := v.resource
  relocated v resource := { v with resource }

def networkPolicies : Kept NetworkPolicyObservation where
  values o := o.networkPolicies
  withValues o values := { o with networkPolicies := values }
  resource v := v.resource
  relocated v resource := { v with resource }

def probeRewrites : Kept ProbeRewriteObservation where
  values o := o.probeRewrites
  withValues o values := { o with probeRewrites := values }
  resource v := v.resource
  relocated v resource := { v with resource }

end Kept

/-- The resource with its path below a release. -/
def RenderedResource.below (pathPrefix : String) (resource : RenderedResource) :
    RenderedResource :=
  { resource with path := pathPrefix ++ resource.path }

/-- The first value that does not fit any more. -/
def firstTooMany {T : Type} (count : Nat) (source : List T) : Option T :=
  if source.length > maxSecurityResources - count then
    source[min (maxSecurityResources - count) (source.length - 1)]?
  else none

/-- `mergeSecurityObservations`. -/
def mergeSecurityObservations {T : Type} (kept : Kept T) (pathPrefix : String)
    (source target : PlatformSecurityObservation) : PlatformSecurityObservation :=
  if target.overflow.isSome then target
  else
    match firstTooMany (kept.values target).length (kept.values source) with
    | some failed => { target with overflow := some ((kept.resource failed).below pathPrefix) }
    | none =>
      kept.withValues target (kept.values target ++ (kept.values source).map fun value =>
        kept.relocated value ((kept.resource value).below pathPrefix))

/-- `mergePlatformSecurityObservation`. -/
def mergePlatformSecurityObservation (target source : PlatformSecurityObservation)
    (pathPrefix : String) : PlatformSecurityObservation :=
  if target.overflow.isSome then target
  else
    match source.overflow with
    | some overflow => { target with overflow := some (overflow.below pathPrefix) }
    | none =>
      target |> mergeSecurityObservations .namespaces pathPrefix source
        |> mergeSecurityObservations .workloads pathPrefix source
        |> mergeSecurityObservations .services pathPrefix source
        |> mergeSecurityObservations .peerAuthentications pathPrefix source
        |> mergeSecurityObservations .authorizationPolicies pathPrefix source
        |> mergeSecurityObservations .networkPolicies pathPrefix source
        |> mergeSecurityObservations .probeRewrites pathPrefix source

/-- One list in the order of the keys of its resources. -/
def Kept.sorted {T : Type} (kept : Kept T) (observation : PlatformSecurityObservation) : List T :=
  (kept.values observation).insertionSort fun a b =>
    (kept.resource a).key ≤ (kept.resource b).key

/-- `normalizePlatformSecurity`. -/
def normalizePlatformSecurity (observation : PlatformSecurityObservation) :
    PlatformSecurityObservation where
  namespaces := Kept.namespaces.sorted observation
  workloads := Kept.workloads.sorted observation
  services := Kept.services.sorted observation
  peerAuthentications := Kept.peerAuthentications.sorted observation
  authorizationPolicies := Kept.authorizationPolicies.sorted observation
  networkPolicies := Kept.networkPolicies.sorted observation
  probeRewrites := Kept.probeRewrites.sorted observation
  overflow := observation.overflow

/-! ## The renders -/

/-- The documents that one release of a chart renders, with their places. -/
structure ReleaseRender where
  identity : String
  namespaceName : String
  documents : List (Any × String)

/-- `managedHelmLifecycleResource`. -/
def managedHelmLifecycleResource (value : Any) : Bool :=
  match value with
  | .map object =>
    let metadata := (Any.field object "metadata").entries
    let annotations := (Any.field metadata "annotations").entries
    let hooks := (Any.field annotations "helm.sh/hook").text
    trimSpace hooks = "" || (split hooks ',').any fun hook =>
      ["pre-install", "post-install", "pre-delete", "post-delete", "pre-upgrade", "post-upgrade",
        "pre-rollback", "post-rollback"].contains (trimSpace hook)
  | _ => true

/-- The documents of a release that are installed. -/
def ReleaseRender.managed (release : ReleaseRender) : List (Any × String) :=
  release.documents.filter fun document => managedHelmLifecycleResource document.1

/-- The security observation of `inspectRenderedResources`. -/
def ReleaseRender.security (release : ReleaseRender) : PlatformSecurityObservation :=
  normalizePlatformSecurity <| release.managed.foldl
    (fun observation document =>
      observePlatformSecurity document.1 document.2 release.namespaceName observation) {}

/-- The renders of an artifact: of one release, or of all its release instances. -/
inductive ArtifactRender where
  | single (release : ReleaseRender)
  | instances (releases : List ReleaseRender)

def ArtifactRender.releases : ArtifactRender → List ReleaseRender
  | .single release => [release]
  | .instances releases => releases

/-- The field `Security` of the inspection that `inspectChart` or
`inspectChartInstances` returns. -/
def ArtifactRender.security : ArtifactRender → PlatformSecurityObservation
  | .single release => release.security
  | .instances releases =>
    normalizePlatformSecurity <| releases.foldl
      (fun combined release =>
        mergePlatformSecurityObservation combined release.security (release.identity ++ "/")) {}

/-! ## The projection -/

/-- `artifactRenderError` with the text of its error. -/
structure MeshError where
  artifact : String
  text : String
  deriving DecidableEq, Repr

/-- `attributedMeshObservation`. -/
structure Attributed (T : Type) where
  artifact : String
  value : T

/-- `attributedMeshResource`. -/
structure AttributedResource where
  artifact : String
  resource : RenderedResource

/-- `meshResourceError`. -/
def meshResourceError (artifact : String) (resource : RenderedResource) (reason : String) :
    MeshError :=
  if resource.name = "" then
    if resource.path ≠ "" then { artifact, text := s!"{resource.path}: {reason}" }
    else { artifact, text := reason }
  else { artifact, text := s!"{resource.text}: {reason}" }

/-- A check that names a resource and a reason when it fails. -/
abbrev Checked := Except (AttributedResource × String)

/-- `attributedMeshResourceError`. -/
def attributedMeshResourceError {α : Type} (result : Checked α) : Except MeshError α :=
  result.mapError fun failure => meshResourceError failure.1.artifact failure.1.resource failure.2

/-- `openSearchMeshProjection`. -/
structure OpenSearchMeshProjection where
  namespaces : List (Attributed NamespaceObservation) := []
  workloads : List (Attributed WorkloadObservation) := []
  services : List (Attributed ServiceObservation) := []
  peerAuthentications : List (Attributed PeerAuthenticationObservation) := []
  authorizationPolicies : List (Attributed AuthorizationPolicyObservation) := []
  networkPolicies : List (Attributed NetworkPolicyObservation) := []
  probeRewrites : List (Attributed ProbeRewriteObservation) := []

/-- `selectedMeshArtifactIDs`. -/
def selectedMeshArtifactIDs : List String :=
  ["bigbang", "wrapper/wrapper", "chart/opensearch", "chart/opensearch-dashboards",
    "package/fluentbit", "package/istiod"]

/-- `appendAttributedMeshObservations`. -/
def appendAttributedMeshObservations {T : Type} (kept : Kept T) (target : List (Attributed T))
    (artifact : String) (security : PlatformSecurityObservation) :
    Except MeshError (List (Attributed T)) :=
  match firstTooMany target.length (kept.values security) with
  | some failed =>
    .error (meshResourceError artifact (kept.resource failed)
      "mesh projection exceeded a hard proof bound")
  | none => .ok (target ++ (kept.values security).map fun value => { artifact, value })

/-- One artifact of the projection. -/
def projectArtifact (inspections : List (String × PlatformSecurityObservation))
    (projection : OpenSearchMeshProjection) (artifact : String) :
    Except MeshError OpenSearchMeshProjection :=
  match inspections.lookup artifact with
  | none => .error { artifact, text := "mesh contract has no selected render" }
  | some security =>
    match security.overflow with
    | some overflow =>
      .error (meshResourceError artifact overflow
        "security render observation exceeded a hard proof bound")
    | none => do
        let namespaces ← appendAttributedMeshObservations .namespaces projection.namespaces
          artifact security
        let workloads ← appendAttributedMeshObservations .workloads projection.workloads
          artifact security
        let services ← appendAttributedMeshObservations .services projection.services
          artifact security
        let peerAuthentications ← appendAttributedMeshObservations .peerAuthentications
          projection.peerAuthentications artifact security
        let authorizationPolicies ← appendAttributedMeshObservations .authorizationPolicies
          projection.authorizationPolicies artifact security
        let networkPolicies ← appendAttributedMeshObservations .networkPolicies
          projection.networkPolicies artifact security
        let probeRewrites ← appendAttributedMeshObservations .probeRewrites
          projection.probeRewrites artifact security
        return { namespaces, workloads, services, peerAuthentications, authorizationPolicies,
                 networkPolicies, probeRewrites }

/-- `projectOpenSearchMesh`. -/
def projectOpenSearchMesh (inspections : List (String × PlatformSecurityObservation)) :
    Except MeshError OpenSearchMeshProjection :=
  selectedMeshArtifactIDs.foldlM (projectArtifact inspections) {}

/-! ## The selected resources -/

def selectedOpenSearchNamespaceIdentity : RenderedResource :=
  { apiVersion := "v1", kind := "Namespace", name := "opensearch" }

def selectedFluentBitNamespaceIdentity : RenderedResource :=
  { apiVersion := "v1", kind := "Namespace", name := "fluentbit" }

def selectedOpenSearchWorkloadIdentity : RenderedResource :=
  { apiVersion := "apps/v1", kind := "StatefulSet", namespaceName := "opensearch",
    name := "opensearch-cluster-master" }

def selectedOpenSearchServiceIdentity : RenderedResource :=
  { apiVersion := "v1", kind := "Service", namespaceName := "opensearch",
    name := "opensearch-cluster-master" }

def selectedFluentBitWorkloadIdentity : RenderedResource :=
  { apiVersion := "apps/v1", kind := "DaemonSet", namespaceName := "fluentbit",
    name := "fluentbit-fluent-bit" }

def selectedDashboardsWorkloadIdentity : RenderedResource :=
  { apiVersion := "apps/v1", kind := "Deployment", namespaceName := "opensearch",
    name := "opensearch-dashboards" }

def selectedOpenSearchPeerIdentity : RenderedResource :=
  { apiVersion := "security.istio.io/v1beta1", kind := "PeerAuthentication",
    namespaceName := "opensearch", name := "opensearch" }

def selectedOpenSearchAuthorizationIdentity : RenderedResource :=
  { apiVersion := "security.istio.io/v1", kind := "AuthorizationPolicy",
    namespaceName := "opensearch", name := "allow-fluentbit-opensearch" }

def selectedOpenSearchIngressIdentity : RenderedResource :=
  { apiVersion := "networking.k8s.io/v1", kind := "NetworkPolicy",
    namespaceName := "opensearch", name := "allow-fluentbit-opensearch" }

def selectedFluentBitEgressIdentity : RenderedResource :=
  { apiVersion := "networking.k8s.io/v1", kind := "NetworkPolicy", namespaceName := "fluentbit",
    name := "allow-egress-from-fluent-bit-to-ns-opensearch-pod-opensearch-tcp-port-9200" }

def selectedIstiodValuesIdentity : RenderedResource :=
  { apiVersion := "v1", kind := "ConfigMap", namespaceName := "istio-system", name := "values" }

/-- `selectedOpenSearchLabels`. -/
def selectedOpenSearchLabels : List (String × String) :=
  [("app.kubernetes.io/instance", "opensearch"), ("app.kubernetes.io/name", "opensearch")]

/-- `selectedFluentBitLabels`. -/
def selectedFluentBitLabels : List (String × String) :=
  [("app.kubernetes.io/instance", "fluentbit"), ("app.kubernetes.io/name", "fluent-bit")]

/-- `selectedDashboardsLabels`. -/
def selectedDashboardsLabels : List (String × String) :=
  [("app.kubernetes.io/instance", "opensearch-dashboards"),
    ("app.kubernetes.io/name", "opensearch-dashboards")]

/-- `sameResourceIdentity`. -/
def sameResourceIdentity (actual expected : RenderedResource) : Bool :=
  actual.apiVersion = expected.apiVersion && actual.kind = expected.kind &&
    actual.namespaceName = expected.namespaceName && actual.name = expected.name

/-- `sameResourceCoordinate`. -/
def sameResourceCoordinate (actual expected : RenderedResource) : Bool :=
  actual.kind = expected.kind && actual.namespaceName = expected.namespaceName &&
    actual.name = expected.name

/-- The texts of a search for one resource. -/
structure Selection where
  expected : AttributedResource
  /-- Which resource a failed search names. -/
  similar : RenderedResource → Bool
  /-- Which resource is searched for. -/
  same : RenderedResource → Bool
  duplicated : String
  missing : String
  unexpected : String

/-- The loop of a search for one resource. -/
def Selection.search {T : Type} (selection : Selection) (resource : T → RenderedResource)
    (selected : Option (Attributed T)) (lookalike : AttributedResource) :
    List (Attributed T) → Checked (Option (Attributed T) × AttributedResource)
  | [] => .ok (selected, lookalike)
  | observed :: rest =>
    let found : AttributedResource :=
      { artifact := observed.artifact, resource := resource observed.value }
    let lookalike :=
      if selection.similar found.resource && lookalike.resource.path = "" then found
      else lookalike
    if selection.same found.resource then
      if selected.isSome then .error (found, selection.duplicated)
      else selection.search resource (some observed) lookalike rest
    else selection.search resource selected lookalike rest

/-- The search for one resource that a given artifact renders. -/
def Selection.selectOne {T : Type} (selection : Selection) (resource : T → RenderedResource)
    (observed : List (Attributed T)) : Checked (Attributed T) := do
  match ← selection.search resource none selection.expected observed with
  | (none, lookalike) => .error (lookalike, selection.missing)
  | (some selected, _) =>
    if selected.artifact ≠ selection.expected.artifact then
      .error ({ artifact := selected.artifact, resource := resource selected.value },
        selection.unexpected)
    else .ok selected

/-! ## Selectors and labels -/

/-- `exactSelector`. -/
def exactSelector (observation : SelectorObservation) (expected : List (String × String)) : Bool :=
  observation.present && observation.valid && observation.labels = expected

/-- `labelsContain`. -/
def labelsContain (labels expected : List (String × String)) : Bool :=
  expected.all fun entry => (labels.lookup entry.1).getD "" = entry.2

/-- `selectorApplies`. -/
def selectorApplies (selector : SelectorObservation) (labels : List (String × String)) : Bool :=
  selector.present && selector.valid && labelsContain labels selector.labels

/-! ## Namespaces, workloads and services -/

/-- `injectedNamespace`. -/
def injectedNamespace (projection : OpenSearchMeshProjection) (expected : AttributedResource) :
    Checked Unit := do
  let selection : Selection :=
    { expected
      similar := fun r => r.kind = expected.resource.kind
      same := fun r => r.kind = expected.resource.kind &&
        r.apiVersion = expected.resource.apiVersion && r.name = expected.resource.name
      duplicated := "selected namespace identity is duplicated"
      missing := "selected namespace " ++ expected.resource.name ++ " is missing"
      unexpected := "selected namespace is rendered by an unexpected artifact" }
  let selected ← selection.selectOne NamespaceObservation.resource projection.namespaces
  let resource : AttributedResource :=
    { artifact := selected.artifact, resource := selected.value.resource }
  if !selected.value.metadataValid then
    .error (resource, "namespace injection metadata is malformed or oversized")
  else if selected.value.injectionEligible then .ok ()
  else .error (resource, "namespace is not injection-eligible")

/-- `exactWorkload`. -/
def exactWorkload (projection : OpenSearchMeshProjection) (expected : AttributedResource) :
    Checked (Attributed WorkloadObservation) :=
  let selection : Selection :=
    { expected
      similar := fun r => r.kind = expected.resource.kind &&
        r.namespaceName = expected.resource.namespaceName
      same := fun r => sameResourceIdentity r expected.resource
      duplicated := "selected workload identity is duplicated"
      missing := "selected workload " ++ expected.resource.namespaceName ++ "/" ++
        expected.resource.name ++ " is missing"
      unexpected := "selected workload is rendered by an unexpected artifact" }
  selection.selectOne WorkloadObservation.resource projection.workloads

/-- `inclusivePort`. -/
def inclusivePort (value : String) (port : Int) : Bool × Bool :=
  let value := trimSpace value
  if value = "*" then (true, true)
  else if value = "" then (false, false)
  else
    let numbers := (split value ',').map fun candidate => atoi (trimSpace candidate)
    if numbers.any fun number => number.all fun number => number ≤ 0 || number > 65535 then
      (false, false)
    else (true, numbers.contains (some port))

/-- `capturePortFailure`. -/
def capturePortFailure (annotations : List (String × String)) (direction : String) (port : Nat) :
    Except String Unit := do
  let excludeKey := "traffic.sidecar.istio.io/exclude" ++ direction ++ "Ports"
  if let some value := annotations.lookup excludeKey then
    let (valid, excluded) := inclusivePort value port
    if !valid then throw (excludeKey ++ " is not a numeric port list or wildcard")
    if excluded then throw (excludeKey ++ " excludes TCP " ++ toString port)
  let includeKey := "traffic.sidecar.istio.io/include" ++ direction ++ "Ports"
  if let some value := annotations.lookup includeKey then
    let (valid, included) := inclusivePort value port
    if !valid then throw (includeKey ++ " is not a numeric port list or wildcard")
    if !included then throw (includeKey ++ " omits TCP " ++ toString port)

/-- `meshCaptureFailure`. -/
def meshCaptureFailure (workload : WorkloadObservation) (port : Nat) (inbound outbound : Bool) :
    Except String Unit := do
  if !workload.metadataValid || !workload.capture.valid then
    throw "workload proof metadata is malformed or exceeds its bound"
  if !workload.hostNetworkValid then throw "workload hostNetwork is not boolean"
  if workload.hostNetwork then throw "workload hostNetwork bypasses sidecar capture"
  let annotations := workload.capture.values
  if let some value := annotations.lookup "sidecar.istio.io/inject" then
    if value = "false" then throw "workload disables sidecar injection"
    if value ≠ "true" then throw "workload sidecar injection annotation is malformed"
  if let some value := annotations.lookup "sidecar.istio.io/interceptionMode" then
    if value ≠ "REDIRECT" ∧ value ≠ "TPROXY" then
      throw "workload interception mode can bypass sidecar capture"
  for key in ["traffic.sidecar.istio.io/kubevirtInterfaces",
      "traffic.sidecar.istio.io/excludeInterfaces"] do
    if let some value := annotations.lookup key then
      if trimSpace value = "" then throw (key ++ " is malformed")
      throw (key ++ " can bypass sidecar capture")
  if outbound then
    if let some value := annotations.lookup "traffic.sidecar.istio.io/excludeOutboundIPRanges" then
      if trimSpace value = "" then throw "excludeOutboundIPRanges is malformed"
      throw "excludeOutboundIPRanges cannot prove capture of the selected Service"
    if let some value := annotations.lookup "traffic.sidecar.istio.io/includeOutboundIPRanges" then
      if trimSpace value ≠ "*" then
        throw "includeOutboundIPRanges does not prove capture of the selected Service"
  if inbound then capturePortFailure annotations "Inbound" port
  if outbound then capturePortFailure annotations "Outbound" port

/-- `selectedServiceFailure`. -/
def selectedServiceFailure (projection : OpenSearchMeshProjection) (expected : AttributedResource)
    (selector : List (String × String)) (port : Int) : Checked Unit := do
  let selection : Selection :=
    { expected
      similar := fun r => r.kind = expected.resource.kind &&
        r.namespaceName = expected.resource.namespaceName
      same := fun r => sameResourceIdentity r expected.resource
      duplicated := "selected OpenSearch Service identity is duplicated"
      missing := "selected OpenSearch Service " ++ expected.resource.namespaceName ++ "/" ++
        expected.resource.name ++ " is missing"
      unexpected := "selected OpenSearch Service is rendered by an unexpected artifact" }
  let selected ← selection.selectOne ServiceObservation.resource projection.services
  let service := selected.value
  let resource : AttributedResource :=
    { artifact := selected.artifact, resource := service.resource }
  if !exactSelector service.selector selector then
    throw (resource, "selected OpenSearch Service selector drifted")
  match service.ports.find? fun candidate => candidate.portValid && candidate.port = port with
  | none => throw (resource, "OpenSearch Service does not expose TCP 9200")
  | some candidate =>
    if !candidate.nameValid || candidate.name ≠ "https" then
      throw (resource, "OpenSearch Service TCP 9200 must use the HTTPS protocol name")
    if !candidate.targetPortValid || candidate.targetPort ≠ port then
      throw (resource, "OpenSearch Service targetPort drifted from TCP 9200")

/-- `probeRewriteFailure`. -/
def probeRewriteFailure (projection : OpenSearchMeshProjection) (expected : AttributedResource) :
    Checked Unit := do
  let selection : Selection :=
    { expected
      similar := fun r => r.kind = expected.resource.kind &&
        r.namespaceName = expected.resource.namespaceName
      same := fun r => sameResourceIdentity r expected.resource
      duplicated := "selected Istiod probe-rewrite ConfigMap is duplicated"
      missing := "selected Istiod probe-rewrite ConfigMap is missing"
      unexpected :=
        "selected Istiod probe-rewrite ConfigMap is rendered by an unexpected artifact" }
  let selected ← selection.selectOne ProbeRewriteObservation.resource projection.probeRewrites
  if !selected.value.enabled then
    throw ({ artifact := selected.artifact, resource := selected.value.resource },
      "Istiod probe rewrite is disabled")

/-! ## Policies -/

/-- The loop of `strictPeerFailure`. -/
def strictPeerLoop (expected : AttributedResource) (workloadLabels : List (String × String))
    (port : Int) (selectedCount : Nat) (lookalike : AttributedResource) :
    List (Attributed PeerAuthenticationObservation) → Checked Unit
  | [] =>
    if selectedCount = 0 then
      .error (lookalike, "selected wrapper STRICT PeerAuthentication is missing")
    else .ok ()
  | observed :: rest =>
    let peer := observed.value
    let resource : AttributedResource :=
      { artifact := observed.artifact, resource := peer.resource }
    if peer.resource.namespaceName ≠ expected.resource.namespaceName then
      strictPeerLoop expected workloadLabels port selectedCount lookalike rest
    else
      let lookalike :=
        if sameResourceCoordinate peer.resource expected.resource &&
          lookalike.resource.path = "" then resource else lookalike
      if !peer.modeValid || !peer.portsValid || peer.selector.present && !peer.selector.valid then
        .error (resource, "applicable PeerAuthentication is malformed")
      else
        let selected := sameResourceIdentity peer.resource expected.resource
        let selectedCount := if selected then selectedCount + 1 else selectedCount
        if selected && selectedCount > 1 then
          .error (resource, "selected wrapper STRICT PeerAuthentication is duplicated")
        else if selected && observed.artifact ≠ expected.artifact then
          .error (resource,
            "selected wrapper STRICT PeerAuthentication is rendered by an unexpected artifact")
        else if selected && (peer.selector.present || peer.mode ≠ "STRICT") then
          .error (resource, "selected wrapper PeerAuthentication is not namespace-wide STRICT")
        else if peer.selector.present && !selectorApplies peer.selector workloadLabels then
          strictPeerLoop expected workloadLabels port selectedCount lookalike rest
        else if peer.mode = "PERMISSIVE" ∨ peer.mode = "DISABLE" then
          .error (resource, "PeerAuthentication weakens selected OpenSearch mTLS")
        else if peer.portModes.any fun portMode =>
            portMode.port = port && portMode.mode ≠ "STRICT" && portMode.mode ≠ "UNSET" then
          .error (resource, "PeerAuthentication weakens selected OpenSearch TCP 9200 mTLS")
        else strictPeerLoop expected workloadLabels port selectedCount lookalike rest

/-- `strictPeerFailure`. -/
def strictPeerFailure (projection : OpenSearchMeshProjection)
    (workloadLabels : List (String × String)) (port : Int) : Checked Unit :=
  let expected : AttributedResource :=
    { artifact := "wrapper/wrapper", resource := selectedOpenSearchPeerIdentity }
  strictPeerLoop expected workloadLabels port 0 expected projection.peerAuthentications

/-- The rule that `authorizationPathFailure` expects. -/
def expectedAuthorizationRule (principal : String) (port : Int) : AuthorizationRuleObservation where
  fromPresent := true
  fromValid := true
  sources := [{ principalsPresent := true, principalsValid := true, principals := [principal] }]
  toPresent := true
  toValid := true
  operations := [{ portsPresent := true, portsValid := true, ports := [port] }]

/-- `authorizationPathFailure`. -/
def authorizationPathFailure (projection : OpenSearchMeshProjection)
    (selector : List (String × String)) (principal : String) (port : Int) : Checked Unit := do
  let expected : AttributedResource :=
    { artifact := "wrapper/wrapper", resource := selectedOpenSearchAuthorizationIdentity }
  let selection : Selection :=
    { expected
      similar := fun r => sameResourceCoordinate r expected.resource
      same := fun r => sameResourceIdentity r expected.resource
      duplicated := "OpenSearch Fluent Bit authorization policy is duplicated"
      missing := "OpenSearch Fluent Bit authorization policy is missing"
      unexpected :=
        "OpenSearch Fluent Bit authorization policy is rendered by an unexpected artifact" }
  let selected ← selection.selectOne AuthorizationPolicyObservation.resource
    projection.authorizationPolicies
  let policy := selected.value
  if !policy.actionValid || !policy.rulesPresent || !policy.rulesValid || policy.action ≠ "ALLOW" ||
      !exactSelector policy.selector selector ||
      policy.rules ≠ [expectedAuthorizationRule principal port] then
    throw ({ artifact := selected.artifact, resource := policy.resource },
      "OpenSearch authorization policy is not the sole exact Fluent Bit principal-to-9200 rule")

/-- `exactNetworkPeer`. -/
def exactNetworkPeer (peer : NetworkPeerObservation) (namespaceName : String)
    (podSelector : List (String × String)) : Bool :=
  !peer.ipBlockPresent && !peer.otherFields &&
    exactSelector peer.namespaceSelector [("kubernetes.io/metadata.name", namespaceName)] &&
    exactSelector peer.podSelector podSelector

/-- `exactNetworkRule`. -/
def exactNetworkRule (rule : NetworkRuleObservation) (namespaceName : String)
    (podSelector : List (String × String)) (port : Int) : Bool :=
  !rule.otherFields && rule.peersPresent && rule.peersValid &&
    (match rule.peers with
      | [peer] => exactNetworkPeer peer namespaceName podSelector
      | _ => false) &&
    rule.portsPresent && rule.portsValid &&
    rule.ports = [{ port, portValid := true, protocol := "TCP", protocolPresent := true,
                    protocolValid := true }]

/-- Whether a list has one rule only, which is the exact one. -/
def soleNetworkRule (rules : List NetworkRuleObservation) (namespaceName : String)
    (podSelector : List (String × String)) (port : Int) : Bool :=
  match rules with
  | [rule] => exactNetworkRule rule namespaceName podSelector port
  | _ => false

/-- `fluentEgressFailure`. -/
def fluentEgressFailure (projection : OpenSearchMeshProjection)
    (fluentSelector openSearchSelector : List (String × String)) (port : Int) : Checked Unit := do
  let expected : AttributedResource :=
    { artifact := "package/fluentbit", resource := selectedFluentBitEgressIdentity }
  let selection : Selection :=
    { expected
      similar := fun r => sameResourceCoordinate r expected.resource
      same := fun r => sameResourceIdentity r expected.resource
      duplicated := "selected Fluent Bit TCP 9200 policy is duplicated"
      missing := "Fluent Bit selected egress policy is missing"
      unexpected := "Fluent Bit egress policy is rendered by an unexpected artifact" }
  let selected ← selection.selectOne NetworkPolicyObservation.resource projection.networkPolicies
  let policy := selected.value
  let resource : AttributedResource :=
    { artifact := selected.artifact, resource := policy.resource }
  if !exactSelector policy.selector fluentSelector then
    throw (resource, "Fluent Bit TCP 9200 policy selector drifted")
  if !policy.policyTypesPresent || !policy.policyTypesValid || policy.policyTypes ≠ ["Egress"] ||
      policy.ingressPresent then
    throw (resource, "Fluent Bit TCP 9200 policy type drifted")
  if !policy.egressPresent || !policy.egressValid then
    throw (resource, "Fluent Bit egress rules are missing or invalid")
  if !soleNetworkRule policy.egress "opensearch" openSearchSelector port then
    throw (resource,
      "Fluent Bit TCP 9200 egress policy is not the sole exact OpenSearch destination rule")

/-- `openSearchIngressFailure`. -/
def openSearchIngressFailure (projection : OpenSearchMeshProjection)
    (openSearchSelector fluentSelector : List (String × String)) (port : Int) : Checked Unit := do
  let expected : AttributedResource :=
    { artifact := "wrapper/wrapper", resource := selectedOpenSearchIngressIdentity }
  let selection : Selection :=
    { expected
      similar := fun r => sameResourceCoordinate r expected.resource
      same := fun r => sameResourceIdentity r expected.resource
      duplicated := "OpenSearch Fluent Bit ingress policy is duplicated"
      missing := "OpenSearch Fluent Bit ingress policy is missing"
      unexpected := "OpenSearch ingress policy is rendered by an unexpected artifact" }
  let selected ← selection.selectOne NetworkPolicyObservation.resource projection.networkPolicies
  let policy := selected.value
  if !exactSelector policy.selector openSearchSelector ||
      !policy.policyTypesPresent || !policy.policyTypesValid ||
      policy.policyTypes ≠ ["Ingress"] || !policy.ingressPresent || !policy.ingressValid ||
      policy.egressPresent || !soleNetworkRule policy.ingress "fluentbit" fluentSelector port then
    throw ({ artifact := selected.artifact, resource := policy.resource },
      "OpenSearch ingress policy is not the sole exact Fluent Bit TCP 9200 rule")

/-! ## The contract -/

/-- A workload with the labels of its selector, captured by the mesh. -/
def capturedWorkload (projection : OpenSearchMeshProjection) (expected : AttributedResource)
    (labels : List (String × String)) (subject : String)
    (further : WorkloadObservation → Except String Unit) (inbound outbound : Bool) :
    Except MeshError (Attributed WorkloadObservation) := do
  let workload ← attributedMeshResourceError (exactWorkload projection expected)
  let fail := meshResourceError workload.artifact workload.value.resource
  if !exactSelector workload.value.selector labels ||
      !labelsContain workload.value.podLabels labels then
    throw (fail (subject ++ " selected workload labels drifted"))
  (further workload.value).mapError fail
  (meshCaptureFailure workload.value 9200 inbound outbound).mapError fail
  return workload

/-- `validateOpenSearchMeshContract`. -/
def validateOpenSearchMeshContract (inspections : List (String × PlatformSecurityObservation)) :
    Except MeshError Unit := do
  let projection ← projectOpenSearchMesh inspections
  for identity in [selectedOpenSearchNamespaceIdentity, selectedFluentBitNamespaceIdentity] do
    attributedMeshResourceError (injectedNamespace projection ⟨"bigbang", identity⟩)
  let openSearchWorkload ← capturedWorkload projection
    ⟨"chart/opensearch", selectedOpenSearchWorkloadIdentity⟩ selectedOpenSearchLabels "OpenSearch"
    (fun _ => .ok ()) true false
  attributedMeshResourceError (selectedServiceFailure projection
    ⟨"chart/opensearch", selectedOpenSearchServiceIdentity⟩ selectedOpenSearchLabels 9200)
  let _ ← capturedWorkload projection
    ⟨"chart/opensearch-dashboards", selectedDashboardsWorkloadIdentity⟩ selectedDashboardsLabels
    "OpenSearch Dashboards" (fun _ => .ok ()) false true
  let _ ← capturedWorkload projection
    ⟨"package/fluentbit", selectedFluentBitWorkloadIdentity⟩ selectedFluentBitLabels "Fluent Bit"
    (fun workload =>
      if workload.serviceAccount ≠ "fluentbit-fluent-bit" then
        .error "Fluent Bit ServiceAccount drifted"
      else .ok ()) false true
  attributedMeshResourceError (strictPeerFailure projection selectedOpenSearchLabels 9200)
  attributedMeshResourceError (authorizationPathFailure projection selectedOpenSearchLabels
    "cluster.local/ns/fluentbit/sa/fluentbit-fluent-bit" 9200)
  attributedMeshResourceError (fluentEgressFailure projection selectedFluentBitLabels
    selectedOpenSearchLabels 9200)
  attributedMeshResourceError (openSearchIngressFailure projection selectedOpenSearchLabels
    selectedFluentBitLabels 9200)
  let workload := openSearchWorkload.value
  if workload.startupPort ≠ 9200 ∨ workload.readinessPort ≠ 9200 ∨ workload.initValid = false ∨
      workload.initContainerCount ≠ 1 ∨ workload.configInitCount ≠ 1 ∨
      workload.configInitLocal = false then
    throw (meshResourceError openSearchWorkload.artifact workload.resource
      "OpenSearch probe or local-only init contract drifted")
  attributedMeshResourceError (probeRewriteFailure projection
    ⟨"package/istiod", selectedIstiodValuesIdentity⟩)

end Atum.Mesh
