import Mathlib.Data.List.Sort
import Atum.Go.Any
import Atum.Go.Strings
import Atum.Library.SortedAssoc

/-!
# What is observed of rendered resources

A chart is rendered into documents, and `observePlatformSecurity` keeps of each
document what the mesh contract needs: namespaces, workloads, services, the
policies of the service mesh and of the network, and one setting of the mesh.
Everything that is kept is bounded; a document that exceeds a bound makes the
whole observation overflow.

A map of strings is kept as the sorted list of its entries, so that equal maps are
equal lists.
-/

namespace Atum.Mesh

open Atum.Go

def maxSecurityResources : Nat := 128
def maxSecurityListItems : Nat := 64
def maxSecurityMetadataItems : Nat := 32
def maxSecuritySelectorItems : Nat := 16
def maxSecurityStringBytes : Nat := 512
def maxSecurityCommandBytes : Nat := 4096

/-! ## The observations -/

/-- `renderedResource`. -/
structure RenderedResource where
  apiVersion : String := ""
  kind : String := ""
  namespaceName : String := ""
  name : String := ""
  path : String := ""
  deriving DecidableEq, Repr

/-- `renderedResource.String`. -/
def RenderedResource.text (r : RenderedResource) : String :=
  let name := if r.namespaceName ≠ "" then r.namespaceName ++ "/" ++ r.name else r.name
  r.apiVersion ++ "/" ++ r.kind ++ " " ++ name ++ " at " ++ r.path

/-- `renderedResource.key`. -/
def RenderedResource.key (r : RenderedResource) : String :=
  r.namespaceName ++ "/" ++ r.kind ++ "/" ++ r.name ++ "/" ++ r.path

structure SelectorObservation where
  present : Bool := false
  valid : Bool := false
  labels : List (String × String) := []
  deriving DecidableEq, Repr

structure NamespaceObservation where
  resource : RenderedResource
  injectionEligible : Bool
  metadataValid : Bool

structure CaptureObservation where
  values : List (String × String) := []
  valid : Bool := false

structure WorkloadObservation where
  resource : RenderedResource
  selector : SelectorObservation
  podLabels : List (String × String)
  capture : CaptureObservation
  metadataValid : Bool
  serviceAccount : String
  hostNetwork : Bool
  hostNetworkValid : Bool
  startupPort : Int
  readinessPort : Int
  initContainerCount : Nat
  configInitCount : Nat
  initValid : Bool
  configInitLocal : Bool

structure ServicePortObservation where
  name : String
  nameValid : Bool
  port : Int
  portValid : Bool
  targetPort : Int
  targetPortValid : Bool

structure ServiceObservation where
  resource : RenderedResource
  selector : SelectorObservation
  ports : List ServicePortObservation

structure PeerPortModeObservation where
  port : Int
  mode : String

structure PeerAuthenticationObservation where
  resource : RenderedResource
  selector : SelectorObservation
  mode : String := ""
  modeValid : Bool := true
  portModes : List PeerPortModeObservation := []
  portsValid : Bool := true

structure AuthorizationSourceObservation where
  principalsPresent : Bool
  principalsValid : Bool
  principals : List String
  otherFields : Bool := false
  deriving DecidableEq

structure AuthorizationOperationObservation where
  portsPresent : Bool
  portsValid : Bool
  ports : List Int
  otherFields : Bool := false
  deriving DecidableEq

structure AuthorizationRuleObservation where
  fromPresent : Bool
  fromValid : Bool
  sources : List AuthorizationSourceObservation
  toPresent : Bool
  toValid : Bool
  operations : List AuthorizationOperationObservation
  otherFields : Bool := false
  deriving DecidableEq

structure AuthorizationPolicyObservation where
  resource : RenderedResource
  selector : SelectorObservation
  action : String
  actionValid : Bool
  rulesPresent : Bool
  rulesValid : Bool
  rules : List AuthorizationRuleObservation

structure NetworkPeerObservation where
  namespaceSelector : SelectorObservation
  podSelector : SelectorObservation
  ipBlockPresent : Bool
  otherFields : Bool

structure NetworkPortObservation where
  port : Int
  portValid : Bool
  protocol : String
  protocolPresent : Bool
  protocolValid : Bool
  otherFields : Bool := false
  deriving DecidableEq

structure NetworkRuleObservation where
  peersPresent : Bool
  peersValid : Bool
  peers : List NetworkPeerObservation
  portsPresent : Bool
  portsValid : Bool
  ports : List NetworkPortObservation
  otherFields : Bool

structure NetworkPolicyObservation where
  resource : RenderedResource
  selector : SelectorObservation
  policyTypesPresent : Bool
  policyTypesValid : Bool
  policyTypes : List String
  ingressPresent : Bool
  ingressValid : Bool
  ingress : List NetworkRuleObservation
  egressPresent : Bool
  egressValid : Bool
  egress : List NetworkRuleObservation

structure ProbeRewriteObservation where
  resource : RenderedResource
  enabled : Bool

/-- `platformSecurityObservation`. -/
structure PlatformSecurityObservation where
  namespaces : List NamespaceObservation := []
  workloads : List WorkloadObservation := []
  services : List ServiceObservation := []
  peerAuthentications : List PeerAuthenticationObservation := []
  authorizationPolicies : List AuthorizationPolicyObservation := []
  networkPolicies : List NetworkPolicyObservation := []
  probeRewrites : List ProbeRewriteObservation := []
  overflow : Option RenderedResource := none

/-! ## Bounded values -/

/-- `boundedSecurityStrings`. -/
def boundedSecurityStrings (values : List String) : Bool :=
  values.all fun value => len value ≤ maxSecurityStringBytes

/-- The map of strings that a map of values holds, if it holds nothing else. -/
def stringMap : List (String × Any) → Option (List (String × String))
  | [] => some []
  | (key, value) :: rest => do
      let text ← value.text?
      let labels ← stringMap rest
      if boundedSecurityStrings [key, text] then some (SortedAssoc.insert key text labels) else none

/-- `boundedStringMap`. -/
def boundedStringMap (value : Any) (limit : Nat) : Option (List (String × String)) := do
  let source ← value.entries?
  if source.length > limit then none else stringMap source

/-- `proofStringMap`. -/
def proofStringMap (value : Any) (retainedKeys : List String) :
    Option (List (String × String)) :=
  (boundedStringMap value maxSecurityMetadataItems).map
    (List.filter fun entry => retainedKeys.contains entry.1)

/-- `exactStringMap`. -/
def exactStringMap (value : Any) : Option (List (String × String)) :=
  boundedStringMap value maxSecuritySelectorItems

/-- The items of a bounded list that may be absent, if `item` accepts them all. -/
def boundedSlice {α : Type} (item : Any → Option α) : Any → Option (List α)
  | .null => some []
  | .list items => if items.length > maxSecurityListItems then none else items.mapM item
  | _ => none

/-- `boundedSecurityMapSlice`. -/
def boundedSecurityMapSlice : Any → Option (List (List (String × Any))) :=
  boundedSlice Any.entries?

/-- A string within its bound. -/
def boundedText (value : Any) : Option String :=
  value.text?.filter fun text => boundedSecurityStrings [text]

/-- `boundedSecurityStringSlice`. -/
def boundedSecurityStringSlice : Any → Option (List String) := boundedSlice boundedText

/-- A list as it is observed: whether it is there, whether all of its items are
good, and the good ones. -/
structure ObservedList (α : Type) where
  present : Bool
  valid : Bool
  items : List α

/-- The list in a field, with the items that `item` accepts. -/
def observeList {α : Type} (item : Any → Option α) (parent : List (String × Any))
    (field : String) : ObservedList α :=
  match parent.lookup field with
  | none => { present := false, valid := true, items := [] }
  | some (.list values) =>
    if values.length > maxSecurityListItems then { present := true, valid := false, items := [] }
    else
      { present := true, valid := values.all fun value => (item value).isSome,
        items := values.filterMap item }
  | some _ => { present := true, valid := false, items := [] }

/-- `observeMapList`. -/
def observeMapList : List (String × Any) → String → ObservedList (List (String × Any)) :=
  observeList Any.entries?

/-- `observeStringList`. -/
def observeStringList : List (String × Any) → String → ObservedList String :=
  observeList boundedText

/-- `hasOtherFields`. -/
def hasOtherFields (value : List (String × Any)) (permitted : List String) : Bool :=
  value.length > permitted.length || value.any fun entry => !permitted.contains entry.1

/-- `exactInteger`. -/
def exactInteger : Any → Int × Bool
  | .int value => (value, 0 < value)
  | .float text =>
    match atoi text with
    | some number => (number, 0 < number)
    | none => ((((cut text '.').map Prod.fst).bind atoi).getD 0, false)
  | .string text =>
    match atoi text with
    | some number => (number, 0 < number)
    | none => (0, false)
  | _ => (0, false)

/-- `tcpProbePort`. -/
def tcpProbePort (value : Any) : Int :=
  (exactInteger (Any.field (Any.field value.entries "tcpSocket").entries "port")).1

/-! ## Selectors -/

/-- `observeSelector`. -/
def observeSelector (parent : List (String × Any)) (field : String) : SelectorObservation :=
  match parent.lookup field with
  | none => {}
  | some (.map selector) =>
    if hasOtherFields selector ["matchLabels"] then { present := true }
    else if selector.length = 0 then { present := true, valid := true }
    else
      match exactStringMap (Any.field selector "matchLabels") with
      | none => { present := true }
      | some labels => { present := true, valid := true, labels }
  | some _ => { present := true }

/-- `observeDirectSelector`. -/
def observeDirectSelector (parent : List (String × Any)) (field : String) : SelectorObservation :=
  match parent.lookup field with
  | none => {}
  | some raw =>
    match exactStringMap raw with
    | none => { present := true }
    | some labels => { present := true, valid := true, labels }

/-! ## Workloads and services -/

/-- `observeInjectionMetadata`. -/
def observeInjectionMetadata (metadata : List (String × Any)) : Bool × Bool :=
  match boundedStringMap (Any.field metadata "labels") maxSecurityMetadataItems with
  | none => (false, false)
  | some labels =>
    (labels.lookup "istio-injection" = some "enabled" ||
      (labels.lookup "istio.io/rev").getD "" ≠ "", true)

/-- `captureAnnotationKeys`. -/
def captureAnnotationKeys : List String :=
  ["sidecar.istio.io/inject", "sidecar.istio.io/interceptionMode",
    "traffic.sidecar.istio.io/excludeInboundPorts",
    "traffic.sidecar.istio.io/excludeOutboundPorts",
    "traffic.sidecar.istio.io/includeInboundPorts",
    "traffic.sidecar.istio.io/includeOutboundPorts",
    "traffic.sidecar.istio.io/excludeOutboundIPRanges",
    "traffic.sidecar.istio.io/includeOutboundIPRanges",
    "traffic.sidecar.istio.io/kubevirtInterfaces",
    "traffic.sidecar.istio.io/excludeInterfaces"]

/-- The annotations with the given keys. -/
def captureValues (annotations : List (String × Any)) :
    List String → Option (List (String × String))
  | [] => some []
  | key :: rest =>
    match annotations.lookup key with
    | none => captureValues annotations rest
    | some value => do
        let text ← value.text?
        if boundedSecurityStrings [key, text] then
          return (key, text) :: (← captureValues annotations rest)
        else none

/-- `observeCaptureMetadata`. -/
def observeCaptureMetadata (metadata : List (String × Any)) : CaptureObservation :=
  match metadata.lookup "annotations" with
  | none => { valid := true }
  | some (.map annotations) =>
    if annotations.length > maxSecurityMetadataItems then {}
    else
      match captureValues annotations captureAnnotationKeys with
      | none => {}
      | some values => { values, valid := true }
  | some _ => {}

/-- The loop of `observeLocalConfigInit` over the texts of a command. -/
def localConfigInit (foundCopy : Bool) (total : Nat) : List String → Bool × Bool
  | [] => (foundCopy, true)
  | text :: rest =>
    let total := total + len text
    if total > maxSecurityCommandBytes || contains text "http://" || contains text "https://" ||
        contains text "curl " || contains text "wget " then
      (false, total ≤ maxSecurityCommandBytes)
    else
      localConfigInit (foundCopy || contains text "cp -r /tmp/configfolder/*  /tmp/config/") total
        rest

/-- `observeLocalConfigInit`.  The arguments are read after the command has passed. -/
def observeLocalConfigInit (container : List (String × Any)) : Bool × Bool :=
  match boundedSecurityStringSlice (Any.field container "command") with
  | none => (false, false)
  | some command =>
    match boundedSecurityStringSlice (Any.field container "args") with
    | some arguments => localConfigInit false 0 (command ++ arguments)
    | none =>
      -- A command that is refused is refused before the arguments are looked at.
      match localConfigInit true 0 command with
      | (true, _) => (false, false)
      | refused => refused

/-- What the init containers add up to. -/
structure InitContainers where
  count : Nat := 0
  isLocal : Bool := false
  valid : Bool := true

/-- One init container. -/
def InitContainers.observe (state : InitContainers) (container : List (String × Any)) :
    InitContainers :=
  let name := (Any.field container "name").text
  let valid := state.valid && boundedSecurityStrings [name]
  if name = "configfile" then
    let (isLocal, initValid) := observeLocalConfigInit container
    { count := state.count + 1, isLocal, valid := valid && initValid }
  else { state with valid }

/-- The workload of a `Deployment`, `DaemonSet` or `StatefulSet`. -/
def observeWorkload (resource : RenderedResource) (object : List (String × Any)) :
    WorkloadObservation :=
  let spec := (Any.field object "spec").entries
  let template := (Any.field spec "template").entries
  let podMetadata := (Any.field template "metadata").entries
  let podSpec := (Any.field template "spec").entries
  let podLabels := proofStringMap (Any.field podMetadata "labels")
    ["app.kubernetes.io/name", "app.kubernetes.io/instance"]
  let capture := observeCaptureMetadata podMetadata
  let serviceAccount := (Any.field podSpec "serviceAccountName").text
  let containers := boundedSecurityMapSlice (Any.field podSpec "containers")
  let initContainers := boundedSecurityMapSlice (Any.field podSpec "initContainers")
  let inits := (initContainers.getD []).foldl InitContainers.observe
    { valid := initContainers.isSome }
  let probe := fun field => (containers.getD []).foldl
    (fun port container => if port = 0 then tcpProbePort (Any.field container field) else port) 0
  { resource
    selector := observeSelector spec "selector"
    podLabels := podLabels.getD []
    capture
    metadataValid := podLabels.isSome && capture.valid && boundedSecurityStrings [serviceAccount] &&
      containers.isSome
    serviceAccount
    hostNetwork := match podSpec.lookup "hostNetwork" with
      | some (.bool value) => value
      | _ => false
    hostNetworkValid := match podSpec.lookup "hostNetwork" with
      | none | some (.bool _) => true
      | some _ => false
    startupPort := probe "startupProbe"
    readinessPort := probe "readinessProbe"
    initContainerCount := (initContainers.getD []).length
    configInitCount := inits.count
    initValid := inits.valid
    configInitLocal := inits.isLocal }

/-- One port of a service. -/
def observeServicePort (value : List (String × Any)) : ServicePortObservation :=
  let name := (Any.field value "name").text?
  let port := exactInteger (Any.field value "port")
  let targetPort := match value.lookup "targetPort" with
    | none => port
    | some target => exactInteger target
  { name := name.getD ""
    nameValid := name.any fun name => boundedSecurityStrings [name]
    port := port.1
    portValid := port.2
    targetPort := targetPort.1
    targetPortValid := targetPort.2 }

/-! ## Policies -/

/-- `observedMTLSMode`. -/
def observedMTLSMode (value : List (String × Any)) : String × Bool :=
  if hasOtherFields value ["mode"] then ("", false)
  else
    match boundedText (Any.field value "mode") with
    | none => ("", false)
    | some mode => (mode, ["UNSET", "DISABLE", "PERMISSIVE", "STRICT"].contains mode)

/-- The mode of one port, if the entry is good. -/
def observedPortMode (entry : String × Any) : Option PeerPortModeObservation := do
  let port ← atoi entry.1
  let (mode, valid) := observedMTLSMode (← entry.2.entries?)
  if port ≤ 0 ∨ port > 65535 ∨ valid = false then none else some { port, mode }

/-- The ports of `portLevelMtls`, if there are not too many. -/
def observedPorts (spec : List (String × Any)) : Option (List (String × Any)) :=
  match spec.lookup "portLevelMtls" with
  | none => some []
  | some (.map ports) => if ports.length > maxSecurityListItems then none else some ports
  | some _ => none

/-- `observePeerAuthentication`. -/
def observePeerAuthentication (resource : RenderedResource) (spec : List (String × Any)) :
    PeerAuthenticationObservation :=
  let mode := match spec.lookup "mtls" with
    | none => ("", true)
    | some (.map mtls) => observedMTLSMode mtls
    | some _ => ("", false)
  { resource
    selector := observeSelector spec "selector"
    mode := mode.1
    modeValid := mode.2
    portModes := (((observedPorts spec).getD []).filterMap observedPortMode).insertionSort
      fun a b => a.port ≤ b.port
    portsValid := (observedPorts spec).any fun ports =>
      ports.all fun entry => (observedPortMode entry).isSome }

/-- One source of an authorization rule. -/
def observeAuthorizationSource (raw : List (String × Any)) : AuthorizationSourceObservation :=
  let source := (Any.field raw "source").entries?
  let principals := observeStringList (source.getD []) "principals"
  { principalsPresent := principals.present
    principalsValid := principals.valid
    principals := principals.items
    otherFields := source.isNone || hasOtherFields raw ["source"] ||
      hasOtherFields (source.getD []) ["principals"] }

/-- The port that a text gives. -/
def authorizationPort (text : String) : Option Int := (atoi text).filter fun port => 0 < port

/-- One operation of an authorization rule. -/
def observeAuthorizationOperation (raw : List (String × Any)) :
    AuthorizationOperationObservation :=
  let operation := (Any.field raw "operation").entries?
  let ports := observeStringList (operation.getD []) "ports"
  { portsPresent := ports.present
    portsValid := ports.valid && ports.items.all fun text => (authorizationPort text).isSome
    ports := ports.items.filterMap authorizationPort
    otherFields := operation.isNone || hasOtherFields raw ["operation"] ||
      hasOtherFields (operation.getD []) ["ports"] }

/-- `observeAuthorizationRule`. -/
def observeAuthorizationRule (value : List (String × Any)) : AuthorizationRuleObservation :=
  let sources := observeMapList value "from"
  let operations := observeMapList value "to"
  { fromPresent := sources.present
    fromValid := sources.valid
    sources := sources.items.map observeAuthorizationSource
    toPresent := operations.present
    toValid := operations.valid
    operations := operations.items.map observeAuthorizationOperation
    otherFields := hasOtherFields value ["from", "to"] }

/-- An `AuthorizationPolicy`. -/
def observeAuthorizationPolicy (resource : RenderedResource) (spec : List (String × Any)) :
    AuthorizationPolicyObservation :=
  let action := (Any.field spec "action").text?
  let rules := observeMapList spec "rules"
  { resource
    selector := observeSelector spec "selector"
    action := action.getD ""
    actionValid := action.any fun action => boundedSecurityStrings [action]
    rulesPresent := rules.present
    rulesValid := rules.valid
    rules := rules.items.map observeAuthorizationRule }

/-- One peer of a network rule. -/
def observeNetworkPeer (raw : List (String × Any)) : NetworkPeerObservation where
  namespaceSelector := observeSelector raw "namespaceSelector"
  podSelector := observeSelector raw "podSelector"
  ipBlockPresent := (raw.lookup "ipBlock").isSome
  otherFields := hasOtherFields raw ["namespaceSelector", "podSelector", "ipBlock"]

/-- One port of a network rule. -/
def observeNetworkPort (raw : List (String × Any)) : NetworkPortObservation :=
  let port := exactInteger (Any.field raw "port")
  let protocol := (Any.field raw "protocol").text?
  { port := port.1
    portValid := (raw.lookup "port").isSome && port.2
    protocol := protocol.getD ""
    protocolPresent := protocol.isSome
    protocolValid := protocol.all fun protocol =>
      protocol = "TCP" || protocol = "UDP" || protocol = "SCTP"
    otherFields := hasOtherFields raw ["port", "protocol"] }

/-- One rule of a network policy. -/
def observeNetworkRule (peerField : String) (value : List (String × Any)) :
    NetworkRuleObservation :=
  let peers := observeMapList value peerField
  let ports := observeMapList value "ports"
  { peersPresent := peers.present
    peersValid := peers.valid
    peers := peers.items.map observeNetworkPeer
    portsPresent := ports.present
    portsValid := ports.valid
    ports := ports.items.map observeNetworkPort
    otherFields := hasOtherFields value [peerField, "ports"] }

/-- `observeNetworkRules`. -/
def observeNetworkRules (spec : List (String × Any)) (field peerField : String) :
    ObservedList NetworkRuleObservation :=
  let rules := observeMapList spec field
  { present := rules.present
    valid := rules.valid
    items := rules.items.map (observeNetworkRule peerField) }

/-- A `NetworkPolicy`. -/
def observeNetworkPolicy (resource : RenderedResource) (spec : List (String × Any)) :
    NetworkPolicyObservation :=
  let policyTypes := observeStringList spec "policyTypes"
  let ingress := observeNetworkRules spec "ingress" "from"
  let egress := observeNetworkRules spec "egress" "to"
  { resource
    selector := observeSelector spec "podSelector"
    policyTypesPresent := policyTypes.present
    policyTypesValid := policyTypes.valid
    policyTypes := policyTypes.items
    ingressPresent := ingress.present
    ingressValid := ingress.valid
    ingress := ingress.items
    egressPresent := egress.present
    egressValid := egress.valid
    egress := egress.items }

/-! ## One document -/

/-- `admit`: go on with an observation unless its list is full. -/
def PlatformSecurityObservation.admitResource (observation : PlatformSecurityObservation)
    (resource : RenderedResource) (count : Nat)
    (append : PlatformSecurityObservation → PlatformSecurityObservation) :
    PlatformSecurityObservation :=
  if observation.overflow.isSome then observation
  else if count < maxSecurityResources then append observation
  else { observation with overflow := some resource }

/-- `reject`. -/
def PlatformSecurityObservation.reject (observation : PlatformSecurityObservation)
    (resource : RenderedResource) : PlatformSecurityObservation :=
  if observation.overflow.isNone then { observation with overflow := some resource }
  else observation

/-- `observedResourceNamespace`. -/
def observedResourceNamespace (kind : String) (metadata : List (String × Any))
    (defaultNamespace : String) : String :=
  let name := (Any.field metadata "namespace").text
  if name = "" ∧ kind ≠ "Namespace" then defaultNamespace else name

/-- The identity of a document and its place. -/
def resourceOf (object : List (String × Any)) (path defaultNamespace : String) :
    RenderedResource :=
  let metadata := (Any.field object "metadata").entries
  let kind := (Any.field object "kind").text
  { apiVersion := (Any.field object "apiVersion").text
    kind
    namespaceName := observedResourceNamespace kind metadata defaultNamespace
    name := (Any.field metadata "name").text
    path }

/-- A document with its identity. -/
def PlatformSecurityObservation.observeResource (observation : PlatformSecurityObservation)
    (resource : RenderedResource) (object : List (String × Any)) : PlatformSecurityObservation :=
  let metadata := (Any.field object "metadata").entries
  let spec := (Any.field object "spec").entries
  let inOpenSearch := resource.namespaceName = "opensearch"
  let inEither := resource.namespaceName = "opensearch" ∨ resource.namespaceName = "fluentbit"
  if resource.kind = "ConfigMap" then
    let merged := (Any.field (Any.field object "data").entries "merged-values").text
    if contains merged "\"rewriteAppHTTPProbe\"" then
      observation.admitResource resource observation.probeRewrites.length fun observation =>
        { observation with
          probeRewrites := observation.probeRewrites ++
            [{ resource, enabled := contains merged "\"rewriteAppHTTPProbe\": true" }] }
    else observation
  else if resource.kind = "Namespace" then
    if resource.name = "opensearch" ∨ resource.name = "fluentbit" then
      observation.admitResource resource observation.namespaces.length fun observation =>
        let (injectionEligible, metadataValid) := observeInjectionMetadata metadata
        { observation with
          namespaces := observation.namespaces ++ [{ resource, injectionEligible, metadataValid }] }
    else observation
  else if resource.kind = "Deployment" ∨ resource.kind = "DaemonSet" ∨
      resource.kind = "StatefulSet" then
    if inEither then
      observation.admitResource resource observation.workloads.length fun observation =>
        { observation with
          workloads := observation.workloads ++ [observeWorkload resource object] }
    else observation
  else if resource.kind = "Service" then
    if inOpenSearch then
      match boundedSecurityMapSlice (Any.field spec "ports") with
      | none => observation.reject resource
      | some ports =>
        observation.admitResource resource observation.services.length fun observation =>
          { observation with
            services := observation.services ++
              [{ resource, selector := observeDirectSelector spec "selector",
                 ports := ports.map observeServicePort }] }
    else observation
  else if resource.kind = "PeerAuthentication" then
    if inOpenSearch then
      observation.admitResource resource observation.peerAuthentications.length fun observation =>
        { observation with
          peerAuthentications := observation.peerAuthentications ++
            [observePeerAuthentication resource spec] }
    else observation
  else if resource.kind = "AuthorizationPolicy" then
    if inOpenSearch then
      observation.admitResource resource observation.authorizationPolicies.length fun observation =>
        { observation with
          authorizationPolicies := observation.authorizationPolicies ++
            [observeAuthorizationPolicy resource spec] }
    else observation
  else if resource.kind = "NetworkPolicy" then
    if inEither then
      observation.admitResource resource observation.networkPolicies.length fun observation =>
        { observation with
          networkPolicies := observation.networkPolicies ++
            [observeNetworkPolicy resource spec] }
    else observation
  else observation

/-- `observePlatformSecurity`. -/
def observePlatformSecurity (value : Any) (path defaultNamespace : String)
    (observation : PlatformSecurityObservation) : PlatformSecurityObservation :=
  match value with
  | .map object =>
    let resource := resourceOf object path defaultNamespace
    if resource.name = "" then observation
    else if boundedSecurityStrings
        [resource.apiVersion, resource.kind, resource.namespaceName, resource.name, path] then
      observation.observeResource resource object
    else observation.reject resource
  | _ => observation

end Atum.Mesh
