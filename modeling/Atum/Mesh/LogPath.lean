import Atum.Mesh.StrictPeers

/-!
# The log path from Fluent Bit to OpenSearch

A connection passes if the network policies of both namespaces let it out and in,
and if the authorization policies of the target namespace permit it.  Network
policies only add to what is open, so the two policies that the contract demands
are enough if their ports are numbers; the contract also takes a text for the number
that it reads in it, and to a network policy a text is the name of a port.  An
authorization policy can also reject, and the contract looks at one policy only.  The main
result says that these are all the ways to close the path.

What the policies of a cluster can ask for beyond labels, principals and ports is
left open in `Cluster`.
-/

namespace Atum.Mesh

open Atum.Go List SortedAssoc

/-! ## Connections -/

/-- A pod of a namespace. -/
structure Pod where
  namespaceName : String
  labels : PodLabels

structure Connection where
  source : Pod
  serviceAccount : String
  target : Pod
  port : Nat

/-- The identity of the source of a connection. -/
def Connection.principal (connection : Connection) : String :=
  "cluster.local/ns/" ++ connection.source.namespaceName ++ "/sa/" ++ connection.serviceAccount

/-- What decides about the parts of policies that are not modelled further. -/
structure Cluster where
  namespaceLabels : String → PodLabels
  /-- Every namespace has its name as a label. -/
  named : ∀ name, namespaceLabels name "kubernetes.io/metadata.name" = some name
  /-- `matchExpressions` of a selector. -/
  expressions : Any → PodLabels → Bool
  /-- `ipBlock` of a network peer. -/
  ipBlock : Any → Pod → Bool
  /-- The number of a named port of a pod. -/
  namedPort : Pod → String → Option Nat
  /-- A field of a source or an operation other than principals and ports. -/
  otherField : String → Any → Connection → Bool
  /-- The conditions of an authorization rule. -/
  conditions : Any → Connection → Bool
  /-- The answer of the provider of a policy with the action `CUSTOM`. -/
  provider : List (String × Any) → Connection → Bool

/-- A resource of a kind is rendered in a namespace. -/
def ChartRenders.HasResource (renders : ChartRenders) (kind namespaceName : String)
    (object : List (String × Any)) : Prop :=
  ∃ artifact resource, renders.Renders artifact object resource ∧ resource.kind = kind ∧
    resource.namespaceName = namespaceName

/-! ## Network policies -/

section Network

variable (cluster : Cluster)

/-- The labels are selected. -/
def selectorMatches (selector : Any) (labels : PodLabels) : Bool :=
  labelsMatch (Any.field selector.entries "matchLabels").entries labels &&
    (match selector.entries.lookup "matchExpressions" with
      | none => true
      | some expressions => cluster.expressions expressions labels)

/-- A peer of a rule is the pod.  Without a namespace selector it is a pod of the
namespace of the policy. -/
def peerMatches (policyNamespace : String) (peer : List (String × Any)) (pod : Pod) : Bool :=
  match peer.lookup "ipBlock" with
  | some block => cluster.ipBlock block pod
  | none =>
    (match peer.lookup "namespaceSelector" with
      | none => pod.namespaceName = policyNamespace
      | some selector =>
        selectorMatches cluster selector (cluster.namespaceLabels pod.namespaceName)) &&
      (match peer.lookup "podSelector" with
        | none => true
        | some selector => selectorMatches cluster selector pod.labels)

/-- A port of a rule is the port of the pod.  A text is the name of a port. -/
def portMatches (raw : List (String × Any)) (pod : Pod) (port : Nat) : Bool :=
  ((raw.lookup "protocol").getD (.string "TCP")).text = "TCP" &&
    (match raw.lookup "port" with
      | none => true
      | some (.string name) => cluster.namedPort pod name = some port
      | some value =>
        match raw.lookup "endPort" with
        | none => exactInteger value = ((port : Int), true)
        | some last => (exactInteger value).1 ≤ port && port ≤ (exactInteger last).1)

/-- A rule opens a port.  No peers are all peers, and no ports are all ports. -/
def ruleOpens (policyNamespace peerField : String) (rule : Any) (pod target : Pod) (port : Nat) :
    Bool :=
  let peers := (Any.field rule.entries peerField).items
  let ports := (Any.field rule.entries "ports").items
  (peers.isEmpty || peers.any fun peer => peerMatches cluster policyNamespace peer.entries pod) &&
    (ports.isEmpty || ports.any fun raw => portMatches cluster raw.entries target port)

/-- One direction of network policies. -/
structure Direction where
  policyType : String
  field : String
  peerField : String

def egress : Direction := { policyType := "Egress", field := "egress", peerField := "to" }

def ingress : Direction := { policyType := "Ingress", field := "ingress", peerField := "from" }

/-- A policy is about a direction: it says so, or it says nothing and is about what
comes in and has rules for what goes out. -/
def concerns (direction : Direction) (spec : List (String × Any)) : Bool :=
  match spec.lookup "policyTypes" with
  | some types => types.items.any fun policyType => policyType.text = direction.policyType
  | none => direction.policyType = "Ingress" || (spec.lookup direction.field).isSome

/-- A policy isolates a pod in a direction. -/
def isolates (direction : Direction) (object : List (String × Any)) (pod : Pod) : Bool :=
  selectorMatches cluster (Any.field (specOf object) "podSelector") pod.labels &&
    concerns direction (specOf object)

/-- A policy that isolates the pod has a rule that opens the port. -/
def Opened (renders : ChartRenders) (direction : Direction) (pod peer target : Pod) (port : Nat) :
    Prop :=
  ∃ object, renders.HasResource "NetworkPolicy" pod.namespaceName object ∧
    isolates cluster direction object pod = true ∧
    ∃ rule ∈ (Any.field (specOf object) direction.field).items,
      ruleOpens cluster pod.namespaceName direction.peerField rule peer target port = true

/-- The policies of the namespace of `pod` let a connection with `peer` pass: no
policy isolates the pod, or one that does opens the port. -/
def Passes (renders : ChartRenders) (direction : Direction) (pod peer target : Pod) (port : Nat) :
    Prop :=
  (∀ object, renders.HasResource "NetworkPolicy" pod.namespaceName object →
    isolates cluster direction object pod = false) ∨
  Opened cluster renders direction pod peer target port

/-- A text that the contract reads as the port is the name of that port. -/
def PortsNamed (renders : ChartRenders) (direction : Direction) (pod target : Pod) (port : Nat) :
    Prop :=
  ∀ object, renders.HasResource "NetworkPolicy" pod.namespaceName object →
    ∀ rule ∈ (Any.field (specOf object) direction.field).items,
    ∀ raw ∈ (Any.field rule.entries "ports").items, ∀ text,
      raw.entries.lookup "port" = some (.string text) →
      exactInteger (.string text) = ((port : Int), true) → cluster.namedPort target text = some port

end Network

/-! ## Authorization policies -/

section Authorization

variable (cluster : Cluster) (connection : Connection)

/-- A pattern of an authorization policy. -/
def patternMatches (pattern value : String) : Bool :=
  if pattern = "*" then value ≠ ""
  else if hasSuffix pattern "*" then hasPrefix value (trimSuffix pattern "*")
  else if hasPrefix pattern "*" then hasSuffix value (trimPrefix pattern "*")
  else value = pattern

/-- The port that a text of digits gives. -/
def portText (text : String) (port : Nat) : Bool :=
  text.toList.all Char.isDigit && atoi text = some (port : Int)

/-- One field of a source. -/
def sourceField (entry : String × Any) : Bool :=
  let listed := entry.2.items.any fun item =>
    item.text?.any fun pattern => patternMatches pattern connection.principal
  if entry.1 = "principals" then listed
  else if entry.1 = "notPrincipals" then !listed
  else cluster.otherField entry.1 entry.2 connection

/-- One field of an operation. -/
def operationField (entry : String × Any) : Bool :=
  let listed := entry.2.items.any fun item => item.text?.any fun text =>
    portText text connection.port
  if entry.1 = "ports" then listed
  else if entry.1 = "notPorts" then !listed
  else cluster.otherField entry.1 entry.2 connection

/-- A rule matches if one of its sources, one of its operations and all of its
conditions do. -/
def authorizationRuleMatches (rule : List (String × Any)) : Bool :=
  (match rule.lookup "from" with
    | none => true
    | some sources => sources.items.any fun source =>
      (Any.field source.entries "source").entries.all (sourceField cluster connection)) &&
  (match rule.lookup "to" with
    | none => true
    | some operations => operations.items.any fun operation =>
      (Any.field operation.entries "operation").entries.all
        (operationField cluster connection)) &&
  (match rule.lookup "when" with
    | none => true
    | some conditions => cluster.conditions conditions connection)

/-- A policy is about the target of the connection, and one of its rules matches. -/
def authorizationMatches (object : List (String × Any)) : Bool :=
  labelsMatch (matchLabels (specOf object) "selector") connection.target.labels &&
    (Any.field (specOf object) "rules").items.any fun rule =>
      authorizationRuleMatches cluster connection rule.entries

/-- The action of a policy, which is `ALLOW` by default. -/
def authorizationAction (object : List (String × Any)) : String :=
  let action := (Any.field (specOf object) "action").text
  if action = "" then "ALLOW" else action

/-- A policy rejects the connection. -/
def Rejects (object : List (String × Any)) : Prop :=
  authorizationMatches cluster connection object = true ∧
    (authorizationAction object = "DENY" ∨
      authorizationAction object = "CUSTOM" ∧ cluster.provider object connection = false)

/-- A policy of the target namespace allows the connection. -/
def Allowed (renders : ChartRenders) : Prop :=
  ∃ object, renders.HasResource "AuthorizationPolicy" connection.target.namespaceName object ∧
    authorizationAction object = "ALLOW" ∧ authorizationMatches cluster connection object = true

/-- The authorization policies of the target namespace permit the connection:
none rejects it, and one allows it if any policy allows something on the target. -/
def Authorized (renders : ChartRenders) : Prop :=
  (∀ object, renders.HasResource "AuthorizationPolicy" connection.target.namespaceName object →
    ¬Rejects cluster connection object) ∧
  ((∀ object, renders.HasResource "AuthorizationPolicy" connection.target.namespaceName object →
      authorizationAction object = "ALLOW" →
      labelsMatch (matchLabels (specOf object) "selector") connection.target.labels = false) ∨
    Allowed cluster connection renders)

/-- A text that the contract reads as the port has digits only, without a sign. -/
def PortsPlain (renders : ChartRenders) : Prop :=
  ∀ object, renders.HasResource "AuthorizationPolicy" connection.target.namespaceName object →
    ∀ rule ∈ (Any.field (specOf object) "rules").items,
    ∀ operation ∈ (Any.field rule.entries "to").items,
    ∀ port ∈ (Any.field (Any.field operation.entries "operation").entries "ports").items,
      atoi port.text = some (connection.port : Int) → port.text.toList.all Char.isDigit = true

/-- The connection passes all policies. -/
def Permitted (renders : ChartRenders) : Prop :=
  Passes cluster renders egress connection.source connection.target connection.target
      connection.port ∧
    Passes cluster renders ingress connection.target connection.source connection.target
      connection.port ∧
    Authorized cluster connection renders

end Authorization

/-! ## What an exact observation says about its document -/

section Exact

variable {parent : List (String × Any)} {field : String} {value : List (String × Any)}
  {key : String}

theorem lookup_of_not_hasOtherFields {permitted : List String}
    (h : hasOtherFields value permitted = false) (hkey : key ∉ permitted) :
    value.lookup key = none := by
  rw [hasOtherFields, Bool.or_eq_false_iff, any_eq_false] at h
  cases hlook : value.lookup key with
  | none => rfl
  | some found =>
    have hmem := mem_of_lookup hlook
    exact absurd (h.2 _ hmem) (by simp [hkey])

/-- A map with one permitted field has this field only. -/
theorem eq_singleton_of_not_hasOtherFields {item : Any}
    (h : hasOtherFields value [key] = false) (hlook : value.lookup key = some item) :
    value = [(key, item)] := by
  rw [hasOtherFields, Bool.or_eq_false_iff] at h
  have hlen : value.length ≤ 1 := by simpa using h.1
  have hmem := mem_of_lookup hlook
  cases value with
  | nil => cases hmem
  | cons first rest =>
    obtain rfl : rest = [] := eq_nil_of_length_eq_zero (by simpa using hlen)
    rw [mem_singleton.mp hmem]

/-- If all values are good and one good one is left, there was one value. -/
theorem eq_singleton_of_filterMap {α β : Type} {item : α → Option β} {values : List α} {only : β}
    (hsome : ∀ value ∈ values, (item value).isSome = true)
    (h : values.filterMap item = [only]) : ∃ value, values = [value] ∧ item value = some only := by
  cases values with
  | nil => cases h
  | cons value rest =>
    obtain ⟨first, hfirst⟩ := Option.isSome_iff_exists.mp (hsome value (by simp))
    rw [filterMap_cons, hfirst] at h
    obtain ⟨rfl, hrest⟩ := List.cons.inj h
    cases rest with
    | nil => exact ⟨value, rfl, hfirst⟩
    | cons next rest =>
      obtain ⟨second, hsecond⟩ := Option.isSome_iff_exists.mp (hsome next (by simp))
      rw [filterMap_cons, hsecond] at hrest
      cases hrest

/-- A good list with one item. -/
theorem lookup_of_observeList_single {α : Type} {item : Any → Option α} {only : α}
    (hpres : (observeList item parent field).present = true)
    (hvalid : (observeList item parent field).valid = true)
    (hitems : (observeList item parent field).items = [only]) :
    ∃ value, parent.lookup field = some (.list [value]) ∧ item value = some only := by
  unfold observeList at hpres hvalid hitems
  split at hvalid
  · next hnone => simp [hnone] at hpres
  · next values hvals =>
    simp only [hvals] at hitems
    split at hvalid
    · cases hvalid
    next hlen =>
    rw [if_neg hlen] at hitems
    obtain ⟨value, rfl, hval⟩ := eq_singleton_of_filterMap (all_eq_true.mp hvalid) hitems
    exact ⟨value, hvals, hval⟩
  · cases hvalid

/-- A good list with one map. -/
theorem lookup_of_observeMapList_single {β : Type} {observe : List (String × Any) → β} {only : β}
    (hpres : (observeMapList parent field).present = true)
    (hvalid : (observeMapList parent field).valid = true)
    (hitems : (observeMapList parent field).items.map observe = [only]) :
    ∃ entries, parent.lookup field = some (.list [.map entries]) ∧ observe entries = only := by
  obtain ⟨entries, rest, hcons, honly, hrest⟩ := map_eq_cons_iff.mp hitems
  obtain rfl := map_eq_nil_iff.mp hrest
  obtain ⟨value, hlook, hval⟩ := lookup_of_observeList_single hpres hvalid hcons
  obtain rfl := Any.eq_map_of_entries? hval
  exact ⟨entries, hlook, honly⟩

/-- Labels that have those of an exact selector are selected. -/
theorem selectorMatches_of_exactSelector (cluster : Cluster) {expected : List (String × String)}
    {labels : PodLabels} (h : exactSelector (observeSelector parent field) expected = true)
    (hlabels : ∀ entry ∈ expected, labels entry.1 = some entry.2) :
    ∃ selector, parent.lookup field = some selector ∧
      selectorMatches cluster selector labels = true ∧
      labelsMatch (matchLabels parent field) labels = true := by
  simp only [exactSelector, Bool.and_eq_true, decide_eq_true_eq] at h
  obtain ⟨⟨hpres, hvalid⟩, hexp⟩ := h
  obtain ⟨-, hlook, hstrings⟩ := observeSelector_labels fun _ => hvalid
  rw [hexp] at hlook
  have hmatch : labelsMatch (matchLabels parent field) labels = true := by
    refine all_eq_true.mpr fun entry hent => ?_
    -- The key of an entry has a value, which is a text that the labels have.
    obtain ⟨value, hval⟩ : ∃ value, (matchLabels parent field).lookup entry.1 = some value := by
      cases hfound : (matchLabels parent field).lookup entry.1 with
      | some value => exact ⟨value, rfl⟩
      | none => simpa using lookup_eq_none_iff.mp hfound entry hent
    obtain ⟨text, rfl⟩ := hstrings entry.1 value hval
    have hmem := mem_of_lookup (show expected.lookup entry.1 = some text by
      rw [hlook, hval]
      rfl)
    simp [hval, Any.text?, hlabels _ hmem]
  unfold observeSelector at hpres hvalid
  split at hvalid
  · next hnone => simp [hnone] at hpres
  · next selector hselector =>
    refine ⟨.map selector, hselector, ?_, hmatch⟩
    have hother : hasOtherFields selector ["matchLabels"] = false := by
      rw [← Bool.not_eq_true]
      intro hother
      rw [if_pos hother] at hvalid
      cases hvalid
    have hfield : Any.field parent field = .map selector := by
      rw [Any.field, hselector, Option.getD_some]
    rw [matchLabels, hfield] at hmatch
    rw [selectorMatches, hmatch]
    simp [Any.entries, lookup_of_not_hasOtherFields hother]
  · cases hvalid

end Exact

section Rules

variable (cluster : Cluster) {podSelector : List (String × String)} {pod : Pod}

/-- An exact peer is every pod with the labels in the namespace. -/
theorem peerMatches_of_exactNetworkPeer {peer : List (String × Any)} (policyNamespace : String)
    (h : exactNetworkPeer (observeNetworkPeer peer) pod.namespaceName podSelector = true)
    (hlabels : ∀ entry ∈ podSelector, pod.labels entry.1 = some entry.2) :
    peerMatches cluster policyNamespace peer pod = true := by
  simp only [exactNetworkPeer, observeNetworkPeer, Bool.and_eq_true, Bool.not_eq_true'] at h
  obtain ⟨⟨⟨hblock, -⟩, hns⟩, hpod⟩ := h
  have hnamed : ∀ entry ∈ [("kubernetes.io/metadata.name", pod.namespaceName)],
      cluster.namespaceLabels pod.namespaceName entry.1 = some entry.2 := by
    simp [cluster.named]
  obtain ⟨namespaceSelector, hnamespaceField, hnamespaceMatches, -⟩ :=
    selectorMatches_of_exactSelector cluster hns hnamed
  obtain ⟨selector, hfield, hmatches, -⟩ := selectorMatches_of_exactSelector cluster hpod hlabels
  have hnone : peer.lookup "ipBlock" = none := by simpa using hblock
  simp [peerMatches, hnone, hnamespaceField, hnamespaceMatches, hfield, hmatches]

variable {port : Nat}

/-- An exact port is the port, if a text that is read as the port is its name. -/
theorem portMatches_of_exact {raw : List (String × Any)} (target : Pod)
    (h : observeNetworkPort raw = { port, portValid := true, protocol := "TCP",
                                    protocolPresent := true, protocolValid := true })
    (hnamed : ∀ text, raw.lookup "port" = some (.string text) →
      exactInteger (.string text) = ((port : Int), true) →
      cluster.namedPort target text = some port) :
    portMatches cluster raw target port = true := by
  simp only [observeNetworkPort, NetworkPortObservation.mk.injEq, Bool.and_eq_true] at h
  obtain ⟨hport, ⟨hpres, hgood⟩, hprotocol, hprotocolPresent, -, hother⟩ := h
  obtain ⟨value, hval⟩ := Option.isSome_iff_exists.mp hpres
  rw [Any.field, hval, Option.getD_some] at hport hgood
  have hend : raw.lookup "endPort" = none := lookup_of_not_hasOtherFields hother (by decide)
  have hprotocolText : ((raw.lookup "protocol").getD (.string "TCP")).text = "TCP" := by
    cases hfound : raw.lookup "protocol" with
    | none => rfl
    | some protocol =>
      rw [Any.field, hfound, Option.getD_some] at hprotocol
      exact hprotocol
  have hinteger : exactInteger value = ((port : Int), true) := Prod.ext hport hgood
  rw [portMatches, hprotocolText, hval, hend]
  cases value with
  | string text => simpa using hnamed text hval hinteger
  | _ => simpa using hinteger

variable {rule : List (String × Any)}

/-- The exact rule opens the port to every pod with the labels in the namespace. -/
theorem ruleOpens_of_exactNetworkRule (policyNamespace : String) {peerField : String} (target : Pod)
    (h : exactNetworkRule (observeNetworkRule peerField rule) pod.namespaceName podSelector port =
      true) (hlabels : ∀ entry ∈ podSelector, pod.labels entry.1 = some entry.2)
    (hnamed : ∀ raw ∈ (Any.field rule "ports").items, ∀ text,
      raw.entries.lookup "port" = some (.string text) →
      exactInteger (.string text) = ((port : Int), true) →
      cluster.namedPort target text = some port) :
    ruleOpens cluster policyNamespace peerField (.map rule) pod target port = true := by
  simp only [exactNetworkRule, observeNetworkRule, Bool.and_eq_true, Bool.not_eq_true'] at h
  obtain ⟨⟨⟨⟨⟨⟨-, hpeersPresent⟩, hpeersValid⟩, hpeers⟩, hportsPresent⟩, hportsValid⟩, hports⟩ := h
  split at hpeers
  · next only honly =>
    obtain ⟨peer, hpeerField, rfl⟩ :=
      lookup_of_observeMapList_single hpeersPresent hpeersValid honly
    obtain ⟨raw, hrawField, hraw⟩ :=
      lookup_of_observeMapList_single hportsPresent hportsValid (of_decide_eq_true hports)
    have hportField : (Any.field rule "ports").items = [.map raw] := by
      rw [Any.field, hrawField]
      rfl
    have hpeer := peerMatches_of_exactNetworkPeer cluster policyNamespace hpeers hlabels
    have hport := portMatches_of_exact cluster target hraw
      fun text htext => hnamed (.map raw) (by simp [hportField]) text htext
    simp [ruleOpens, Any.field, Any.entries, hpeerField, hrawField, Any.items, hpeer, hport]
  · cases hpeers

/-- The expected rule matches a connection of its principal to its port. -/
theorem authorizationRuleMatches_of_expected {connection : Connection}
    (h : observeAuthorizationRule rule =
      expectedAuthorizationRule connection.principal connection.port)
    (hpattern : patternMatches connection.principal connection.principal = true)
    (hplain : ∀ operation ∈ (Any.field rule "to").items,
      ∀ port ∈ (Any.field (Any.field operation.entries "operation").entries "ports").items,
        atoi port.text = some (connection.port : Int) →
          port.text.toList.all Char.isDigit = true) :
    authorizationRuleMatches cluster connection rule = true := by
  simp only [observeAuthorizationRule, expectedAuthorizationRule,
    AuthorizationRuleObservation.mk.injEq] at h
  obtain ⟨hfromPresent, hfromValid, hsources, htoPresent, htoValid, hoperations, hother⟩ := h
  obtain ⟨source, hfrom, hsrc⟩ :=
    lookup_of_observeMapList_single hfromPresent hfromValid hsources
  obtain ⟨operation, hto, hoperation⟩ :=
    lookup_of_observeMapList_single htoPresent htoValid hoperations
  have hwhen : rule.lookup "when" = none := lookup_of_not_hasOtherFields hother (by decide)
  have hsourceMatches : (Any.field source "source").entries.all
      (sourceField cluster connection) = true := by
    simp only [observeAuthorizationSource, AuthorizationSourceObservation.mk.injEq,
      Bool.or_eq_false_iff] at hsrc
    obtain ⟨hpres, hgood, hprincipals, ⟨hsome, -⟩, honly⟩ := hsrc
    obtain ⟨entries, hents⟩ := Option.isSome_iff_exists.mp (by simpa using hsome)
    rw [hents, Option.getD_some] at hpres hgood hprincipals honly
    obtain ⟨value, hfield, hval⟩ := lookup_of_observeList_single hpres hgood hprincipals
    obtain rfl := eq_singleton_of_not_hasOtherFields honly hfield
    have htext := Option.eq_some_of_filter_eq_some hval
    rw [Any.eq_map_of_entries? hents]
    simp [Any.entries, sourceField, Any.items, htext, hpattern]
  have hoperationMatches : (Any.field operation "operation").entries.all
      (operationField cluster connection) = true := by
    simp only [observeAuthorizationOperation, AuthorizationOperationObservation.mk.injEq,
      Bool.or_eq_false_iff, Bool.and_eq_true] at hoperation
    obtain ⟨hpres, ⟨hgood, hports⟩, hnums, ⟨hsome, -⟩, honly⟩ := hoperation
    obtain ⟨entries, hents⟩ := Option.isSome_iff_exists.mp (by simpa using hsome)
    rw [hents, Option.getD_some] at hpres hgood hports hnums honly
    obtain ⟨text, htexts, hnum⟩ :=
      eq_singleton_of_filterMap (all_eq_true.mp hports) hnums
    obtain ⟨value, hfield, hval⟩ := lookup_of_observeList_single hpres hgood htexts
    obtain rfl := eq_singleton_of_not_hasOtherFields honly hfield
    have htext := Option.eq_some_of_filter_eq_some hval
    have hatoi := Option.eq_some_of_filter_eq_some hnum
    have hmap := Any.eq_map_of_entries? hents
    have hdigits : text.toList.all Char.isDigit = true := by
      have hmem : value ∈ (Any.field (Any.field operation "operation").entries "ports").items := by
        rw [hmap]
        simp [Any.entries, Any.field, Any.items]
      have hport := hplain (.map operation) (by simp [Any.field, hto, Any.items]) value hmem
      rw [Any.text, htext, Option.getD_some] at hport
      exact hport hatoi
    rw [hmap]
    simp [Any.entries, operationField, Any.items, htext, portText, hatoi, hdigits]
  simp only [authorizationRuleMatches, hfrom, hto, hwhen, Any.items, any_cons, any_nil,
    Any.entries, Bool.or_false, Bool.and_true, Bool.and_eq_true]
  exact ⟨hsourceMatches, hoperationMatches⟩

/-- With a policy that has the exact selector and rule, a connection passes if the texts
of ports are names, or if a rule opens the port anyway. -/
theorem passes_iff_of_exact {renders : ChartRenders} {direction : Direction}
    {object : List (String × Any)} {peer : Pod} (target : Pod) {own other : List (String × String)}
    (hobj : renders.HasResource "NetworkPolicy" pod.namespaceName object)
    (hselector : exactSelector (observeSelector (specOf object) "podSelector") own = true)
    (hown : ∀ entry ∈ own, pod.labels entry.1 = some entry.2)
    (htypesPresent : (observeStringList (specOf object) "policyTypes").present = true)
    (htypesValid : (observeStringList (specOf object) "policyTypes").valid = true)
    (htypes : (observeStringList (specOf object) "policyTypes").items = [direction.policyType])
    (hrulesPresent : (observeMapList (specOf object) direction.field).present = true)
    (hrulesValid : (observeMapList (specOf object) direction.field).valid = true)
    (hrule : soleNetworkRule ((observeMapList (specOf object) direction.field).items.map
      (observeNetworkRule direction.peerField)) peer.namespaceName other port = true)
    (hother : ∀ entry ∈ other, peer.labels entry.1 = some entry.2) :
    Passes cluster renders direction pod peer target port ↔
      PortsNamed cluster renders direction pod target port ∨
        Opened cluster renders direction pod peer target port := by
  obtain ⟨selector, hfield, hselects, -⟩ := selectorMatches_of_exactSelector cluster hselector hown
  obtain ⟨policyType, htypesField, hpolicyType⟩ :=
    lookup_of_observeList_single htypesPresent htypesValid htypes
  have hisolates : isolates cluster direction object pod = true := by
    simp [isolates, concerns, Any.field, hfield, hselects, htypesField, Any.items,
      text_of_boundedText hpolicyType]
  unfold soleNetworkRule at hrule
  split at hrule
  · next only honly =>
    obtain ⟨rule, hruleField, rfl⟩ :=
      lookup_of_observeMapList_single hrulesPresent hrulesValid honly
    have hitems : (Any.field (specOf object) direction.field).items = [.map rule] := by
      rw [Any.field, hruleField]
      rfl
    have hmem : Any.map rule ∈ (Any.field (specOf object) direction.field).items := by
      simp [hitems]
    constructor
    · rintro (hfree | hopened)
      · exact absurd hisolates (by simp [hfree object hobj])
      · exact .inr hopened
    · rintro (hnamed | hopened)
      · exact .inr ⟨object, hobj, hisolates, .map rule, hmem,
          ruleOpens_of_exactNetworkRule cluster pod.namespaceName target hrule hother
            (hnamed object hobj (.map rule) hmem)⟩
      · exact .inr hopened
  · cases hrule

end Rules

/-! ## The log path -/

/-- The connection of the log path. -/
structure LogConnection (connection : Connection) : Prop where
  source : connection.source.namespaceName = "fluentbit"
  sourceLabels : ∀ entry ∈ selectedFluentBitLabels,
    connection.source.labels entry.1 = some entry.2
  serviceAccount : connection.serviceAccount = "fluentbit-fluent-bit"
  target : connection.target.namespaceName = "opensearch"
  targetLabels : ∀ entry ∈ selectedOpenSearchLabels,
    connection.target.labels entry.1 = some entry.2
  port : connection.port = 9200

/-- Fluent Bit has the identity that the contract expects. -/
theorem LogConnection.principal {connection : Connection} (hlog : LogConnection connection) :
    connection.principal = "cluster.local/ns/fluentbit/sa/fluentbit-fluent-bit" := by
  show "cluster.local/ns/" ++ connection.source.namespaceName ++ "/sa/" ++
    connection.serviceAccount = _
  rw [hlog.source, hlog.serviceAccount]
  decide +kernel

section LogPath

variable {renders : ChartRenders} {projection : OpenSearchMeshProjection} {connection : Connection}

/-- A network policy of the projection is rendered. -/
theorem rendered_of_selectedNetwork {selection : Selection} {expected : RenderedResource}
    (hsame : selection.same = fun resource => sameResourceIdentity resource expected)
    (hproj : projectOpenSearchMesh renders.inspections = .ok projection)
    {selected : Attributed NetworkPolicyObservation}
    (h : selection.selectOne NetworkPolicyObservation.resource projection.networkPolicies =
      .ok selected) :
    ∃ object resource, selected.value = observeNetworkPolicy resource (specOf object) ∧
      renders.HasResource expected.kind expected.namespaceName object := by
  obtain ⟨hmem, hfits, -⟩ := Selection.selectOne_ok h
  obtain ⟨object, resource, hrend, hobs⟩ :=
    (networkObserver.sees_projection hproj).1 selected hmem
  obtain ⟨-, heq⟩ := Option.ite_none_right_eq_some.mp hobs
  have hval := Option.some.inj heq
  rw [hsame, ← hval] at hfits
  simp only [sameResourceIdentity, Bool.and_eq_true, decide_eq_true_eq] at hfits
  exact ⟨object, resource, hval.symm, _, resource, hrend, hfits.1.1.2, hfits.1.2⟩

/-- The policy of Fluent Bit opens the way out, if its port is read as it is meant. -/
theorem egress_passes_iff (cluster : Cluster)
    (hproj : projectOpenSearchMesh renders.inspections = .ok projection)
    (h : fluentEgressFailure projection selectedFluentBitLabels selectedOpenSearchLabels 9200 =
      .ok ()) (hlog : LogConnection connection) :
    Passes cluster renders egress connection.source connection.target connection.target
        connection.port ↔
      PortsNamed cluster renders egress connection.source connection.target connection.port ∨
        Opened cluster renders egress connection.source connection.target connection.target
          connection.port := by
  obtain ⟨selected, hsel, h⟩ := bind_eq_ok.mp h
  obtain ⟨object, resource, hval, hobj⟩ :=
    rendered_of_selectedNetwork rfl hproj hsel
  rw [hval] at h
  obtain ⟨hselector, h⟩ := ite_throw_bind_eq_ok.mp h
  obtain ⟨htypes, h⟩ := ite_throw_bind_eq_ok.mp h
  obtain ⟨hrules, h⟩ := ite_throw_bind_eq_ok.mp h
  obtain ⟨hrule, -⟩ := ite_throw_eq_ok.mp h
  simp only [Bool.or_eq_true, Bool.not_eq_true', not_or, Bool.not_eq_false, decide_eq_true_eq,
    ne_eq, not_not] at hselector htypes hrules hrule
  rw [hlog.port]
  refine passes_iff_of_exact cluster connection.target ?_ hselector hlog.sourceLabels
    htypes.1.1.1 htypes.1.1.2 htypes.1.2 hrules.1 hrules.2 ?_ hlog.targetLabels
  · rw [hlog.source]
    exact hobj
  · rw [hlog.target]
    exact hrule

/-- The policy of OpenSearch opens the way in, if its port is read as it is meant. -/
theorem ingress_passes_iff (cluster : Cluster)
    (hproj : projectOpenSearchMesh renders.inspections = .ok projection)
    (h : openSearchIngressFailure projection selectedOpenSearchLabels selectedFluentBitLabels 9200 =
      .ok ()) (hlog : LogConnection connection) :
    Passes cluster renders ingress connection.target connection.source connection.target
        connection.port ↔
      PortsNamed cluster renders ingress connection.target connection.target connection.port ∨
        Opened cluster renders ingress connection.target connection.source connection.target
          connection.port := by
  obtain ⟨selected, hsel, h⟩ := bind_eq_ok.mp h
  obtain ⟨object, resource, hval, hobj⟩ :=
    rendered_of_selectedNetwork rfl hproj hsel
  rw [hval] at h
  obtain ⟨h, -⟩ := ite_throw_eq_ok.mp h
  simp only [Bool.or_eq_true, Bool.not_eq_true', not_or, Bool.not_eq_false, decide_eq_true_eq,
    ne_eq, not_not] at h
  obtain ⟨⟨⟨⟨⟨⟨⟨hselector, htypesPresent⟩, htypesValid⟩, htypes⟩, hrulesPresent⟩, hrulesValid⟩, -⟩,
    hrule⟩ := h
  rw [hlog.port]
  refine passes_iff_of_exact cluster connection.target ?_ hselector hlog.targetLabels
    htypesPresent htypesValid htypes hrulesPresent hrulesValid ?_ hlog.sourceLabels
  · rw [hlog.target]
    exact hobj
  · rw [hlog.source]
    exact hrule

/-- The policy of OpenSearch is about the target, and it allows the connection if its port
is read as it is meant. -/
theorem authorized_iff (cluster : Cluster)
    (hproj : projectOpenSearchMesh renders.inspections = .ok projection)
    (h : authorizationPathFailure projection selectedOpenSearchLabels
      "cluster.local/ns/fluentbit/sa/fluentbit-fluent-bit" 9200 = .ok ())
    (hlog : LogConnection connection) :
    Authorized cluster connection renders ↔
      (∀ object, renders.HasResource "AuthorizationPolicy" "opensearch" object →
        ¬Rejects cluster connection object) ∧
      (PortsPlain connection renders ∨ Allowed cluster connection renders) := by
  obtain ⟨selected, hsel, h⟩ := bind_eq_ok.mp h
  obtain ⟨hmem, hsame, -⟩ := Selection.selectOne_ok hsel
  obtain ⟨object, resource, hrend, hobs⟩ :=
    (authorizationObserver.sees_projection hproj).1 selected hmem
  obtain ⟨hkind, heq⟩ := Option.ite_none_right_eq_some.mp hobs
  have hval := Option.some.inj heq
  have hobj : renders.HasResource "AuthorizationPolicy" "opensearch" object :=
    ⟨_, resource, hrend, hkind⟩
  rw [← hval] at h
  obtain ⟨h, -⟩ := ite_throw_eq_ok.mp h
  simp only [Bool.or_eq_true, Bool.not_eq_true', not_or, Bool.not_eq_false, decide_eq_true_eq,
    ne_eq, not_not] at h
  obtain ⟨⟨⟨⟨⟨-, hrulesPresent⟩, hrulesValid⟩, haction⟩, hselector⟩, hrules⟩ := h
  have hprincipal := hlog.principal
  have hpattern : patternMatches connection.principal connection.principal = true := by
    rewrite [hprincipal]
    decide +kernel
  obtain ⟨rule, hruleField, hrule⟩ :=
    lookup_of_observeMapList_single hrulesPresent hrulesValid hrules
  have hitems : (Any.field (specOf object) "rules").items = [.map rule] := by
    rw [Any.field, hruleField]
    rfl
  obtain ⟨selector, -, -, hlabels⟩ :=
    selectorMatches_of_exactSelector cluster hselector hlog.targetLabels
  have haction : authorizationAction object = "ALLOW" := by
    have haction : (Any.field (specOf object) "action").text = "ALLOW" := haction
    simp [authorizationAction, haction]
  rw [← hlog.target] at hobj ⊢
  have hallows : PortsPlain connection renders → Allowed cluster connection renders := by
    intro hplain
    have hmatches : authorizationRuleMatches cluster connection rule = true := by
      refine authorizationRuleMatches_of_expected cluster ?_ hpattern
        (hplain object hobj (.map rule) (by simp [hitems]))
      rewrite [hrule, hprincipal, hlog.port]
      rfl
    refine ⟨object, hobj, haction, ?_⟩
    rw [authorizationMatches, hlabels, hitems]
    simp [Any.entries, hmatches]
  refine and_congr_right fun _ => ⟨?_, fun h => .inr (h.elim hallows id)⟩
  rintro (hnone | hallowed)
  · exact absurd hlabels (by simp [hnone object hobj haction])
  · exact .inr hallowed

end LogPath

section Sample

/-- The rendered objects of a kind. -/
def ChartRenders.objects (renders : ChartRenders) (kind : String) : List (List (String × Any)) :=
  renders.artifacts.flatMap fun entry => entry.2.releases.flatMap fun release =>
    release.managed.filterMap fun document =>
      document.1.entries?.filter fun object => (Any.field object "kind").text = kind

variable {renders : ChartRenders}

theorem ChartRenders.HasResource.mem_objects {kind namespaceName : String}
    {object : List (String × Any)} (h : renders.HasResource kind namespaceName object) :
    object ∈ renders.objects kind := by
  obtain ⟨artifact, resource, ⟨render, hrender, release, hrel, -, path, path', hmem, rfl⟩,
    hkind, -⟩ := h
  refine mem_flatMap.mpr ⟨_, hrender, mem_flatMap.mpr ⟨release, hrel, ?_⟩⟩
  refine mem_filterMap.mpr ⟨_, hmem, ?_⟩
  exact Option.filter_eq_some_iff.mpr ⟨rfl, decide_eq_true hkind⟩

/-- Ports that are no texts need no names. -/
theorem portsNamed_of_objects (cluster : Cluster) {direction : Direction} {pod target : Pod}
    {port : Nat}
    (h : ∀ object ∈ renders.objects "NetworkPolicy",
      ∀ rule ∈ (Any.field (specOf object) direction.field).items,
      ∀ raw ∈ (Any.field rule.entries "ports").items, (Any.field raw.entries "port").text? = none) :
    PortsNamed cluster renders direction pod target port := by
  intro object hobj rule hrule raw hraw text htext
  have hnone := h object hobj.mem_objects rule hrule raw hraw
  rw [Any.field, htext] at hnone
  cases hnone

/-- A cluster in which nothing beyond labels, principals and ports matches. -/
def plainCluster : Cluster where
  namespaceLabels name key := if key = "kubernetes.io/metadata.name" then some name else none
  named _ := if_pos rfl
  expressions _ _ := false
  ipBlock _ _ := false
  namedPort _ _ := none
  otherField _ _ _ := false
  conditions _ _ := false
  provider _ _ := false

/-- A connection between pods that have the selected labels only. -/
def logConnection : Connection where
  source :=
    { namespaceName := "fluentbit", labels := fun key => selectedFluentBitLabels.lookup key }
  serviceAccount := "fluentbit-fluent-bit"
  target :=
    { namespaceName := "opensearch", labels := fun key => selectedOpenSearchLabels.lookup key }
  port := 9200

theorem logConnection_selected : LogConnection logConnection where
  source := rfl
  sourceLabels := by decide +kernel
  serviceAccount := rfl
  target := rfl
  targetLabels := by decide +kernel
  port := rfl

/-- A policy that denies everything on port 9200. -/
def denyingPolicy : Any :=
  resourceValue "security.istio.io/v1" "AuthorizationPolicy" "opensearch" "deny-clients"
    [("action", .string "DENY"), ("rules", .list [.map [("to", .list [.map [("operation",
        .map [("ports", .list [.string "9200"])])]])]])]

theorem hasResource_denyingPolicy :
    (sampleRenders [denyingPolicy]).HasResource "AuthorizationPolicy" "opensearch"
      denyingPolicy.entries := by
  have hdoc : (denyingPolicy, 3) ∈ (wrapperDocuments ++ [denyingPolicy]).zipIdx := by
    simp [wrapperDocuments]
  refine ⟨"wrapper/wrapper", _, ⟨_, mem_cons_of_mem _ mem_cons_self, _,
    mem_singleton.mpr rfl, ?_, _, "", mem_filter.mpr ⟨mem_map.mpr
      ⟨_, hdoc, rfl⟩, ?_⟩, rfl⟩, ?_, ?_⟩
  · decide +kernel
  · decide +kernel
  · decide +kernel
  · decide +kernel

end Sample

end Atum.Mesh
