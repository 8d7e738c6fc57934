import Atum.Mesh.Renders

/-!
# The mutual TLS mode of the OpenSearch pods

The service mesh takes the mode of a port from the oldest policy that selects the
pod, then from the mode of this policy, then from the oldest policy of the whole
namespace, and last from the mesh; a mode that is unset inherits from the next one.
`effectiveMode` is this precedence over the rendered documents in their order of
creation.

`strictPeerFailure` compares selectors with two labels only, so a policy that
selects the pod by another label is not looked at.  The main result says for which
renders the accepted contract still means that port 9200 is strict.
-/

namespace Atum.Mesh

open Atum.Go List

/-! ## The precedence of the mesh -/

/-- The labels of a pod. -/
abbrev PodLabels := String → Option String

/-- The labels that a selector asks for. -/
def matchLabels (parent : List (String × Any)) (field : String) : List (String × Any) :=
  (Any.field (Any.field parent field).entries "matchLabels").entries

/-- The pod has the labels. -/
def labelsMatch (labels : List (String × Any)) (pod : PodLabels) : Bool :=
  labels.all fun entry =>
    match (labels.lookup entry.1).bind Any.text? with
    | some text => pod entry.1 = some text
    | none => false

/-- A policy of the whole namespace. -/
def namespaceWide (object : List (String × Any)) : Bool :=
  (matchLabels (specOf object) "selector").isEmpty

/-- A policy that selects the pod. -/
def selectsPod (pod : PodLabels) (object : List (String × Any)) : Bool :=
  !namespaceWide object && labelsMatch (matchLabels (specOf object) "selector") pod

/-- A mode that is set. -/
def setMode (mtls : Any) : Option String :=
  let mode := (Any.field mtls.entries "mode").text
  if mode = "" ∨ mode = "UNSET" then none else some mode

def peerMode (object : List (String × Any)) : Option String :=
  setMode (Any.field (specOf object) "mtls")

def portMode (port : Nat) (object : List (String × Any)) : Option String :=
  setMode (Any.field (Any.field (specOf object) "portLevelMtls").entries (toString port))

/-- The mode of a port.  The policies of the namespace come in their order of
creation, and `mesh` is the mode of the mesh. -/
def effectiveMode (mesh : String) (policies : List (List (String × Any))) (pod : PodLabels)
    (port : Nat) : String :=
  let workload := policies.find? (selectsPod pod)
  let namespaceMode := ((policies.find? namespaceWide).bind peerMode).getD mesh
  let workloadMode := (workload.bind peerMode).getD namespaceMode
  (workload.bind (portMode port)).getD workloadMode

/-- A `PeerAuthentication` of the namespace. -/
def isPeer (resource : RenderedResource) : Prop :=
  resource.kind = "PeerAuthentication" ∧ resource.namespaceName = "opensearch"

instance (resource : RenderedResource) : Decidable (isPeer resource) :=
  inferInstanceAs (Decidable (_ ∧ _))

/-- The policies of the namespace that are rendered. -/
def ChartRenders.peers (renders : ChartRenders) : List (List (String × Any)) :=
  renders.artifacts.flatMap fun entry => entry.2.releases.flatMap fun release =>
    release.managed.filterMap fun document => do
      let object ← document.1.entries?
      let resource := resourceOf object document.2 release.namespaceName
      if resource.name ≠ "" ∧ isPeer resource then some object else none

/-! ## What the contract does not look at -/

/-- The selector of a policy asks for nothing that the two selected labels do not
have. -/
def Agrees (object : List (String × Any)) : Prop :=
  ∀ key value, (matchLabels (specOf object) "selector").lookup key = some value →
    (selectedOpenSearchLabels.lookup key).getD "" = value.text

/-- A policy that the contract does not check. -/
def Unchecked (artifact : String) (object : List (String × Any)) : Prop :=
  artifact ∉ selectedMeshArtifactIDs ∨ ¬Agrees object

/-- A policy that does not weaken a port. -/
def KeepsStrict (port : Nat) (object : List (String × Any)) : Prop :=
  ∀ mode, (portMode port object).or (peerMode object) = some mode → mode = "STRICT"

/-- A policy that leaves the mode of a port to the namespace. -/
def Inherits (port : Nat) (object : List (String × Any)) : Prop :=
  (portMode port object).or (peerMode object) = none

/-! ## Selectors -/

theorem stringMap_ok {source : List (String × Any)} {labels : List (String × String)}
    (h : stringMap source = some labels) : SortedAssoc.Sorted labels ∧
      (∀ key, labels.lookup key = (source.lookup key).bind Any.text?) ∧
      ∀ key value, source.lookup key = some value → ∃ text, value = .string text := by
  induction source generalizing labels with
  | nil =>
    cases h
    exact ⟨List.Pairwise.nil, by simp, by simp⟩
  | cons entry rest ih =>
    obtain ⟨first, value⟩ := entry
    simp only [stringMap, Option.bind_eq_bind, Option.bind_eq_some_iff] at h
    obtain ⟨text, htext, others, hothers, h⟩ := h
    obtain ⟨-, heq⟩ := Option.ite_none_right_eq_some.mp h
    cases heq
    obtain ⟨hsorted, hlook, hstrings⟩ := ih hothers
    have hval : value = .string text := by
      cases value with
      | string other => rw [Option.some.inj htext]
      | _ => cases htext
    refine ⟨hsorted.insert first text, fun key => ?_, fun key other hkey => ?_⟩
    · rw [SortedAssoc.lookup_insert, lookup_cons]
      by_cases hkey : key = first
      · simp [hkey, htext]
      · have hne : (key == first) = false := by simpa using hkey
        simp [hkey, hne, hlook]
    rw [lookup_cons] at hkey
    split at hkey
    · cases hkey
      exact ⟨text, hval⟩
    · exact hstrings key other hkey

/-- The labels of a selector that is absent or good. -/
theorem observeSelector_labels {parent : List (String × Any)} {field : String}
    (h : (observeSelector parent field).present = true →
      (observeSelector parent field).valid = true) :
    SortedAssoc.Sorted (observeSelector parent field).labels ∧
      (∀ key, (observeSelector parent field).labels.lookup key =
        ((matchLabels parent field).lookup key).bind Any.text?) ∧
      ∀ key value, (matchLabels parent field).lookup key = some value →
        ∃ text, value = .string text := by
  have hnil : SortedAssoc.Sorted ([] : List (String × String)) := List.Pairwise.nil
  unfold observeSelector at h ⊢
  unfold matchLabels
  split
  · next hnone => exact ⟨hnil, by simp [Any.field, hnone, Any.entries]⟩
  · next selector hselector =>
    simp only [hselector] at h
    have hfield : (Any.field parent field).entries = selector := by
      simp [Any.field, hselector, Any.entries]
    rw [hfield]
    split
    · next hother =>
      rw [if_pos hother] at h
      exact absurd (h rfl) (by simp)
    next hother =>
    rw [if_neg hother] at h
    split
    · next hlen =>
      obtain rfl := eq_nil_of_length_eq_zero hlen
      exact ⟨hnil, by simp [Any.field, Any.entries]⟩
    next hlen =>
    rw [if_neg hlen] at h
    split
    · next hlabels =>
      rw [hlabels] at h
      exact absurd (h rfl) (by simp)
    next labels hlabels =>
    simp only [exactStringMap, boundedStringMap, Option.bind_eq_bind,
      Option.bind_eq_some_iff] at hlabels
    obtain ⟨source, hsrc, hlabels⟩ := hlabels
    obtain ⟨-, hlabels⟩ := Option.ite_none_left_eq_some.mp hlabels
    rw [Any.eq_map_of_entries? hsrc]
    exact stringMap_ok hlabels
  · next value hnot hval =>
    cases value with
    | map entries => exact absurd rfl (hnot entries)
    | _ => simp [hval] at h

/-! ## What the loop has checked -/

/-- What the loop demands of a policy of the namespace. -/
structure PassedPeer (workloadLabels : List (String × String)) (port : Int)
    (peer : PeerAuthenticationObservation) : Prop where
  mode : peer.modeValid = true
  ports : peer.portsValid = true
  selector : peer.selector.present = true → peer.selector.valid = true
  strict : (peer.selector.present = true → selectorApplies peer.selector workloadLabels = true) →
    peer.mode ≠ "PERMISSIVE" ∧ peer.mode ≠ "DISABLE" ∧ ∀ portMode ∈ peer.portModes,
      portMode.port = port → portMode.mode = "STRICT" ∨ portMode.mode = "UNSET"

/-- The policy that the contract selects. -/
def SelectedPeer (expected : AttributedResource)
    (observed : Attributed PeerAuthenticationObservation) : Prop :=
  sameResourceIdentity observed.value.resource expected.resource = true ∧
    observed.value.selector.present = false ∧ observed.value.mode = "STRICT"

/-- What a run of the loop over the policies shows, if it has counted so many selected
policies before. -/
structure PassedPeers (expected : AttributedResource) (workloadLabels : List (String × String))
    (port : Int) (selectedCount : Nat) (peers : List (Attributed PeerAuthenticationObservation)) :
    Prop where
  passed : ∀ observed ∈ peers,
    observed.value.resource.namespaceName = expected.resource.namespaceName →
      PassedPeer workloadLabels port observed.value
  selected : selectedCount = 0 → ∃ observed ∈ peers, SelectedPeer expected observed

section Loop

variable {expected : AttributedResource} {workloadLabels : List (String × String)} {port : Int}

theorem PassedPeers.cons {observed : Attributed PeerAuthenticationObservation}
    {rest : List (Attributed PeerAuthenticationObservation)} {count selectedCount : Nat}
    (h : PassedPeers expected workloadLabels port count rest)
    (hpassed : observed.value.resource.namespaceName = expected.resource.namespaceName →
      PassedPeer workloadLabels port observed.value)
    (hfirst : selectedCount = 0 → count = 0 ∨ SelectedPeer expected observed) :
    PassedPeers expected workloadLabels port selectedCount (observed :: rest) := by
  refine ⟨forall_mem_cons.mpr ⟨hpassed, h.passed⟩, fun hzero => ?_⟩
  rcases hfirst hzero with hnone | hfound
  · obtain ⟨other, hother, hfound⟩ := h.selected hnone
    exact ⟨other, by simp [hother], hfound⟩
  · exact ⟨observed, by simp, hfound⟩

theorem strictPeerLoop_ok :
    ∀ {peers : List (Attributed PeerAuthenticationObservation)} {selectedCount : Nat}
      {lookalike : AttributedResource},
      strictPeerLoop expected workloadLabels port selectedCount lookalike peers = .ok () →
      PassedPeers expected workloadLabels port selectedCount peers := by
  intro peers
  induction peers with
  | nil =>
    intro selectedCount lookalike h
    rw [strictPeerLoop] at h
    split at h
    · cases h
    · next hcount => exact ⟨by simp, fun hzero => absurd hzero hcount⟩
  | cons observed rest ih =>
    intro selectedCount lookalike h
    simp only [strictPeerLoop] at h
    split at h
    · next hns => exact (ih h).cons (fun heq => absurd heq hns) .inl
    split at h
    · cases h
    next hvalid =>
    simp only [Bool.or_eq_true, Bool.not_eq_true', Bool.and_eq_true, not_or, not_and,
      Bool.not_eq_false] at hvalid
    obtain ⟨⟨hmode, hports⟩, hselector⟩ := hvalid
    generalize hcount : (if sameResourceIdentity observed.value.resource expected.resource = true
      then selectedCount + 1 else selectedCount) = count at h
    split at h
    · cases h
    split at h
    · cases h
    split at h
    · cases h
    next hstrict =>
    -- The selected policy is the first one that counts.
    have hfirst : selectedCount = 0 → count = 0 ∨ SelectedPeer expected observed := by
      intro hzero
      cases hsame : sameResourceIdentity observed.value.resource expected.resource with
      | false => exact .inl (by simp [← hcount, hsame, hzero])
      | true =>
        simp only [hsame, Bool.true_and, Bool.or_eq_true, decide_eq_true_eq, not_or,
          Bool.not_eq_true, ne_eq, not_not] at hstrict
        exact .inr ⟨hsame, hstrict⟩
    split at h
    · next hskipped =>
      rw [Bool.and_eq_true] at hskipped
      refine (ih h).cons (fun _ => ⟨hmode, hports, hselector, fun happlies => ?_⟩) hfirst
      rw [happlies hskipped.1] at hskipped
      cases hskipped.2
    split at h
    · cases h
    next hweak =>
    split at h
    · cases h
    next hweakPort =>
    rw [not_or] at hweak
    refine (ih h).cons
      (fun _ => ⟨hmode, hports, hselector, fun _ => ⟨hweak.1, hweak.2, ?_⟩⟩) hfirst
    intro portMode hmem hport
    by_contra hmodes
    rw [not_or] at hmodes
    exact hweakPort (any_eq_true.mpr ⟨portMode, hmem, by simp [hport, hmodes]⟩)

end Loop

/-! ## From observations to documents -/

theorem text_of_boundedText {value : Any} {text : String} (h : boundedText value = some text) :
    value.text = text := by
  obtain ⟨htext, -⟩ := Option.filter_eq_some_iff.mp h
  rw [Any.text, htext, Option.getD_some]

/-- The mode of a map with a good mode. -/
theorem setMode_of_observedMTLSMode {mtls : List (String × Any)} {mode : String}
    (h : observedMTLSMode mtls = (mode, true)) :
    setMode (.map mtls) = (if mode = "UNSET" then none else some mode) ∧
      mode ∈ ["UNSET", "DISABLE", "PERMISSIVE", "STRICT"] := by
  unfold observedMTLSMode at h
  split at h
  · cases h
  split at h
  · cases h
  next text htext =>
  obtain ⟨rfl, hmode⟩ := Prod.mk.inj h
  rw [contains_iff_mem] at hmode
  have hne : text ≠ "" := by
    rintro rfl
    simp at hmode
  simp [setMode, Any.entries, text_of_boundedText htext, hne, hmode]

section Observed

variable {resource : RenderedResource} {object : List (String × Any)}

/-- A good policy sets no mode, or the one that is observed. -/
theorem peerMode_of_valid
    (h : (observePeerAuthentication resource (specOf object)).modeValid = true) {mode : String}
    (hmode : peerMode object = some mode) :
    mode = (observePeerAuthentication resource (specOf object)).mode ∧
      mode ∈ ["DISABLE", "PERMISSIVE", "STRICT"] := by
  simp only [observePeerAuthentication] at h ⊢
  unfold peerMode at hmode
  split at h
  · next hnone =>
    simp [Any.field, hnone, setMode, Any.entries, Any.text, Any.text?] at hmode
  · next mtls hmtls =>
    have hobs : observedMTLSMode mtls = ((observedMTLSMode mtls).1, true) := Prod.ext rfl h
    obtain ⟨hset, hmem⟩ := setMode_of_observedMTLSMode hobs
    rw [Any.field, hmtls, Option.getD_some, hset] at hmode
    split at hmode
    · cases hmode
    · next hunset =>
      cases hmode
      exact ⟨rfl, by simpa [hunset] using hmem⟩
  · cases h

theorem peerMode_of_strict
    (h : (observePeerAuthentication resource (specOf object)).modeValid = true)
    (hmode : (observePeerAuthentication resource (specOf object)).mode = "STRICT") :
    peerMode object = some "STRICT" := by
  simp only [observePeerAuthentication] at h hmode
  unfold peerMode
  split at h
  · next hnone => simp [hnone] at hmode
  · next mtls hmtls =>
    rw [hmtls] at hmode
    have hobs : observedMTLSMode mtls = ("STRICT", true) := Prod.ext hmode h
    obtain ⟨hset, -⟩ := setMode_of_observedMTLSMode hobs
    rw [Any.field, hmtls, Option.getD_some, hset]
    decide
  · cases h

/-- The mode that a good policy sets for port 9200 is observed. -/
theorem portMode_of_valid
    (h : (observePeerAuthentication resource (specOf object)).portsValid = true) {mode : String}
    (hmode : portMode 9200 object = some mode) : mode ≠ "UNSET" ∧ { port := 9200, mode } ∈
      (observePeerAuthentication resource (specOf object)).portModes := by
  have hport : toString 9200 = "9200" := by decide +kernel
  have hnum : atoi "9200" = some 9200 := by decide +kernel
  simp only [observePeerAuthentication] at h ⊢
  obtain ⟨ports, hports, hall⟩ := (Option.any_eq_true _ _).mp h
  -- The ports of the document are those that were looked at.
  have hents : (Any.field (specOf object) "portLevelMtls").entries = ports := by
    unfold observedPorts at hports
    split at hports
    · next hnone =>
      cases hports
      simp [Any.field, hnone, Any.entries]
    · next entries hmap =>
      obtain ⟨-, heq⟩ := Option.ite_none_left_eq_some.mp hports
      cases heq
      simp [Any.field, hmap, Any.entries]
    · cases hports
  rw [portMode, hents, hport] at hmode
  cases hval : ports.lookup "9200" with
  | none => simp [Any.field, hval, setMode, Any.entries, Any.text, Any.text?] at hmode
  | some value =>
    have hmem := SortedAssoc.mem_of_lookup hval
    obtain ⟨observed, hobs⟩ := Option.isSome_iff_exists.mp (all_eq_true.mp hall _ hmem)
    have hlisted : observed ∈ ports.filterMap observedPortMode :=
      mem_filterMap.mpr ⟨_, hmem, hobs⟩
    simp only [observedPortMode, hnum, Option.bind_eq_bind, Option.bind_some,
      Option.bind_eq_some_iff] at hobs
    obtain ⟨mtls, hmtls, hgood⟩ := hobs
    obtain ⟨hvalid, heq⟩ := Option.ite_none_left_eq_some.mp hgood
    cases heq
    simp only [not_or, Bool.not_eq_false] at hvalid
    obtain ⟨hset, -⟩ := setMode_of_observedMTLSMode (Prod.ext rfl hvalid.2.2)
    rw [Any.field, hval, Option.getD_some, Any.eq_map_of_entries? hmtls, hset] at hmode
    obtain ⟨hunset, hmode⟩ := Option.ite_none_left_eq_some.mp hmode
    cases hmode
    refine ⟨hunset, ?_⟩
    rw [hports, Option.getD_some, mem_insertionSort]
    exact hlisted

/-- A checked policy does not weaken the port, and its own mode is strict if it is
set. -/
theorem strict_of_passed (hagrees : Agrees object) (h : PassedPeer selectedOpenSearchLabels 9200
      (observePeerAuthentication resource (specOf object))) :
    KeepsStrict 9200 object ∧ ∀ mode, peerMode object = some mode → mode = "STRICT" := by
  obtain ⟨hsorted, hlook, hstrings⟩ := observeSelector_labels h.selector
  have happlies : (observePeerAuthentication resource (specOf object)).selector.present = true →
      selectorApplies (observePeerAuthentication resource (specOf object)).selector
        selectedOpenSearchLabels = true := by
    intro hpres
    rw [selectorApplies, hpres, h.selector hpres, labelsContain]
    simp only [Bool.true_and, all_eq_true, decide_eq_true_eq]
    intro entry hent
    have hlabel := hlook entry.1
    rw [hsorted.lookup_of_mem hent] at hlabel
    obtain ⟨value, hval, htext⟩ := Option.bind_eq_some_iff.mp hlabel.symm
    rw [hagrees entry.1 value hval, Any.text, htext, Option.getD_some]
  obtain ⟨hpermissive, hdisable, hports⟩ := h.strict happlies
  have hmode : ∀ mode, peerMode object = some mode → mode = "STRICT" := by
    intro mode hset
    obtain ⟨heq, hmem⟩ := peerMode_of_valid h.mode hset
    simp only [mem_cons, not_mem_nil, or_false] at hmem
    rcases hmem with rfl | rfl | rfl
    · exact absurd heq.symm hdisable
    · exact absurd heq.symm hpermissive
    · rfl
  refine ⟨fun mode hset => ?_, hmode⟩
  cases hport : portMode 9200 object with
  | none =>
    rw [hport] at hset
    exact hmode mode hset
  | some other =>
    rw [hport] at hset
    cases hset
    obtain ⟨hunset, hmem⟩ := portMode_of_valid h.ports hport
    exact (hports _ hmem rfl).resolve_right hunset

end Observed

/-! ## The effective mode -/

theorem ChartRenders.mem_peers {renders : ChartRenders} {object : List (String × Any)} :
    object ∈ renders.peers ↔
      ∃ artifact resource, renders.Renders artifact object resource ∧ isPeer resource := by
  simp only [ChartRenders.peers, mem_flatMap, mem_filterMap, Prod.exists]
  constructor
  · rintro ⟨artifact, render, hrender, release, hrel, value, path, hdoc, hobj⟩
    obtain ⟨entries, hents, hobj⟩ := Option.bind_eq_some_iff.mp hobj
    obtain ⟨⟨hname, hpeer⟩, heq⟩ := Option.ite_none_right_eq_some.mp hobj
    obtain rfl := Option.some.inj heq
    obtain rfl := Any.eq_map_of_entries? hents
    exact ⟨artifact, _, ⟨render, hrender, release, hrel, hname, path, path, hdoc, rfl⟩, hpeer⟩
  · rintro ⟨artifact, resource, ⟨render, hrender, release, hrel, hname, path, path', hdoc,
      rfl⟩, hpeer⟩
    refine ⟨artifact, render, hrender, release, hrel, .map object, path, hdoc, ?_⟩
    exact if_pos ⟨hname, hpeer⟩

section Modes

variable {mesh : String} {policies : List (List (String × Any))} {pod : PodLabels} {port : Nat}
  {workload wide : List (String × Any)}

/-- The mode if the first policy that selects the pod decides it. -/
theorem effectiveMode_of_sets (hworkload : policies.find? (selectsPod pod) = some workload)
    {mode : String} (h : (portMode port workload).or (peerMode workload) = some mode) :
    effectiveMode mesh policies pod port = mode := by
  simp only [effectiveMode, hworkload, Option.bind_some]
  cases hport : portMode port workload with
  | some other =>
    rw [hport] at h
    exact Option.some.inj h
  | none =>
    rw [hport, Option.none_or] at h
    rw [h]
    rfl

/-- The mode if no policy that selects the pod decides it. -/
theorem effectiveMode_of_inherits
    (hworkload : ∀ workload, policies.find? (selectsPod pod) = some workload →
      Inherits port workload) (hwide : policies.find? namespaceWide = some wide) :
    effectiveMode mesh policies pod port = (peerMode wide).getD mesh := by
  simp only [effectiveMode, hwide, Option.bind_some]
  cases hfound : policies.find? (selectsPod pod) with
  | none => rfl
  | some workload =>
    obtain ⟨hport, hmode⟩ := Option.or_eq_none_iff.mp (hworkload workload hfound)
    rw [Option.bind_some, Option.bind_some, hport, hmode]
    rfl

end Modes

/-- Any policy can be the oldest one. -/
theorem exists_perm_cons {α : Type} {items : List α} {item : α} (h : item ∈ items) :
    ∃ rest, (item :: rest).Perm items := by
  obtain ⟨before, after, rfl⟩ := append_of_mem h
  exact ⟨before ++ after, perm_middle.symm⟩

/-- The checked policies of an accepted contract. -/
theorem checked_of_accepted {renders : ChartRenders}
    (h : validateOpenSearchMeshContract renders.inspections = .ok ()) :
    (∀ artifact object resource, renders.Renders artifact object resource → isPeer resource →
      ¬Unchecked artifact object → KeepsStrict 9200 object) ∧
      ∃ object ∈ renders.peers, namespaceWide object = true ∧ peerMode object = some "STRICT" := by
  obtain ⟨projection, hproj, hacc⟩ := accepted_of_validateOpenSearchMeshContract h
  obtain ⟨hsound, hcompl⟩ := peerObserver.sees_projection hproj
  obtain ⟨hpassed, hsel⟩ := strictPeerLoop_ok hacc.peers
  constructor
  · intro artifact object resource hrend hpeer hchecked
    rw [Unchecked, not_or, not_not, not_not] at hchecked
    have hobs : (peerObserver.observe resource object).isSome = true := by
      simp [peerObserver, observedPeer, hpeer.1, hpeer.2]
    obtain ⟨path, value, hval, hmem⟩ :=
      hcompl artifact hchecked.1 object resource hrend hobs
    obtain ⟨hkind, heq⟩ := Option.ite_none_right_eq_some.mp hval
    cases heq
    exact (strict_of_passed hchecked.2 (hpassed _ hmem hkind.2)).1
  · obtain ⟨observed, hmem, -, habsent, hmode⟩ := hsel rfl
    obtain ⟨object, resource, hrend, hval⟩ := hsound observed hmem
    obtain ⟨hpeer, heq⟩ := Option.ite_none_right_eq_some.mp hval
    have hobs := Option.some.inj heq
    rw [← hobs] at habsent hmode
    refine ⟨object, ChartRenders.mem_peers.mpr ⟨_, resource, hrend, hpeer⟩, ?_,
      peerMode_of_strict ?_ hmode⟩
    · -- Without a selector the policy is one of the whole namespace.
      have hnone : (specOf object).lookup "selector" = none := by
        simp only [observePeerAuthentication, observeSelector] at habsent
        split at habsent
        · assumption
        · split at habsent
          · cases habsent
          split at habsent
          · cases habsent
          · split at habsent
            · cases habsent
            · cases habsent
        · cases habsent
      simp [namespaceWide, matchLabels, Any.field, hnone, Any.entries]
    · have hns : observed.value.resource.namespaceName =
          selectedOpenSearchPeerIdentity.namespaceName := by
        rw [← hobs]
        exact hpeer.2
      rw [hobs]
      exact (hpassed observed hmem hns).mode

/-- After an accepted contract port 9200 of a pod is strict, for every mode of the
mesh and every order of creation, exactly if the policies that were not checked and
select the pod do not weaken the port, and all policies of the whole namespace are
strict where the mode is left to them. -/
theorem effectiveMode_strict_iff (renders : ChartRenders)
    (haccepted : validateOpenSearchMeshContract renders.inspections = .ok ()) (pod : PodLabels) :
    (∀ mesh policies, policies.Perm renders.peers →
      effectiveMode mesh policies pod 9200 = "STRICT") ↔
    (∀ artifact object resource, renders.Renders artifact object resource → isPeer resource →
      Unchecked artifact object → selectsPod pod object = true → KeepsStrict 9200 object) ∧
    ((∀ object ∈ renders.peers, selectsPod pod object = false) ∨
        (∃ object ∈ renders.peers, selectsPod pod object = true ∧ Inherits 9200 object) →
      ∀ object ∈ renders.peers, namespaceWide object = true → peerMode object = some "STRICT") := by
  obtain ⟨hchecked, selected, hselected, hselectedWide, hselectedMode⟩ :=
    checked_of_accepted haccepted
  constructor
  · intro hstrict
    refine ⟨fun artifact object resource hrendered hpeer _ hselects mode hsets => ?_,
      fun hinherits wide hwide hnamespace => ?_⟩
    · obtain ⟨rest, hperm⟩ := exists_perm_cons
        (ChartRenders.mem_peers.mpr ⟨artifact, resource, hrendered, hpeer⟩)
      have hfirst : (object :: rest).find? (selectsPod pod) = some object :=
        List.find?_cons_of_pos hselects
      rw [← hstrict "" _ hperm, effectiveMode_of_sets hfirst hsets]
    have hmode : (peerMode wide).getD "" = "STRICT" := by
      rcases hinherits with hnone | ⟨workload, hworkload, hselects, hinherits⟩
      · obtain ⟨rest, hperm⟩ := exists_perm_cons hwide
        have hfirst : (wide :: rest).find? namespaceWide = some wide :=
          List.find?_cons_of_pos hnamespace
        rw [← hstrict "" _ hperm, effectiveMode_of_inherits (fun workload hfound => ?_) hfirst]
        have hfalse := hnone workload (hperm.mem_iff.mp (mem_of_find?_eq_some hfound))
        rw [List.find?_some hfound] at hfalse
        cases hfalse
      -- The policy that inherits is the oldest one, and after it comes `wide`.
      obtain ⟨rest, hperm⟩ := exists_perm_cons hworkload
      have hnotWide : namespaceWide workload = false := by
        rw [selectsPod, Bool.and_eq_true, Bool.not_eq_true'] at hselects
        exact hselects.1
      have hne : wide ≠ workload := by
        rintro rfl
        rw [hnamespace] at hnotWide
        cases hnotWide
      obtain ⟨others, hothers⟩ := exists_perm_cons
        ((mem_cons.mp (hperm.mem_iff.mpr hwide)).resolve_left hne)
      have hworkloadFirst : (workload :: wide :: others).find? (selectsPod pod) =
          some workload := List.find?_cons_of_pos hselects
      have hwideFirst : (workload :: wide :: others).find? namespaceWide = some wide := by
        rw [List.find?_cons_of_neg (by simp [hnotWide]), List.find?_cons_of_pos hnamespace]
      rw [← hstrict "" _ ((hothers.cons workload).trans hperm),
        effectiveMode_of_inherits (fun other hother => ?_) hwideFirst]
      obtain rfl := Option.some.inj (hworkloadFirst.symm.trans hother)
      exact hinherits
    cases hset : peerMode wide with
    | none => simp [hset] at hmode
    | some mode => simpa [hset] using hmode
  · intro hcondition mesh policies hperm
    have hkeeps : ∀ object ∈ renders.peers, selectsPod pod object = true →
        KeepsStrict 9200 object := by
      intro object hmem hselects
      obtain ⟨artifact, resource, hrendered, hpeer⟩ := ChartRenders.mem_peers.mp hmem
      by_cases hunchecked : Unchecked artifact object
      · exact hcondition.1 artifact object resource hrendered hpeer hunchecked hselects
      · exact hchecked artifact object resource hrendered hpeer hunchecked
    -- The oldest policy of the whole namespace exists, because the selected one does.
    obtain ⟨wide, hwide⟩ : ∃ wide, policies.find? namespaceWide = some wide :=
      Option.isSome_iff_exists.mp
        (List.find?_isSome.mpr ⟨selected, hperm.mem_iff.mpr hselected, hselectedWide⟩)
    have hwideMem := hperm.mem_iff.mp (mem_of_find?_eq_some hwide)
    have hwideMode := fun hinherits =>
      hcondition.2 hinherits wide hwideMem (List.find?_some hwide)
    cases hfound : policies.find? (selectsPod pod) with
    | none =>
      have hnone : ∀ object ∈ renders.peers, selectsPod pod object = false := by
        intro object hmem
        simpa using List.find?_eq_none.mp hfound object (hperm.mem_iff.mpr hmem)
      rw [effectiveMode_of_inherits (by simp [hfound]) hwide, hwideMode (.inl hnone)]
      rfl
    | some workload =>
      have hmem := hperm.mem_iff.mp (mem_of_find?_eq_some hfound)
      have hselects := List.find?_some hfound
      cases hsets : (portMode 9200 workload).or (peerMode workload) with
      | some mode =>
        rw [effectiveMode_of_sets hfound hsets]
        exact hkeeps workload hmem hselects mode hsets
      | none =>
        have hinherits : ∀ other, policies.find? (selectsPod pod) = some other →
            Inherits 9200 other := by
          intro other hother
          obtain rfl := Option.some.inj (hfound.symm.trans hother)
          exact hsets
        rw [effectiveMode_of_inherits hinherits hwide,
          hwideMode (.inr ⟨workload, hmem, hselects, hsets⟩)]
        rfl

/-- The labels of an OpenSearch pod, with the one that its stateful set gives it. -/
def openSearchPod : PodLabels := fun key =>
  (selectedOpenSearchLabels ++
    [("statefulset.kubernetes.io/pod-name", "opensearch-cluster-master-0")]).lookup key

/-- A policy for one pod, by a label that is not selected. -/
def podPeer (mode : String) : Any :=
  resourceValue "security.istio.io/v1beta1" "PeerAuthentication" "opensearch" "debug"
    [("selector", selectorValue
        [("statefulset.kubernetes.io/pod-name", "opensearch-cluster-master-0")]),
      ("mtls", stringsValue [("mode", mode)])]

/-- With the selected policy, and an unchecked one that selects the pod and is strict
too, the port is strict. -/
theorem effectiveMode_strict_sample :
    (∃ object ∈ (sampleRenders [podPeer "STRICT"]).peers,
      selectsPod openSearchPod object = true ∧ ¬Agrees object) ∧
    ∀ mesh policies, policies.Perm (sampleRenders [podPeer "STRICT"]).peers →
      effectiveMode mesh policies openSearchPod 9200 = "STRICT" := by
  have haccepted : validateOpenSearchMeshContract
      (sampleRenders [podPeer "STRICT"]).inspections = .ok () := by
    decide +kernel
  have hpeers : ∀ object ∈ (sampleRenders [podPeer "STRICT"]).peers,
      portMode 9200 object = none ∧ peerMode object = some "STRICT" := by
    decide +kernel
  constructor
  · have hsecond : (sampleRenders [podPeer "STRICT"]).peers[1]? =
        some (podPeer "STRICT").entries := by rfl
    refine ⟨_, mem_of_getElem? hsecond, by decide +kernel, fun hagrees => ?_⟩
    have hlabel := hagrees "statefulset.kubernetes.io/pod-name"
      (.string "opensearch-cluster-master-0") rfl
    exact absurd hlabel (by decide +kernel)
  refine (effectiveMode_strict_iff (sampleRenders [podPeer "STRICT"]) haccepted openSearchPod).mpr
    ⟨fun artifact object resource hrendered hpeer _ _ mode hmode => ?_,
      fun _ object hobject _ => (hpeers object hobject).2⟩
  obtain ⟨hport, hstrict⟩ :=
    hpeers object (ChartRenders.mem_peers.mpr ⟨artifact, resource, hrendered, hpeer⟩)
  rw [hport, hstrict] at hmode
  exact (Option.some.inj hmode).symm

/-- The contract accepts the policy, and the port of the pod is open without mutual
TLS, also in a mesh that is strict. -/
theorem effectiveMode_disabled :
    validateOpenSearchMeshContract (sampleRenders [podPeer "DISABLE"]).inspections = .ok () ∧
      (∀ entry ∈ selectedOpenSearchLabels, openSearchPod entry.1 = some entry.2) ∧
      effectiveMode "STRICT" (sampleRenders [podPeer "DISABLE"]).peers openSearchPod 9200 =
        "DISABLE" := by
  refine ⟨?_, ?_, ?_⟩
  · decide +kernel
  · decide +kernel
  · decide +kernel

end Atum.Mesh
