import Mathlib.Algebra.Order.BigOperators.Group.Finset
import Atum.Go.Outcome

/-!
# Observing a cluster

`Observer` reads a cluster through list calls of the Kubernetes API.  A reply is a
page of items and a continuation token, and `Resources`, `Pods` and `Nodes` ask for
one page after the other until a token is empty.

The three loops stop a server that sends too many items, but they do not count the
pages.  A page with a token and without items costs nothing, so a server can keep them
busy for ever (`observer_endless`).  They end within the number of calls that the cap
on the items suggests exactly if the pages of those calls do not all go on with the
cap still kept (`observer_bounded_iff`).
-/

namespace Atum.Kube

open Atum.Go List Nat

def pageLimit : Int := 500
def maxContinuation : Nat := 16 * 1024
def maxNodes : Nat := 4096
def maxResources : Nat := 20000

/-! ## Lists of the API -/

/-- An answer of the API to a list call, and a page of the observer. -/
structure Page (T : Type) where
  items : List T
  continuation : String

structure GroupVersionResource where
  group : String
  version : String
  resource : String
deriving DecidableEq, Repr

/-- A list call: the kind and the namespace of the objects, and the options. -/
structure ListCall where
  resource : GroupVersionResource
  inNamespace : String
  labelSelector : String
  continuation : String
  limit : Int
deriving DecidableEq, Repr

/-- A list call that the API answers with its next reply.  The calls are logged. -/
def apiList {R : Type} (replies : Nat → Except String (Page R)) (call : ListCall)
    (calls : List ListCall) : Except String (Page R) × List ListCall :=
  (replies calls.length, calls ++ [call])

structure ListOptions where
  labelSelector : String
  continuation : String
  limit : Int

def validateListOptions (options : ListOptions) : Except String Unit :=
  if options.limit < 0 ∨ pageLimit < options.limit then
    .error ("Kubernetes observation page limit must be between 1 and " ++ toString pageLimit)
  else if maxContinuation < options.continuation.utf8ByteSize then
    .error "Kubernetes continuation token exceeds 16 KiB"
  else .ok ()

def listLimit (limit : Int) : Int := if limit = 0 then pageLimit else limit

/-- `Resource`, a number. -/
abbrev Resource := UInt8

def Resource.gitRepository : Resource := 1
def Resource.kustomization : Resource := 2
def Resource.ociRepository : Resource := 3
def Resource.helmRelease : Resource := 4
def Resource.certificate : Resource := 5
def Resource.platformIdentityConfiguration : Resource := 6

def resourceGVR (resource : Resource) : Except String GroupVersionResource :=
  if resource = .gitRepository then .ok ⟨"source.toolkit.fluxcd.io", "v1", "gitrepositories"⟩
  else if resource = .kustomization then
    .ok ⟨"kustomize.toolkit.fluxcd.io", "v1", "kustomizations"⟩
  else if resource = .ociRepository then .ok ⟨"source.toolkit.fluxcd.io", "v1", "ocirepositories"⟩
  else if resource = .helmRelease then .ok ⟨"helm.toolkit.fluxcd.io", "v2", "helmreleases"⟩
  else if resource = .certificate then .ok ⟨"cert-manager.io", "v1", "certificates"⟩
  else if resource = .platformIdentityConfiguration then
    .ok ⟨"platform.atum.dev", "v1alpha1", "platformidentityconfigurations"⟩
  else .error ("unsupported observed resource " ++ toString resource)

/-! ## Projections -/

/-- A condition of a status. -/
structure Condition where
  type : String
  status : String

structure Container where
  name : String
  image : String

structure ContainerStatus where
  name : String
  imageID : String

/-- The fields of a `corev1.Pod` that are read. -/
structure CorePod where
  name : String
  inNamespace : String
  labels : List (String × String)
  deleting : Bool
  phase : String
  conditions : List Condition
  initContainers : List Container
  containers : List Container
  ephemeralContainers : List Container
  initContainerStatuses : List ContainerStatus
  containerStatuses : List ContainerStatus
  ephemeralContainerStatuses : List ContainerStatus

structure PodContainer where
  name : String
  image : String
  imageID : String

structure Pod where
  name : String
  inNamespace : String
  labels : List (String × String)
  phase : String
  deleting : Bool
  ready : Bool
  containers : List PodContainer

def projectPod (item : CorePod) : Pod :=
  -- The statuses go into a map in this order, so the last one of a name is found.
  let statuses := item.initContainerStatuses ++ item.containerStatuses ++
    item.ephemeralContainerStatuses
  let imageID name := ((statuses.reverse.find? (·.name == name)).map (·.imageID)).getD ""
  let ready := item.phase == "Running" &&
    ((item.conditions.find? (·.type == "Ready")).map (·.status == "True")).getD false
  { name := item.name
    inNamespace := item.inNamespace
    labels := item.labels
    phase := item.phase
    deleting := item.deleting
    ready := ready
    containers := (item.initContainers ++ item.containers ++ item.ephemeralContainers).map
      fun container => ⟨container.name, container.image, imageID container.name⟩ }

/-- The fields of a `corev1.Node` that are read. -/
structure CoreNode where
  name : String
  labels : List (String × String)
  unschedulable : Bool
  kubeletVersion : String
  conditions : List Condition

structure Node where
  name : String
  unschedulable : Bool
  kubeletVersion : String
  ready : Bool
  controlPlane : Bool

def nodeHasControlPlaneRole (labels : List (String × String)) : Bool :=
  labels.any (·.1 == "node-role.kubernetes.io/control-plane") ||
    labels.any (·.1 == "node-role.kubernetes.io/master")

/-- The node that `Nodes` makes of an item. -/
def projectNode (item : CoreNode) : Node :=
  { name := item.name
    unschedulable := item.unschedulable
    kubeletVersion := item.kubeletVersion
    ready := item.conditions.any fun condition =>
      condition.type == "Ready" && condition.status == "True"
    controlPlane := nodeHasControlPlaneRole item.labels }

/-- The projection of the items of a reply. -/
def Page.project {R T : Type} (project : R → T) (page : Page R) : Page T :=
  { items := page.items.map project, continuation := page.continuation }

/-! ## The loops -/

/-- `ListResources` and `ListPods` after the checks of their arguments. -/
def listProjected {R T : Type} (project : R → T) (replies : Nat → Except String (Page R))
    (resource : GroupVersionResource) (inNamespace : String) (options : ListOptions)
    (calls : List ListCall) : Except String (Page T) × List ListCall :=
  let (reply, calls) := apiList replies
    { resource := resource
      inNamespace := inNamespace
      labelSelector := options.labelSelector
      continuation := options.continuation
      limit := listLimit options.limit } calls
  (reply.map (·.project project), calls)

def listResources {R T : Type} (projectObject : R → T) (replies : Nat → Except String (Page R))
    (resource : Resource) (inNamespace : String) (options : ListOptions) (calls : List ListCall) :
    Except String (Page T) × List ListCall :=
  match validateListOptions options with
  | .error err => (.error err, calls)
  | .ok () =>
    match resourceGVR resource with
    | .error err => (.error err, calls)
    | .ok gvr => listProjected projectObject replies gvr inNamespace options calls

def listPods (replies : Nat → Except String (Page CorePod)) (inNamespace : String)
    (options : ListOptions) (calls : List ListCall) : Except String (Page Pod) × List ListCall :=
  match validateListOptions options with
  | .error err => (.error err, calls)
  | .ok () => listProjected projectPod replies ⟨"", "v1", "pods"⟩ inNamespace options calls

def listNodes (replies : Nat → Except String (Page CoreNode)) (continuation : String)
    (calls : List ListCall) : Except String (Page Node) × List ListCall :=
  listProjected projectNode replies ⟨"", "v1", "nodes"⟩ ""
    { labelSelector := "", continuation := continuation, limit := pageLimit } calls

/-- What a call of the observer has come to, and the list calls that it made. -/
structure Observed (T : Type) where
  result : Except String (List T)
  calls : List ListCall

/-- A call of `list` gets a page by its continuation token. -/
abbrev Lister (T : Type) := String → List ListCall → Except String (Page T) × List ListCall

/-- The loop of the three observations: nothing while it is running after so many
rounds. -/
def collect {T : Type} (list : Lister T) (cap : Nat) (tooMany : String) :
    Nat → List T → String → List ListCall → Option (Observed T)
  | 0, _, _, _ => none
  | rounds + 1, items, continuation, calls =>
    match list continuation calls with
    | (.error err, calls) => some { result := .error err, calls := calls }
    | (.ok page, calls) =>
      if cap < items.length + page.items.length then
        some { result := .error tooMany, calls := calls }
      else if page.continuation = "" then
        some { result := .ok (items ++ page.items), calls := calls }
      else collect list cap tooMany rounds (items ++ page.items) page.continuation calls

def resources {R T : Type} (projectObject : R → T) (replies : Nat → Except String (Page R))
    (resource : Resource) (inNamespace labelSelector : String) (rounds : Nat) :
    Option (Observed T) :=
  collect (fun continuation => listResources projectObject replies resource inNamespace
      { labelSelector := labelSelector, continuation := continuation, limit := pageLimit })
    maxResources ("observed resource count exceeds " ++ toString maxResources) rounds [] "" []

def pods (replies : Nat → Except String (Page CorePod)) (inNamespace labelSelector : String)
    (rounds : Nat) : Option (Observed Pod) :=
  collect (fun continuation => listPods replies inNamespace
      { labelSelector := labelSelector, continuation := continuation, limit := pageLimit })
    maxResources ("observed pod count exceeds " ++ toString maxResources) rounds [] "" []

def nodes (replies : Nat → Except String (Page CoreNode)) (rounds : Nat) : Option (Observed Node) :=
  collect (listNodes replies) maxNodes ("cluster node count exceeds " ++ toString maxNodes)
    rounds [] "" []

/-! ## When the loop ends -/

/-- The number of items of a reply. -/
def itemCount {R : Type} : Except String (Page R) → Nat
  | .error _ => 0
  | .ok page => page.items.length

/-- The number of items of the first replies. -/
def received {R : Type} (replies : Nat → Except String (Page R)) (count : Nat) : Nat :=
  ∑ index ∈ Finset.range count, itemCount (replies index)

theorem received_succ {R : Type} (replies : Nat → Except String (Page R)) (count : Nat) :
    received replies (count + 1) = received replies count + itemCount (replies count) :=
  Finset.sum_range_succ _ _

theorem received_mono {R : Type} (replies : Nat → Except String (Page R)) {few many : Nat}
    (h : few ≤ many) : received replies few ≤ received replies many :=
  Finset.sum_le_sum_of_subset (Finset.range_mono h)

/-- A page with a continuation token that the next call passes on. -/
def GoesOn {R : Type} (accepts : String → Prop) (reply : Except String (Page R)) : Prop :=
  ∃ page, reply = .ok page ∧ page.continuation ≠ "" ∧ accepts page.continuation

/-- The replies to the calls that the cap allows for all go on, and the cap is kept. -/
structure Prolonged {R : Type} (accepts : String → Prop) (replies : Nat → Except String (Page R))
    (cap : Nat) : Prop where
  starts : accepts ""
  goesOn : ∀ index ≤ cap, GoesOn accepts (replies index)
  capped : received replies (cap + 1) ≤ cap

/-- A `list` function that answers an acceptable token with the next reply, and any other
without a call. -/
structure Serves {R T : Type} (list : Lister T) (accepts : String → Prop)
    (replies : Nat → Except String (Page R)) (project : R → T) : Prop where
  accepted : ∀ token calls, accepts token →
    ∃ call, list token calls = ((replies calls.length).map (·.project project), calls ++ [call])
  refused : ∀ token calls, ¬ accepts token → ∃ err, list token calls = (.error err, calls)

section Loop

variable {R T : Type} {list : Lister T} {accepts : String → Prop}
  {replies : Nat → Except String (Page R)} {project : R → T}
  (hserves : Serves list accepts replies project) {cap : Nat} {tooMany : String}

include hserves

variable {continuation : String} {calls : List ListCall} {items : List T}

/-- A round whose reply goes on within the cap. -/
theorem collect_of_goesOn
    (haccepts : accepts continuation) (hitems : items.length = received replies calls.length)
    (hgoesOn : GoesOn accepts (replies calls.length))
    (hcap : received replies (calls.length + 1) ≤ cap) : ∃ more token call, accepts token ∧
      (items ++ more).length = received replies (calls ++ [call]).length ∧
      ∀ rounds, collect list cap tooMany (rounds + 1) items continuation calls =
        collect list cap tooMany rounds (items ++ more) token (calls ++ [call]) := by
  obtain ⟨call, hlist⟩ := hserves.accepted continuation calls haccepts
  obtain ⟨page, hreply, hnext, htoken⟩ := hgoesOn
  have hcount : items.length + (page.items.map project).length =
      received replies (calls.length + 1) := by
    rw [received_succ, hitems, hreply, itemCount, length_map]
  refine ⟨page.items.map project, page.continuation, call, htoken, ?_, fun rounds => ?_⟩
  · rw [length_append, hcount, length_append, length_singleton]
  · rw [collect, hlist, hreply]
    simp only [Except.map, Page.project, hcount]
    rw [if_neg (not_lt.mpr hcap), if_neg hnext]

/-- A round whose reply does not go on, or breaks the cap: it returns, or the next one
refuses the token. -/
theorem collect_of_not_goesOn
    (haccepts : accepts continuation) (hitems : items.length = received replies calls.length)
    (hstop : ¬ (GoesOn accepts (replies calls.length) ∧
      received replies (calls.length + 1) ≤ cap)) :
    ∃ observed, collect list cap tooMany 2 items continuation calls = some observed ∧
      observed.calls.length = calls.length + 1 := by
  obtain ⟨call, hlist⟩ := hserves.accepted continuation calls haccepts
  have hlen : (calls ++ [call]).length = calls.length + 1 := length_append
  rw [collect, hlist]
  cases hreply : replies calls.length with
  | error err => exact ⟨_, rfl, hlen⟩
  | ok page =>
    have hcount : items.length + (page.items.map project).length =
        received replies (calls.length + 1) := by
      rw [received_succ, hitems, hreply, itemCount, length_map]
    simp only [Except.map, Page.project, hcount]
    by_cases hcap : cap < received replies (calls.length + 1)
    · rw [if_pos hcap]
      exact ⟨_, rfl, hlen⟩
    rw [if_neg hcap]
    by_cases hlast : page.continuation = ""
    · rw [if_pos hlast]
      exact ⟨_, rfl, hlen⟩
    have hrefused : ¬ accepts page.continuation := fun htoken =>
      hstop ⟨⟨page, hreply, hlast, htoken⟩, Nat.le_of_not_lt hcap⟩
    obtain ⟨err, herr⟩ := hserves.refused page.continuation (calls ++ [call]) hrefused
    rw [if_neg hlast, collect, herr]
    exact ⟨_, rfl, hlen⟩

variable {left : Nat}

/-- The loop returns once a reply does not go on within the cap. -/
theorem collect_returns : ∀ {items : List T} {continuation : String} {calls : List ListCall},
      accepts continuation → items.length = received replies calls.length →
      (∃ index, calls.length ≤ index ∧ index ≤ calls.length + left ∧
        ¬ (GoesOn accepts (replies index) ∧ received replies (index + 1) ≤ cap)) →
      ∃ rounds observed, collect list cap tooMany rounds items continuation calls = some observed ∧
        observed.calls.length ≤ calls.length + left + 1 := by
  induction left with
  | zero =>
    intro items continuation calls haccepts hitems ⟨index, hle, hge, hstop⟩
    obtain rfl : calls.length = index := by omega
    obtain ⟨observed, hobs, hcalls⟩ :=
      collect_of_not_goesOn hserves haccepts hitems hstop
    exact ⟨2, observed, hobs, hcalls.le⟩
  | succ left ih =>
    intro items continuation calls haccepts hitems ⟨index, hle, hge, hstop⟩
    by_cases hnow : GoesOn accepts (replies calls.length) ∧
        received replies (calls.length + 1) ≤ cap
    · obtain ⟨more, token, call, htoken, hmore, hround⟩ :=
        @collect_of_goesOn _ _ _ _ _ _ hserves cap tooMany _ _ _ haccepts hitems hnow.1 hnow.2
      have hlen : (calls ++ [call]).length = calls.length + 1 := length_append
      have hlater : calls.length ≠ index := by
        rintro rfl
        exact hstop hnow
      obtain ⟨rounds, observed, hobs, hcalls⟩ :=
        ih htoken hmore ⟨index, by omega, by omega, hstop⟩
      exact ⟨rounds + 1, observed, (hround rounds).trans hobs, by omega⟩
    · obtain ⟨observed, hobs, hcalls⟩ :=
        collect_of_not_goesOn hserves haccepts hitems hnow
      exact ⟨2, observed, hobs, by omega⟩

/-- A run that returns keeps the calls so far, and adds one for an acceptable token. -/
theorem collect_calls_le {rounds : Nat} :
    ∀ {items : List T} {continuation : String} {calls : List ListCall} {observed : Observed T},
      collect list cap tooMany rounds items continuation calls = some observed →
      calls.length ≤ observed.calls.length ∧
        (accepts continuation → calls.length < observed.calls.length) := by
  induction rounds with
  | zero =>
    intro items continuation calls observed hobs
    cases hobs
  | succ rounds ih =>
    intro items continuation calls observed hobs
    rw [collect] at hobs
    by_cases haccepts : accepts continuation
    · obtain ⟨call, hlist⟩ := hserves.accepted continuation calls haccepts
      have hlen : (calls ++ [call]).length = calls.length + 1 := length_append
      suffices h : (calls ++ [call]).length ≤ observed.calls.length from
        ⟨by omega, fun _ => by omega⟩
      rw [hlist] at hobs
      cases hreply : replies calls.length with
      | error err =>
        rw [hreply] at hobs
        cases hobs
        exact le_rfl
      | ok page =>
        simp only [hreply, Except.map] at hobs
        split at hobs
        · cases hobs
          exact le_rfl
        split at hobs
        · cases hobs
          exact le_rfl
        · exact (ih hobs).1
    · obtain ⟨err, hlist⟩ := hserves.refused continuation calls haccepts
      rw [hlist] at hobs
      cases hobs
      exact ⟨le_rfl, fun h => absurd h haccepts⟩

/-- While the replies go on within the cap, the loop makes one call after the other. -/
theorem collect_calls_lt :
    ∀ {rounds : Nat} {items : List T} {continuation : String} {calls : List ListCall}
      {observed : Observed T}, accepts continuation → items.length = received replies calls.length →
      (∀ index, calls.length ≤ index → index < calls.length + left →
        GoesOn accepts (replies index) ∧ received replies (index + 1) ≤ cap) →
      collect list cap tooMany rounds items continuation calls = some observed →
      calls.length + left < observed.calls.length := by
  induction left with
  | zero =>
    intro rounds items continuation calls observed haccepts _ _ hobs
    exact (collect_calls_le hserves hobs).2 haccepts
  | succ left ih =>
    intro rounds items continuation calls observed haccepts hitems hgoesOn hobs
    obtain ⟨hnow, hcap⟩ := hgoesOn calls.length le_rfl (by omega)
    obtain ⟨more, token, call, htoken, hmore, hround⟩ :=
      collect_of_goesOn hserves haccepts hitems hnow hcap
    have hlen : (calls ++ [call]).length = calls.length + 1 := length_append
    cases rounds with
    | zero => cases hobs
    | succ rounds =>
      rw [hround] at hobs
      have hcalls := ih htoken hmore
        (fun index hle hlt => hgoesOn index (by omega) (by omega)) hobs
      omega

/-- The loop returns within one call more than the cap exactly if the replies are not
prolonged. -/
theorem collect_bounded_iff :
    (∃ rounds observed, collect list cap tooMany rounds [] "" [] = some observed ∧
        observed.calls.length ≤ cap + 1) ↔ ¬ Prolonged accepts replies cap := by
  constructor
  · intro ⟨rounds, observed, hobs, hcalls⟩ hprolonged
    have hgoesOn : ∀ index < cap + 1,
        GoesOn accepts (replies index) ∧ received replies (index + 1) ≤ cap := by
      intro index hlt
      exact ⟨hprolonged.goesOn index (by omega),
        (received_mono replies (by omega)).trans hprolonged.capped⟩
    have hlt := @collect_calls_lt _ _ _ _ _ _ hserves cap tooMany (cap + 1) rounds [] "" []
      observed hprolonged.starts rfl (fun index _ h => hgoesOn index (by simpa using h)) hobs
    omega
  · intro hends
    by_cases hstarts : accepts ""
    · have hstop : ∃ index ≤ cap,
          ¬ (GoesOn accepts (replies index) ∧ received replies (index + 1) ≤ cap) := by
        by_contra hnone
        have hall : ∀ index ≤ cap,
            GoesOn accepts (replies index) ∧ received replies (index + 1) ≤ cap :=
          fun index hle => Classical.not_not.mp fun hnot => hnone ⟨index, hle, hnot⟩
        exact hends ⟨hstarts, fun index hle => (hall index hle).1, (hall cap le_rfl).2⟩
      obtain ⟨index, hle, hnot⟩ := hstop
      obtain ⟨rounds, observed, hobs, hcalls⟩ :=
        @collect_returns _ _ _ _ _ _ hserves cap tooMany cap [] "" [] hstarts rfl
          ⟨index, by simp, by simpa using hle, hnot⟩
      exact ⟨rounds, observed, hobs, by simpa using hcalls⟩
    · obtain ⟨err, hlist⟩ := hserves.refused "" [] hstarts
      refine ⟨1, { result := .error err, calls := [] }, ?_, by simp⟩
      rw [collect, hlist]

/-- The loop does not return while every reply goes on and the cap is kept. -/
theorem collect_endless (hstarts : accepts "")
    (hgoesOn : ∀ index, GoesOn accepts (replies index) ∧ received replies (index + 1) ≤ cap)
    (rounds : Nat) : collect list cap tooMany rounds [] "" [] = none := by
  by_contra hsome
  obtain ⟨observed, hobs⟩ := Option.ne_none_iff_exists'.mp hsome
  have hlt := @collect_calls_lt _ _ _ _ _ _ hserves cap tooMany observed.calls.length rounds [] ""
    [] observed hstarts rfl (fun index _ _ => hgoesOn index) hobs
  omega

end Loop

/-! ## The three observations -/

/-- A token that the checks of the arguments accept. -/
def ShortToken (token : String) : Prop := token.utf8ByteSize ≤ maxContinuation

/-- A resource with a list call. -/
def Supported (resource : Resource) : Prop := ∃ gvr, resourceGVR resource = .ok gvr

theorem validateListOptions_pageLimit (labelSelector token : String) :
    validateListOptions { labelSelector, continuation := token, limit := pageLimit } =
      if maxContinuation < token.utf8ByteSize then
        .error "Kubernetes continuation token exceeds 16 KiB"
      else .ok () := by
  rw [validateListOptions, if_neg (by simp [pageLimit])]

theorem serves_listResources {R T : Type} (projectObject : R → T)
    (replies : Nat → Except String (Page R)) (resource : Resource)
    (inNamespace labelSelector : String) :
    Serves (fun continuation => listResources projectObject replies resource inNamespace
        { labelSelector := labelSelector, continuation := continuation, limit := pageLimit })
      (fun token => Supported resource ∧ ShortToken token) replies projectObject where
  accepted := by
    intro token calls ⟨⟨gvr, hgvr⟩, hshort⟩
    simp only [listResources, validateListOptions_pageLimit, if_neg (not_lt.mpr hshort), hgvr]
    exact ⟨_, rfl⟩
  refused := by
    intro token calls hrefused
    simp only [listResources, validateListOptions_pageLimit]
    by_cases hshort : maxContinuation < token.utf8ByteSize
    · rw [if_pos hshort]
      exact ⟨_, rfl⟩
    rw [if_neg hshort]
    cases hgvr : resourceGVR resource with
    | error err => exact ⟨err, rfl⟩
    | ok gvr => exact absurd ⟨⟨gvr, hgvr⟩, Nat.le_of_not_lt hshort⟩ hrefused

theorem serves_listPods (replies : Nat → Except String (Page CorePod))
    (inNamespace labelSelector : String) : Serves (fun continuation => listPods replies inNamespace
        { labelSelector := labelSelector, continuation := continuation, limit := pageLimit })
      ShortToken replies projectPod where
  accepted := by
    intro token calls hshort
    simp only [listPods, validateListOptions_pageLimit, if_neg (not_lt.mpr hshort)]
    exact ⟨_, rfl⟩
  refused := by
    intro token calls hrefused
    simp only [listPods, validateListOptions_pageLimit, if_pos (Nat.lt_of_not_le hrefused)]
    exact ⟨_, rfl⟩

theorem serves_listNodes (replies : Nat → Except String (Page CoreNode)) :
    Serves (listNodes replies) (fun _ => True) replies projectNode where
  accepted := fun _ _ _ => ⟨_, rfl⟩
  refused := fun _ _ h => absurd trivial h

/-- The three observations return within the bound on their calls exactly if the replies
to these calls are not all pages that go on, with as many items in total as the cap
allows. -/
theorem observer_bounded_iff {R T : Type} (projectObject : R → T)
    (objects : Nat → Except String (Page R)) (corePods : Nat → Except String (Page CorePod))
    (coreNodes : Nat → Except String (Page CoreNode)) (resource : Resource)
    (inNamespace labelSelector : String) : ((∃ rounds observed,
        resources projectObject objects resource inNamespace labelSelector rounds = some observed ∧
          observed.calls.length ≤ 20001) ↔
      ¬ Prolonged (fun token => Supported resource ∧ ShortToken token) objects maxResources) ∧
    ((∃ rounds observed, pods corePods inNamespace labelSelector rounds = some observed ∧
        observed.calls.length ≤ 20001) ↔ ¬ Prolonged ShortToken corePods maxResources) ∧
    ((∃ rounds observed, nodes coreNodes rounds = some observed ∧ observed.calls.length ≤ 4097) ↔
      ¬ Prolonged (fun _ => True) coreNodes maxNodes) :=
  ⟨collect_bounded_iff (serves_listResources projectObject objects resource inNamespace
      labelSelector),
    collect_bounded_iff (serves_listPods corePods inNamespace labelSelector),
    collect_bounded_iff (serves_listNodes coreNodes)⟩

/-- A page without items and with a continuation token. -/
def hollow {R : Type} (_index : Nat) : Except String (Page R) :=
  .ok { items := [], continuation := "a" }

theorem received_hollow {R : Type} (count : Nat) : received (@hollow R) count = 0 :=
  Finset.sum_eq_zero fun _ _ => rfl

/-- A server that sends only hollow pages keeps the observations busy for ever. -/
theorem observer_endless :
    (∀ rounds, resources (id : Unit → Unit) hollow .gitRepository "flux-system" "" rounds = none) ∧
      (∀ rounds, pods hollow "flux-system" "" rounds = none) ∧
      ∀ rounds, nodes hollow rounds = none := by
  have hsupported : Supported .gitRepository := ⟨_, rfl⟩
  have hempty : "".utf8ByteSize ≤ maxContinuation := by decide
  have hshort : "a".utf8ByteSize ≤ maxContinuation := by decide
  refine ⟨fun rounds => ?_, fun rounds => ?_, fun rounds => ?_⟩
  · refine collect_endless (serves_listResources id hollow _ "flux-system" "")
      ⟨hsupported, hempty⟩ (fun index => ⟨⟨_, rfl, by decide, hsupported, hshort⟩, ?_⟩) rounds
    exact (received_hollow _).trans_le (zero_le _)
  · refine collect_endless (serves_listPods hollow "flux-system" "") hempty
      (fun index => ⟨⟨_, rfl, by decide, hshort⟩, ?_⟩) rounds
    exact (received_hollow _).trans_le (zero_le _)
  · refine collect_endless (serves_listNodes hollow) trivial
      (fun index => ⟨⟨_, rfl, by decide, trivial⟩, ?_⟩) rounds
    exact (received_hollow _).trans_le (zero_le _)

end Atum.Kube
