import Mathlib.Data.List.Perm.Basic
import Mathlib.Data.List.Sort
import Atum.Images.Official

/-!
# The inventory of rendered images

`reconstructRenderedImages` folds the images that the selected charts render into
the images of the document.  Every image that is not a target of the document
already is mapped to its official image and merged under the identity of that
image: an identity that the document has only gets the reference, and a rendered
image with the same identity is replaced by the last one that is not from
`bigbang`.

`Merged` says what the inventory is after some observations, one observation after
the other (`Merged.observe`), and `reconstructRenderedImages_keeps_version_iff`
says when every observation is found again with its own version.
-/

namespace Atum.Images

open Atum.Go Atum.Config List
open Atum.Release (Semver)

/-! ## Sorted references -/

def compactSorted (values : List String) : List String :=
  (values.insertionSort (· ≤ ·)).foldl (fun result value =>
    if value = "" ∨ result.getLast? = some value then result else result ++ [value]) []

variable {value : String}

theorem mem_foldl_compact (values : List String) (hval : value ≠ "") :
    ∀ result : List String, value ∈ values.foldl (fun result value =>
          if value = "" ∨ result.getLast? = some value then result else result ++ [value]) result ↔
        value ∈ result ∨ value ∈ values := by
  induction values with
  | nil => simp
  | cons first rest ih =>
    intro result
    rw [foldl_cons, ih, mem_cons]
    by_cases hskip : first = "" ∨ result.getLast? = some first
    · rw [if_pos hskip]
      refine ⟨fun h => h.imp_right Or.inr, ?_⟩
      rintro (h | rfl | h)
      · exact .inl h
      · exact .inl (mem_of_getLast? (hskip.resolve_left hval))
      · exact .inr h
    · rw [if_neg hskip, mem_append, mem_singleton, or_assoc]

theorem mem_compactSorted {values : List String} (hval : value ≠ "") :
    value ∈ compactSorted values ↔ value ∈ values := by
  rw [compactSorted, mem_foldl_compact _ hval]
  simp

/-! ## The inventory -/

/-- `config.Image` with what the inventory reads and writes of it besides. -/
structure DeliveryImage extends Image where
  version : String := ""
  license : String := ""
  provenance : String := ""
  bigBangRefs : List String := []
  deriving DecidableEq, Repr

/-- `renderedImageInventory`. -/
structure Inventory where
  images : List DeliveryImage
  byID : String → Option Nat
  byTarget : String → Option Nat

/-- The index of the last item with a key, as a loop over the items records it. -/
def lastIndex {T : Type} (key : T → String) (items : List T) : String → Option Nat :=
  items.zipIdx.foldl (fun indexes entry => Function.update indexes (key entry.1) (some entry.2))
    fun _ => none

def newRenderedImageInventory (images : List DeliveryImage) : Inventory where
  images := images
  byID := lastIndex (·.id) images
  byTarget := lastIndex (·.target) images

section LastIndex

variable {T : Type} {key : T → String} {items : List T} {name : String}

theorem lastIndex_append (item : T) : lastIndex key (items ++ [item]) =
      Function.update (lastIndex key items) (key item) (some items.length) := by
  simp [lastIndex, zipIdx_append]

theorem lastIndex_eq_some {index : Nat} (h : lastIndex key items name = some index) :
    ∃ item, items[index]? = some item ∧ key item = name := by
  induction items using List.reverseRecOn with
  | nil => cases h
  | append_singleton items item ih =>
    rw [lastIndex_append, Function.update_apply] at h
    split at h
    · next hname =>
      cases h
      exact ⟨item, by simp, hname.symm⟩
    · obtain ⟨found, hfound, hkey⟩ := ih h
      exact ⟨found,
        List.getElem?_append_left (List.getElem?_eq_some_iff.mp hfound).1 ▸ hfound, hkey⟩

theorem lastIndex_eq_none_iff : lastIndex key items name = none ↔ name ∉ items.map key := by
  induction items using List.reverseRecOn with
  | nil => simp [lastIndex]
  | append_singleton items item ih =>
    rw [lastIndex_append, Function.update_apply, map_append, mem_append, not_or, ← ih]
    split
    · next hname => simp [hname]
    · next hname => simp [hname]

end LastIndex

/-- `mergeKnownTargetObservation`, none if no image has the reference as its target. -/
def mergeKnownTargetObservation (observation : RenderedImageObservation) (inventory : Inventory) :
    Option Inventory :=
  (inventory.byTarget observation.reference).map fun index =>
    { inventory with
      images := inventory.images.modify index fun image =>
        { image with consumers := compactSorted (image.consumers ++ [observation.artifact]) } }

/-- What `mergeCurrentRenderedImage` makes of the image with the identity of the candidate. -/
def mergeImage (candidate : DeliveryImage) (preferCandidate : Bool) (current : DeliveryImage) :
    DeliveryImage :=
  let references := compactSorted (current.bigBangRefs ++ candidate.bigBangRefs)
  let consumers := compactSorted (current.consumers ++ candidate.consumers)
  if current.discovery = "rendered" ∧ preferCandidate then
    { candidate with bigBangRefs := references, consumers := consumers }
  else { current with bigBangRefs := references, consumers := consumers }

/-- The targets after `mergeCurrentRenderedImage`. -/
def mergeTargets (candidate : DeliveryImage) (preferCandidate : Bool) (index : Nat)
    (byTarget : String → Option Nat) (current : DeliveryImage) : String → Option Nat :=
  if current.discovery = "rendered" ∧ preferCandidate then
    Function.update (Function.update byTarget current.target none) candidate.target (some index)
  else byTarget

def mergeCurrentRenderedImage (candidate : DeliveryImage) (preferCandidate : Bool)
    (inventory : Inventory) : Inventory :=
  match inventory.byID candidate.id with
  | some index =>
    { inventory with
      images := inventory.images.modify index (mergeImage candidate preferCandidate)
      byTarget := (inventory.images[index]?).elim inventory.byTarget
        (mergeTargets candidate preferCandidate index inventory.byTarget) }
  | none =>
    { images := inventory.images ++ [candidate]
      byID := Function.update inventory.byID candidate.id (some inventory.images.length)
      byTarget := Function.update inventory.byTarget candidate.target
        (some inventory.images.length) }

/-- `DeliveryPolicy`, as far as the inventory reads it. -/
structure Policy where
  runtimeRegistryPrefix : String
  buildBase : String

/-- The image that an observation proposes. -/
def candidateImage (policy : Policy) (observation : RenderedImageObservation)
    (spec : OfficialImageSpec) : Except String DeliveryImage :=
  let version := if spec.version = "" then trimPrefix (imageTag spec.source) "v" else spec.version
  let targetTag := if spec.targetTag = "" then imageTag spec.source else spec.targetTag
  if targetTag = "" then
    .error (observation.artifact ++ " official candidate " ++ spec.source ++
      " has no internal target tag")
  else
    let targetName := if spec.targetName ≠ "" then spec.targetName else spec.id
    .ok {
      id := spec.id
      family := spec.family
      version := version
      target := policy.runtimeRegistryPrefix ++ (targetName ++ ":" ++ targetTag)
      scopes := ["bigbang"]
      runtime := true
      license := spec.license
      provenance := spec.provenance
      consumers := [observation.artifact]
      bigBangRefs := [observation.reference]
      discovery := "rendered"
      delivery :=
        { type := .mirror
          source := spec.source
          digest := "sha256:" ++ String.ofList (List.replicate 64 '0') } }

section Reconstruction

variable (policy : Policy) (kubernetesVersion : String) (kubectlVersions : List (String × String))

/-- The body of the first loop, for a reference without the prefix of the registry. -/
def mergeObservation (observation : RenderedImageObservation) (inventory : Inventory) :
    Except String Inventory :=
  match mergeKnownTargetObservation observation inventory with
  | some inventory => .ok inventory
  | none => do
    let spec ← officialImageForObservation observation kubernetesVersion kubectlVersions
      policy.buildBase
    let candidate ← candidateImage policy observation spec
    return mergeCurrentRenderedImage candidate (observation.artifact != "bigbang") inventory

/-- The first loop; the references with the prefix are put aside. -/
def mergeObservations : List RenderedImageObservation → Inventory →
    List RenderedImageObservation → Except String (Inventory × List RenderedImageObservation)
  | [], inventory, projected => .ok (inventory, projected)
  | observation :: rest, inventory, projected =>
    if hasPrefix observation.reference policy.runtimeRegistryPrefix then
      mergeObservations rest inventory (projected ++ [observation])
    else do
      let inventory ←
        mergeObservation policy kubernetesVersion kubectlVersions observation inventory
      mergeObservations rest inventory projected

/-- The second loop. -/
def mergeProjected : List RenderedImageObservation → Inventory → Except String Inventory
  | [], inventory => .ok inventory
  | observation :: rest, inventory =>
    match mergeKnownTargetObservation observation inventory with
    | some inventory => mergeProjected rest inventory
    | none => .error (observation.artifact ++ " selected-source render uses projected target " ++
        observation.reference ++ " without an exact current source binding")

end Reconstruction

/-- The observations in the order of the artifacts, before they are sorted. -/
def imageObservations (artifacts : List String) (inspections : List ChartInspection) :
    List RenderedImageObservation :=
  (artifacts.zip inspections).flatMap fun (artifact, inspection) =>
    (observedSourceImages inspection).map fun reference =>
      { artifact := artifact
        reference := reference
        inspection := inspection
        invocations := inspection.invocations.filter fun invocation =>
          invocation.repository = imageRepository reference }

/-- What the reconstruction takes from outside: the semantic-version package, the answer
of the registry of kubectl, the order of a loop over a map, and the two sorts, which
leave the order of equal items open. -/
structure Sources where
  semver : Semver
  listTags : Except String (List String)
  mapOrder : List (String × String) → List (String × String)
  sortObservations : List RenderedImageObservation → List RenderedImageObservation
  sortImages : List DeliveryImage → List DeliveryImage

/-- The sorts permute. -/
structure Sources.Lawful (sources : Sources) : Prop where
  observations : ∀ items, (sources.sortObservations items).Perm items
  images : ∀ items, (sources.sortImages items).Perm items

/-- `reconstructRenderedImages`: the patches of kubectl, and the images as it leaves them. -/
def reconstructRenderedImages (sources : Sources) (policy : Policy) (images : List DeliveryImage)
    (artifacts : List String) (inspections : List ChartInspection) (kubernetesVersion : String) :
    Except String (List (String × String) × List DeliveryImage) := do
  if artifacts.length ≠ inspections.length then
    throw "current rendered image observation set is incomplete"
  let observations := sources.sortObservations (imageObservations artifacts inspections)
  let kubectlVersions ← resolveKubectlMinorTags sources.semver sources.listTags sources.mapOrder
    observations kubernetesVersion
  let (inventory, projected) ← mergeObservations policy kubernetesVersion kubectlVersions
    observations (newRenderedImageInventory images) []
  let inventory ← mergeProjected projected inventory
  return (kubectlVersions, sources.sortImages inventory.images)

/-! ## What the inventory holds -/

/-- An observation with its official image. -/
abbrev Mapped := RenderedImageObservation × OfficialImageSpec

/-- The image at an index of the inventory, after the observations `taken` were merged
into it.  The images after those of the document are the rendered ones. -/
structure Holds (policy : Policy) (images : List DeliveryImage) (index : Nat) (taken : List Mapped)
    (image : DeliveryImage) : Prop where
  references : ∀ reference, reference ≠ "" → (reference ∈ image.bigBangRefs ↔
    (∃ original, images[index]? = some original ∧ reference ∈ original.bigBangRefs) ∨
      ∃ mapped ∈ taken, mapped.1.reference = reference)
  rendered : image.discovery = "rendered" ↔ images.length ≤ index
  mirror : images.length ≤ index → image.delivery.type = .mirror
  target : images.length ≤ index → hasPrefix image.target policy.runtimeRegistryPrefix = true
  source : images.length ≤ index → ∀ mapped ∈ taken, mapped.1.artifact ≠ "bigbang" →
    ∃ other ∈ taken, other.1.artifact ≠ "bigbang" ∧ image.delivery.source = other.2.source

/-- The observations whose identities have an index. -/
def taken (byID : String → Option Nat) (done : List Mapped) (index : Nat) : List Mapped :=
  done.filter fun mapped => byID mapped.2.id = some index

/-- The inventory after the observations `done`. -/
structure Merged (policy : Policy) (images : List DeliveryImage) (done : List Mapped)
    (inventory : Inventory) : Prop where
  length_le : images.length ≤ inventory.images.length
  holds : ∀ index image, inventory.images[index]? = some image →
    Holds policy images index (taken inventory.byID done index) image
  byID : ∀ id index, inventory.byID id = some index →
    ∃ image, inventory.images[index]? = some image ∧ image.id = id
  document : ∀ id index, index < images.length →
    (inventory.byID id = some index ↔ lastIndex (·.id) images id = some index)
  found : ∀ mapped ∈ done, inventory.byID mapped.2.id ≠ none
  byTarget : ∀ reference, hasPrefix reference policy.runtimeRegistryPrefix = false →
    inventory.byTarget reference = lastIndex (·.target) images reference

section Merged

variable {policy : Policy} {images : List DeliveryImage} {done : List Mapped}
  {inventory : Inventory} {observation : RenderedImageObservation} {spec : OfficialImageSpec}
  {candidate : DeliveryImage}

theorem merged_new (policy : Policy) (hfresh : ∀ image ∈ images, image.discovery ≠ "rendered") :
    Merged policy images [] (newRenderedImageInventory images) where
  length_le := le_rfl
  holds index image himage := by
    have hlt : ¬ images.length ≤ index := Nat.not_le.mpr (List.getElem?_eq_some_iff.mp himage).1
    refine ⟨fun reference _ => ?_, iff_of_false (hfresh _ (mem_of_getElem? himage)) hlt,
      fun hle => absurd hle hlt, fun hle => absurd hle hlt, fun hle => absurd hle hlt⟩
    have himage : images[index]? = some image := himage
    simp [taken, himage]
  byID id index h := lastIndex_eq_some h
  document _ _ _ := .rfl
  found mapped hmapped := by cases hmapped
  byTarget _ _ := rfl

variable (h : Merged policy images done inventory)

variable {index : Nat}

/-- A change of one image that keeps its identity. -/
theorem Merged.modify (h : Merged policy images done inventory) {done' : List Mapped}
    {change : DeliveryImage → DeliveryImage} {byTarget' : String → Option Nat}
    (hid : ∀ image, inventory.images[index]? = some image → (change image).id = image.id)
    (hholds : ∀ other image, inventory.images[other]? = some image →
      Holds policy images other (taken inventory.byID done other) image →
      Holds policy images other (taken inventory.byID done' other)
        (if index = other then change image else image))
    (hfound : ∀ mapped ∈ done', inventory.byID mapped.2.id ≠ none)
    (htgt : ∀ reference, hasPrefix reference policy.runtimeRegistryPrefix = false →
      byTarget' reference = inventory.byTarget reference) : Merged policy images done'
      { inventory with images := inventory.images.modify index change, byTarget := byTarget' } := by
  have hget : ∀ other, (inventory.images.modify index change)[other]? =
      (inventory.images[other]?).map fun image => if index = other then change image else image :=
    fun other => List.getElem?_modify change index inventory.images other
  refine ⟨?_, ?_, ?_, h.document, hfound, ?_⟩
  · rw [length_modify]
    exact h.length_le
  · intro other image himage
    rw [hget] at himage
    obtain ⟨before, hbefore, rfl⟩ := Option.map_eq_some_iff.mp himage
    exact hholds other before hbefore (h.holds other before hbefore)
  · intro id other hlook
    obtain ⟨image, himage, himageId⟩ := h.byID id other hlook
    refine ⟨_, by rw [hget, himage, Option.map_some], ?_⟩
    split
    · next heq => rw [hid image (heq ▸ himage), himageId]
    · exact himageId
  · intro reference href
    exact (htgt reference href).trans (h.byTarget reference href)

variable {inventory' : Inventory}

include h in
/-- Consumers are not part of the invariant. -/
theorem Merged.known
    (hknown : mergeKnownTargetObservation observation inventory = some inventory') :
    Merged policy images done inventory' := by
  obtain ⟨index, -, rfl⟩ := Option.map_eq_some_iff.mp hknown
  refine h.modify (fun _ _ => rfl) (fun other image _ hholds => ?_) h.found fun _ _ => rfl
  split
  · exact ⟨hholds.references, hholds.rendered, hholds.mirror, hholds.target, hholds.source⟩
  · exact hholds

theorem exists_mem_snoc {P : Mapped → Prop} {last : Mapped} :
    (∃ mapped ∈ done ++ [last], P mapped) ↔ (∃ mapped ∈ done, P mapped) ∨ P last := by
  simp [or_and_right, exists_or]

/-- What the candidate of an observation is. -/
theorem candidateImage_ok (h : candidateImage policy observation spec = .ok candidate) :
    candidate.id = spec.id ∧ candidate.bigBangRefs = [observation.reference] ∧
      candidate.discovery = "rendered" ∧ candidate.delivery.type = .mirror ∧
      candidate.delivery.source = spec.source ∧
      hasPrefix candidate.target policy.runtimeRegistryPrefix = true := by
  simp only [candidateImage] at h
  by_cases htag : (if spec.targetTag = "" then imageTag spec.source else spec.targetTag) = ""
  · rw [if_pos htag] at h
    cases h
  rw [if_neg htag] at h
  cases h
  refine ⟨rfl, rfl, rfl, rfl, rfl, ?_⟩
  rw [hasPrefix, String.toList_append, isPrefixOf_iff_prefix]
  exact prefix_append _ _

variable {current : DeliveryImage} {prefer : Bool}

theorem mem_bigBangRefs_mergeImage {reference : String}
    (href : reference ≠ "") (hcand : candidate.bigBangRefs = [observation.reference]) :
    reference ∈ (mergeImage candidate prefer current).bigBangRefs ↔
      reference ∈ current.bigBangRefs ∨ observation.reference = reference := by
  have hrefs : (mergeImage candidate prefer current).bigBangRefs =
      compactSorted (current.bigBangRefs ++ candidate.bigBangRefs) := by
    unfold mergeImage
    split <;> rfl
  rw [hrefs, mem_compactSorted href, mem_append, hcand, mem_singleton]
  exact or_congr_right eq_comm

theorem mergeImage_cases (candidate : DeliveryImage) (prefer : Bool) (current : DeliveryImage) :
    (current.discovery = "rendered" ∧ prefer = true ∧
        (mergeImage candidate prefer current).toImage = { candidate.toImage with
            consumers := (mergeImage candidate prefer current).consumers }) ∨
      (¬ (current.discovery = "rendered" ∧ prefer = true) ∧
        (mergeImage candidate prefer current).toImage =
          { current.toImage with
            consumers := (mergeImage candidate prefer current).consumers }) := by
  unfold mergeImage
  by_cases h : current.discovery = "rendered" ∧ prefer = true
  · exact .inl ⟨h.1, h.2, by simp only [if_pos h]⟩
  · exact .inr ⟨h, by simp only [if_neg h]⟩

theorem mergeImage_id (prefer : Bool) (hid : current.id = candidate.id) :
    (mergeImage candidate prefer current).id = current.id := by
  rcases mergeImage_cases candidate prefer current with ⟨-, -, heq⟩ | ⟨-, heq⟩
  · rw [heq]
    exact hid.symm
  · rw [heq]

/-- The image with the identity of the candidate takes the observation up. -/
theorem Holds.merge {before : List Mapped} (h : Holds policy images index before current)
    (hcand : candidateImage policy observation spec = .ok candidate) :
    Holds policy images index (before ++ [(observation, spec)])
      (mergeImage candidate (observation.artifact != "bigbang") current) := by
  obtain ⟨-, hrefs, hrend, hmirror, hsrc, htgt⟩ := candidateImage_ok hcand
  have hreferences : ∀ reference, reference ≠ "" →
      (reference ∈ (mergeImage candidate (observation.artifact != "bigbang") current).bigBangRefs ↔
        (∃ original, images[index]? = some original ∧ reference ∈ original.bigBangRefs) ∨
          ∃ mapped ∈ before ++ [(observation, spec)], mapped.1.reference = reference) := by
    intro reference href
    rw [mem_bigBangRefs_mergeImage href hrefs, h.references reference href, exists_mem_snoc,
      or_assoc]
  rcases mergeImage_cases candidate (observation.artifact != "bigbang") current with
    ⟨hcur, hprefer, heq⟩ | ⟨hkeep, heq⟩
  · refine ⟨hreferences, ?_, fun _ => by rw [heq]; exact hmirror, fun _ => by rw [heq]; exact htgt,
      fun _ mapped hmapped hartifact => ?_⟩
    · rw [heq]
      exact iff_of_true hrend (h.rendered.mp hcur)
    · refine ⟨(observation, spec), mem_append_right _ (mem_singleton_self _),
        bne_iff_ne.mp hprefer, ?_⟩
      rw [heq]
      exact hsrc
  refine ⟨hreferences, by rw [heq]; exact h.rendered, fun hle => by rw [heq]; exact h.mirror hle,
    fun hle => by rw [heq]; exact h.target hle, fun hle mapped hmapped hartifact => ?_⟩
  rw [exists_mem_snoc, heq]
  rcases mem_append.mp hmapped with hold | hlast
  · exact .inl (h.source hle mapped hold hartifact)
  · -- Only an observation of bigbang leaves a rendered image as it is.
    obtain rfl := mem_singleton.mp hlast
    exact absurd ⟨h.rendered.mpr hle, bne_iff_ne.mpr hartifact⟩ hkeep

theorem taken_snoc {byID : String → Option Nat} (hidx : byID spec.id = some index) (other : Nat) :
    taken byID (done ++ [(observation, spec)]) other =
      taken byID done other ++ if index = other then [(observation, spec)] else [] := by
  rw [taken, filter_append, filter_cons, filter_nil, hidx]
  simp [taken]

include h in
theorem Merged.found_snoc {byID' : String → Option Nat} (hnew : byID' spec.id ≠ none)
    (hold : ∀ id index, inventory.byID id = some index → byID' id = some index) :
    ∀ mapped ∈ done ++ [(observation, spec)], byID' mapped.2.id ≠ none := by
  intro mapped hmapped
  rcases mem_append.mp hmapped with hdone | hlast
  · obtain ⟨index, hidx⟩ := Option.ne_none_iff_exists'.mp (h.found mapped hdone)
    simp [hold _ _ hidx]
  · obtain rfl := mem_singleton.mp hlast
    exact hnew

include h in
/-- A candidate whose identity the inventory has. -/
theorem Merged.merge_found (hcand : candidateImage policy observation spec = .ok candidate)
    (hidx : inventory.byID candidate.id = some index) :
    Merged policy images (done ++ [(observation, spec)])
      (mergeCurrentRenderedImage candidate (observation.artifact != "bigbang") inventory) := by
  obtain ⟨hcid, -, -, -, -, htgt⟩ := candidateImage_ok hcand
  obtain ⟨current, hcur, hcurrentId⟩ := h.byID _ _ hidx
  simp only [mergeCurrentRenderedImage, hidx, hcur, Option.elim_some]
  rw [hcid] at hidx
  refine h.modify ?_ ?_ (h.found_snoc (by simp [hidx]) fun _ _ hlook => hlook) ?_
  · intro image himage
    obtain rfl := Option.some.inj (hcur.symm.trans himage)
    exact mergeImage_id _ hcurrentId
  · intro other image _ hholds
    rw [taken_snoc hidx]
    split
    · exact hholds.merge hcand
    · rwa [append_nil]
  intro reference href
  have hne : ∀ target, hasPrefix target policy.runtimeRegistryPrefix = true →
      reference ≠ target := by
    rintro target hprefixed rfl
    rw [href] at hprefixed
    cases hprefixed
  unfold mergeTargets
  split
  · next hrep =>
    have hholds := h.holds index current hcur
    rw [Function.update_of_ne (hne _ htgt), Function.update_of_ne
      (hne _ (hholds.target (hholds.rendered.mp hrep.1)))]
  · rfl

include h in
/-- A candidate with a new identity. -/
theorem Merged.merge_new
    (hcand : candidateImage policy observation spec = .ok candidate) (prefer : Bool)
    (hnone : inventory.byID candidate.id = none) :
    Merged policy images (done ++ [(observation, spec)])
      (mergeCurrentRenderedImage candidate prefer inventory) := by
  obtain ⟨hcid, hrefs, hrend, hmirror, hsrc, htgt⟩ := candidateImage_ok hcand
  simp only [mergeCurrentRenderedImage, hnone]
  have hlen := h.length_le
  have hupdate : ∀ id index, Function.update inventory.byID candidate.id
        (some inventory.images.length) id = some index ↔
      id = candidate.id ∧ inventory.images.length = index ∨ inventory.byID id = some index := by
    intro id index
    rw [Function.update_apply]
    split
    · next heq => simp [heq, hnone]
    · next hne => simp [hne]
  generalize Function.update inventory.byID candidate.id (some inventory.images.length) = byID'
    at hupdate ⊢
  have hself : byID' spec.id = some inventory.images.length :=
    (hupdate _ _).mpr (.inl ⟨hcid.symm, rfl⟩)
  have hother : ∀ id index, inventory.byID id = some index → byID' id = some index :=
    fun id index hidx => (hupdate id index).mpr (.inr hidx)
  have htaken : ∀ index, taken byID' done index = taken inventory.byID done index := by
    intro index
    refine filter_congr fun mapped hmapped => ?_
    obtain ⟨found, hfound⟩ := Option.ne_none_iff_exists'.mp (h.found mapped hmapped)
    rw [hfound, hother _ _ hfound]
  have hlast : ∀ id, inventory.byID id ≠ some inventory.images.length := by
    intro id hidx
    obtain ⟨image, himage, -⟩ := h.byID _ _ hidx
    simp at himage
  refine ⟨?_, ?_, ?_, ?_, h.found_snoc (by simp [hself]) hother, ?_⟩
  · rw [length_append]
    omega
  · intro index image himage
    rw [taken_snoc hself, htaken]
    rcases Nat.lt_or_ge index inventory.images.length with hlt | hge
    · rw [List.getElem?_append_left hlt] at himage
      rw [if_neg hlt.ne', append_nil]
      exact h.holds index image himage
    rw [List.getElem?_append_right hge, List.getElem?_singleton] at himage
    split at himage
    · next hzero =>
      cases himage
      obtain rfl : inventory.images.length = index := by omega
      have hempty : taken inventory.byID done inventory.images.length = [] :=
        filter_eq_nil_iff.mpr fun mapped _ hlook => hlast _ (of_decide_eq_true hlook)
      rw [if_pos rfl, hempty, nil_append]
      refine ⟨fun reference _ => ?_, iff_of_true hrend hlen, fun _ => hmirror, fun _ => htgt,
        fun _ mapped hmapped hartifact => ⟨mapped, hmapped, hartifact, ?_⟩⟩
      · rw [hrefs, List.getElem?_eq_none hlen]
        simp [eq_comm]
      · rw [mem_singleton.mp hmapped, hsrc]
    · cases himage
  · intro id index hidx
    rcases (hupdate id index).mp hidx with ⟨rfl, rfl⟩ | hidx
    · exact ⟨candidate, by simp, rfl⟩
    · obtain ⟨image, himage, hid⟩ := h.byID id index hidx
      refine ⟨image, ?_, hid⟩
      rw [List.getElem?_append_left (List.getElem?_eq_some_iff.mp himage).1, himage]
  · intro id index hlt
    rw [← h.document id index hlt]
    refine ⟨fun hidx => ((hupdate id index).mp hidx).resolve_left ?_, hother id index⟩
    omega
  intro reference href
  show Function.update inventory.byTarget candidate.target _ reference = _
  rw [Function.update_of_ne, h.byTarget reference href]
  rintro rfl
  rw [htgt] at href
  cases href

include h in
/-- What one observation does to the inventory. -/
theorem Merged.observe {kubernetesVersion : String} {kubectlVersions : List (String × String)}
    (hplain : hasPrefix observation.reference policy.runtimeRegistryPrefix = false)
    (hok : mergeObservation policy kubernetesVersion kubectlVersions observation inventory =
      .ok inventory') :
    if observation.reference ∈ images.map (·.target) then Merged policy images done inventory'
    else ∃ spec, officialImageForObservation observation kubernetesVersion kubectlVersions
        policy.buildBase = .ok spec ∧
      Merged policy images (done ++ [(observation, spec)]) inventory' := by
  have htgt := h.byTarget _ hplain
  unfold mergeObservation at hok
  split
  · next hmem =>
    cases hknown : mergeKnownTargetObservation observation inventory with
    | some known =>
      rw [hknown] at hok
      cases hok
      exact h.known hknown
    | none =>
      rw [mergeKnownTargetObservation, Option.map_eq_none_iff, htgt,
        lastIndex_eq_none_iff] at hknown
      exact absurd hmem hknown
  · next hmem =>
    have hnone : mergeKnownTargetObservation observation inventory = none := by
      rw [mergeKnownTargetObservation, Option.map_eq_none_iff, htgt, lastIndex_eq_none_iff]
      exact hmem
    rw [hnone] at hok
    obtain ⟨spec, hspec, hok⟩ := bind_eq_ok.mp hok
    obtain ⟨candidate, hcand, hok⟩ := bind_eq_ok.mp hok
    cases hok
    refine ⟨spec, hspec, ?_⟩
    cases hidx : inventory.byID candidate.id with
    | some index => exact h.merge_found hcand hidx
    | none => exact h.merge_new hcand _ hidx

end Merged

/-! ## The whole reconstruction -/

/-- The observation is neither a target of the document nor one of its registry. -/
def Pending (policy : Policy) (images : List DeliveryImage)
    (observation : RenderedImageObservation) : Prop :=
  hasPrefix observation.reference policy.runtimeRegistryPrefix = false ∧
    observation.reference ∉ images.map (·.target)

instance (policy : Policy) (images : List DeliveryImage) :
    DecidablePred (Pending policy images) :=
  fun _ => inferInstanceAs (Decidable (_ ∧ _))

section Run

variable {policy : Policy} {images : List DeliveryImage} {done : List Mapped}
  {inventory inventory' : Inventory} {kubernetesVersion : String}
  {kubectlVersions : List (String × String)}

/-- The observations with their official images. -/
def MapsTo (policy : Policy) (kubernetesVersion : String)
    (kubectlVersions : List (String × String)) (mapped : Mapped) : Prop :=
  officialImageForObservation mapped.1 kubernetesVersion kubectlVersions policy.buildBase =
    .ok mapped.2

variable {observations : List RenderedImageObservation}

theorem Merged.run {projected projected' : List RenderedImageObservation}
    (h : Merged policy images done inventory)
    (hok : mergeObservations policy kubernetesVersion kubectlVersions observations inventory
      projected = .ok (inventory', projected')) :
    ∃ new : List Mapped, Merged policy images (done ++ new) inventory' ∧
      new.map Prod.fst = observations.filter (Pending policy images ·) ∧
      ∀ mapped ∈ new, MapsTo policy kubernetesVersion kubectlVersions mapped := by
  induction observations generalizing done inventory projected with
  | nil =>
    cases hok
    exact ⟨[], by rwa [append_nil], rfl, fun _ hmapped => by cases hmapped⟩
  | cons observation rest ih =>
    rw [mergeObservations] at hok
    by_cases hprefixed : hasPrefix observation.reference policy.runtimeRegistryPrefix = true
    · have hnot : ¬ Pending policy images observation := fun hpending =>
        absurd (hprefixed.symm.trans hpending.1) (by decide)
      rw [if_pos hprefixed] at hok
      rw [filter_cons_of_neg (by rwa [decide_eq_true_iff])]
      exact ih h hok
    have hplain := Bool.not_eq_true _ ▸ hprefixed
    rw [if_neg hprefixed] at hok
    obtain ⟨between, hbetween, hok⟩ := bind_eq_ok.mp hok
    have hstep := h.observe hplain hbetween
    split at hstep
    · next hmem =>
      have hnot : ¬ Pending policy images observation := fun hpending => hpending.2 hmem
      rw [filter_cons_of_neg (by rwa [decide_eq_true_iff])]
      exact ih hstep hok
    next hmem =>
    obtain ⟨spec, hspec, hmerged⟩ := hstep
    obtain ⟨new, hnew, hfst, hall⟩ := ih hmerged hok
    have hpending : Pending policy images observation := ⟨hplain, hmem⟩
    rw [filter_cons_of_pos (by rwa [decide_eq_true_iff])]
    refine ⟨(observation, spec) :: new, ?_, by rw [map_cons, hfst],
      forall_mem_cons.mpr ⟨hspec, hall⟩⟩
    rwa [append_cons]

theorem Merged.projected (h : Merged policy images done inventory)
    (hok : mergeProjected observations inventory = .ok inventory') :
    Merged policy images done inventory' := by
  induction observations generalizing inventory with
  | nil =>
    cases hok
    exact h
  | cons observation rest ih =>
    rw [mergeProjected] at hok
    split at hok
    · next known hknown => exact ih (h.known hknown) hok
    · cases hok

/-- What a successful reconstruction has merged. -/
theorem reconstructRenderedImages_ok {sources : Sources} (hsources : sources.Lawful)
    {artifacts : List String} {inspections : List ChartInspection} {images' : List DeliveryImage}
    (hfresh : ∀ image ∈ images, image.discovery ≠ "rendered")
    (hok : reconstructRenderedImages sources policy images artifacts inspections kubernetesVersion =
      .ok (kubectlVersions, images')) :
    ∃ done inventory, Merged policy images done inventory ∧ images'.Perm inventory.images ∧
      (∀ mapped : Mapped, mapped ∈ done ↔ mapped.1 ∈ imageObservations artifacts inspections ∧
        Pending policy images mapped.1 ∧ MapsTo policy kubernetesVersion kubectlVersions mapped) ∧
      ∀ observation ∈ imageObservations artifacts inspections, Pending policy images observation →
        ∃ spec, MapsTo policy kubernetesVersion kubectlVersions (observation, spec) := by
  obtain ⟨-, hok⟩ := ite_throw_bind_eq_ok.mp hok
  obtain ⟨versions, -, hok⟩ := bind_eq_ok.mp hok
  obtain ⟨⟨between, projected⟩, hbetween, hok⟩ := bind_eq_ok.mp hok
  obtain ⟨inventory, hinventory, hok⟩ := bind_eq_ok.mp hok
  obtain ⟨rfl, rfl⟩ := Prod.mk.inj (Except.ok.inj hok)
  obtain ⟨done, hmerged, hfst, hall⟩ := (merged_new policy hfresh).run hbetween
  have hmem : ∀ observation, (∃ spec, (observation, spec) ∈ done) ↔
      observation ∈ imageObservations artifacts inspections ∧
        Pending policy images observation := by
    intro observation
    have hfirst : observation ∈ done.map Prod.fst ↔ ∃ spec, (observation, spec) ∈ done := by simp
    rw [← hfirst, hfst, mem_filter, (hsources.observations _).mem_iff, decide_eq_true_iff]
  refine ⟨done, inventory, hmerged.projected hinventory, hsources.images _, ?_, ?_⟩
  · rintro ⟨observation, spec⟩
    constructor
    · intro hmapped
      obtain ⟨hin, hpending⟩ := (hmem observation).mp ⟨spec, hmapped⟩
      exact ⟨hin, hpending, hall _ hmapped⟩
    rintro ⟨hin, hpending, hmapsTo⟩
    obtain ⟨found, hfound⟩ := (hmem observation).mpr ⟨hin, hpending⟩
    have hother : MapsTo policy kubernetesVersion versions (observation, found) := hall _ hfound
    have hsame : spec = found := Except.ok.inj (hmapsTo.symm.trans hother)
    exact hsame ▸ hfound
  · intro observation hin hpending
    obtain ⟨spec, hspec⟩ := (hmem observation).mpr ⟨hin, hpending⟩
    exact ⟨spec, hall _ hspec⟩

end Run

/-! ## One image for every observation -/

/-- One item of a list satisfies a predicate: those at one index. -/
theorem countP_eq_one_iff {T : Type} {p : T → Bool} {items : List T} {index : Nat} {item : T}
    (hitem : items[index]? = some item) (hp : p item = true) : items.countP p = 1 ↔
      ∀ other found, items[other]? = some found → p found = true → other = index := by
  obtain ⟨hlt, rfl⟩ := List.getElem?_eq_some_iff.mp hitem
  have hcount := (getElem_cons_eraseIdx_perm hlt).countP_eq p
  rw [countP_cons_of_pos hp] at hcount
  rw [← hcount, Nat.add_eq_right, countP_eq_zero]
  constructor
  · intro hnone other found hfound hpfound
    by_contra hne
    exact hnone found (mem_eraseIdx_iff_getElem?.mpr ⟨other, hne, hfound⟩) hpfound
  · intro hall found hfound hpfound
    obtain ⟨other, hne, hother⟩ := mem_eraseIdx_iff_getElem?.mp hfound
    exact hne (hall other found hother hpfound)

section Versions

variable {policy : Policy} {images : List DeliveryImage} {done : List Mapped}
  {inventory : Inventory} {kubernetesVersion : String} {kubectlVersions : List (String × String)}
  (h : Merged policy images done inventory) {index : Nat}

/-- The reference is found in one image, and a rendered image has the source that the
observation is mapped to. -/
structure KeepsVersion (policy : Policy) (kubernetesVersion : String)
    (kubectlVersions : List (String × String)) (images : List DeliveryImage)
    (observation : RenderedImageObservation) : Prop where
  once : images.countP (fun image => observation.reference ∈ image.bigBangRefs) = 1
  source : ∀ image ∈ images, observation.reference ∈ image.bigBangRefs →
    image.discovery = "rendered" → image.delivery.type = .mirror ∧
      ∃ spec, officialImageForObservation observation kubernetesVersion kubectlVersions
          policy.buildBase = .ok spec ∧ image.delivery.source = spec.source

/-- The other images and observations that an observation has to agree with. -/
structure Distinguished (policy : Policy) (kubernetesVersion : String)
    (kubectlVersions : List (String × String)) (images : List DeliveryImage)
    (observations : List RenderedImageObservation) (mapped : Mapped) : Prop where
  /-- No image of the document has the reference, except the one it is merged into. -/
  document : ∀ index image, images[index]? = some image →
    mapped.1.reference ∈ image.bigBangRefs → lastIndex (·.id) images mapped.2.id = some index
  /-- Other observations of the reference are mapped to the same identity. -/
  identity : ∀ other : Mapped, other.1 ∈ observations → Pending policy images other.1 →
    MapsTo policy kubernetesVersion kubectlVersions other →
    other.1.reference = mapped.1.reference → other.2.id = mapped.2.id
  /-- Other observations of a new identity are mapped to the same source. -/
  version : mapped.2.id ∉ images.map (·.id) → ∀ other : Mapped, other.1 ∈ observations →
    Pending policy images other.1 → MapsTo policy kubernetesVersion kubectlVersions other →
    other.1.artifact ≠ "bigbang" → other.2.id = mapped.2.id → other.2.source = mapped.2.source

variable {mapped : Mapped}

include h in
/-- The image of an observation that was merged. -/
theorem Merged.image_of_mapped (hmapped : mapped ∈ done) (href : mapped.1.reference ≠ "") :
    ∃ index image, inventory.byID mapped.2.id = some index ∧
      inventory.images[index]? = some image ∧ mapped.1.reference ∈ image.bigBangRefs := by
  obtain ⟨index, hidx⟩ := Option.ne_none_iff_exists'.mp (h.found mapped hmapped)
  obtain ⟨image, himage, -⟩ := h.byID _ _ hidx
  refine ⟨index, image, hidx, himage, ((h.holds index image himage).references _ href).mpr ?_⟩
  exact .inr ⟨mapped, mem_filter.mpr ⟨hmapped, decide_eq_true hidx⟩, rfl⟩

include h in
theorem Merged.id_inj {id id' : String} (hid : inventory.byID id = some index)
    (hid' : inventory.byID id' = some index) : id = id' := by
  obtain ⟨image, himage, rfl⟩ := h.byID _ _ hid
  obtain ⟨image', himage', rfl⟩ := h.byID _ _ hid'
  rw [Option.some.inj (himage.symm.trans himage')]

include h in
/-- An identity that the document does not have is found after the document. -/
theorem Merged.length_le_iff {id : String} (hidx : inventory.byID id = some index) :
    images.length ≤ index ↔ id ∉ images.map (·.id) := by
  rw [← lastIndex_eq_none_iff]
  constructor
  · intro hle
    refine Option.eq_none_iff_forall_ne_some.mpr fun last hlast => ?_
    obtain ⟨item, hitem, -⟩ := lastIndex_eq_some hlast
    have hlt := (List.getElem?_eq_some_iff.mp hitem).1
    rw [(h.document id last hlt).mpr hlast] at hidx
    cases hidx
    omega
  · intro hnone
    by_contra hlt
    rw [(h.document id index (by omega)).mp hidx] at hnone
    cases hnone

include h in
/-- The reference of an observation is found once exactly if the document and the other
observations agree with it. -/
theorem Merged.once_iff (hmapped : mapped ∈ done) (hreference : mapped.1.reference ≠ "") :
    inventory.images.countP (fun image => mapped.1.reference ∈ image.bigBangRefs) = 1 ↔
      (∀ index image, images[index]? = some image → mapped.1.reference ∈ image.bigBangRefs →
        lastIndex (·.id) images mapped.2.id = some index) ∧
      ∀ other ∈ done, other.1.reference = mapped.1.reference → other.2.id = mapped.2.id := by
  obtain ⟨index, image, hidx, himage, hmem⟩ := h.image_of_mapped hmapped hreference
  rw [countP_eq_one_iff himage (decide_eq_true hmem)]
  constructor
  · intro hall
    constructor
    · intro other original horiginal hin
      have hlt := (List.getElem?_eq_some_iff.mp horiginal).1
      have hfound := List.getElem?_eq_getElem (lt_of_lt_of_le hlt h.length_le)
      obtain rfl := hall other _ hfound (decide_eq_true
        (((h.holds other _ hfound).references _ hreference).mpr (.inl ⟨original, horiginal, hin⟩)))
      exact (h.document _ _ hlt).mp hidx
    · intro other hother href
      obtain ⟨index', image', hidx', himage', hmem'⟩ :=
        h.image_of_mapped hother (href ▸ hreference)
      obtain rfl := hall index' image' himage' (decide_eq_true (href ▸ hmem'))
      exact h.id_inj hidx' hidx
  · rintro ⟨hdoc, hident⟩ other found hfound hin
    rcases ((h.holds other found hfound).references _ hreference).mp (of_decide_eq_true hin) with
      ⟨original, horiginal, hin'⟩ | ⟨other', hother', href⟩
    · have hlt := (List.getElem?_eq_some_iff.mp horiginal).1
      have hlast := (h.document _ _ hlt).mpr (hdoc other original horiginal hin')
      exact Option.some.inj (hlast.symm.trans hidx)
    · obtain ⟨hother', hidx'⟩ := mem_filter.mp hother'
      rw [hident other' hother' href, hidx, decide_eq_true_iff] at hidx'
      exact (Option.some.inj hidx').symm

include h in
/-- The source of the rendered image of an observation comes from an observation of the
same identity. -/
theorem Merged.source_of_once (hmapped : mapped ∈ done) (href : mapped.1.reference ≠ "")
    (hartifact : mapped.1.artifact ≠ "bigbang")
    (honce : inventory.images.countP (fun image => mapped.1.reference ∈ image.bigBangRefs) = 1)
    {image : DeliveryImage} (himage : image ∈ inventory.images)
    (hin : mapped.1.reference ∈ image.bigBangRefs) (hrend : image.discovery = "rendered") :
    image.delivery.type = .mirror ∧ mapped.2.id ∉ images.map (·.id) ∧
      ∃ other ∈ done, other.1.artifact ≠ "bigbang" ∧ other.2.id = mapped.2.id ∧
        image.delivery.source = other.2.source := by
  obtain ⟨index, found, hidx, hfound, hmem⟩ := h.image_of_mapped hmapped href
  obtain ⟨position, hpos⟩ := mem_iff_getElem?.mp himage
  obtain rfl := (countP_eq_one_iff hfound (decide_eq_true hmem)).mp honce position image hpos
    (decide_eq_true hin)
  have hholds := h.holds _ _ hpos
  have hle := hholds.rendered.mp hrend
  obtain ⟨other, hother, hbigbang, hsource⟩ := hholds.source hle mapped
    (mem_filter.mpr ⟨hmapped, decide_eq_true hidx⟩) hartifact
  obtain ⟨hother, hotherIdx⟩ := mem_filter.mp hother
  exact ⟨hholds.mirror hle, (h.length_le_iff hidx).mp hle, other, hother, hbigbang,
    h.id_inj (of_decide_eq_true hotherIdx) hidx, hsource⟩

end Versions

/-- Every image that an artifact other than `bigbang` renders is found in one image of
the inventory, with its own version, exactly if the observations and the document
agree on the identity of its reference and the observations on the source of its
identity. -/
theorem reconstructRenderedImages_keeps_version_iff {sources : Sources} (hsources : sources.Lawful)
    {policy : Policy} {images images' : List DeliveryImage} {artifacts : List String}
    {inspections : List ChartInspection} {kubernetesVersion : String}
    {kubectlVersions : List (String × String)}
    (hfresh : ∀ image ∈ images, image.discovery ≠ "rendered")
    (hok : reconstructRenderedImages sources policy images artifacts inspections kubernetesVersion =
      .ok (kubectlVersions, images')) :
    (∀ observation ∈ imageObservations artifacts inspections, observation.artifact ≠ "bigbang" →
        Pending policy images observation →
        KeepsVersion policy kubernetesVersion kubectlVersions images' observation) ↔
      ∀ mapped : Mapped, mapped.1 ∈ imageObservations artifacts inspections →
        mapped.1.artifact ≠ "bigbang" → Pending policy images mapped.1 →
        MapsTo policy kubernetesVersion kubectlVersions mapped →
        Distinguished policy kubernetesVersion kubectlVersions images
          (imageObservations artifacts inspections) mapped := by
  obtain ⟨done, inventory, hmerged, hperm, hdone, hmapped⟩ :=
    reconstructRenderedImages_ok hsources hfresh hok
  have hcount : ∀ reference : String,
      images'.countP (fun image => reference ∈ image.bigBangRefs) =
        inventory.images.countP (fun image => reference ∈ image.bigBangRefs) :=
    fun _ => hperm.countP_eq _
  constructor
  · intro hkeeps mapped hin hartifact hpending hmapsTo
    have hmem := (hdone mapped).mpr ⟨hin, hpending, hmapsTo⟩
    have hreference := reference_ne_of_mapped hmapsTo
    obtain ⟨honce, hsource⟩ := hkeeps mapped.1 hin hartifact hpending
    rw [hcount, hmerged.once_iff hmem hreference] at honce
    refine ⟨honce.1, fun other hother hotherPending hotherMaps =>
      honce.2 other ((hdone other).mpr ⟨hother, hotherPending, hotherMaps⟩), ?_⟩
    intro hnew other hother hotherPending hotherMaps hotherArtifact hsame
    -- Both references are found in the image of their identity.
    obtain ⟨index, image, hindex, himage, href⟩ := hmerged.image_of_mapped hmem hreference
    obtain ⟨index', image', hindex', himage', href'⟩ := hmerged.image_of_mapped
      ((hdone other).mpr ⟨hother, hotherPending, hotherMaps⟩) (reference_ne_of_mapped hotherMaps)
    rw [hsame, hindex] at hindex'
    cases hindex'
    obtain rfl := Option.some.inj (himage.symm.trans himage')
    have hrendered :=
      (hmerged.holds index image himage).rendered.mpr ((hmerged.length_le_iff hindex).mpr hnew)
    have hfinal : image ∈ images' := hperm.mem_iff.mpr (mem_of_getElem? himage)
    obtain ⟨-, spec, hspec, heq⟩ := hsource image hfinal href hrendered
    obtain ⟨-, spec', hspec', heq'⟩ :=
      (hkeeps other.1 hother hotherArtifact hotherPending).source image hfinal href' hrendered
    obtain rfl := Except.ok.inj (hmapsTo.symm.trans hspec)
    obtain rfl := Except.ok.inj (hotherMaps.symm.trans hspec')
    exact heq'.symm.trans heq
  · intro hagree observation hin hartifact hpending
    obtain ⟨spec, hmapsTo⟩ := hmapped observation hin hpending
    have hmem := (hdone (observation, spec)).mpr ⟨hin, hpending, hmapsTo⟩
    have hreference : observation.reference ≠ "" := reference_ne_of_mapped hmapsTo
    obtain ⟨hdocument, hidentity, hversion⟩ :=
      hagree (observation, spec) hin hartifact hpending hmapsTo
    have honce := (hmerged.once_iff hmem hreference).mpr ⟨hdocument, fun other hother =>
      have hother := (hdone other).mp hother
      hidentity other hother.1 hother.2.1 hother.2.2⟩
    refine ⟨(hcount _).trans honce, fun image himage href hrendered => ?_⟩
    obtain ⟨hmirror, hnew, other, hother, hotherArtifact, hsame, heq⟩ :=
      hmerged.source_of_once hmem hreference hartifact honce (hperm.mem_iff.mp himage) href
        hrendered
    obtain ⟨hotherIn, hotherPending, hotherMaps⟩ := (hdone other).mp hother
    exact ⟨hmirror, spec, hmapsTo, heq.trans
      (hversion hnew other hotherIn hotherPending hotherMaps hotherArtifact hsame)⟩

/-! ## Two versions of one image -/

def samplePolicy : Policy := ⟨"registry.example/hub/", "docker.io/library/debian:13"⟩

def sampleSources : Sources where
  semver := Atum.Release.tableSemver []
  listTags := .ok []
  mapOrder entries := entries
  sortObservations observations := observations
  sortImages images := images

theorem sampleSources_lawful : sampleSources.Lawful where
  observations _ := .refl _
  images _ := .refl _

/-- Keycloak, as an Iron Bank package renders it. -/
def keycloakReference (tag : String) : String :=
  "registry1.dso.mil/ironbank/opensource/keycloak/keycloak:" ++ tag

def keycloakInspection (tag : String) : ChartInspection where
  images := [keycloakReference tag]

def keycloakObservation (artifact tag : String) : RenderedImageObservation where
  artifact := artifact
  reference := keycloakReference tag
  inspection := keycloakInspection tag

/-- The official image of Keycloak. -/
def keycloakSpec (tag : String) : OfficialImageSpec where
  id := "keycloak"
  family := "identity"
  license := "Apache-2.0"
  provenance := "quay.io/keycloak/keycloak"
  source := "quay.io/keycloak/keycloak:" ++ tag

/-- The image of the inventory for Keycloak. -/
def keycloakImage (tag : String) (references consumers : List String) : DeliveryImage where
  id := "keycloak"
  family := "identity"
  version := tag
  target := "registry.example/hub/keycloak:" ++ tag
  scopes := ["bigbang"]
  runtime := true
  license := "Apache-2.0"
  provenance := "quay.io/keycloak/keycloak"
  consumers := consumers
  bigBangRefs := references
  discovery := "rendered"
  delivery :=
    { type := .mirror
      source := "quay.io/keycloak/keycloak:" ++ tag
      digest := "sha256:" ++ String.ofList (List.replicate 64 '0') }

/-- Two packages render Keycloak in one version. -/
theorem reconstructRenderedImages_keeps_version_iff_keycloak :
    let images := [keycloakImage "1" [keycloakReference "1"] ["package/a", "package/b"]]
    KeepsVersion samplePolicy "1.33.1" [] images (keycloakObservation "package/a" "1") ∧
      KeepsVersion samplePolicy "1.33.1" [] images (keycloakObservation "package/b" "1") := by
  intro images
  have hok : reconstructRenderedImages sampleSources samplePolicy [] ["package/a", "package/b"]
      [keycloakInspection "1", keycloakInspection "1"] "1.33.1" = .ok ([], images) := by
    decide +kernel
  have hboth : imageObservations ["package/a", "package/b"]
      [keycloakInspection "1", keycloakInspection "1"] =
        [keycloakObservation "package/a" "1", keycloakObservation "package/b" "1"] := rfl
  have hkeeps := (reconstructRenderedImages_keeps_version_iff sampleSources_lawful (by simp)
    hok).mpr
  rw [hboth] at hkeeps
  -- The observations have one official image.
  have hofficial : ∀ mapped : Mapped, mapped.1 ∈ [keycloakObservation "package/a" "1",
      keycloakObservation "package/b" "1"] → MapsTo samplePolicy "1.33.1" [] mapped →
        mapped.2 = keycloakSpec "1" := by
    have hspec : ∀ observation ∈ [keycloakObservation "package/a" "1",
        keycloakObservation "package/b" "1"], officialImageForObservation observation "1.33.1" []
          samplePolicy.buildBase = .ok (keycloakSpec "1") := by decide +kernel
    intro mapped hmapped hmaps
    exact Except.ok.inj (hmaps.symm.trans (hspec _ hmapped))
  have hagree := hkeeps fun mapped hmapped _ _ hmaps => by
    refine ⟨fun index image himage => by simp at himage, ?_, ?_⟩
    · intro other hother _ hothers _
      rw [hofficial mapped hmapped hmaps, hofficial other hother hothers]
    · intro _ other hother _ hothers _ _
      rw [hofficial mapped hmapped hmaps, hofficial other hother hothers]
  exact ⟨hagree _ (by simp) (by decide) (by decide +kernel),
    hagree _ (by simp) (by decide) (by decide +kernel)⟩

/-- Two packages render Keycloak in two versions: both references are merged into one
image, and it mirrors the version of the second package only. -/
theorem reconstructRenderedImages_merges_versions :
    reconstructRenderedImages sampleSources samplePolicy [] ["package/a", "package/b"]
        [keycloakInspection "1", keycloakInspection "2"] "1.33.1" =
      .ok ([], [keycloakImage "2" [keycloakReference "1", keycloakReference "2"]
        ["package/a", "package/b"]]) ∧
      keycloakObservation "package/a" "1" ∈ imageObservations ["package/a", "package/b"]
        [keycloakInspection "1", keycloakInspection "2"] ∧
      Pending samplePolicy [] (keycloakObservation "package/a" "1") ∧
      officialImageForObservation (keycloakObservation "package/a" "1") "1.33.1" []
        samplePolicy.buildBase = .ok (keycloakSpec "1") ∧ ¬ KeepsVersion samplePolicy "1.33.1" []
        [keycloakImage "2" [keycloakReference "1", keycloakReference "2"]
          ["package/a", "package/b"]] (keycloakObservation "package/a" "1") := by
  have hspec : officialImageForObservation (keycloakObservation "package/a" "1") "1.33.1" []
      samplePolicy.buildBase = .ok (keycloakSpec "1") := by decide +kernel
  refine ⟨by decide +kernel, mem_cons_self, ⟨by decide +kernel, by simp⟩, hspec, ?_⟩
  intro hkeeps
  obtain ⟨-, spec, hfound, hsource⟩ :=
    hkeeps.source _ (mem_singleton_self _) mem_cons_self rfl
  obtain rfl := Except.ok.inj (hspec.symm.trans hfound)
  revert hsource
  decide +kernel

end Atum.Images
