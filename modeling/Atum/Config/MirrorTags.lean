import Mathlib.Data.Prod.Lex
import Mathlib.Data.List.Perm.Basic
import Mathlib.Data.List.Sort
import Atum.Config.Checks
import Atum.Config.Image
import Atum.Go.Outcome
import Atum.Library.SortedAssoc
import Atum.Library.Framing

/-!
# The tags of mirrored images

`MirrorTargetTags` gives every mirrored image its tag in the registry of the
platform.  The images of one hub with one upstream tag form a group and share a tag,
which is derived from the repositories and the digests of the group.  A native image
keeps its upstream tag.

The tags do not depend on the order of the images, and the digest of an image counts
for the tags of its group only (`mirrorTargetTags_order_free_local`).  `sha256` stands
for the hash in hexadecimal, and `validTag` for the check of a tag by the registry
library.
-/

namespace Atum.Config

open Atum.Go List SortedAssoc

/-! ## The tag of a group -/

/-- The first `mirrorTagIdentityLength` digits. -/
def shortIdentity (identity : String) : String := String.ofList (identity.toList.take 48)

section Tags

variable (sha256 : String → String) (validTag : String → Bool)

/-- `contentAddressedMirrorTag`. -/
def contentAddressedMirrorTag (version kind identity : String) : Except String String :=
  if version = "" ∨ len identity < 48 then
    .error "content-addressed mirror tag has an invalid identity"
  else
    let tag := version ++ "-" ++ kind ++ "-" ++ shortIdentity identity
    if validTag tag then .ok tag
    else .error s!"content-addressed mirror tag {quote tag} is invalid"

/-- `ContentAddressedMirrorTag`, for a single image. -/
def singleMirrorTag (upstreamTag digest : String) : Except String String :=
  if !validDigest digest then .error "content-addressed mirror tag requires a valid digest"
  else contentAddressedMirrorTag validTag upstreamTag "mirror" (trimPrefix digest "sha256:")

/-- The repository and the digest of a member in the hashed text. -/
def memberLine (key : String × String) : List Char :=
  key.1.toList ++ '\x00' :: (key.2.toList ++ ['\x00'])

/-- The text that is hashed for a group of several images. -/
def setStream (group : String) (keys : List (String × String)) : String :=
  "atum.dev/mirror-target-set/v1\x00" ++ group ++ "\x00" ++ String.ofList (keys.flatMap memberLine)

/-- The upstream tag in the name of a group. -/
def groupUpstreamTag (group : String) : String := ((cut group '\x00').map Prod.snd).getD ""

/-- The tag of a group, from the sorted repositories and digests of its members. -/
def groupTag (group : String) (keys : List (String × String)) : Except String String :=
  match keys with
  | [(_, digest)] => singleMirrorTag validTag (groupUpstreamTag group) digest
  | keys =>
    contentAddressedMirrorTag validTag (groupUpstreamTag group) "mirror-set"
      (sha256 (setStream group keys))

end Tags

/-! ## `MirrorTargetTags` -/

def fluxControllers : List String :=
  ["source-controller", "kustomize-controller", "helm-controller", "notification-controller"]

/-- `nativeMirrorTargetTag`; the empty tag stands for an image that is not native. -/
def nativeMirrorTargetTag (image : Image) : Except String String :=
  let sourceRepository := imageReferenceRepository image.delivery.source
  let targetRepository := imageReferenceRepository image.target
  let tag := imageReferenceTag image.delivery.source
  if image.discovery = "kubespray" then
    if image.family ≠ "kubernetes" ∨ image.scopes ≠ ["kubespray"] ∨
        image.consumers ≠ ["kubespray"] ∨ !image.runtime ∨ sourceRepository = "" ∨
        !hasSuffix targetRepository ("/kubespray/" ++ sourceRepository) ∨ tag = "" then
      .error s!"Kubespray mirror {image.id} does not match its native image contract"
    else .ok tag
  else if image.id ∉ fluxControllers then .ok ""
  else if image.family ≠ "flux" ∨ image.consumers ≠ ["flux"] ∨
      (cutLast sourceRepository '/').map Prod.snd ≠ some image.id ∨
      (cutLast targetRepository '/').map Prod.snd ≠ some image.id ∨ tag = "" then
    .error s!"Flux bootstrap mirror {image.id} does not match its native controller contract"
  else .ok tag

/-- `member`. -/
structure Member where
  id : String
  repository : String
  digest : String
  nativeTag : String
  deriving DecidableEq, Repr

/-- What the hash of a group and its order read of a member. -/
def Member.key (member : Member) : String × String := (member.repository, member.digest)

/-- The hub of the target of an image, empty if the target has none. -/
def targetHub (image : Image) : String :=
  ((cutLast (imageReferenceRepository image.target) '/').map Prod.fst).getD ""

def upstreamTag (image : Image) : String := imageReferenceTag image.delivery.source

/-- The group of an image. -/
def mirrorGroup (image : Image) : String := targetHub image ++ "\x00" ++ upstreamTag image

/-- The group of a mirrored image and the image as its member. -/
def mirrorMember (image : Image) : Except String (String × Member) :=
  if !validDigest image.delivery.digest then
    .error s!"content-addressed mirror {image.id} has an invalid digest"
  else if targetHub image = "" ∨ upstreamTag image = "" then
    .error s!"content-addressed mirror {image.id} has an invalid target or source tag"
  else do
    let nativeTag ← nativeMirrorTargetTag image
    return (mirrorGroup image,
      { id := image.id
        repository := imageReferenceRepository image.target
        digest := image.delivery.digest
        nativeTag := nativeTag })

/-- The loop of `MirrorTargetTags` over the images. -/
def collectMembers : List Image → List String → List (String × Member) →
    Except String (List (String × Member))
  | [], _, members => .ok members
  | image :: rest, seen, members =>
    if image.delivery.type ≠ .mirror then collectMembers rest seen members
    else if image.id ∈ seen then
      .error s!"content-addressed mirror id {quote image.id} is duplicated"
    else do
      let member ← mirrorMember image
      collectMembers rest (image.id :: seen) (members ++ [member])

/-- Members in the order of their repositories, and of their digests within one. -/
def sortKeys (keys : List (String × String)) : List (String × String) :=
  keys.insertionSort fun a b => toLex a ≤ toLex b

/-- The tag of a member of a group with the given tag. -/
def Member.tag (member : Member) (tag : String) : String :=
  if member.nativeTag ≠ "" then member.nativeTag else tag

section MirrorTargetTags

variable (sha256 : String → String) (validTag : String → Bool)

/-- The loop of `MirrorTargetTags` over the groups. -/
def tagGroups : List (String × List Member) → List (String × String) →
    Except String (List (String × String))
  | [], result => .ok result
  | (group, members) :: rest, result => do
      let tag ← groupTag sha256 validTag group (sortKeys (members.map Member.key))
      tagGroups rest (members.foldl (fun result member =>
        SortedAssoc.insert member.id (member.tag tag) result) result)

/-- `MirrorTargetTags`.  `order` is the order in which Go walks over the groups. -/
def mirrorTargetTags (order : List (String × List Member) → List (String × List Member))
    (images : List Image) : Except String (List (String × String)) := do
  let members ← collectMembers images [] []
  tagGroups sha256 validTag (order (SortedAssoc.group members)) []

end MirrorTargetTags

/-! ## The images that are collected -/

def mirrors (images : List Image) : List Image :=
  images.filter fun image => image.delivery.type = .mirror

/-- The repositories and the digests of the images of a group. -/
def memberKeys (images : List Image) (group : String) : List (String × String) :=
  (images.filter fun image => mirrorGroup image = group).map fun image =>
    (imageReferenceRepository image.target, image.delivery.digest)

/-- The repositories and the digests of a group, sorted. -/
def groupKeys (images : List Image) (group : String) : List (String × String) :=
  sortKeys (memberKeys (mirrors images) group)

/-- What `MirrorTargetTags` wants of a mirrored image. -/
structure Accepted (image : Image) : Prop where
  digest : validDigest image.delivery.digest = true
  hub : targetHub image ≠ ""
  tag : upstreamTag image ≠ ""
  native : ∃ nativeTag, nativeMirrorTargetTag image = .ok nativeTag

/-- A tag, or the empty text. -/
def tagOrEmpty : Except String String → String
  | .ok tag => tag
  | .error _ => ""

/-- An accepted image as a member of its group. -/
def memberOf (image : Image) : String × Member :=
  (mirrorGroup image,
    { id := image.id
      repository := imageReferenceRepository image.target
      digest := image.delivery.digest
      nativeTag := tagOrEmpty (nativeMirrorTargetTag image) })

theorem mirrorMember_eq_ok_iff {image : Image} {entry : String × Member} :
    mirrorMember image = .ok entry ↔ Accepted image ∧ memberOf image = entry := by
  unfold mirrorMember
  split
  · next hdig => exact iff_of_false (by simp) fun h => by simp [h.1.digest] at hdig
  next hdig =>
  split
  · next hempty => exact iff_of_false (by simp) fun h => hempty.elim h.1.hub h.1.tag
  next hempty =>
  obtain ⟨hhub, htag⟩ := not_or.mp hempty
  rw [bind_eq_ok]
  constructor
  · rintro ⟨nativeTag, hnative, h⟩
    refine ⟨⟨by simpa using hdig, hhub, htag, nativeTag, hnative⟩, ?_⟩
    rw [memberOf, hnative]
    exact Except.ok.inj h
  · rintro ⟨h, rfl⟩
    obtain ⟨nativeTag, hnative⟩ := h.native
    refine ⟨nativeTag, hnative, ?_⟩
    rw [memberOf, hnative]
    rfl

variable {images : List Image}

/-- The loop over the images, from any point of it. -/
theorem collectMembers_eq_ok_iff : ∀ {seen : List String} {members result : List (String × Member)},
      collectMembers images seen members = .ok result ↔ ((mirrors images).map Image.id).Nodup ∧
        (∀ image ∈ mirrors images, image.id ∉ seen ∧ Accepted image) ∧
          result = members ++ (mirrors images).map memberOf := by
  induction images with
  | nil =>
    intro seen members result
    simp [collectMembers, mirrors, eq_comm]
  | cons image rest ih =>
    intro seen members result
    rw [collectMembers]
    split
    · next hother =>
      have hmirrors : mirrors (image :: rest) = mirrors rest := by simp [mirrors, hother]
      rw [ih, hmirrors]
    next hmirror =>
    have hmirrors : mirrors (image :: rest) = image :: mirrors rest := by
      simp [mirrors, not_not.mp hmirror]
    rw [hmirrors]
    split
    · next hseen =>
      exact iff_of_false (by simp) fun h => (h.2.1 image mem_cons_self).1 hseen
    next hnew =>
    rw [bind_eq_ok]
    constructor
    · rintro ⟨member, hmember, h⟩
      obtain ⟨haccepted, rfl⟩ := mirrorMember_eq_ok_iff.mp hmember
      obtain ⟨hnodup, hrest, rfl⟩ := ih.mp h
      refine ⟨nodup_cons.mpr ⟨fun hmem => ?_, hnodup⟩,
        forall_mem_cons.mpr ⟨⟨hnew, haccepted⟩, fun other hother => ?_⟩, by simp⟩
      · obtain ⟨other, hother, hid⟩ := mem_map.mp hmem
        exact (hrest other hother).1 (by simp [hid])
      · exact (hrest other hother).imp_left fun hfresh hseen => hfresh (mem_cons_of_mem _ hseen)
    · rintro ⟨hnodup, hall, rfl⟩
      obtain ⟨hid, hnodup⟩ := nodup_cons.mp hnodup
      obtain ⟨⟨-, haccepted⟩, hrest⟩ := forall_mem_cons.mp hall
      refine ⟨_, mirrorMember_eq_ok_iff.mpr ⟨haccepted, rfl⟩,
        ih.mpr ⟨hnodup, fun other hother => (hrest other hother).imp_left ?_, by simp⟩⟩
      intro hfresh hseen
      rcases mem_cons.mp hseen with heq | hseen
      · exact hid (heq ▸ mem_map_of_mem hother)
      · exact hfresh hseen

/-! ## What `MirrorTargetTags` returns -/

section Result

variable {sha256 : String → String} {validTag : String → Bool}

variable (sha256 validTag) in
/-- The pairs that the loop over the groups enters into the result. -/
def assignments (groups : List (String × List Member)) : List (String × String) :=
  groups.flatMap fun group => group.2.map fun member => (member.id,
    member.tag (tagOrEmpty (groupTag sha256 validTag group.1 (sortKeys (group.2.map Member.key)))))

variable {groups : List (String × List Member)}

theorem tagGroups_eq_ok_iff :
    ∀ {start result : List (String × String)}, tagGroups sha256 validTag groups start = .ok result ↔
        (∀ group ∈ groups, ∃ tag,
            groupTag sha256 validTag group.1 (sortKeys (group.2.map Member.key)) = .ok tag) ∧
          result = (assignments sha256 validTag groups).foldl
            (fun entries pair => SortedAssoc.insert pair.1 pair.2 entries) start := by
  induction groups with
  | nil =>
    intro start result
    simp [tagGroups, assignments, eq_comm]
  | cons group rest ih =>
    intro start result
    obtain ⟨name, members⟩ := group
    have hassignments : ∀ tag,
        groupTag sha256 validTag name (sortKeys (members.map Member.key)) = .ok tag →
        assignments sha256 validTag ((name, members) :: rest) =
          (members.map fun member => (member.id, member.tag tag)) ++
            assignments sha256 validTag rest := by
      intro tag htag
      simp [assignments, htag, tagOrEmpty]
    rw [tagGroups, bind_eq_ok, forall_mem_cons]
    constructor
    · rintro ⟨tag, htag, h⟩
      obtain ⟨hrest, rfl⟩ := ih.mp h
      refine ⟨⟨⟨tag, htag⟩, hrest⟩, ?_⟩
      rw [hassignments tag htag, foldl_append, foldl_map]
    · rintro ⟨⟨⟨tag, htag⟩, hrest⟩, rfl⟩
      refine ⟨tag, htag, ih.mpr ⟨hrest, ?_⟩⟩
      rw [hassignments tag htag, foldl_append, foldl_map]

variable (sha256 validTag) in
/-- The tag of an image. -/
def imageTag (images : List Image) (image : Image) : String :=
  (memberOf image).2.tag (tagOrEmpty
    (groupTag sha256 validTag (mirrorGroup image) (groupKeys images (mirrorGroup image))))

/-- The member of an image is among the values of its group. -/
theorem memberOf_mem_valuesOf {image : Image} (himage : image ∈ mirrors images) :
    (memberOf image).2 ∈
      SortedAssoc.valuesOf ((mirrors images).map memberOf) (mirrorGroup image) :=
  mem_valuesOf.mpr (mem_map.mpr ⟨image, himage, rfl⟩)

theorem sortKeys_valuesOf (group : String) :
    sortKeys ((SortedAssoc.valuesOf ((mirrors images).map memberOf) group).map Member.key) =
      groupKeys images group := by
  have hbeq : ∀ image, (mirrorGroup image == group) = decide (mirrorGroup image = group) :=
    fun _ => rfl
  simp [groupKeys, memberKeys, SortedAssoc.valuesOf, filter_map, Function.comp_def, memberOf,
    Member.key, hbeq]

/-- The groups of the images, in some order. -/
theorem mem_groups (hgroups : groups.Perm (SortedAssoc.group ((mirrors images).map memberOf)))
    {name : String} {values : List Member} : (name, values) ∈ groups ↔
      (∃ image ∈ mirrors images, mirrorGroup image = name) ∧
        values = SortedAssoc.valuesOf ((mirrors images).map memberOf) name := by
  rw [hgroups.mem_iff, mem_group, and_comm]
  refine and_congr_left ?_
  rintro rfl
  constructor
  · intro hne
    obtain ⟨member, hmember⟩ := exists_mem_of_ne_nil _ hne
    obtain ⟨image, himage, heq⟩ := mem_map.mp (mem_valuesOf.mp hmember)
    exact ⟨image, himage, (Prod.mk.inj heq).1⟩
  · rintro ⟨image, himage, rfl⟩
    exact ne_nil_of_mem (memberOf_mem_valuesOf himage)

/-- The pairs by the images they are for. -/
theorem mem_assignments
    (hgroups : groups.Perm (SortedAssoc.group ((mirrors images).map memberOf))) {id tag : String} :
    (id, tag) ∈ assignments sha256 validTag groups ↔
      ∃ image ∈ mirrors images, image.id = id ∧ imageTag sha256 validTag images image = tag := by
  rw [assignments, mem_flatMap]
  constructor
  · rintro ⟨⟨name, values⟩, hgroup, hpair⟩
    obtain ⟨-, rfl⟩ := (mem_groups hgroups).mp hgroup
    obtain ⟨member, hmember, heq⟩ := mem_map.mp hpair
    obtain ⟨image, himage, hmem⟩ := mem_map.mp (mem_valuesOf.mp hmember)
    obtain ⟨rfl, rfl⟩ := Prod.mk.inj hmem
    obtain ⟨rfl, rfl⟩ := Prod.mk.inj heq
    rw [sortKeys_valuesOf]
    exact ⟨image, himage, rfl, rfl⟩
  · rintro ⟨image, himage, rfl, rfl⟩
    refine ⟨_, (mem_groups hgroups).mpr ⟨⟨image, himage, rfl⟩, rfl⟩,
      mem_map.mpr ⟨_, memberOf_mem_valuesOf himage, ?_⟩⟩
    rw [sortKeys_valuesOf]
    rfl

variable (sha256 validTag) in
/-- Every mirrored image is accepted under an identity of its own, its group has a tag,
and the result holds exactly the tags of these images. -/
structure Tagged (images : List Image) (result : List (String × String)) : Prop where
  distinct : ((mirrors images).map Image.id).Nodup
  accepted : ∀ image ∈ mirrors images, Accepted image
  tags : ∀ image ∈ mirrors images, ∃ tag,
    groupTag sha256 validTag (mirrorGroup image) (groupKeys images (mirrorGroup image)) = .ok tag
  sorted : SortedAssoc.Sorted result
  lookup : ∀ id tag, result.lookup id = some tag ↔
    ∃ image ∈ mirrors images, image.id = id ∧ imageTag sha256 validTag images image = tag

/-- The result is determined by the images. -/
theorem Tagged.unique {left right : List (String × String)}
    (hleft : Tagged sha256 validTag images left) (hright : Tagged sha256 validTag images right) :
    left = right := by
  refine hleft.sorted.ext hright.sorted fun id => Option.ext fun tag => ?_
  exact (hleft.lookup id tag).trans (hright.lookup id tag).symm

variable {order : List (String × List Member) → List (String × List Member)}

/-- Accepted images with distinct identities whose groups have tags have a result. -/
theorem exists_mirrorTargetTags (horder : ∀ groups, (order groups).Perm groups)
    (hdistinct : ((mirrors images).map Image.id).Nodup)
    (haccepted : ∀ image ∈ mirrors images, Accepted image)
    (htags : ∀ image ∈ mirrors images, ∃ tag,
      groupTag sha256 validTag (mirrorGroup image) (groupKeys images (mirrorGroup image)) =
        .ok tag) :
    ∃ result, mirrorTargetTags sha256 validTag order images = .ok result ∧
      Tagged sha256 validTag images result := by
  refine ⟨_, bind_eq_ok.mpr ⟨_, collectMembers_eq_ok_iff.mpr ⟨hdistinct, fun image himage =>
    ⟨not_mem_nil, haccepted image himage⟩, rfl⟩, tagGroups_eq_ok_iff.mpr ⟨?_, rfl⟩⟩,
    hdistinct, haccepted, htags, sorted_foldl_insert _, fun id tag => ?_⟩
  · rintro ⟨name, values⟩ hgroup
    obtain ⟨⟨image, himage, rfl⟩, rfl⟩ := (mem_groups (horder _)).mp hgroup
    rw [sortKeys_valuesOf]
    exact htags image himage
  · rw [lookup_foldl_insert, nil_append, mem_assignments (horder _)]
    intro id' tag' tag'' h h'
    obtain ⟨image, himage, rfl, rfl⟩ := (mem_assignments (horder _)).mp h
    obtain ⟨other, hother, hid, rfl⟩ := (mem_assignments (horder _)).mp h'
    rw [inj_on_of_nodup_map hdistinct hother himage hid]

theorem mirrorTargetTags_eq_ok_iff (horder : ∀ groups, (order groups).Perm groups)
    {result : List (String × String)} : mirrorTargetTags sha256 validTag order images = .ok result ↔
      Tagged sha256 validTag images result := by
  constructor
  · intro h
    obtain ⟨members, hmembers, hgroups⟩ := bind_eq_ok.mp h
    obtain ⟨hdistinct, hall, rfl⟩ := collectMembers_eq_ok_iff.mp hmembers
    obtain ⟨htags, -⟩ := tagGroups_eq_ok_iff.mp hgroups
    obtain ⟨result', hresult', htagged⟩ := exists_mirrorTargetTags horder hdistinct
      (fun image himage => (hall image himage).2) fun image himage => by
        rw [← sortKeys_valuesOf]
        exact htags (mirrorGroup image, _)
          ((mem_groups (horder _)).mpr ⟨⟨image, himage, rfl⟩, rfl⟩)
    obtain rfl := Except.ok.inj (h.symm.trans hresult')
    exact htagged
  · intro h
    obtain ⟨result', hresult', htagged⟩ :=
      exists_mirrorTargetTags horder h.distinct h.accepted h.tags
    rw [hresult', htagged.unique h]

end Result

/-! ## The order of the images -/

section Order

variable {sha256 : String → String} {validTag : String → Bool}

theorem pairwise_sortKeys (keys : List (String × String)) :
    (sortKeys keys).Pairwise fun a b => toLex a ≤ toLex b :=
  pairwise_insertionSort (fun a b : String × String => toLex a ≤ toLex b) keys

theorem perm_sortKeys (keys : List (String × String)) : (sortKeys keys).Perm keys :=
  perm_insertionSort _ keys

theorem sortKeys_congr {keys keys' : List (String × String)} (h : keys.Perm keys') :
    sortKeys keys = sortKeys keys' := by
  have hperm : (sortKeys keys).Perm (sortKeys keys') :=
    (perm_sortKeys keys).trans (h.trans (perm_sortKeys keys').symm)
  refine hperm.eq_of_pairwise (fun a b _ _ hab hba => ?_) (pairwise_sortKeys _)
    (pairwise_sortKeys _)
  exact toLex.injective (le_antisymm hab hba)

theorem Tagged.perm {images' : List Image} {result : List (String × String)}
    (h : images.Perm images') (htagged : Tagged sha256 validTag images result) :
    Tagged sha256 validTag images' result := by
  have hmirrors : (mirrors images).Perm (mirrors images') := h.filter _
  have hkeys : groupKeys images = groupKeys images' :=
    funext fun group => sortKeys_congr ((hmirrors.filter _).map _)
  refine ⟨(hmirrors.map _).nodup_iff.mp htagged.distinct, fun image himage =>
    htagged.accepted image (hmirrors.mem_iff.mpr himage), fun image himage => ?_, htagged.sorted,
    fun id tag => ?_⟩
  · rw [← hkeys]
    exact htagged.tags image (hmirrors.mem_iff.mpr himage)
  · rw [htagged.lookup]
    refine exists_congr fun image => ?_
    rw [hmirrors.mem_iff, imageTag, imageTag, hkeys]

end Order

/-! ## One digest -/

section Digest

variable {sha256 : String → String} {validTag : String → Bool} {tag version identity kind : String}

theorem contentAddressedMirrorTag_ok
    (h : contentAddressedMirrorTag validTag version kind identity = .ok tag) :
    tag = version ++ "-" ++ kind ++ "-" ++ shortIdentity identity ∧ validTag tag = true := by
  unfold contentAddressedMirrorTag at h
  split at h
  · cases h
  dsimp only at h
  split at h
  · next hvalid =>
    cases h
    exact ⟨rfl, hvalid⟩
  · cases h

theorem shortIdentity_eq_of_tag {identity' : String}
    (h : contentAddressedMirrorTag validTag version kind identity = .ok tag)
    (h' : contentAddressedMirrorTag validTag version kind identity' = .ok tag) :
    shortIdentity identity = shortIdentity identity' := by
  have heq := (contentAddressedMirrorTag_ok h).1.symm.trans (contentAddressedMirrorTag_ok h').1
  have hchars := congrArg String.toList heq
  simp only [String.toList_append, append_cancel_left_eq] at hchars
  exact String.toList_injective hchars

variable {digest : String}

theorem singleMirrorTag_ok (h : singleMirrorTag validTag version digest = .ok tag) :
    contentAddressedMirrorTag validTag version "mirror" (trimPrefix digest "sha256:") =
      .ok tag := by
  unfold singleMirrorTag at h
  split at h
  · cases h
  · exact h

variable {keys' : List (String × String)} {group : String}

/-- Two groups of one size that have the same tag agree on what was shortened. -/
theorem shortIdentity_eq_of_groupTag {keys : List (String × String)}
    (hlen : keys.length = keys'.length) (h : groupTag sha256 validTag group keys = .ok tag)
    (h' : groupTag sha256 validTag group keys' = .ok tag) :
    (∃ key key', keys = [key] ∧ keys' = [key'] ∧
        shortIdentity (trimPrefix key.2 "sha256:") = shortIdentity (trimPrefix key'.2 "sha256:")) ∨
      shortIdentity (sha256 (setStream group keys)) =
        shortIdentity (sha256 (setStream group keys')) := by
  unfold groupTag at h h'
  split at h
  · next repository digest =>
    obtain ⟨⟨repository', digest'⟩, rfl⟩ := length_eq_one_iff.mp hlen.symm
    exact .inl ⟨_, _, rfl, rfl, shortIdentity_eq_of_tag (singleMirrorTag_ok h)
      (singleMirrorTag_ok h')⟩
  next hmany =>
  split at h'
  · obtain ⟨⟨repository, digest⟩, rfl⟩ := length_eq_one_iff.mp hlen
    exact absurd rfl (hmany repository digest)
  · exact .inr (shortIdentity_eq_of_tag h h')

variable {keys : List (String × String)}

/-- The hashed text determines the members if their repositories are known and their
digests have known lengths. -/
theorem flatMap_memberLine_inj :
    ∀ {keys' : List (String × String)}, keys.map Prod.fst = keys'.map Prod.fst →
      (∀ key ∈ keys, ∀ key' ∈ keys', key.2.toList.length = key'.2.toList.length) →
      keys.flatMap memberLine = keys'.flatMap memberLine → keys = keys' := by
  induction keys with
  | nil =>
    intro keys' hfst _ _
    exact (map_eq_nil_iff.mp hfst.symm).symm
  | cons key rest ih =>
    intro keys' hfst hlen hstream
    cases keys' with
    | nil => cases hfst
    | cons key' rest' =>
      obtain ⟨hrepo, hfst⟩ := List.cons.inj hfst
      simp only [flatMap_cons, memberLine, hrepo, append_assoc, cons_append,
        append_cancel_left_eq, List.cons.injEq, true_and] at hstream
      obtain ⟨hdig, htail⟩ :=
        append_inj hstream (hlen key mem_cons_self key' mem_cons_self)
      have hrest := ih hfst (fun k hk k' hk' =>
        hlen k (mem_cons_of_mem _ hk) k' (mem_cons_of_mem _ hk'))
        (List.cons.inj htail).2
      rw [hrest, Prod.ext hrepo (String.toList_injective hdig)]

/-- Sorted members show the same repositories whatever the digests are. -/
theorem map_fst_sortKeys {keys : List (String × String)}
    (h : keys.map Prod.fst = keys'.map Prod.fst) :
    (sortKeys keys).map Prod.fst = (sortKeys keys').map Prod.fst := by
  have hsorted : ∀ keys : List (String × String),
      ((sortKeys keys).map Prod.fst).Pairwise (· ≤ ·) := by
    intro keys
    refine List.Pairwise.map _ (fun a b hab => ?_) (pairwise_sortKeys keys)
    rcases Prod.Lex.toLex_le_toLex.mp hab with hlt | ⟨heq, -⟩
    · exact hlt.le
    · exact heq.le
  have hperm : ((sortKeys keys).map Prod.fst).Perm ((sortKeys keys').map Prod.fst) :=
    ((perm_sortKeys keys).map _).trans (h ▸ ((perm_sortKeys keys').map _).symm)
  exact hperm.eq_of_pairwise (fun _ _ _ _ => le_antisymm) (hsorted _) (hsorted _)

theorem length_of_validDigest (h : validDigest digest = true) : digest.toList.length = 71 := by
  obtain ⟨hstart, hhex⟩ := Bool.and_eq_true_iff.mp h
  obtain ⟨hlen, hdigits⟩ := Bool.and_eq_true_iff.mp hhex
  have hlength := length_of_lowerHex hdigits
  rw [← append_trimPrefix hstart, String.toList_append, length_append, hlength, eq_of_beq hlen]
  rfl

/-- A group of another digest has another tag. -/
theorem groupTag_ne {tag' : String} {keys before after : List (String × String)}
    {repository digest' : String} (hne : digest ≠ digest')
    (hperm : keys.Perm (before ++ (repository, digest) :: after))
    (hperm' : keys'.Perm (before ++ (repository, digest') :: after))
    (hfst : keys.map Prod.fst = keys'.map Prod.fst)
    (hvalid : ∀ key ∈ keys, validDigest key.2 = true)
    (hvalid' : ∀ key ∈ keys', validDigest key.2 = true)
    (hdigests : shortIdentity (trimPrefix digest "sha256:") =
      shortIdentity (trimPrefix digest' "sha256:") → digest = digest')
    (hstreams : shortIdentity (sha256 (setStream group keys)) =
      shortIdentity (sha256 (setStream group keys')) → setStream group keys = setStream group keys')
    (h : groupTag sha256 validTag group keys = .ok tag)
    (h' : groupTag sha256 validTag group keys' = .ok tag') : tag ≠ tag' := by
  intro heq
  rw [← heq] at h'
  have hlen : keys.length = keys'.length := by
    simpa using congrArg List.length hfst
  have hcases := shortIdentity_eq_of_groupTag hlen h h'
  rcases hcases with hone | hshort
  · obtain ⟨key, key', hkey, hkey', hshort⟩ := hone
    have hone := hperm.mem_iff.mpr (mem_append_right before mem_cons_self)
    have hone' := hperm'.mem_iff.mpr (mem_append_right before mem_cons_self)
    rw [hkey, mem_singleton] at hone
    rw [hkey', mem_singleton] at hone'
    rw [← hone, ← hone'] at hshort
    exact hne (hdigests hshort)
  have hkeys : keys = keys' := by
    refine flatMap_memberLine_inj hfst (fun key hkey key' hkey' => ?_)
      (append_ofList_inj (hstreams hshort))
    rw [length_of_validDigest (hvalid key hkey), length_of_validDigest (hvalid' key' hkey')]
  have hsame : (before ++ (repository, digest) :: after).Perm
      (before ++ (repository, digest') :: after) :=
    hperm.symm.trans (hkeys ▸ hperm')
  have htail : ([(repository, digest)] ++ after).Perm ([(repository, digest')] ++ after) :=
    (perm_append_left_iff before).mp hsame
  have hone := (perm_append_right_iff after).mp htail
  exact hne (Prod.mk.inj (singleton_perm_singleton.mp hone)).2

theorem contentAddressedMirrorTag_of_groupTag (h : groupTag sha256 validTag group keys = .ok tag) :
    ∃ kind identity,
      contentAddressedMirrorTag validTag (groupUpstreamTag group) kind identity = .ok tag := by
  unfold groupTag at h
  split at h
  · exact ⟨_, _, singleMirrorTag_ok h⟩
  · exact ⟨_, _, h⟩

variable {image : Image}

/-- The hub of a group that has a tag has no NUL. -/
theorem not_mem_targetHub (hplain : ∀ tag, validTag tag = true → '\x00' ∉ tag.toList)
    (h : groupTag sha256 validTag (mirrorGroup image) keys = .ok tag) :
    '\x00' ∉ (targetHub image).toList := by
  intro hmem
  have hliteral : "\x00" = String.singleton '\x00' := by decide +kernel
  obtain ⟨before, after, hcut, hnul⟩ :
      ∃ before after, cut (mirrorGroup image) '\x00' = some (before, after) ∧
        '\x00' ∈ after.toList := by
    rw [mirrorGroup, hliteral]
    exact mem_snd_cut hmem
  obtain ⟨kind, identity, htag⟩ := contentAddressedMirrorTag_of_groupTag h
  obtain ⟨rfl, hvalid⟩ := contentAddressedMirrorTag_ok htag
  refine hplain _ hvalid ?_
  rw [groupUpstreamTag, hcut]
  simp [hnul]

/-- The name of a group tells its hub from its upstream tag. -/
theorem mirrorGroup_eq_iff {other : Image} (himage : '\x00' ∉ (targetHub image).toList)
    (hother : '\x00' ∉ (targetHub other).toList) : mirrorGroup other = mirrorGroup image ↔
      targetHub other = targetHub image ∧ upstreamTag other = upstreamTag image := by
  constructor
  · intro heq
    have hchars := congrArg String.toList heq
    simp only [mirrorGroup, String.toList_append, append_assoc] at hchars
    obtain ⟨hhub, htag⟩ := Framing.append_cons_inj hother himage hchars
    exact ⟨String.toList_injective hhub, String.toList_injective htag⟩
  · rintro ⟨hhub, htag⟩
    rw [mirrorGroup, mirrorGroup, hhub, htag]

end Digest

/-! ## Both at once -/

/-- The image with another digest. -/
def Image.withDigest (image : Image) (digest : String) : Image :=
  { image with delivery := { image.delivery with digest := digest } }

/-- The first digits tell the digests of the images apart, and the hashes of the texts
of their groups. -/
structure Discerning (sha256 : String → String) (images images' : List Image) : Prop where
  digests : ∀ image ∈ mirrors images, ∀ image' ∈ mirrors images',
    shortIdentity (trimPrefix image.delivery.digest "sha256:") =
      shortIdentity (trimPrefix image'.delivery.digest "sha256:") →
    image.delivery.digest = image'.delivery.digest
  streams : ∀ group,
    shortIdentity (sha256 (setStream group (groupKeys images group))) =
      shortIdentity (sha256 (setStream group (groupKeys images' group))) →
    setStream group (groupKeys images group) = setStream group (groupKeys images' group)

section Main

variable {sha256 : String → String} {validTag : String → Bool} {images : List Image}

variable {order : List (String × List Member) → List (String × List Member)}
  {result : List (String × String)}

/-- The tag of every mirrored image. -/
theorem lookup_mirrorTargetTags (horder : ∀ groups, (order groups).Perm groups)
    (h : mirrorTargetTags sha256 validTag order images = .ok result) {image : Image}
    (himage : image ∈ mirrors images) :
    ∃ nativeTag tag, nativeMirrorTargetTag image = .ok nativeTag ∧
      groupTag sha256 validTag (mirrorGroup image) (groupKeys images (mirrorGroup image)) =
        .ok tag ∧ result.lookup image.id = some (if nativeTag ≠ "" then nativeTag else tag) := by
  have htagged := (mirrorTargetTags_eq_ok_iff horder).mp h
  obtain ⟨nativeTag, hnative⟩ := (htagged.accepted image himage).native
  obtain ⟨tag, htag⟩ := htagged.tags image himage
  have hlookup := (htagged.lookup image.id _).mpr ⟨image, himage, rfl, rfl⟩
  rw [imageTag, htag, memberOf, hnative] at hlookup
  exact ⟨nativeTag, tag, hnative, htag, hlookup⟩

theorem validDigest_of_mem_groupKeys (horder : ∀ groups, (order groups).Perm groups)
    (h : mirrorTargetTags sha256 validTag order images = .ok result) {group : String}
    {key : String × String} (hkey : key ∈ groupKeys images group) : validDigest key.2 = true := by
  obtain ⟨image, himage, rfl⟩ := mem_map.mp ((perm_sortKeys _).mem_iff.mp hkey)
  have htagged := (mirrorTargetTags_eq_ok_iff horder).mp h
  exact (htagged.accepted image (mem_filter.mp himage).1).digest

section Change

variable (before after : List Image) {image : Image} (digest : String)

theorem mirrors_split (h : image.delivery.type = .mirror) :
    mirrors (before ++ image :: after) = mirrors before ++ image :: mirrors after := by
  simp [mirrors, h]

theorem mirrors_split_withDigest (h : image.delivery.type = .mirror) :
    mirrors (before ++ image.withDigest digest :: after) =
      mirrors before ++ image.withDigest digest :: mirrors after :=
  mirrors_split before after h

/-- Another image of the list is there after the change, and the changed image has
its counterpart. -/
theorem exists_counterpart {other : Image} (himage : image.delivery.type = .mirror)
    (hother : other ∈ mirrors (before ++ image :: after)) :
    ∃ other' ∈ mirrors (before ++ image.withDigest digest :: after), other'.id = other.id ∧
      nativeMirrorTargetTag other' = nativeMirrorTargetTag other ∧
      mirrorGroup other' = mirrorGroup other := by
  rw [mirrors_split _ _ himage, mem_append, mem_cons] at hother
  rw [mirrors_split_withDigest _ _ _ himage]
  rcases hother with hbefore | rfl | hafter
  · exact ⟨other, mem_append_left _ hbefore, rfl, rfl, rfl⟩
  · exact ⟨other.withDigest digest, by simp, rfl, rfl, rfl⟩
  · exact ⟨other, by simp [hafter], rfl, rfl, rfl⟩

theorem groupKeys_of_other_group (himage : image.delivery.type = .mirror) {group : String}
    (hgroup : mirrorGroup image ≠ group) :
    groupKeys (before ++ image.withDigest digest :: after) group =
      groupKeys (before ++ image :: after) group := by
  have hgroup' : mirrorGroup (image.withDigest digest) ≠ group := hgroup
  rw [groupKeys, groupKeys, mirrors_split _ _ himage, mirrors_split_withDigest _ _ _ himage]
  simp [memberKeys, hgroup, hgroup']

theorem memberKeys_split (image : Image) :
    memberKeys (before ++ image :: after) (mirrorGroup image) =
      memberKeys before (mirrorGroup image) ++
        (imageReferenceRepository image.target, image.delivery.digest) ::
          memberKeys after (mirrorGroup image) := by
  simp [memberKeys]

theorem memberKeys_split_withDigest (image : Image) :
    memberKeys (before ++ image.withDigest digest :: after) (mirrorGroup image) =
      memberKeys before (mirrorGroup image) ++ (imageReferenceRepository image.target, digest) ::
          memberKeys after (mirrorGroup image) :=
  memberKeys_split before after (image.withDigest digest)

variable {before after digest}

theorem groupTag_ne_of_digest
    (horder : ∀ groups, (order groups).Perm groups) {result' : List (String × String)}
    (himage : image.delivery.type = .mirror) (hne : image.delivery.digest ≠ digest)
    (hok : mirrorTargetTags sha256 validTag order (before ++ image :: after) = .ok result)
    (hok' : mirrorTargetTags sha256 validTag order (before ++ image.withDigest digest :: after) =
      .ok result') (hdiscerning : Discerning sha256 (before ++ image :: after)
      (before ++ image.withDigest digest :: after)) {tag tag' : String}
    (h : groupTag sha256 validTag (mirrorGroup image)
      (groupKeys (before ++ image :: after) (mirrorGroup image)) = .ok tag)
    (h' : groupTag sha256 validTag (mirrorGroup image)
      (groupKeys (before ++ image.withDigest digest :: after) (mirrorGroup image)) = .ok tag') :
    tag ≠ tag' := by
  have himageMem : image ∈ mirrors (before ++ image :: after) := by
    rw [mirrors_split _ _ himage]
    simp
  have himageMem' : image.withDigest digest ∈
      mirrors (before ++ image.withDigest digest :: after) := by
    rw [mirrors_split_withDigest _ _ _ himage]
    simp
  have hkeys := memberKeys_split (mirrors before) (mirrors after) image
  have hkeys' := memberKeys_split_withDigest (mirrors before) (mirrors after) digest image
  rw [← mirrors_split _ _ himage] at hkeys
  rw [← mirrors_split_withDigest _ _ _ himage] at hkeys'
  have hfst : (groupKeys (before ++ image :: after) (mirrorGroup image)).map Prod.fst =
      (groupKeys (before ++ image.withDigest digest :: after) (mirrorGroup image)).map
        Prod.fst := by
    rw [groupKeys, groupKeys, hkeys, hkeys']
    exact map_fst_sortKeys (by simp)
  have hperm := perm_sortKeys (memberKeys (mirrors (before ++ image :: after)) (mirrorGroup image))
  have hperm' := perm_sortKeys
    (memberKeys (mirrors (before ++ image.withDigest digest :: after)) (mirrorGroup image))
  rw [← groupKeys, hkeys] at hperm
  rw [← groupKeys, hkeys'] at hperm'
  have hdigests := hdiscerning.digests image himageMem _ himageMem'
  exact groupTag_ne hne hperm hperm' hfst
    (fun key hkey => validDigest_of_mem_groupKeys horder hok hkey)
    (fun key hkey => validDigest_of_mem_groupKeys horder hok' hkey)
    hdigests (hdiscerning.streams _) h h'

end Change

end Main

/-- The tags are the same for every order of the images.  Another digest of one image
changes the tags of the images of its group that are not native, and no other tag. -/
theorem mirrorTargetTags_order_free_local (sha256 : String → String) (validTag : String → Bool)
    (hplain : ∀ tag, validTag tag = true → '\x00' ∉ tag.toList)
    (order : List (String × List Member) → List (String × List Member))
    (horder : ∀ groups, (order groups).Perm groups) (images : List Image)
    (result : List (String × String))
    (hok : mirrorTargetTags sha256 validTag order images = .ok result) :
    (∀ order' : List (String × List Member) → List (String × List Member),
      (∀ groups, (order' groups).Perm groups) → ∀ images', images.Perm images' →
        mirrorTargetTags sha256 validTag order' images' = .ok result) ∧
      ∀ before image after digest result', images = before ++ image :: after →
        image.delivery.type = .mirror → image.delivery.digest ≠ digest →
        mirrorTargetTags sha256 validTag order (before ++ image.withDigest digest :: after) =
          .ok result' → Discerning sha256 images (before ++ image.withDigest digest :: after) →
        ∀ other ∈ mirrors images, result.lookup other.id ≠ result'.lookup other.id ↔
          nativeMirrorTargetTag other = .ok "" ∧ targetHub other = targetHub image ∧
            upstreamTag other = upstreamTag image := by
  constructor
  · intro order' horder' images' hperm
    exact (mirrorTargetTags_eq_ok_iff horder').mpr
      (((mirrorTargetTags_eq_ok_iff horder).mp hok).perm hperm)
  rintro before image after digest result' rfl himage hne hok' hdiscerning other hother
  obtain ⟨other', hother', hid, hnative', hgroup'⟩ :=
    exists_counterpart before after digest himage hother
  obtain ⟨nativeTag, tag, hnative, htag, hlookup⟩ := lookup_mirrorTargetTags horder hok hother
  obtain ⟨nativeTag', tag', hnative'', htag', hlookup'⟩ :=
    lookup_mirrorTargetTags horder hok' hother'
  rw [hnative', hnative] at hnative''
  cases hnative''
  rw [hid] at hlookup'
  rw [hgroup'] at htag'
  have himageMem : image ∈ mirrors (before ++ image :: after) := by
    rw [mirrors_split _ _ himage]
    simp
  obtain ⟨-, _, -, himageTag, -⟩ := lookup_mirrorTargetTags horder hok himageMem
  rw [hlookup, hlookup', hnative,
    ← mirrorGroup_eq_iff (not_mem_targetHub hplain himageTag) (not_mem_targetHub hplain htag)]
  by_cases hgroup : mirrorGroup other = mirrorGroup image
  · rw [hgroup] at htag htag'
    have htags := groupTag_ne_of_digest horder himage hne hok hok' hdiscerning htag htag'
    by_cases hempty : nativeTag = ""
    · simp [hempty, hgroup, htags]
    · simp [hempty]
  · rw [groupKeys_of_other_group _ _ _ himage (Ne.symm hgroup)] at htag'
    obtain rfl := Except.ok.inj (htag.symm.trans htag')
    simp [hgroup]

/-- A mirror with a digest of one digit. -/
def sampleMirror (name : String) (digit : Char) : Image where
  id := name
  target := "hub/" ++ name ++ ":1"
  delivery :=
    { type := .mirror
      source := "upstream/" ++ name ++ ":1"
      digest := "sha256:" ++ String.ofList (List.replicate 64 digit) }

/-- The digits of the last digest of a text. -/
def lastDigits (text : String) : String :=
  String.ofList ((text.toList.reverse.drop 1).take 64).reverse

def withoutNUL (tag : String) : Bool := !tag.toList.contains '\x00'

def sampleTags (digit : Char) : List (String × String) :=
  [("a", "1-mirror-set-" ++ String.ofList (List.replicate 48 digit)),
    ("b", "1-mirror-set-" ++ String.ofList (List.replicate 48 digit))]

theorem mirrorTargetTags_sample (digit : Char) (h : digit ∈ ['2', '3']) :
    mirrorTargetTags lastDigits withoutNUL (fun groups => groups)
      ([sampleMirror "a" '1'] ++ sampleMirror "b" digit :: []) = .ok (sampleTags digit) := by
  rcases mem_pair.mp h with rfl | rfl
  · decide +kernel
  · decide +kernel

theorem sample_discerning : Discerning lastDigits
    ([sampleMirror "a" '1'] ++ sampleMirror "b" '2' :: [])
    ([sampleMirror "a" '1'] ++ sampleMirror "b" '3' :: []) where
  digests := by decide +kernel
  streams := by
    intro group
    by_cases hgroup : group = mirrorGroup (sampleMirror "a" '1')
    · rw [hgroup]
      decide +kernel
    have hnone : ∀ digit ∈ ['2', '3'],
        groupKeys ([sampleMirror "a" '1'] ++ sampleMirror "b" digit :: []) group = [] := by
      intro digit hdigit
      have hmirrors : ∀ digit ∈ ['2', '3'], ∀ image ∈
          mirrors ([sampleMirror "a" '1'] ++ sampleMirror "b" digit :: []),
          mirrorGroup image = mirrorGroup (sampleMirror "a" '1') :=
        forall_mem_of_all (by decide +kernel)
      have hkeys : memberKeys (mirrors ([sampleMirror "a" '1'] ++ sampleMirror "b" digit :: []))
          group = [] := by
        rw [memberKeys, map_eq_nil_iff, filter_eq_nil_iff]
        intro image himage
        rw [hmirrors digit hdigit image himage]
        simpa using Ne.symm hgroup
      rw [groupKeys, hkeys]
      rfl
    rw [hnone '2' (by simp), hnone '3' (by simp)]
    exact fun _ => rfl

theorem mirrorTargetTags_order_free_local_pair :
    mirrorTargetTags lastDigits withoutNUL (fun groups => groups)
        [sampleMirror "b" '2', sampleMirror "a" '1'] = .ok (sampleTags '2') ∧
      (sampleTags '2').lookup "a" ≠ (sampleTags '3').lookup "a" := by
  have hplain : ∀ tag, withoutNUL tag = true → '\x00' ∉ tag.toList := by
    intro tag htag
    simpa [withoutNUL] using htag
  have hlocal := mirrorTargetTags_order_free_local lastDigits withoutNUL hplain
    (fun groups => groups) (fun _ => .refl _) _ _ (mirrorTargetTags_sample '2' (by simp))
  refine ⟨hlocal.1 (fun groups => groups) (fun _ => .refl _) _ (List.Perm.swap _ _ _), ?_⟩
  refine (hlocal.2 [sampleMirror "a" '1'] (sampleMirror "b" '2') []
    (sampleMirror "b" '3').delivery.digest (sampleTags '3') rfl rfl (by decide +kernel)
    (mirrorTargetTags_sample '3' (by simp)) sample_discerning (sampleMirror "a" '1') ?_).mpr ?_
  · decide +kernel
  · decide +kernel

end Atum.Config
