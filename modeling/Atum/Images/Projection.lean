import Atum.Config.MirrorTags
import Atum.Images.Replacements
import Atum.Images.Retagging

/-!
# The targets of mirrored images

`projectMirrorTargets` gives the target of every mirrored image the tag that
`MirrorTargetTags` computes for it.  The tag of an image depends on the
repositories of its group, and `replaceImageTag` may write a repository in
another form than the one the tags were computed from.  Then the images have
other groups after the projection, and a second projection gives other tags.

`projectMirrorTargets_fixed_point_iff` says when the projection is a fixed point:
when writing every repository in its canonical form leaves each mirror alone in
its group or its group unchanged.
-/

namespace Atum.Images

open Atum.Go Atum.Config List

/-! ## The projection -/

section Projection

variable (registry : Registry)

/-- The check of `contentAddressedMirrorTag`. -/
def validMirrorTag (tag : String) : Bool := registry.newTag ("registry.invalid/atum/image:" ++ tag)

def projectContentAddressedTarget (image : Image) (tag : String)
    (replacements : List ImageReplacement) : Except String (Image × List ImageReplacement) := do
  let target ← replaceImageTag registry image.target tag
  if target = image.target then return (image, replacements)
  return ({ image with target := target }, replacements ++ [⟨image.target, target⟩])

/-- The loop of `projectMirrorTargets`. -/
def projectTargets (tags : List (String × String)) :
    List Image → List ImageReplacement → Except String (List Image × List ImageReplacement)
  | [], replacements => .ok ([], replacements)
  | image :: rest, replacements =>
    if image.delivery.type ≠ .mirror then do
      let (rest, replacements) ← projectTargets tags rest replacements
      return (image :: rest, replacements)
    else
      match tags.lookup image.id with
      | none => .error ("mirror target tag " ++ image.id ++ " is absent")
      | some tag => do
        let (image, replacements) ←
          (projectContentAddressedTarget registry image tag replacements).mapError
            fun err => "project mirror target " ++ image.id ++ ": " ++ err
        let (rest, replacements) ← projectTargets tags rest replacements
        return (image :: rest, replacements)

/-- `projectMirrorTargets`: the replacements, and the images as it leaves them. -/
def projectMirrorTargets (sha256 : String → String)
    (order : List (String × List Member) → List (String × List Member)) (images : List Image) :
    Outcome (List ImageReplacement × List Image) := do
  let tags ← Outcome.ofExcept
    ((mirrorTargetTags sha256 (validMirrorTag registry) order images).mapError
      fun err => "resolve mirror target tags: " ++ err)
  let (images, replacements) ← Outcome.ofExcept (projectTargets registry tags images [])
  let replacements ← compactReplacements replacements
  return (replacements, images)

end Projection

/-- The image with another target, if it is mirrored. -/
def withTarget (target : Image → String) (image : Image) : Image :=
  if image.delivery.type = .mirror then { image with target := target image } else image

section WithTarget

variable (target : Image → String) {image : Image}

theorem withTarget_of_mirror (h : image.delivery.type = .mirror) :
    withTarget target image = { image with target := target image } := if_pos h

theorem withTarget_of_ne (h : image.delivery.type ≠ .mirror) :
    withTarget target image = image := if_neg h

theorem target_withTarget (h : image.delivery.type = .mirror) :
    (withTarget target image).target = target image := by
  rw [withTarget_of_mirror target h]

/-- All but the target stays. -/
theorem withTarget_rest (image : Image) :
    withTarget target image = { image with target := (withTarget target image).target } := by
  by_cases h : image.delivery.type = .mirror
  · rw [withTarget_of_mirror target h]
  · rw [withTarget_of_ne target h]

theorem withTarget_delivery (image : Image) :
    (withTarget target image).delivery = image.delivery := by
  rw [withTarget_rest target image]

theorem withTarget_id (image : Image) : (withTarget target image).id = image.id := by
  rw [withTarget_rest target image]

theorem withTarget_discovery (image : Image) :
    (withTarget target image).discovery = image.discovery := by
  rw [withTarget_rest target image]

theorem mirrors_withTarget (images : List Image) :
    mirrors (images.map (withTarget target)) = (mirrors images).map (withTarget target) := by
  unfold mirrors
  rw [filter_map]
  simp only [Function.comp_def, withTarget_delivery]

end WithTarget

/-- The image with the tag it is given. -/
def retagged (tags : List (String × String)) : Image → Image :=
  withTarget fun image => imageRepository image.target ++ ":" ++ (tags.lookup image.id).getD ""

/-- Every mirror has a tag, and the registry accepts its target with it. -/
def Retags (registry : Registry) (tags : List (String × String)) (images : List Image) : Prop :=
  ∀ image ∈ mirrors images, ∃ tag, tags.lookup image.id = some tag ∧
    replaceImageTag registry image.target tag = .ok (retagged tags image).target

variable {registry : Registry} {replacements' replacements : List ImageReplacement} {image : Image}
  {tag : String}

theorem projectContentAddressedTarget_ok {image' : Image}
    (h : projectContentAddressedTarget registry image tag replacements =
      .ok (image', replacements')) :
    ∃ target, replaceImageTag registry image.target tag = .ok target ∧
      image' = { image with target := target } := by
  obtain ⟨target, htgt, hrest⟩ := bind_eq_ok.mp h
  refine ⟨target, htgt, ?_⟩
  by_cases hsame : target = image.target
  · rw [if_pos hsame] at hrest
    cases hrest
    rw [hsame]
  · rw [if_neg hsame] at hrest
    exact (Prod.mk.inj (Except.ok.inj hrest)).1.symm

variable {tags : List (String × String)}

/-- The loop gives every mirror the tag that it has for it. -/
theorem projectTargets_ok {images images' : List Image}
    (h : projectTargets registry tags images replacements = .ok (images', replacements')) :
    images' = images.map (retagged tags) ∧ Retags registry tags images := by
  induction images generalizing images' replacements replacements' with
  | nil =>
    cases h
    exact ⟨rfl, fun _ himage => by cases himage⟩
  | cons image rest ih =>
    rw [projectTargets] at h
    by_cases hmirror : image.delivery.type = .mirror
    · have hcons : mirrors (image :: rest) = image :: mirrors rest := by simp [mirrors, hmirror]
      rw [if_neg (not_not.mpr hmirror)] at h
      cases htag : tags.lookup image.id with
      | none => simp [htag] at h
      | some tag =>
        simp only [htag] at h
        obtain ⟨⟨projected, between⟩, hprojected, hrest⟩ := bind_eq_ok.mp h
        obtain ⟨⟨others, last⟩, hothers, heq⟩ := bind_eq_ok.mp hrest
        cases heq
        obtain ⟨rfl, hall⟩ := ih hothers
        cases hproj : projectContentAddressedTarget registry image tag replacements with
        | error err => rw [hproj] at hprojected; cases hprojected
        | ok pair =>
          rw [hproj] at hprojected
          cases hprojected
          obtain ⟨target, htgt, heq⟩ := projectContentAddressedTarget_ok hproj
          have htext := (replaceImageTag_ok htgt).1
          have hretagged : retagged tags image = { image with target := target } := by
            rw [retagged, withTarget_of_mirror _ hmirror, htag, htext]
            rfl
          refine ⟨by rw [map_cons, heq, hretagged], ?_⟩
          rw [Retags, hcons]
          refine forall_mem_cons.mpr ⟨⟨tag, htag, ?_⟩, hall⟩
          rw [htgt, hretagged]
    · have hcons : mirrors (image :: rest) = mirrors rest := by simp [mirrors, hmirror]
      rw [if_pos hmirror] at h
      obtain ⟨⟨others, last⟩, hothers, heq⟩ := bind_eq_ok.mp h
      cases heq
      obtain ⟨rfl, hall⟩ := ih hothers
      refine ⟨by rw [map_cons, retagged, withTarget_of_ne _ hmirror], ?_⟩
      rw [Retags, hcons]
      exact hall

variable {images : List Image}

/-- Images that the tags leave as they are. -/
theorem projectTargets_same (replacements : List ImageReplacement)
    (h : ∀ image ∈ mirrors images, ∃ tag, tags.lookup image.id = some tag ∧
      replaceImageTag registry image.target tag = .ok image.target) :
    projectTargets registry tags images replacements = .ok (images, replacements) := by
  induction images with
  | nil => rfl
  | cons image rest ih =>
    rw [projectTargets]
    by_cases hmirror : image.delivery.type = .mirror
    · have hcons : mirrors (image :: rest) = image :: mirrors rest := by simp [mirrors, hmirror]
      rw [hcons] at h
      obtain ⟨⟨tag, htag, hrep⟩, hrest⟩ := forall_mem_cons.mp h
      have hproj : projectContentAddressedTarget registry image tag replacements =
          .ok (image, replacements) := by
        rw [projectContentAddressedTarget, hrep]
        exact if_pos rfl
      rw [if_neg (not_not.mpr hmirror)]
      simp only [htag, hproj]
      show (projectTargets registry tags rest replacements >>= _) = _
      rw [ih hrest]
      rfl
    · have hcons : mirrors (image :: rest) = mirrors rest := by simp [mirrors, hmirror]
      rw [hcons] at h
      rw [if_pos hmirror, ih h]
      rfl

/-! ## The canonical form of a target -/

variable {repository : String}

theorem imageReferenceRepository_tagged (hat : '@' ∉ repository.toList)
    (htag : PlainTag tag) : imageReferenceRepository (repository ++ ":" ++ tag) = repository := by
  obtain ⟨hcolon, hslash, -⟩ := htag.not_mem
  simp only [imageReferenceRepository, htag.cut_tagged hat, cutTag_append hcolon hslash]

theorem imageReferenceRepository_untagged (hat : '@' ∉ repository.toList)
    (hcut : cutTag repository = none) : imageReferenceRepository repository = repository := by
  simp only [imageReferenceRepository, cut_eq_none_iff.mpr hat, hcut]

theorem imageReferenceTag_tagged (htag : PlainTag tag) :
    imageReferenceTag (repository ++ ":" ++ tag) = tag := by
  obtain ⟨hcolon, hslash, -⟩ := htag.not_mem
  simp only [imageReferenceTag, cutTag_append hcolon hslash]

/-- The image with the repository of its target as `replaceImageTag` writes it. -/
def canonical : Image → Image := withTarget fun image => imageRepository image.target

/-- Two images that `MirrorTargetTags` does not tell apart. -/
structure Alike (image other : Image) : Prop where
  rest : other = { image with target := other.target }
  repository : imageReferenceRepository other.target = imageReferenceRepository image.target

variable {other : Image}

theorem Alike.targetHub_eq (h : Alike image other) : targetHub other = targetHub image := by
  rw [targetHub, targetHub, h.repository]

theorem Alike.upstreamTag_eq (h : Alike image other) : upstreamTag other = upstreamTag image := by
  rw [h.rest]
  rfl

theorem Alike.mirrorGroup_eq (h : Alike image other) : mirrorGroup other = mirrorGroup image := by
  rw [mirrorGroup, mirrorGroup, h.targetHub_eq, h.upstreamTag_eq]

theorem Alike.nativeMirrorTargetTag_eq (h : Alike image other) :
    nativeMirrorTargetTag other = nativeMirrorTargetTag image := by
  obtain ⟨hrest, hrepo⟩ := h
  rw [hrest]
  simp only [nativeMirrorTargetTag, hrepo]

theorem Alike.mirrorMember_eq (h : Alike image other) :
    mirrorMember other = mirrorMember image := by
  have hid : other.id = image.id := by rw [h.rest]
  have hdelivery : other.delivery = image.delivery := by rw [h.rest]
  simp only [mirrorMember, h.targetHub_eq, h.upstreamTag_eq, h.mirrorGroup_eq,
    h.nativeMirrorTargetTag_eq, h.repository, hid, hdelivery]

variable {others : List Image}

theorem collectMembers_alike {images : List Image} (h : List.Forall₂ Alike images others)
    (seen : List String) (members : List (String × Member)) :
    collectMembers others seen members = collectMembers images seen members := by
  induction h generalizing seen members with
  | nil => rfl
  | @cons image other _ _ halike _ ih =>
    have hmember := halike.mirrorMember_eq
    have hid : other.id = image.id := by rw [halike.rest]
    have hdelivery : other.delivery = image.delivery := by rw [halike.rest]
    simp only [collectMembers, hid, hdelivery, hmember, ih]

theorem mirrorTargetTags_alike {images : List Image} (h : List.Forall₂ Alike images others)
    (sha256 : String → String) (validTag : String → Bool)
    (order : List (String × List Member) → List (String × List Member)) :
    mirrorTargetTags sha256 validTag order others =
      mirrorTargetTags sha256 validTag order images := by
  rw [mirrorTargetTags, mirrorTargetTags, collectMembers_alike h]

variable {image : Image}

/-- For the tags, an image with its new tag is the image in canonical form. -/
theorem retagged_alike (hlaw : registry.Lawful)
    (hreplaced : image.delivery.type = .mirror → Hosted image.target ∧
      ∃ tag, replaceImageTag registry image.target tag = .ok (retagged tags image).target) :
    Alike (canonical image) (retagged tags image) := by
  by_cases hmirror : image.delivery.type = .mirror
  · refine ⟨?_, ?_⟩
    · rw [retagged, withTarget_of_mirror _ hmirror, canonical, withTarget_of_mirror _ hmirror]
    obtain ⟨hhosted, tag, hrep⟩ := hreplaced hmirror
    obtain ⟨-, htag, hat, -, -⟩ := hhosted.replaceImageTag_eq hlaw hrep
    obtain ⟨htgt, hnew, -⟩ := replaceImageTag_ok hrep
    obtain ⟨hcolon, hslash, -⟩ := htag.not_mem
    rw [htgt] at hnew ⊢
    rw [imageReferenceRepository_tagged hat htag, canonical, target_withTarget _ hmirror,
      imageReferenceRepository_untagged hat (hlaw.repository _ _ hcolon hslash hnew)]
  · rw [retagged, withTarget_of_ne _ hmirror, canonical, withTarget_of_ne _ hmirror]
    exact ⟨rfl, rfl⟩

/-! ## Tags of groups -/

section Groups

variable {sha256 : String → String} {validTag : String → Bool}

/-- A group with one member has the tag of its digest, any other group the tag of
its repositories and digests. -/
theorem groupTag_single (group repository digest : String) :
    groupTag sha256 validTag group [(repository, digest)] =
      singleMirrorTag validTag (groupUpstreamTag group) digest := rfl

variable {keys : List (String × String)} {group : String}

theorem groupTag_set (h : keys.length ≠ 1) : groupTag sha256 validTag group keys =
      contentAddressedMirrorTag validTag (groupUpstreamTag group) "mirror-set"
        (sha256 (setStream group keys)) := by
  unfold groupTag
  split
  · exact absurd rfl h
  · rfl

theorem length_shortIdentity {identity : String} (h : 48 ≤ identity.toList.length) :
    (shortIdentity identity).toList.length = 48 := by
  rw [shortIdentity, String.toList_ofList, length_take]
  omega

/-- The tag of a single image is not the tag of a set of images. -/
theorem single_ne_set (hsha : ∀ text, 48 ≤ (sha256 text).toList.length)
    {version digest text : String}
    {tag : String} (hsingle : singleMirrorTag validTag version digest = .ok tag)
    (hset : contentAddressedMirrorTag validTag version "mirror-set" (sha256 text) = .ok tag) :
    False := by
  have hdig : validDigest digest = true := by
    unfold singleMirrorTag at hsingle
    split at hsingle
    · cases hsingle
    · rename_i hvalid
      simpa using hvalid
  obtain ⟨hone, -⟩ := contentAddressedMirrorTag_ok (singleMirrorTag_ok hsingle)
  obtain ⟨hmany, -⟩ := contentAddressedMirrorTag_ok hset
  have hlen := congrArg (fun s : String => s.toList.length) (hone.symm.trans hmany)
  simp only [String.toList_append, length_append] at hlen
  rw [length_shortIdentity (hsha text), length_shortIdentity] at hlen
  · have hkind : "mirror".toList.length = 6 := rfl
    have hkind' : "mirror-set".toList.length = 10 := rfl
    omega
  have hlen := length_of_validDigest hdig
  rw [← append_trimPrefix (Bool.and_eq_true_iff.mp hdig).1, String.toList_append,
    length_append] at hlen
  have hliteral : "sha256:".toList.length = 7 := rfl
  omega

/-- Two groups of one upstream tag that have the same tag: both have a single
member, or both have none or several and the same hash. -/
theorem groupTag_eq_cases (hsha : ∀ text, 48 ≤ (sha256 text).toList.length)
    {group' tag : String} {keys' : List (String × String)}
    (hver : groupUpstreamTag group' = groupUpstreamTag group)
    (h : groupTag sha256 validTag group keys = .ok tag)
    (h' : groupTag sha256 validTag group' keys' = .ok tag) : keys.length = 1 ∧ keys'.length = 1 ∨
      keys.length ≠ 1 ∧ keys'.length ≠ 1 ∧ shortIdentity (sha256 (setStream group keys)) =
          shortIdentity (sha256 (setStream group' keys')) := by
  by_cases hone : keys.length = 1
  · by_cases hone' : keys'.length = 1
    · exact .inl ⟨hone, hone'⟩
    · obtain ⟨⟨repository, digest⟩, rfl⟩ := length_eq_one_iff.mp hone
      rw [groupTag_set hone', hver] at h'
      exact (single_ne_set hsha h h').elim
  rw [groupTag_set hone] at h
  by_cases hone' : keys'.length = 1
  · obtain ⟨⟨repository, digest⟩, rfl⟩ := length_eq_one_iff.mp hone'
    rw [groupTag_single, hver] at h'
    exact (single_ne_set hsha h' h).elim
  · rw [groupTag_set hone', hver] at h'
    exact .inr ⟨hone, hone', shortIdentity_eq_of_tag h h'⟩

theorem groupUpstreamTag_mirrorGroup (h : '\x00' ∉ (targetHub image).toList) :
    groupUpstreamTag (mirrorGroup image) = upstreamTag image := by
  have hcut : cut (mirrorGroup image) '\x00' = some (targetHub image, upstreamTag image) :=
    cut_append_of_not_mem rfl h
  rw [groupUpstreamTag, hcut]
  rfl

end Groups

/-! ## When the projection is a fixed point -/

variable {nativeTag : String}

/-- The native tag of an image is its upstream tag, or none. -/
theorem nativeMirrorTargetTag_ok (h : nativeMirrorTargetTag image = .ok nativeTag) :
    nativeTag = if image.discovery = "kubespray" ∨ image.id ∈ fluxControllers then
      upstreamTag image else "" := by
  unfold nativeMirrorTargetTag at h
  by_cases hkubespray : image.discovery = "kubespray"
  · rw [if_pos (.inl hkubespray)]
    simp only [hkubespray, if_true] at h
    split at h
    · cases h
    · exact (Except.ok.inj h).symm
  simp only [if_neg hkubespray] at h
  by_cases hflux : image.id ∈ fluxControllers
  · rw [if_pos (.inr hflux)]
    rw [if_neg (not_not.mpr hflux)] at h
    split at h
    · cases h
    · exact (Except.ok.inj h).symm
  · rw [if_neg (not_or.mpr ⟨hkubespray, hflux⟩)]
    rw [if_pos hflux] at h
    exact (Except.ok.inj h).symm

theorem upstreamTag_canonical (image : Image) :
    upstreamTag (canonical image) = upstreamTag image := by
  rw [upstreamTag, upstreamTag, canonical, withTarget_delivery]

/-- The native tag does not depend on the form of the target. -/
theorem nativeTag_canonical {nativeTag' : String} (h : nativeMirrorTargetTag image = .ok nativeTag)
    (h' : nativeMirrorTargetTag (canonical image) = .ok nativeTag') : nativeTag' = nativeTag := by
  rw [nativeMirrorTargetTag_ok h, nativeMirrorTargetTag_ok h', upstreamTag_canonical, canonical,
    withTarget_discovery, withTarget_id]

/-- The mirror is the only one of its group. -/
def Alone (images : List Image) (image : Image) : Prop :=
  (groupKeys images (mirrorGroup image)).length = 1

/-- The group of a mirror has the same hub, repositories and digests in canonical form. -/
def SameGroup (images : List Image) (image : Image) : Prop :=
  mirrorGroup (canonical image) = mirrorGroup image ∧
    groupKeys (images.map canonical) (mirrorGroup (canonical image)) =
      groupKeys images (mirrorGroup image)

/-- A mirror whose tag does not depend on the form of the targets.  A native
mirror keeps its contract, and its group has a tag that the registry accepts.
Any other mirror is alone in its group in both forms, or its group is the same. -/
structure KeepsTag (sha256 : String → String) (registry : Registry) (images : List Image)
    (image : Image) : Prop where
  native : nativeMirrorTargetTag (canonical image) = nativeMirrorTargetTag image
  group : if nativeMirrorTargetTag image = .ok "" then
      Alone images image ∧ Alone (images.map canonical) (canonical image) ∨ SameGroup images image
    else ∃ tag, groupTag sha256 (validMirrorTag registry) (mirrorGroup (canonical image))
      (groupKeys (images.map canonical) (mirrorGroup (canonical image))) = .ok tag

/-- The first digits of the hash tell the group of a mirror from its group in
canonical form. -/
def Telling (sha256 : String → String) (images : List Image) : Prop :=
  ∀ image ∈ mirrors images,
    shortIdentity (sha256 (setStream (mirrorGroup image) (groupKeys images (mirrorGroup image)))) =
      shortIdentity (sha256 (setStream (mirrorGroup (canonical image))
        (groupKeys (images.map canonical) (mirrorGroup (canonical image))))) →
    SameGroup images image

/-- The tags of the targets are those that `MirrorTargetTags` computes, and another
projection returns no replacement and changes nothing. -/
def FixedPoint (registry : Registry) (sha256 : String → String)
    (order : List (String × List Member) → List (String × List Member)) (images : List Image) :
    Prop :=
  (∃ tags, mirrorTargetTags sha256 (validMirrorTag registry) order images = .ok tags ∧
    ∀ image ∈ mirrors images, tags.lookup image.id = some (imageReferenceTag image.target)) ∧
  projectMirrorTargets registry sha256 order images = .ok ([], images)

theorem validMirrorTag_plain (hlaw : registry.Lawful) (tag : String)
    (h : validMirrorTag registry tag = true) : '\x00' ∉ tag.toList := by
  intro hmem
  refine hlaw.plain _ h ?_
  rw [String.toList_append]
  exact mem_append_right _ hmem

theorem mem_groupKeys (himage : image ∈ mirrors images) :
    (imageReferenceRepository image.target, image.delivery.digest) ∈
      groupKeys images (mirrorGroup image) :=
  (perm_sortKeys _).mem_iff.mpr
    (mem_map_of_mem (mem_filter.mpr ⟨himage, decide_eq_true rfl⟩))

/-- The group of a mirror that is alone in it. -/
theorem Alone.groupTag_eq {sha256 : String → String} {validTag : String → Bool}
    (h : Alone images image)
    (himage : image ∈ mirrors images) (hhub : '\x00' ∉ (targetHub image).toList) :
    groupTag sha256 validTag (mirrorGroup image) (groupKeys images (mirrorGroup image)) =
      singleMirrorTag validTag (upstreamTag image) image.delivery.digest := by
  obtain ⟨key, hkeys⟩ := length_eq_one_iff.mp h
  have hmem := mem_groupKeys himage
  rw [hkeys, mem_singleton] at hmem
  rw [hkeys, ← hmem, groupTag_single, groupUpstreamTag_mirrorGroup hhub]

section FixedPoint

variable {registry : Registry} (hlaw : registry.Lawful) {sha256 : String → String}
  {images : List Image} {image : Image} {tags : List (String × String)} {tag : String}
  {images' : List Image} {replacements : List ImageReplacement}
  {order : List (String × List Member) → List (String × List Member)}

theorem projectMirrorTargets_ok
    (h : projectMirrorTargets registry sha256 order images = .ok (replacements, images')) :
    ∃ tags, mirrorTargetTags sha256 (validMirrorTag registry) order images = .ok tags ∧
      images' = images.map (retagged tags) ∧ Retags registry tags images := by
  obtain ⟨tags, htags, hrest⟩ := Outcome.bind_eq_ok.mp h
  obtain ⟨⟨projected, all⟩, hprojected, hlast⟩ := Outcome.bind_eq_ok.mp hrest
  obtain ⟨compact, -, heq⟩ := Outcome.bind_eq_ok.mp hlast
  rw [Outcome.ofExcept_eq_ok] at htags hprojected
  obtain ⟨rfl, hall⟩ := projectTargets_ok hprojected
  refine ⟨tags, ?_, ?_, hall⟩
  · cases hres : mirrorTargetTags sha256 (validMirrorTag registry) order images with
    | error err => rw [hres] at htags; cases htags
    | ok result => rw [hres] at htags; exact htags
  · cases heq
    rfl

theorem projectMirrorTargets_eq_ok {compact : List ImageReplacement}
    (htags : mirrorTargetTags sha256 (validMirrorTag registry) order images = .ok tags)
    (hproj : projectTargets registry tags images [] = .ok (images', replacements))
    (hcompact : compactReplacements replacements = .ok compact) :
    projectMirrorTargets registry sha256 order images = .ok (compact, images') :=
  Outcome.bind_eq_ok.mpr ⟨tags, Outcome.ofExcept_eq_ok.mpr (by rw [htags]; rfl),
    Outcome.bind_eq_ok.mpr ⟨_, Outcome.ofExcept_eq_ok.mpr hproj,
      Outcome.bind_eq_ok.mpr ⟨_, hcompact, rfl⟩⟩⟩

theorem delivery_of_mem_mirrors (himage : image ∈ mirrors images) : image.delivery.type = .mirror :=
  of_decide_eq_true (mem_filter.mp himage).2

theorem canonical_mem_mirrors (himage : image ∈ mirrors images) :
    canonical image ∈ mirrors (images.map canonical) := by
  rw [canonical, mirrors_withTarget]
  exact mem_map_of_mem himage

theorem mirrors_retagged {P : Image → Prop} :
    (∀ image ∈ mirrors (images.map (retagged tags)), P image) ↔
      ∀ image ∈ mirrors images, P (retagged tags image) := by
  rw [retagged, mirrors_withTarget]
  exact forall_mem_map

/-- Nothing happens to the groups if the tags do not tell the canonical forms apart. -/
theorem sameGroup_of_alike (halike : ∀ image ∈ mirrors images, Alike image (canonical image))
    (himage : image ∈ mirrors images) : SameGroup images image := by
  have hname := (halike image himage).mirrorGroup_eq
  refine ⟨hname, ?_⟩
  have hkeys : ∀ group,
      memberKeys ((mirrors images).map canonical) group = memberKeys (mirrors images) group := by
    intro group
    rw [memberKeys, filter_map, map_map]
    rw [filter_congr (q := fun image => decide (mirrorGroup image = group)) fun image hmem => by
      rw [Function.comp_apply, (halike image hmem).mirrorGroup_eq]]
    refine map_congr_left fun image hmem => ?_
    have halike := halike image (mem_filter.mp hmem).1
    rw [Function.comp_apply, halike.repository, canonical, withTarget_delivery]
  rw [hname, groupKeys, canonical, mirrors_withTarget]
  exact congrArg sortKeys (hkeys _)

include hlaw

theorem mirrorTargetTags_retagged (hhosted : ∀ image ∈ mirrors images, Hosted image.target)
    (hrep : Retags registry tags images)
    (order : List (String × List Member) → List (String × List Member)) :
    mirrorTargetTags sha256 (validMirrorTag registry) order (images.map (retagged tags)) =
      mirrorTargetTags sha256 (validMirrorTag registry) order (images.map canonical) := by
  refine mirrorTargetTags_alike (forall₂_map_left_iff.mpr (forall₂_map_right_iff.mpr
    (forall₂_same.mpr fun image himage => ?_))) _ _ _
  refine retagged_alike hlaw fun hmirror => ?_
  have hmem : image ∈ mirrors images := mem_filter.mpr ⟨himage, decide_eq_true hmirror⟩
  obtain ⟨tag, -, htag⟩ := hrep image hmem
  exact ⟨hhosted image hmem, tag, htag⟩

/-- The repository and the hub of an image in canonical form. -/
theorem repository_canonical (hmirror : image.delivery.type = .mirror)
    (hhosted : Hosted image.target)
    (hrep : replaceImageTag registry image.target tag = .ok (retagged tags image).target) :
    imageReferenceRepository (canonical image).target = imageRepository image.target ∧
      targetHub (canonical image) ≠ "" ∧ '\x00' ∉ (targetHub (canonical image)).toList := by
  obtain ⟨-, htag, hat, ⟨host, path, hhost, hform⟩, -⟩ := hhosted.replaceImageTag_eq hlaw hrep
  obtain ⟨htgt, hnew, -⟩ := replaceImageTag_ok hrep
  obtain ⟨hcolon, hslash, -⟩ := htag.not_mem
  rw [htgt] at hnew
  have hrepo : imageReferenceRepository (canonical image).target =
      imageRepository image.target := by
    rw [canonical, target_withTarget _ hmirror]
    exact imageReferenceRepository_untagged hat (hlaw.repository _ _ hcolon hslash hnew)
  refine ⟨hrepo, ?_⟩
  have hslashed : '/' ∈ (imageRepository image.target).toList := by
    rw [hform]
    simp
  rw [targetHub, hrepo]
  cases hcut : cutLast (imageRepository image.target) '/' with
  | none => exact absurd hslashed (cutLast_eq_none_iff.mp hcut)
  | some pair =>
    obtain ⟨hub, name⟩ := pair
    obtain ⟨hsplit, -⟩ := cutLast_eq_some hcut
    refine ⟨?_, fun hmem => hlaw.plain _ hnew ?_⟩
    · -- A repository that starts with a slash has no host.
      rintro rfl
      have hchars := congrArg String.toList (hform.symm.trans hsplit)
      obtain ⟨c, rest, hc⟩ := exists_cons_of_ne_nil hhost.ne_nil
      simp only [String.toList_append, hc, cons_append, String.toList_empty,
        String.toList_singleton, nil_append, List.cons.injEq] at hchars
      exact hhost.not_mem_slash (by rw [hc, hchars.1]; exact mem_cons_self)
    · rw [hsplit]
      simp only [String.toList_append, mem_append]
      exact .inl (.inl (.inl (.inl hmem)))

variable {order order' : List (String × List Member) → List (String × List Member)}

/-- Equal tags mean that the tag of the mirror does not depend on the form. -/
theorem keepsTag_of_lookup (hsha : ∀ text, 48 ≤ (sha256 text).toList.length)
    (horder : ∀ groups, (order groups).Perm groups)
    (horder' : ∀ groups, (order' groups).Perm groups) {tags' : List (String × String)}
    (htelling : Telling sha256 images)
    (htags : mirrorTargetTags sha256 (validMirrorTag registry) order images = .ok tags)
    (htags' : mirrorTargetTags sha256 (validMirrorTag registry) order' (images.map canonical) =
      .ok tags')
    (himage : image ∈ mirrors images) (hsame : tags'.lookup image.id = tags.lookup image.id) :
    KeepsTag sha256 registry images image := by
  obtain ⟨nativeTag, tag, hnative, hgroup, hlookup⟩ := lookup_mirrorTargetTags horder htags himage
  obtain ⟨nativeTag', tag', hnative', hgroup', hlookup'⟩ :=
    lookup_mirrorTargetTags horder' htags' (canonical_mem_mirrors himage)
  obtain rfl := nativeTag_canonical hnative hnative'
  refine ⟨hnative'.trans hnative.symm, ?_⟩
  split
  next hempty =>
    obtain rfl := Except.ok.inj (hnative.symm.trans hempty)
    rw [canonical, withTarget_id, hsame, hlookup] at hlookup'
    cases hlookup'
    have hhub := not_mem_targetHub (validMirrorTag_plain hlaw) hgroup
    have hhub' := not_mem_targetHub (validMirrorTag_plain hlaw) hgroup'
    have hver : groupUpstreamTag (mirrorGroup (canonical image)) =
        groupUpstreamTag (mirrorGroup image) := by
      rw [groupUpstreamTag_mirrorGroup hhub, groupUpstreamTag_mirrorGroup hhub',
        upstreamTag_canonical]
    rcases groupTag_eq_cases hsha hver hgroup hgroup' with halone | ⟨-, -, hhash⟩
    · exact .inl halone
    · exact .inr (htelling image himage hhash)
  next => exact ⟨tag', hgroup'⟩

/-- The tag of the group of a mirror that keeps its tag. -/
theorem KeepsTag.groupTag_canonical (h : KeepsTag sha256 registry images image)
    (himage : image ∈ mirrors images) (hhub : '\x00' ∉ (targetHub (canonical image)).toList)
    (hgroup : groupTag sha256 (validMirrorTag registry) (mirrorGroup image)
      (groupKeys images (mirrorGroup image)) = .ok tag) :
    ∃ tag', groupTag sha256 (validMirrorTag registry) (mirrorGroup (canonical image))
        (groupKeys (images.map canonical) (mirrorGroup (canonical image))) = .ok tag' ∧
      (nativeMirrorTargetTag image = .ok "" → tag' = tag) := by
  have hcases := h.group
  split at hcases
  next hempty =>
    refine ⟨tag, ?_, fun _ => rfl⟩
    rcases hcases with ⟨halone, halone'⟩ | ⟨hname, hkeys⟩
    · have hplain := not_mem_targetHub (validMirrorTag_plain hlaw) hgroup
      rw [halone.groupTag_eq himage hplain] at hgroup
      rw [halone'.groupTag_eq (canonical_mem_mirrors himage) hhub, upstreamTag_canonical, canonical,
        withTarget_delivery]
      exact hgroup
    · rw [hkeys, hname]
      exact hgroup
  next hne =>
    obtain ⟨tag', htag'⟩ := hcases
    exact ⟨tag', htag', fun hempty => absurd hempty hne⟩

/-- Mirrors that keep their tags have the same tags in canonical form. -/
theorem lookup_of_keepsTag (horder : ∀ groups, (order groups).Perm groups)
    (horder' : ∀ groups, (order' groups).Perm groups)
    (hhosted : ∀ image ∈ mirrors images, Hosted image.target)
    (htags : mirrorTargetTags sha256 (validMirrorTag registry) order images = .ok tags)
    (hrep : Retags registry tags images)
    (hkeeps : ∀ image ∈ mirrors images, KeepsTag sha256 registry images image) :
    ∃ tags', mirrorTargetTags sha256 (validMirrorTag registry) order' (images.map canonical) =
        .ok tags' ∧ ∀ image ∈ mirrors images, tags'.lookup image.id = tags.lookup image.id := by
  have htagged := (mirrorTargetTags_eq_ok_iff horder).mp htags
  have hcanon : ∀ image ∈ mirrors images, targetHub (canonical image) ≠ "" ∧
      '\x00' ∉ (targetHub (canonical image)).toList := by
    intro image himage
    obtain ⟨tag, -, htag⟩ := hrep image himage
    exact (repository_canonical hlaw (delivery_of_mem_mirrors himage) (hhosted image himage) htag).2
  have hresult : ∃ tags', mirrorTargetTags sha256 (validMirrorTag registry) order'
      (images.map canonical) = .ok tags' ∧
        Tagged sha256 (validMirrorTag registry) (images.map canonical) tags' := by
    refine exists_mirrorTargetTags horder' ?_ ?_ ?_
    · rw [canonical, mirrors_withTarget, map_map]
      simpa only [Function.comp_def, withTarget_id] using htagged.distinct
    all_goals
      rw [canonical, mirrors_withTarget]
      refine forall_mem_map.mpr fun image himage => ?_
    · obtain ⟨hdig, -, hver, nativeTag, hnative⟩ := htagged.accepted image himage
      refine ⟨?_, (hcanon image himage).1, ?_, nativeTag, ?_⟩
      · rw [withTarget_delivery]
        exact hdig
      · exact (upstreamTag_canonical image).symm ▸ hver
      · exact (hkeeps image himage).native.trans hnative
    · obtain ⟨tag, hgroup⟩ := htagged.tags image himage
      obtain ⟨tag', htag', -⟩ := (hkeeps image himage).groupTag_canonical hlaw himage
        (hcanon image himage).2 hgroup
      exact ⟨tag', htag'⟩
  obtain ⟨tags', htags', -⟩ := hresult
  refine ⟨tags', htags', fun image himage => ?_⟩
  obtain ⟨nativeTag, tag, hnative, hgroup, hlookup⟩ := lookup_mirrorTargetTags horder htags himage
  obtain ⟨nativeTag', tag', hnative', hgroup', hlookup'⟩ :=
    lookup_mirrorTargetTags horder' htags' (canonical_mem_mirrors himage)
  obtain rfl := nativeTag_canonical hnative hnative'
  obtain ⟨tag'', htag'', hsame⟩ := (hkeeps image himage).groupTag_canonical hlaw himage
    (hcanon image himage).2 hgroup
  obtain rfl := Except.ok.inj (hgroup'.symm.trans htag'')
  rw [canonical, withTarget_id] at hlookup'
  rw [hlookup, hlookup']
  by_cases hempty : nativeTag' = ""
  · rw [hsame (hempty ▸ hnative)]
  · rw [if_pos hempty, if_pos hempty]

theorem imageReferenceTag_retagged (hhosted : Hosted image.target)
    (hrep : replaceImageTag registry image.target tag = .ok (retagged tags image).target) :
    imageReferenceTag (retagged tags image).target = tag ∧
      replaceImageTag registry (retagged tags image).target tag = .ok
    (retagged tags image).target := by
  obtain ⟨-, htag, -, -, hagain⟩ := hhosted.replaceImageTag_eq hlaw hrep
  refine ⟨?_, hagain⟩
  rw [(replaceImageTag_ok hrep).1]
  exact imageReferenceTag_tagged htag

/-- A projection of mirrors that keep their tags ends in a fixed point. -/
theorem fixedPoint_of_keepsTag (horder : ∀ groups, (order groups).Perm groups)
    (horder' : ∀ groups, (order' groups).Perm groups)
    (hhosted : ∀ image ∈ mirrors images, Hosted image.target)
    (h : projectMirrorTargets registry sha256 order images = .ok (replacements, images'))
    (hkeeps : ∀ image ∈ mirrors images, KeepsTag sha256 registry images image) :
    FixedPoint registry sha256 order' images' := by
  obtain ⟨tags, htags, rfl, hrep⟩ := projectMirrorTargets_ok h
  obtain ⟨tags', htags', hsame⟩ :=
    lookup_of_keepsTag hlaw horder horder' hhosted htags hrep hkeeps
  have hlookup : ∀ image ∈ mirrors (images.map (retagged tags)),
      tags'.lookup image.id = some (imageReferenceTag image.target) ∧
        replaceImageTag registry image.target (imageReferenceTag image.target) =
          .ok image.target := by
    refine mirrors_retagged.mpr fun image himage => ?_
    obtain ⟨tag, htag, htgt⟩ := hrep image himage
    obtain ⟨hread, hagain⟩ := imageReferenceTag_retagged hlaw (hhosted image himage) htgt
    rw [hread]
    refine ⟨?_, hagain⟩
    rw [retagged, withTarget_id, hsame image himage, htag]
  rw [← mirrorTargetTags_retagged hlaw hhosted hrep] at htags'
  refine ⟨⟨tags', htags', fun image himage => (hlookup image himage).1⟩, ?_⟩
  exact projectMirrorTargets_eq_ok htags'
    (projectTargets_same [] fun image himage => ⟨_, hlookup image himage⟩) rfl

/-- Targets whose repositories are in canonical form: the projection always ends in a
fixed point. -/
theorem fixedPoint_of_canonical (horder : ∀ groups, (order groups).Perm groups)
    (horder' : ∀ groups, (order' groups).Perm groups)
    (hhosted : ∀ image ∈ mirrors images, Hosted image.target) (hform : ∀ image ∈ mirrors images,
      imageReferenceRepository image.target = imageRepository image.target)
    (h : projectMirrorTargets registry sha256 order images = .ok (replacements, images')) :
    FixedPoint registry sha256 order' images' := by
  obtain ⟨tags, htags, -, hrep⟩ := projectMirrorTargets_ok h
  have halike : ∀ image ∈ mirrors images, Alike image (canonical image) := by
    intro image himage
    obtain ⟨tag, -, htag⟩ := hrep image himage
    refine ⟨withTarget_rest _ image, ?_⟩
    rw [hform image himage]
    exact (repository_canonical hlaw (delivery_of_mem_mirrors himage) (hhosted image himage) htag).1
  refine fixedPoint_of_keepsTag hlaw horder horder' hhosted h fun image himage =>
    ⟨(halike image himage).nativeMirrorTargetTag_eq, ?_⟩
  have hsame := sameGroup_of_alike halike himage
  split
  · exact .inr hsame
  · obtain ⟨-, tag, -, hgroup, -⟩ := lookup_mirrorTargetTags horder htags himage
    rw [hsame.2, hsame.1]
    exact ⟨tag, hgroup⟩

end FixedPoint

/-- `projectMirrorTargets` ends in a fixed point exactly if the tags do not depend
on whether the targets are in canonical form.  `sha256` is used through the
lengths of its values and `Telling`, `order` and `order'` are the orders in which
two runs walk over the groups. -/
theorem projectMirrorTargets_fixed_point_iff {registry : Registry} (hlaw : registry.Lawful)
    {sha256 : String → String} (hsha : ∀ text, 48 ≤ (sha256 text).toList.length)
    {order order' : List (String × List Member) → List (String × List Member)}
    (horder : ∀ groups, (order groups).Perm groups)
    (horder' : ∀ groups, (order' groups).Perm groups) {images images' : List Image}
    {replacements : List ImageReplacement}
    (hhosted : ∀ image ∈ mirrors images, Hosted image.target) (htelling : Telling sha256 images)
    (h : projectMirrorTargets registry sha256 order images = .ok (replacements, images')) :
    FixedPoint registry sha256 order' images' ↔
      ∀ image ∈ mirrors images, KeepsTag sha256 registry images image := by
  constructor
  · rintro ⟨⟨tags', htags', hlookup⟩, -⟩ image himage
    obtain ⟨tags, htags, rfl, hreplace⟩ := projectMirrorTargets_ok h
    obtain ⟨tag, htag, htarget⟩ := hreplace image himage
    have hlast := mirrors_retagged.mp hlookup image himage
    rw [retagged, withTarget_id, ← retagged,
      (imageReferenceTag_retagged hlaw (hhosted image himage) htarget).1, ← htag] at hlast
    rw [mirrorTargetTags_retagged hlaw hhosted hreplace] at htags'
    exact keepsTag_of_lookup hlaw hsha horder horder' htelling htags htags' himage hlast
  · exact fixedPoint_of_keepsTag hlaw horder horder' hhosted h

/-! ## A registry -/

/-- A registry that takes every reference with a tag in place. -/
def sampleRegistry : Registry where
  parseReference _ := true
  newTag reference :=
    match cutTag reference with
    | some (repository, tag) => (cutTag repository).isNone && tag.toList.all tagChar &&
        !reference.toList.contains '\x00'
    | none => false

theorem sampleRegistry_lawful : sampleRegistry.Lawful where
  parseReference_of_newTag _ _ := rfl
  plain reference h := by
    simp only [sampleRegistry] at h
    split at h
    · simp only [Bool.and_eq_true, Bool.not_eq_true', contains_eq_mem,
        decide_eq_false_iff_not] at h
      exact h.2
    · cases h
  tag repository tag hcolon hslash h := by
    simp only [sampleRegistry, cutTag_append hcolon hslash, Bool.and_eq_true, all_eq_true] at h
    exact h.1.2
  repository repository tag hcolon hslash h := by
    simp only [sampleRegistry, cutTag_append hcolon hslash, Bool.and_eq_true,
      Option.isNone_iff_eq_none] at h
    exact h.1.1

/-- A hash whose digits all come from the first letter of the hub. -/
def hubDigits (text : String) : String :=
  String.ofList (List.replicate 64
    (Nat.digitChar ((text.toByteArray.data.toList.getD 30 0).toNat % 10)))

theorem length_hubDigits (text : String) : 48 ≤ (hubDigits text).toList.length := by
  rw [hubDigits, String.toList_ofList, length_replicate]
  omega

def setTag (digit : Char) : String := "1-mirror-set-" ++ String.ofList (List.replicate 48 digit)

/-- Two mirrors on a host, with the given tag. -/
def hubMirrors (host tag : String) : List Image :=
  [{ sampleMirror "a" '1' with target := host ++ "/hub/a:" ++ tag },
    { sampleMirror "b" '2' with target := host ++ "/hub/b:" ++ tag }]

theorem hosted_hubMirrors {host : String} (h : ExplicitHost host) (tag : String) :
    ∀ image ∈ mirrors (hubMirrors host tag), Hosted image.target := by
  have hall : ∀ name, name.toList.head? = some '/' → Hosted (host ++ name ++ tag) := by
    intro name hname
    refine ⟨host, String.ofList name.toList.tail ++ tag, ?_, h⟩
    apply String.toList_inj.mp
    simp only [String.toList_append, String.toList_ofList, append_assoc]
    rw [← cons_head?_tail hname]
    rfl
  intro image himage
  rcases mem_cons.mp (mem_filter.mp himage).1 with rfl | himage
  · exact hall "/hub/a:" rfl
  · rw [mem_singleton.mp himage]
    exact hall "/hub/b:" rfl

theorem mirrorTargetTags_docker :
    mirrorTargetTags hubDigits (validMirrorTag sampleRegistry) (fun groups => groups)
      (hubMirrors "docker.io" "1") = .ok (sampleTags '0') := by
  decide +kernel

theorem projectMirrorTargets_docker :
    projectMirrorTargets sampleRegistry hubDigits (fun groups => groups)
        (hubMirrors "docker.io" "1") =
      .ok ([⟨"docker.io/hub/a:1", "docker.io/hub/a:" ++ setTag '0'⟩,
        ⟨"docker.io/hub/b:1", "docker.io/hub/b:" ++ setTag '0'⟩],
        hubMirrors "docker.io" (setTag '0')) := by
  have hproj : projectTargets sampleRegistry (sampleTags '0') (hubMirrors "docker.io" "1") [] =
      .ok (hubMirrors "docker.io" (setTag '0'),
        [⟨"docker.io/hub/a:1", "docker.io/hub/a:" ++ setTag '0'⟩,
          ⟨"docker.io/hub/b:1", "docker.io/hub/b:" ++ setTag '0'⟩]) := by decide +kernel
  exact projectMirrorTargets_eq_ok mirrorTargetTags_docker hproj (by decide +kernel)

theorem fixedPoint_of_canonical_docker : FixedPoint sampleRegistry hubDigits
    (fun groups => groups) (hubMirrors "docker.io" (setTag '0')) :=
  fixedPoint_of_canonical sampleRegistry_lawful (fun _ => .refl _) (fun _ => .refl _)
    (hosted_hubMirrors (by decide +kernel) _) (by decide +kernel) projectMirrorTargets_docker

theorem projectMirrorTargets_fixed_point_iff_docker :
    FixedPoint sampleRegistry hubDigits List.reverse (hubMirrors "docker.io" (setTag '0')) := by
  have halike : ∀ image ∈ mirrors (hubMirrors "docker.io" "1"), Alike image (canonical image) := by
    intro image himage
    refine ⟨withTarget_rest _ image, ?_⟩
    revert image
    decide +kernel
  have hnative : ∀ image ∈ mirrors (hubMirrors "docker.io" "1"),
      nativeMirrorTargetTag image = .ok "" := by decide +kernel
  refine (projectMirrorTargets_fixed_point_iff sampleRegistry_lawful length_hubDigits
    (fun _ => .refl _) reverse_perm (hosted_hubMirrors (by decide +kernel) _)
    (fun image himage _ => sameGroup_of_alike halike himage) projectMirrorTargets_docker).mpr
    fun image himage => ⟨(halike image himage).nativeMirrorTargetTag_eq, ?_⟩
  rw [if_pos (hnative image himage)]
  exact .inr (sameGroup_of_alike halike himage)

/-- Targets on `index.docker.io`: the projection takes the tags from the group of
`index.docker.io/hub` and moves the targets to `docker.io/hub`, where they have other
tags. -/
theorem projectMirrorTargets_moves_index_docker :
    (∀ image ∈ mirrors (hubMirrors "index.docker.io" "1"), Hosted image.target) ∧
      ((mirrors (hubMirrors "index.docker.io" "1")).map Image.id).Nodup ∧
      projectMirrorTargets sampleRegistry hubDigits (fun groups => groups)
          (hubMirrors "index.docker.io" "1") =
        .ok ([⟨"index.docker.io/hub/a:1", "docker.io/hub/a:" ++ setTag '5'⟩,
          ⟨"index.docker.io/hub/b:1", "docker.io/hub/b:" ++ setTag '5'⟩],
          hubMirrors "docker.io" (setTag '5')) ∧
      mirrorTargetTags hubDigits (validMirrorTag sampleRegistry) (fun groups => groups)
        (hubMirrors "docker.io" (setTag '5')) = .ok [("a", setTag '0'), ("b", setTag '0')] ∧
      ¬ FixedPoint sampleRegistry hubDigits (fun groups => groups)
        (hubMirrors "docker.io" (setTag '5')) := by
  have htags : mirrorTargetTags hubDigits (validMirrorTag sampleRegistry) (fun groups => groups)
      (hubMirrors "index.docker.io" "1") = .ok (sampleTags '5') := by decide +kernel
  have hproject : projectTargets sampleRegistry (sampleTags '5')
      (hubMirrors "index.docker.io" "1") [] = .ok (hubMirrors "docker.io" (setTag '5'),
        [⟨"index.docker.io/hub/a:1", "docker.io/hub/a:" ++ setTag '5'⟩,
          ⟨"index.docker.io/hub/b:1", "docker.io/hub/b:" ++ setTag '5'⟩]) := by decide +kernel
  have htags' : mirrorTargetTags hubDigits (validMirrorTag sampleRegistry) (fun groups => groups)
      (hubMirrors "docker.io" (setTag '5')) = .ok (sampleTags '0') := by
    rw [← mirrorTargetTags_docker]
    refine mirrorTargetTags_alike (.cons ⟨rfl, ?_⟩ (.cons ⟨rfl, ?_⟩ .nil)) _ _ _
    · decide +kernel
    · decide +kernel
  refine ⟨hosted_hubMirrors (by decide +kernel) "1", by decide +kernel,
    projectMirrorTargets_eq_ok htags hproject (by decide +kernel), htags', ?_⟩
  rintro ⟨⟨tags, hok, hlookup⟩, -⟩
  obtain rfl := Except.ok.inj (htags'.symm.trans hok)
  have hfirst := hlookup _ (mem_filter.mpr ⟨mem_cons_self, rfl⟩)
  have hother : (sampleTags '0').lookup "a" ≠
      some (imageReferenceTag ("docker.io" ++ "/hub/a:" ++ setTag '5')) := by decide +kernel
  exact hother hfirst

end Atum.Images
