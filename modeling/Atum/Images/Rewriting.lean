import Atum.Go.Any
import Atum.Images.Reference
import Atum.Images.Replacements

/-!
# Rewriting the references in a tree of values

`replaceImageReferences` walks a decoded tree of values and rewrites the references
in it: a text under a key of a map that is an old reference, a text such as
`name=reference` under a key, and a tag beside its repository or its hub.  A text in
a list is not looked at, nor is a tree that is a text itself; and what the walk writes
as a tag or behind a name can be an old reference again
(`replaceImageReferences_complete`).
-/

namespace Atum.Images

open Atum.Go Atum.Config List

/-! ## The tables -/

/-- The map `byReference`: the last replacement of a reference counts. -/
def byReference (replacements : List ImageReplacement) (reference : String) : Option String :=
  ((replacements.filter (·.old = reference)).getLast?).map ImageReplacement.new

/-- The map `byRepository`. -/
def byRepository (replacements : List ImageReplacement) (repository : String) :
    List ImageReplacement :=
  replacements.filter fun replacement => imageRepository replacement.old = repository

/-- The part of a repository before its last slash. -/
def hubOf (repository : String) : Option String :=
  match cutLast repository '/' with
  | some (hub, _) => if hub = "" then none else some hub
  | none => none

/-- The map `byHub`. -/
def byHub (replacements : List ImageReplacement) (hub : String) : List ImageReplacement :=
  replacements.filter fun replacement => hubOf (imageRepository replacement.old) = some hub

/-- The loop of `matchingReplacementTag`. -/
def matchTags (tag : String) : List ImageReplacement → String → Except String String
  | [], matched => .ok matched
  | replacement :: rest, matched =>
    if !equivalentTag tag (imageTag replacement.old) then matchTags tag rest matched
    else
      let candidate := matchTagStyle tag (imageTag replacement.new)
      if matched ≠ "" ∧ matched ≠ candidate then .error "conflicting replacement tags"
      else matchTags tag rest candidate

/-- `matchingReplacementTag`. -/
def matchingReplacementTag (tag : String) (candidates : List ImageReplacement) :
    Except String String :=
  matchTags tag candidates ""

/-! ## The walk -/

/-- The assignment `typed[key] = text` for a key that is there. -/
def setText (key text : String) : List (String × Any) → List (String × Any)
  | [] => []
  | entry :: rest =>
    if entry.1 = key then (key, .string text) :: rest else entry :: setText key text rest

/-- Rewrite the tag under a key, if it is a text that the candidates replace. -/
def rewriteTag (candidates : List ImageReplacement) (context : String)
    (entries : List (String × Any)) (tagKey : String) : Except String (List (String × Any)) :=
  match (Any.field entries tagKey).text? with
  | none => .ok entries
  | some tag =>
    match matchingReplacementTag tag candidates with
    | .error e => .error s!"{context}:{tag}: {e}"
    | .ok matched => .ok (if matched = "" then entries else setText tagKey matched entries)

/-- One round of the loop over the registry keys: the candidates of the repository
behind the registry. -/
def qualifiedCandidates (replacements : List ImageReplacement) (entries : List (String × Any))
    (repository registryKey : String) : List ImageReplacement :=
  match (Any.field entries registryKey).text? with
  | none => []
  | some registry =>
    if registry = "" then []
    else
      byRepository replacements
        (imageRepository (trimSuffix registry "/" ++ "/" ++ trimPrefix repository "/"))

def repositoryCandidates (replacements : List ImageReplacement) (entries : List (String × Any))
    (repository : String) : List ImageReplacement :=
  byRepository replacements (imageRepository repository) ++
    ["registry", "defaultRegistry"].flatMap (qualifiedCandidates replacements entries repository)

/-- One round of the loop over the repository keys. -/
def rewriteRepository (replacements : List ImageReplacement) (entries : List (String × Any))
    (repositoryKey : String) : Except String (List (String × Any)) :=
  match (Any.field entries repositoryKey).text? with
  | none => .ok entries
  | some repository =>
    ["tag", "imageTag", "image_version", "newTag"].foldlM
      (rewriteTag (repositoryCandidates replacements entries repository)
        s!"image {repository}")
      entries

/-- The last step on a map: the tag beside a hub. -/
def rewriteHub (replacements : List ImageReplacement) (entries : List (String × Any)) :
    Except String (List (String × Any)) :=
  match (Any.field entries "hub").text? with
  | none => .ok entries
  | some hub =>
    rewriteTag (byHub replacements (imageRepository hub)) s!"image hub {hub}" entries "tag"

/-- The steps of the walk on a map after its entries were walked. -/
def rewriteTags (replacements : List ImageReplacement) (entries : List (String × Any)) :
    Except String (List (String × Any)) := do
  let entries ← ["repository", "repo", "image", "image_name", "newName"].foldlM
    (rewriteRepository replacements) entries
  rewriteHub replacements entries

/-- A text under a key of a map. -/
def rewriteText (parses : String → Bool) (replacements : List ImageReplacement) (text : String) :
    String :=
  match byReference replacements text with
  | some replacement => replacement
  | none =>
    match embeddedImageReference parses text with
    | none => text
    | some (before, reference) =>
      match byReference replacements reference with
      | some replacement => before ++ replacement
      | none => text

section Walk

variable (parses : String → Bool) (replacements : List ImageReplacement)

mutual

/-- The recursive function `walk`, with the tree that it leaves. -/
def walk : Any → Except String Any
  | .map entries => do
      let entries ← walkEntries entries
      let entries ← rewriteTags replacements entries
      return .map entries
  | .list items => do
      let items ← walkItems items
      return .list items
  | value => .ok value

/-- The loop over the entries of a map. -/
def walkEntries : List (String × Any) → Except String (List (String × Any))
  | [] => .ok []
  | (key, .string text) :: rest => do
      let rest ← walkEntries rest
      return (key, .string (rewriteText parses replacements text)) :: rest
  | (key, item) :: rest => do
      let item ← walk item
      let rest ← walkEntries rest
      return (key, item) :: rest

/-- The loop over the items of a list. -/
def walkItems : List Any → Except String (List Any)
  | [] => .ok []
  | item :: rest => do
      let item ← walk item
      let rest ← walkItems rest
      return item :: rest

end

/-- `replaceImageReferences`. -/
def replaceImageReferences (value : Any) : Except String Any :=
  if replacements = [] then .ok value else walk parses replacements value

end Walk

/-! ## Where a text occurs -/

/-- The text is a value in the tree, at any depth. -/
inductive Occurs (text : String) : Any → Prop where
  | here : Occurs text (.string text)
  | item {items : List Any} {item : Any} (hmem : item ∈ items) (hitem : Occurs text item) :
      Occurs text (.list items)
  | entry {entries : List (String × Any)} {entry : String × Any} (hmem : entry ∈ entries)
      (hent : Occurs text entry.2) : Occurs text (.map entries)

/-- The text is an item of a list, at any depth, or the tree itself. -/
inductive Loose (text : String) : Any → Prop where
  | here : Loose text (.string text)
  | item {items : List Any} {item : Any} (hmem : item ∈ items) (hitem : Loose text item) :
      Loose text (.list items)
  | entry {entries : List (String × Any)} {entry : String × Any} (hmem : entry ∈ entries)
      (hkey : entry.2.text? = none) (hent : Loose text entry.2) : Loose text (.map entries)

variable {text : String}

/-- The text is an old reference. -/
def IsOld (replacements : List ImageReplacement) (text : String) : Prop :=
  ∃ replacement ∈ replacements, replacement.old = text

/-- The walk writes the text: behind a name, or as a tag. -/
inductive Writes (parses : String → Bool) (replacements : List ImageReplacement) (text : String) :
    Any → Prop where
  | item {items : List Any} {item : Any} (hmem : item ∈ items)
      (hitem : Writes parses replacements text item) : Writes parses replacements text (.list items)
  | entry {entries : List (String × Any)} {entry : String × Any} (hmem : entry ∈ entries)
      (hent : Writes parses replacements text entry.2) :
      Writes parses replacements text (.map entries)
  /-- A text that is no old reference has an old reference in it, and no tag takes the place
  of what it becomes. -/
  | assigned {entries entries' : List (String × Any)} {key own before reference new : String}
      (hmem : (key, .string own) ∈ entries) (hown : byReference replacements own = none)
      (hembedded : embeddedImageReference parses own = some (before, reference))
      (hnew : byReference replacements reference = some new) (htext : text = before ++ new)
      (hwalk : walk parses replacements (.map entries) = .ok (.map entries'))
      (hkept : (key, .string text) ∈ entries') : Writes parses replacements text (.map entries)
  /-- The tag steps put a text into the map. -/
  | tag {entries between entries' : List (String × Any)} {key : String}
      (hwalk : walkEntries parses replacements entries = .ok between)
      (htags : rewriteTags replacements between = .ok entries')
      (hmem : (key, .string text) ∈ entries') (hnew : (key, .string text) ∉ between) :
      Writes parses replacements text (.map entries)

/-! ## Rewritten tags -/

section Tags

variable {replacements : List ImageReplacement} {candidates : List ImageReplacement} {tag : String}

/-- What the tag steps do to a map: they replace texts by texts. -/
structure Retagged (entries entries' : List (String × Any)) : Prop where
  origin : ∀ entry ∈ entries', entry ∈ entries ∨ ∃ text, entry.2 = .string text
  keeps : ∀ entry ∈ entries, entry.2.text? = none → entry ∈ entries'

theorem Retagged.refl (entries : List (String × Any)) : Retagged entries entries :=
  ⟨fun _ => .inl, fun _ hent _ => hent⟩

theorem Retagged.trans {first second third : List (String × Any)}
    (h : Retagged first second) (h' : Retagged second third) :
    Retagged first third := by
  constructor
  · intro entry hent
    rcases h'.origin entry hent with hent | hnew
    · exact h.origin entry hent
    · exact .inr hnew
  · exact fun entry hent hkey => h'.keeps entry (h.keeps entry hent hkey) hkey

theorem retagged_setText {key text : String} :
    ∀ {entries : List (String × Any)}, (Any.field entries key).text? = some tag →
      Retagged entries (setText key text entries) := by
  intro entries
  induction entries with
  | nil =>
    intro _
    exact .refl _
  | cons entry rest ih =>
    intro htag
    rw [setText]
    split
    · next heq =>
      have hfirst : (Any.field (entry :: rest) key) = entry.2 := by
        rw [Any.field, lookup_cons, heq, beq_self_eq_true]
        rfl
      rw [hfirst] at htag
      constructor
      · intro other hother
        rcases mem_cons.mp hother with rfl | hother
        · exact .inr ⟨text, rfl⟩
        · exact .inl (mem_cons_of_mem _ hother)
      intro other hother hkey
      rcases mem_cons.mp hother with rfl | hother
      · exact absurd (htag.symm.trans hkey) (by simp)
      · exact mem_cons_of_mem _ hother
    · next hne =>
      have hrest : Any.field (entry :: rest) key = Any.field rest key := by
        rw [Any.field, lookup_cons, beq_false_of_ne (Ne.symm hne)]
        rfl
      rw [hrest] at htag
      constructor
      · intro other hother
        rcases mem_cons.mp hother with rfl | hother
        · exact .inl mem_cons_self
        · exact ((ih htag).origin other hother).imp_left (mem_cons_of_mem _)
      intro other hother hkey
      rcases mem_cons.mp hother with rfl | hother
      · exact mem_cons_self
      · exact mem_cons_of_mem _ ((ih htag).keeps other hother hkey)

variable {entries entries' : List (String × Any)}

theorem retagged_rewriteTag {context tagKey : String}
    (h : rewriteTag candidates context entries tagKey = .ok entries') :
    Retagged entries entries' := by
  unfold rewriteTag at h
  split at h
  · exact Except.ok.inj h ▸ .refl _
  next tag htag =>
  split at h
  · cases h
  split at h
  · exact Except.ok.inj h ▸ .refl _
  · exact Except.ok.inj h ▸ retagged_setText htag

theorem retagged_rewriteRepository {repositoryKey : String}
    (h : rewriteRepository replacements entries repositoryKey = .ok entries') :
    Retagged entries entries' := by
  unfold rewriteRepository at h
  split at h
  · exact Except.ok.inj h ▸ .refl _
  · refine foldlM_keep (fun before tagKey after hstep hbefore => ?_) (.refl entries) h
    exact hbefore.trans (retagged_rewriteTag hstep)

theorem retagged_rewriteTags (h : rewriteTags replacements entries = .ok entries') :
    Retagged entries entries' := by
  obtain ⟨between, hbetween, h⟩ := bind_eq_ok.mp h
  have hrepositories : Retagged entries between := by
    refine foldlM_keep (fun before repositoryKey after hstep hbefore => ?_) (.refl entries) hbetween
    exact hbefore.trans (retagged_rewriteRepository hstep)
  refine hrepositories.trans ?_
  unfold rewriteHub at h
  split at h
  · exact Except.ok.inj h ▸ .refl _
  · exact retagged_rewriteTag h

end Tags

/-! ## The whole tree -/

section Tree

variable {parses : String → Bool} {replacements : List ImageReplacement}

theorem isOld_of_byReference {text new : String} (h : byReference replacements text = some new) :
    ∃ replacement ∈ replacements, replacement.old = text ∧ replacement.new = new := by
  obtain ⟨replacement, hlast, rfl⟩ := Option.map_eq_some_iff.mp h
  obtain ⟨hmem, heq⟩ := mem_filter.mp (mem_of_getLast? hlast)
  exact ⟨replacement, hmem, of_decide_eq_true heq, rfl⟩

variable {text : String}

theorem byReference_eq_none (h : byReference replacements text = none) :
    ¬IsOld replacements text := by
  rintro ⟨replacement, hmem, heq⟩
  rw [byReference, Option.map_eq_none_iff, List.getLast?_eq_none_iff, filter_eq_nil_iff] at h
  exact h replacement hmem (by simpa using heq)

/-- An old reference in the place of a text is a new one behind a name. -/
theorem embedded_of_isOld_rewriteText
    (hfresh : ∀ replacement ∈ replacements, ¬IsOld replacements replacement.new) {own : String}
    (hold : IsOld replacements (rewriteText parses replacements own)) :
    byReference replacements own = none ∧ ∃ before reference new,
      embeddedImageReference parses own = some (before, reference) ∧
        byReference replacements reference = some new ∧
        rewriteText parses replacements own = before ++ new := by
  unfold rewriteText at hold ⊢
  split at hold
  · next new hnew =>
    obtain ⟨replacement, hmem, -, rfl⟩ := isOld_of_byReference hnew
    exact absurd hold (hfresh replacement hmem)
  next hnone =>
  split at hold
  · exact absurd hold (byReference_eq_none hnone)
  next before reference hembedded =>
  split at hold
  · next new hnew => exact ⟨hnone, before, reference, new, hembedded, hnew, by simp⟩
  · exact absurd hold (byReference_eq_none hnone)

/-- One round of the loop over the entries of a map. -/
def walkEntry (parses : String → Bool) (replacements : List ImageReplacement)
    (entry : String × Any) : Except String (String × Any) :=
  match entry.2 with
  | .string text => .ok (entry.1, .string (rewriteText parses replacements text))
  | item => do
      let item ← walk parses replacements item
      return (entry.1, item)

theorem walkEntries_eq_mapM (entries : List (String × Any)) :
    walkEntries parses replacements entries = entries.mapM (walkEntry parses replacements) := by
  induction entries with
  | nil => rfl
  | cons entry rest ih =>
    obtain ⟨key, item⟩ := entry
    rw [mapM_cons, ← ih]
    cases item
    case string text => rfl
    all_goals simp [walkEntries, walkEntry]

theorem walkItems_eq_mapM (items : List Any) :
    walkItems parses replacements items = items.mapM (walk parses replacements) := by
  induction items with
  | nil => rfl
  | cons item rest ih => rw [mapM_cons, ← ih, walkItems]

variable {result : Any}

theorem walk_list_ok {items : List Any} (h : walk parses replacements (.list items) = .ok result) :
    ∃ items', result = .list items' ∧ items.mapM (walk parses replacements) = .ok items' := by
  rw [walk, bind_eq_ok] at h
  obtain ⟨items', hitems, h⟩ := h
  exact ⟨items', (Except.ok.inj h).symm, walkItems_eq_mapM items ▸ hitems⟩

theorem walk_map_ok {entries : List (String × Any)}
    (h : walk parses replacements (.map entries) = .ok result) :
    ∃ between entries', result = .map entries' ∧
      entries.mapM (walkEntry parses replacements) = .ok between ∧
      rewriteTags replacements between = .ok entries' := by
  rw [walk, bind_eq_ok] at h
  obtain ⟨between, hbetween, h⟩ := h
  rw [bind_eq_ok] at h
  obtain ⟨entries', hents, h⟩ := h
  exact ⟨between, entries', (Except.ok.inj h).symm, walkEntries_eq_mapM entries ▸ hbetween, hents⟩

theorem walkEntry_ok {entry entry' : String × Any}
    (h : walkEntry parses replacements entry = .ok entry') : (∃ text,
        entry = (entry'.1, .string text) ∧
          entry'.2 = .string (rewriteText parses replacements text)) ∨
      entry.2.text? = none ∧ walk parses replacements entry.2 = .ok entry'.2 := by
  unfold walkEntry at h
  split at h
  · next text htext =>
    cases h
    exact .inl ⟨text, Prod.ext rfl htext, rfl⟩
  next hnot =>
  obtain ⟨item, hitem, h⟩ := bind_eq_ok.mp h
  cases h
  refine .inr ⟨?_, hitem⟩
  cases hval : entry.2 with
  | string text => exact absurd hval (hnot text)
  | _ => rfl

variable {value : Any}

/-- What is no text before the walk is no text after it. -/
theorem text?_walk (hkey : value.text? = none)
    (h : walk parses replacements value = .ok result) : result.text? = none := by
  cases value with
  | string text => cases hkey
  | list items =>
    obtain ⟨items', rfl, -⟩ := walk_list_ok h
    rfl
  | map entries =>
    obtain ⟨_, entries', rfl, -⟩ := walk_map_ok h
    rfl
  | _ => exact Except.ok.inj h ▸ rfl

/-- What a map has under a key and is no text is walked and stays there. -/
theorem walk_entry {entries between entries' : List (String × Any)} {entry : String × Any}
    (hbetween : entries.mapM (walkEntry parses replacements) = .ok between)
    (htags : rewriteTags replacements between = .ok entries') (hmem : entry ∈ entries)
    (hkey : entry.2.text? = none) :
    ∃ entry' ∈ entries', walk parses replacements entry.2 = .ok entry'.2 := by
  obtain ⟨entry', hmem', hwalk⟩ := (mapM_ok hbetween).2 _ hmem
  rcases walkEntry_ok hwalk with ⟨text, htext, -⟩ | ⟨-, hwalk⟩
  · rw [htext] at hkey
    cases hkey
  · exact ⟨entry', (retagged_rewriteTags htags).keeps entry' hmem' (text?_walk hkey hwalk), hwalk⟩

theorem Writes.text?_eq_none (h : Writes parses replacements text value) : value.text? = none := by
  cases h <;> rfl

/-- The old references that are left are those in lists and those that the walk wrote. -/
theorem occurs_walk_iff
    (hfresh : ∀ replacement ∈ replacements, ¬IsOld replacements replacement.new)
    (hold : IsOld replacements text) (value : Any) :
    ∀ {result : Any}, walk parses replacements value = .ok result →
      (Occurs text result ↔ Loose text value ∨ Writes parses replacements text value) := by
  induction value using Any.induction with
  | string own =>
    intro result h
    cases h
    constructor
    · intro hoccurs
      cases hoccurs
      exact .inl .here
    · rintro (hloose | hwrites)
      · cases hloose
        exact .here
      · cases hwrites
  | list items ih =>
    intro result h
    obtain ⟨items', rfl, hitems⟩ := walk_list_ok h
    constructor
    · rintro (_ | ⟨hmem', hoccurs⟩)
      obtain ⟨item, hmem, hitem⟩ := (mapM_ok hitems).1 _ hmem'
      exact ((ih item hmem hitem).mp hoccurs).imp (.item hmem) (.item hmem)
    · rintro ((_ | ⟨hmem, hleft⟩) | ⟨hmem, hleft⟩)
      all_goals obtain ⟨item', hmem', hitem⟩ := (mapM_ok hitems).2 _ hmem
      · exact .item hmem' ((ih _ hmem hitem).mpr (.inl hleft))
      · exact .item hmem' ((ih _ hmem hitem).mpr (.inr hleft))
  | map entries ih =>
    intro result h
    obtain ⟨between, entries', rfl, hbetween, htags⟩ := walk_map_ok h
    constructor
    · intro hoccurs
      cases hoccurs with
      | @entry _ left hleft hoccurs =>
        by_cases hbefore : left ∈ between
        · obtain ⟨entry, hmem, hwalk⟩ := (mapM_ok hbetween).1 _ hbefore
          rcases walkEntry_ok hwalk with ⟨own, rfl, htext⟩ | ⟨hkey, hwalk⟩
          · -- The text was rewritten, and what it became is an old reference.
            obtain ⟨key, item⟩ := left
            cases htext
            cases hoccurs
            obtain ⟨hnone, before, reference, new, hembedded, hnew, heq⟩ :=
              embedded_of_isOld_rewriteText hfresh hold
            exact .inr (.assigned hmem hnone hembedded hnew heq h hleft)
          · exact ((ih entry hmem hwalk).mp hoccurs).imp (.entry hmem hkey) (.entry hmem)
        · rcases (retagged_rewriteTags htags).origin _ hleft with hmem' | ⟨tag, htag⟩
          · exact absurd hmem' hbefore
          · obtain ⟨key, item⟩ := left
            cases htag
            cases hoccurs
            rw [← walkEntries_eq_mapM] at hbetween
            exact .inr (.tag hbetween htags hleft hbefore)
    · rintro (hloose | hwrites)
      · cases hloose with
        | entry hmem hkey hleft =>
          obtain ⟨entry', hmem', hwalk⟩ := walk_entry hbetween htags hmem hkey
          exact .entry hmem' ((ih _ hmem hwalk).mpr (.inl hleft))
      · cases hwrites with
        | entry hmem hleft =>
          obtain ⟨entry', hmem', hwalk⟩ :=
            walk_entry hbetween htags hmem hleft.text?_eq_none
          exact .entry hmem' ((ih _ hmem hwalk).mpr (.inr hleft))
        | assigned _ _ _ _ _ hwalk hkept =>
          cases hwalk.symm.trans h
          exact .entry hkept .here
        | tag hwalk htags' hmem =>
          rw [← walkEntries_eq_mapM, hwalk] at hbetween
          cases hbetween
          cases htags'.symm.trans htags
          exact .entry hmem .here
  | _ =>
    intro result h
    cases h
    refine iff_of_false nofun ?_
    rintro (hloose | hwrites)
    · cases hloose
    · cases hwrites

end Tree

def sampleReplacements : List ImageReplacement := [⟨"hub/app:1", "hub/app:2"⟩]

theorem isOld_sampleReplacements : IsOld sampleReplacements text ↔ text = "hub/app:1" := by
  simp [IsOld, sampleReplacements, eq_comm]

/-- A new reference behind a name is no old one. -/
theorem not_isOld_assigned {before reference new : String}
    (h : byReference sampleReplacements reference = some new) :
    ¬IsOld sampleReplacements (before ++ new) := by
  obtain ⟨replacement, hmem, -, rfl⟩ := isOld_of_byReference h
  obtain rfl := mem_singleton.mp hmem
  rw [isOld_sampleReplacements]
  intro heq
  have hlast := congrArg (fun text : String => text.toList.getLast?) heq
  simp at hlast

/-- A tag beside its repository, a reference under a key, and a list. -/
def sampleValues (tag reference : String) : Any :=
  .map [("repository", .string "hub/app"), ("tag", .string tag), ("sidecar", .string reference),
    ("args", .list [.string "--quiet"])]

-- An old reference with a name in front of it is written by the walk itself.
example : replaceImageReferences (fun _ => true)
    [⟨"hub/app:1", "hub/app:2"⟩, ⟨"image=hub/app:2", "hub/app:3"⟩]
    (.map [("arg", .string "image=hub/app:1")]) =
      .ok (.map [("arg", .string "image=hub/app:2")]) := by
  rfl

end Atum.Images
