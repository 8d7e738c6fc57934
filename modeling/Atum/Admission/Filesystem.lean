import Atum.Admission.PathIndex
import Atum.Library.AssocList

/-!
# Reading the filesystem of an image

The inspection of an official image reads the tar entries of its layers into an
index, and looks the required paths up in it.  Some of the paths are also wanted
with their content.  The content of an entry whose path is wanted is kept at once;
a wanted path may also lead through links to another entry, and then the layers
are read a second time for the content of the entries that were found.

The two passes treat removals differently.  The first follows the children that
the index has recorded, the second has a list of the ancestors of every path it
looks for.
-/

namespace Atum.Admission

open Atum.Go AssocList List

/-- A tar entry: its header and its data.  An entry without data may declare a size too. -/
structure Entry where
  name : String
  typeflag : UInt8
  mode : Int := 0o644
  uid : Int := 0
  gid : Int := 0
  linkname : String := ""
  size : Int64
  data : List UInt8
  deriving DecidableEq, Repr

def Entry.path (entry : Entry) : String := cleanPath entry.name

def Entry.isRegular (entry : Entry) : Bool :=
  entry.typeflag = typeReg || entry.typeflag = typeRegA

def Entry.isWhiteout (entry : Entry) : Bool := hasPrefix (base entry.path) ".wh."

def officialPathParent (name : String) : String := if dir name = "." then "" else dir name

/-! ## The index -/

namespace PathIndex

def empty : PathIndex := ⟨[], []⟩

/-- The recorded children of a directory. -/
def childrenOf (index : PathIndex) (name : String) : List String :=
  (index.children.lookup name).getD []

def set (index : PathIndex) (name : String) (state : PathState) : PathIndex :=
  let parent := officialPathParent name
  { states := put index.states name state
    children :=
      if (index.states.lookup name).isSome then index.children
      else put index.children parent ((index.childrenOf parent).insert name) }

/-- How many children are recorded. -/
def childCount (children : List (String × List String)) : Nat :=
  (children.map fun pair => pair.2.length).sum

theorem childCount_erase (children : List (String × List String)) (key : String) :
    ((children.lookup key).getD []).length + childCount
    (erase children key) ≤ childCount children := by
  induction children with
  | nil => simp [childCount, erase]
  | cons pair rest ih =>
    obtain ⟨first, names⟩ := pair
    by_cases hfirst : first = key
    · subst hfirst
      have hskip : erase ((first, names) :: rest) first = erase rest first := by simp [erase]
      have hrest : childCount (erase rest first) ≤ childCount rest := by omega
      simp only [hskip, lookup_cons, beq_self_eq_true, Option.getD_some, childCount,
        map_cons, sum_cons] at hrest ⊢
      omega
    have hkeep : erase ((first, names) :: rest) key = (first, names) :: erase rest key := by
      simp [erase, hfirst]
    have hlook : ((first, names) :: rest).lookup key = rest.lookup key := by
      rw [lookup_cons, beq_false_of_ne (Ne.symm hfirst)]
    simp only [hkeep, hlook, childCount, map_cons, sum_cons] at ih ⊢
    omega

/-- Remove the paths on a stack and everything that is recorded below them.  The
order in which the children of a path are pushed does not matter. -/
def removeAll (index : PathIndex) (stack : List String) : PathIndex :=
  match stack with
  | [] => index
  | current :: stack =>
    removeAll ⟨erase index.states current, erase index.children current⟩
      (index.childrenOf current ++ stack)
termination_by stack.length + childCount index.children
decreasing_by
  have hcount := childCount_erase index.children current
  simp only [List.length_append, List.length_cons, childrenOf]
  omega

def removeSubtree (index : PathIndex) (root : String) : PathIndex :=
  let parent := officialPathParent root
  let children :=
    match index.children.lookup parent with
    | none => index.children
    | some names => put index.children parent (names.filter (· ≠ root))
  removeAll { index with children } [root]

/-- Remove children of a directory until it has none, at most `count` of them. -/
def removeChildrenLoop (root : String) : Nat → PathIndex → PathIndex
  | 0, index => index
  | count + 1, index =>
    match index.childrenOf root with
    | [] => index
    | child :: _ => removeChildrenLoop root count (index.removeSubtree child)

/-- Every round removes a child of the directory, so there are no more rounds than
children. -/
def removeChildren (index : PathIndex) (root : String) : PathIndex :=
  removeChildrenLoop root (index.childrenOf root).length index

/-- What a whiteout entry removes. -/
def whiteout (index : PathIndex) (clean : String) : PathIndex :=
  let directory := officialPathParent clean
  if base clean = ".wh..wh..opq" then index.removeChildren directory
  else index.removeSubtree (joinPath [directory, trimPrefix (base clean) ".wh."])

end PathIndex

/-! ## The first pass -/

def maxOfficialFilesystemBytes : Nat := 8 * 2 ^ 30
def maxOfficialEntrypointBytes : Nat := 2 ^ 20
def maxOfficialFilesystemEntries : Nat := 2000000

def exceedsBytes : String :=
  "official filesystem exceeds " ++ toString maxOfficialFilesystemBytes ++ " inspected bytes"

def exceedsEntries : String :=
  "official filesystem exceeds " ++ toString maxOfficialFilesystemEntries ++ " entries"

/-- The data of a regular file, which must not be too long. -/
def readContent (entry : Entry) : Except String (List UInt8) :=
  let tooLong : Except String (List UInt8) := .error
    ("official entrypoint /" ++ entry.path ++ " exceeds " ++ toString maxOfficialEntrypointBytes ++
      " bytes")
  let content := entry.data.take (maxOfficialEntrypointBytes + 1)
  if maxOfficialEntrypointBytes < entry.size.toInt then tooLong
  else if maxOfficialEntrypointBytes < content.length then tooLong
  else .ok content

/-- The paths whose content is wanted. -/
def contentQueries (contentPaths : List String) : List String :=
  (contentPaths.map cleanPath).filter fun clean => clean ≠ "." ∧ clean ≠ ""

/-- The content of an entry, if it is wanted and the entry is a regular file. -/
def capture (queries : List String) (entry : Entry) : Except String (Option (List UInt8)) :=
  if entry.path ∈ queries ∧ entry.isRegular then do return some (← readContent entry)
  else .ok none

/-- The state of an entry. -/
def Entry.state (entry : Entry) (content : Option (List UInt8)) : PathState where
  present := true
  mode := entry.mode
  uid := entry.uid
  gid := entry.gid
  kind := entry.typeflag
  link := entry.linkname
  content := content.getD []
  contentKnown := content.isSome

/-- The declared sizes are added up in an `int64`, which may wrap. -/
structure Walk where
  processed : Int64 := 0
  index : PathIndex := PathIndex.empty

def Walk.visit (queries : List String) (walk : Walk) (entry : Entry) : Except String Walk :=
  let processed := walk.processed + entry.size
  let clean := entry.path
  if maxOfficialFilesystemBytes < processed.toInt then .error exceedsBytes
  else if clean = "" ∨ clean = "." then .ok { walk with processed }
  else if entry.isWhiteout then .ok { processed, index := walk.index.whiteout clean }
  else do
    let content ← capture queries entry
    if walk.index.states.lookup clean = none ∧
        maxOfficialFilesystemEntries ≤ walk.index.states.length then .error exceedsEntries
    else .ok { processed, index := walk.index.set clean (entry.state content) }

/-- The index of an image: the layers are read one after the other.

A layer is the list of the entries that the tar reader returns before it comes to the end.
A reader that fails makes the inspection fail; so does one whose stream is cut off, because
it goes beyond the bytes that may still be inspected.  Such layers are not modelled. -/
def indexLayers (queries : List String) (layers : List (List Entry)) : Except String PathIndex := do
  let walk ← layers.foldlM (fun walk layer => layer.foldlM (Walk.visit queries) walk) {}
  return walk.index

/-! ## The second pass -/

/-- A path and its ancestors, the root last. -/
def ancestorsFrom : Nat → String → List String
  | 0, _ => []
  | count + 1, ancestor =>
    ancestor :: if ancestor = "" then [] else ancestorsFrom count (officialPathParent ancestor)

/-- A clean path has no more ancestors than components, and the root. -/
def ancestors (path : String) : List String := ancestorsFrom ((split path '/').length + 1) path

/-- The requested paths at or below a path. -/
def indexRequestedSubtrees (requested : List String) (directory : String) : List String :=
  requested.filter fun path => directory ∈ ancestors path

structure Reading where
  processed : Int64 := 0
  contents : List (String × List UInt8) := []

/-- The contents that a whiteout entry removes. -/
def withdraw (requested : List String) (contents : List (String × List UInt8)) (clean : String) :
    List (String × List UInt8) :=
  let directory := officialPathParent clean
  if base clean = ".wh..wh..opq" then
    ((indexRequestedSubtrees requested directory).filter (· ≠ directory)).foldl erase contents
  else
    (indexRequestedSubtrees requested
      (joinPath [directory, trimPrefix (base clean) ".wh."])).foldl erase contents

def Reading.visit (requested : List String) (reading : Reading) (entry : Entry) :
    Except String Reading :=
  let processed := reading.processed + entry.size
  let clean := entry.path
  if maxOfficialFilesystemBytes < processed.toInt then .error exceedsBytes
  else if entry.isWhiteout then
    .ok { processed, contents := withdraw requested reading.contents clean }
  else if clean ∈ requested ∧ entry.isRegular then do
    let content ← readContent entry
    return { processed, contents := put reading.contents clean content }
  else .ok { reading with processed }

def readOfficialFileContents (layers : List (List Entry)) (requested : List String) :
    Except String (List (String × List UInt8)) := do
  let reading ← layers.foldlM
    (fun reading layer => layer.foldlM (Reading.visit requested) reading) {}
  return reading.contents

/-! ## The inspection -/

/-- The state of a required path. -/
def resolveRequired (index : PathIndex) (required : String) : Except String PathState :=
  match resolveOfficialPath index (cleanPath required) with
  | .ok state => .ok state
  | .error e => .error ("resolve official path " ++ required ++ ": " ++ e.text)

/-- The entry whose content is wanted and not known yet. -/
def missingContent (queries : List String) (required : String) (state : PathState) :
    Option String :=
  if cleanPath required ∈ queries ∧ state.present ∧ !state.contentKnown ∧ state.resolved ≠ "" then
    some state.resolved
  else none

/-- Give a state the content of its entry. -/
def attach (contents : List (String × List UInt8)) (state : PathState) : PathState :=
  match contents.lookup state.resolved with
  | some content => { state with content, contentKnown := true }
  | none => state

def inspectOfficialFilesystem (layers : List (List Entry))
    (requiredPaths contentPaths : List String) :
    Except String (List (String × PathState)) := do
  let queries := contentQueries contentPaths
  let index ← indexLayers queries layers
  let result ← requiredPaths.mapM fun required => do
    let state ← resolveRequired index required
    return (required, state)
  let missing := result.filterMap fun (required, state) => missingContent queries required state
  if missing = [] then return result
  else do
    let contents ← readOfficialFileContents layers missing
    return result.map fun (required, state) => (required, attach contents state)

end Atum.Admission
