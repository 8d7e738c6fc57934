import Atum.Go.Paths

/-!
# The filesystem of an image

The inspection of an official image reads its layers into an `officialPathIndex`: a map
from clean paths to the last tar entry of that path, and for each directory the set of the
entries in it.  Whiteout entries remove a path with everything below it.

`resolveOfficialPath` looks a path up and follows links on the way.
-/

namespace Atum.Admission

open Atum.Go

/-! ## Entries -/

/-- `tar.TypeReg`, `tar.TypeRegA`, `tar.TypeLink`, `tar.TypeSymlink` and `tar.TypeDir`. -/
def typeReg : UInt8 := 0x30
def typeRegA : UInt8 := 0
def typeLink : UInt8 := 0x31
def typeSymlink : UInt8 := 0x32
def typeDir : UInt8 := 0x35

/-- `officialPathState` -/
structure PathState where
  present : Bool := false
  mode : Int := 0
  uid : Int := 0
  gid : Int := 0
  kind : UInt8 := 0
  link : String := ""
  content : List UInt8 := []
  resolved : String := ""
  contentKnown : Bool := false
deriving DecidableEq, Repr

/-- `officialPathIndex`: two maps. -/
structure PathIndex where
  states : List (String × PathState)
  children : List (String × List String)
deriving DecidableEq, Repr

/-- A symbolic or a hard link. -/
def PathState.isLink (state : PathState) : Bool :=
  state.kind == typeSymlink || state.kind == typeLink

/-! ## Following links -/

/-- The errors of `resolveOfficialPath`. -/
inductive LinkError where
  | chain
  | cycle (current : String)
  | empty (linkPath : String)
  | dangling (linkPath target : String)
deriving DecidableEq, Repr

def LinkError.text : LinkError → String
  | .chain => "link chain exceeds 64 entries"
  | .cycle current => "link cycle at /" ++ current
  | .empty linkPath => "empty link target at /" ++ linkPath
  | .dangling linkPath target => "dangling link /" ++ linkPath ++ " -> /" ++ target

def maxLinkChain : Nat := 64

/-- The components of a path. -/
def components (current : String) : List String := split (trim current "/") '/'

/-- The loop over the components: the place, the path and the state of the first link. -/
def firstLinkAt (index : PathIndex) (components : List String) :
    Option (Nat × String × PathState) :=
  (List.range components.length).findSome? fun componentIndex =>
    let linkPath := joinPath (components.take (componentIndex + 1))
    match index.states.lookup linkPath with
    | some state => if state.isLink then some (componentIndex, linkPath, state) else none
    | none => none

/-- The path that a link is replaced by. -/
def linkTarget (components : List String) (componentIndex : Nat) (linkPath : String)
    (state : PathState) : String :=
  let target :=
    if state.kind = typeSymlink ∧ isAbs state.link = false then
      joinPath [dir ("/" ++ linkPath), state.link]
    else state.link
  let target :=
    if componentIndex + 1 < components.length then
      joinPath [target, joinPath (components.drop (componentIndex + 1))]
    else target
  cleanPath target

/-- The state of a path without links. -/
def storedState (index : PathIndex) (current : String) : PathState :=
  match index.states.lookup current with
  | some state => { state with resolved := current }
  | none =>
    -- A queried directory may be implicit in the archive.
    if ((index.children.lookup current).getD []).length ≠ 0 then
      { present := true, kind := typeDir, mode := 0o755 }
    else {}

/-- What a link makes of the state of its target. -/
def throughLink (linkPath target : String) (last : Bool) (state : PathState) :
    Except LinkError PathState → Except LinkError PathState
  | .error err => .error err
  | .ok resolved =>
    if resolved.present = false then
      if last = false then .ok {} else .error (.dangling linkPath target)
    else .ok { resolved with link := state.link }

/-- `resolveOfficialPath` with a set of visited paths.  Every call adds a path to the set, so
`left` counts how many more it can take: the call with more than 64 visited paths is the
one with none left. -/
def resolveFrom (index : PathIndex) : Nat → String → List String → Except LinkError PathState
  | 0, _, _ => .error .chain
  | left + 1, current, visited =>
    if current ∈ visited then .error (.cycle current)
    else
      match firstLinkAt index (components current) with
      | none => .ok (storedState index current)
      | some (componentIndex, linkPath, state) =>
        if state.link = "" then .error (.empty linkPath)
        else
          let target := linkTarget (components current) componentIndex linkPath state
          throughLink linkPath target (componentIndex + 1 == (components current).length) state
            (resolveFrom index left target (current :: visited))

def resolveOfficialPath (index : PathIndex) (current : String) : Except LinkError PathState :=
  resolveFrom index (maxLinkChain + 1) current []

end Atum.Admission
