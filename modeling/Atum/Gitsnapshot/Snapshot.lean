import Mathlib.Data.List.Sort
import Atum.Go.Outcome
import Atum.Go.Strings
import Atum.Library.Utf8

/-!
# Source snapshots

`Snapshot.Identity` writes the tracked files into a SHA-256 hash and into the tree of a
Git commit, in one traversal.  The bytes of a file come from one of three places: from
the overrides, from the captured target of a symlink, or from the working tree.

Names, targets and contents are byte strings, as Go has them.  SHA-256, the object hashes
of Git and the encoders of its objects are parameters.  The maps of the tree are walked in
any order and the sort of the entries is not stable, so the arrangement of the entries of
a directory is a parameter too.
-/

namespace Atum.Gitsnapshot

open Atum.Go

abbrev Bytes := List UInt8

/-- The bytes of a text. -/
def ascii (text : String) : Bytes := Utf8.encode text.toList

/-- The verb `%d`. -/
def decimal (n : Int) : Bytes :=
  if n < 0 then ascii "-" ++ ascii (zeroPadded 10 1 n.natAbs) else ascii (zeroPadded 10 1 n.natAbs)

/-- `filepath.ToSlash`, on a system whose separator is the slash. -/
def toSlash (name : Bytes) : Bytes := name

/-! ## Files -/

/-- `filemode.FileMode`. -/
abbrev FileMode := UInt32

namespace FileMode

def dir : FileMode := 0o040000
def regular : FileMode := 0o100644
def deprecated : FileMode := 0o100664
def executable : FileMode := 0o100755
def symlink : FileMode := 0o120000
def submodule : FileMode := 0o160000

/-- The text of a mode. -/
def text (mode : FileMode) : Bytes := ascii (zeroPadded 8 7 mode.toNat)

end FileMode

/-- What reading an opened file up to its end and closing it comes to. -/
inductive Stream where
  | broken (err : Bytes)
  | unclosed (err : Bytes)
  | complete (data : Bytes)

/-- A tracked file.  `opened` is what the working tree has for it. -/
structure File where
  name : Bytes
  mode : FileMode
  size : Int
  symlink : Bytes
  opened : Except Bytes Stream

/-- `File.Reader`. -/
def File.reader (file : File) : Except Bytes Stream :=
  if file.mode ≠ .regular ∧ file.mode ≠ .executable ∧ file.mode ≠ .deprecated then
    .error (ascii "tracked source " ++ file.name ++ ascii " is not a regular file")
  else file.opened

/-- `File.Contents`. -/
def File.contents (file : File) : Except Bytes Bytes :=
  if file.mode ≠ .symlink then
    .error (ascii "tracked source " ++ file.name ++ ascii " is not a symlink")
  else .ok file.symlink

/-- The modes that `Identity` tells apart. -/
inductive ModeClass where
  | regular
  | executable
  | symlink
deriving DecidableEq, Repr

/-- The permission bits in the stream. -/
def ModeClass.mode : ModeClass → Nat
  | .regular => 0o644
  | .executable => 0o755
  | .symlink => 0o777

/-- The mode in the tree. -/
def ModeClass.gitMode : ModeClass → FileMode
  | .regular => .regular
  | .executable => .executable
  | .symlink => .symlink

/-- The class of a mode. -/
def modeClass (mode : FileMode) : Option ModeClass :=
  if mode = .regular ∨ mode = .deprecated then some .regular
  else if mode = .executable then some .executable
  else if mode = .symlink then some .symlink
  else none

/-- The switch on the mode of an entry. -/
def classify (mode : FileMode) (name : Bytes) : Except Bytes ModeClass :=
  match modeClass mode with
  | some fileClass => .ok fileClass
  | none =>
    if mode = .submodule then
      .error (ascii "Git snapshot contains unsupported submodule " ++ name)
    else
      .error (ascii "Git snapshot contains unsupported mode " ++ mode.text ++ ascii " at " ++ name)

/-! ## The tree of the commit -/

/-- A Git object hash. -/
abbrev Hash := Bytes

structure TreeEntry where
  name : Bytes
  mode : FileMode
  hash : Hash
deriving DecidableEq

mutual

/-- `treeNode`: the entries in the order of `add`, and the directories. -/
inductive TreeNode where
  | node (directories : Directories) (entries : List TreeEntry)

/-- The map of the directories of a node. -/
inductive Directories where
  | nil
  | cons (name : Bytes) (child : TreeNode) (rest : Directories)

end

def Directories.find? (name : Bytes) : Directories → Option TreeNode
  | .nil => none
  | .cons other child rest => if other = name then some child else rest.find? name

def Directories.set (name : Bytes) (child : TreeNode) : Directories → Directories
  | .nil => .cons name child .nil
  | .cons other old rest =>
    if other = name then .cons name child rest else .cons other old (rest.set name child)

/-- The node of a directory without files. -/
def TreeNode.empty : TreeNode := .node .nil []

/-- A component that `add` refuses: empty, `.` or `..`. -/
def invalidComponent (component : Bytes) : Bool :=
  component == [] || component == [46] || component == [46, 46]

/-- `treeNode.add` on the components of a name. -/
def TreeNode.addParts (quoted : Bytes) (mode : FileMode) (hash : Hash) :
    List Bytes → TreeNode → Except Bytes TreeNode
  | [], _ => .error (ascii "Git snapshot path " ++ quoted ++ ascii " is empty")
  | [leaf], .node directories entries =>
    if invalidComponent leaf then
      .error (ascii "Git snapshot path " ++ quoted ++ ascii " is invalid")
    else .ok (.node directories (entries ++ [{ name := leaf, mode := mode, hash := hash }]))
  | component :: next :: rest, .node directories entries =>
    if invalidComponent component then
      .error (ascii "Git snapshot path " ++ quoted ++ ascii " is invalid")
    else
      match addParts quoted mode hash (next :: rest)
          ((directories.find? component).getD .empty) with
      | .error err => .error err
      | .ok child => .ok (.node (directories.set component child) entries)

structure Signature where
  name : Bytes
  email : Bytes
  /-- Seconds since 1970. -/
  time : Int

structure Commit where
  author : Signature
  committer : Signature
  treeHash : Hash
  message : Bytes

/-- What is used of the Git library and of `fmt`: the object hashes, the object encoders,
and the verb `%q`. -/
structure Git where
  /-- `plumbing.NewHasher` for a type and a size, and the sum of what is written to it. -/
  hasher : String → Int → Bytes → Hash
  /-- `plumbing.ComputeHash`, which is also the hash of an object in memory. -/
  computeHash : String → Bytes → Hash
  /-- Hashing a content at once is hashing it as a stream of its size. -/
  computeHash_eq : ∀ objectType content,
    computeHash objectType content = hasher objectType content.length content
  encodeTree : List TreeEntry → Except Bytes Bytes
  encodeCommit : Commit → Except Bytes Bytes
  quoted : Bytes → Bytes

section Identity

variable (git : Git)

def TreeNode.add (name : Bytes) (mode : FileMode) (hash : Hash) (node : TreeNode) :
    Except Bytes TreeNode :=
  node.addParts (git.quoted name) mode hash (name.splitOn 47)

/-- How the entries of a directory are arranged: a walk through a map in any order, and
a sort that is not stable. -/
abbrev Arrangement := List Bytes → List TreeEntry → List TreeEntry

mutual

/-- `treeNode.hash`. -/
def TreeNode.hash (arrange : Arrangement) (path : List Bytes) : TreeNode → Except Bytes Hash
  | .node directories entries =>
    match directories.hash arrange path with
    | .error err => .error err
    | .ok children =>
      match git.encodeTree (arrange path (entries ++ children)) with
      | .error err => .error (ascii "encode deterministic Atum source tree: " ++ err)
      | .ok encoded => .ok (git.computeHash "tree" encoded)

/-- The entries of the directories of a node. -/
def Directories.hash (arrange : Arrangement) (path : List Bytes) :
    Directories → Except Bytes (List TreeEntry)
  | .nil => .ok []
  | .cons name child rest =>
    match child.hash arrange (path ++ [name]) with
    | .error err => .error err
    | .ok hash =>
      match rest.hash arrange path with
      | .error err => .error err
      | .ok entries => .ok ({ name := name, mode := .dir, hash := hash } :: entries)

end

/-! ## The traversal -/

/-- The files that `Identity` reads from elsewhere. -/
abbrev Overrides := List (Bytes × Bytes)

/-- What is written before the content of a file. -/
def header (name : Bytes) (fileClass : ModeClass) (size : Int) : Bytes :=
  name ++ [0] ++ ascii (zeroPadded 8 1 fileClass.mode) ++ [0] ++ decimal size ++ [0]

/-- The bytes that a file adds to the stream, and the hash of its blob. -/
def hashFile (overrides : Overrides) (file : File) (name : Bytes) (fileClass : ModeClass) :
    Except Bytes (Bytes × Hash) :=
  match overrides.lookup name with
  | some replacement =>
    if file.mode ≠ .regular ∧ file.mode ≠ .deprecated then
      .error (ascii "Git snapshot replacement " ++ name ++ ascii " is not a regular file")
    else
      .ok (header name fileClass replacement.length ++ replacement ++ [0],
        git.computeHash "blob" replacement)
  | none =>
    if file.mode = .symlink then
      match file.contents with
      | .error err => .error err
      | .ok target =>
        .ok (header name fileClass target.length ++ target ++ [0], git.computeHash "blob" target)
    else
      match file.reader with
      | .error err => .error (ascii "open Git snapshot file " ++ name ++ ascii ": " ++ err)
      | .ok (.broken err) => .error (ascii "hash Git snapshot file " ++ name ++ ascii ": " ++ err)
      | .ok (.unclosed err) =>
        .error (ascii "close Git snapshot file " ++ name ++ ascii ": " ++ err)
      | .ok (.complete data) =>
        if (data.length : Int) ≠ file.size then
          .error (ascii "Git snapshot file " ++ name ++ ascii " yielded " ++ decimal data.length ++
            ascii " bytes, want " ++ decimal file.size)
        else
          .ok (header name fileClass file.size ++ data ++ [0], git.hasher "blob" file.size data)

/-- The variables of the loop of `Identity`. -/
structure Traversal where
  stream : Bytes
  remaining : List Bytes
  root : TreeNode

/-- One round of the loop. -/
def visit (overrides : Overrides) (state : Traversal) (file : File) : Except Bytes Traversal := do
  let name := toSlash file.name
  let fileClass ← classify file.mode name
  let (record, blob) ← hashFile git overrides file name fileClass
  let root ← state.root.add git name fileClass.gitMode blob
  return {
    stream := state.stream ++ record
    -- Only the branch of the overrides deletes a name.
    remaining :=
      if (overrides.lookup name).isSome then state.remaining.filter (· ≠ name)
      else state.remaining
    root := root }

def traverse (overrides : Overrides) (files : List File) : Except Bytes Traversal :=
  files.foldlM (visit git overrides) {
    stream := ascii "atum-git-snapshot-v1" ++ [0]
    remaining := overrides.map fun override => toSlash override.1
    root := .empty }

/-- The text of a list of names in the order of `sort.Strings`. -/
def sortedNames (names : List Bytes) : Bytes :=
  let sorted := names.insertionSort fun left right =>
    left.map UInt8.toNat ≤ right.map UInt8.toNat
  ascii "[" ++ (ascii " ").intercalate sorted ++ ascii "]"

def hex (bytes : Bytes) : String :=
  String.ofList (bytes.flatMap fun byte =>
    [Nat.digitChar (byte.toNat / 16), Nat.digitChar (byte.toNat % 16)])

structure Identity where
  sha256 : String
  commit : String
deriving DecidableEq

/-- The commit on a tree. -/
def sourceCommit (treeHash : Hash) : Commit :=
  let signature :=
    { name := ascii "Atum Genesis", email := ascii "atum@localhost", time := 946684800 }
  { author := signature
    committer := signature
    treeHash := treeHash
    message := ascii "Seed exact Atum deployment source\n" }

/-- `Snapshot.Identity`, with the stream that it hashes. -/
def identify (sha256 : Bytes → Bytes) (arrange : Arrangement) (files : List File)
    (overrides : Overrides) : Except Bytes (Identity × Bytes) :=
  match traverse git overrides files with
  | .error err => .error err
  | .ok traversal =>
    if traversal.remaining ≠ [] then
      .error (ascii "Git snapshot replacements are absent from the Git index: " ++
        sortedNames traversal.remaining)
    else
      match traversal.root.hash git arrange [] with
      | .error err => .error err
      | .ok treeHash =>
        match git.encodeCommit (sourceCommit treeHash) with
        | .error err => .error (ascii "encode deterministic Atum source commit: " ++ err)
        | .ok encoded =>
          .ok ({ sha256 := hex (sha256 traversal.stream)
                 commit := hex (git.computeHash "commit" encoded) }, traversal.stream)

def identity (sha256 : Bytes → Bytes) (arrange : Arrangement) (files : List File)
    (overrides : Overrides) : Except Bytes Identity :=
  (identify git sha256 arrange files overrides).map Prod.fst

end Identity

end Atum.Gitsnapshot
