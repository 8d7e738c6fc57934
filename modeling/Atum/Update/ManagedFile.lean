import Mathlib.Data.List.Sort
import Atum.Config.Checks
import Atum.Go.Outcome
import Atum.Library.FileTree

/-!
# Managed files

How the update reads the files that it manages: the path checks of `fssecure`,
the snapshot of one file, and the digest of a directory.

A file is identified by its permission bits and the digest of its bytes.  The
bytes are a value of an arbitrary type, and `Contents` collects what the code
does with them.
-/

namespace Atum.Update

open Atum.Go Atum.Config List FileTree

/-- What the code does with the bytes of a file. -/
structure Contents (δ : Type) where
  /-- `hashBytes`: the SHA-256 digest in hexadecimal. -/
  hash : δ → String
  /-- The bytes of a text. -/
  text : String → δ
  /-- The number of bytes. -/
  size : δ → Nat

/-- `managedVersion`.  An absent file has no mode, no digest and no data. -/
structure ManagedVersion (δ : Type) where
  present : Bool := false
  mode : Nat := 0
  digest : String := ""
  data : Option δ := none
  deriving DecidableEq, Repr

/-- `sameManagedVersion`. -/
def sameManagedVersion {δ : Type} (left right : ManagedVersion δ) : Bool :=
  left.present == right.present && left.mode == right.mode && left.digest == right.digest

/-- `withoutData`. -/
def withoutData {δ : Type} (version : ManagedVersion δ) : ManagedVersion δ :=
  { version with data := none }

/-- The type bits of an `os.FileMode` are all clear. -/
def isRegularMode (mode : Nat) : Bool := mode &&& 0x8f280000 == 0

/-- The permission bits of an `os.FileMode`. -/
def perm (mode : Nat) : Nat := mode &&& 0o777

/-- `os.FileMode.String`. -/
def modeString (mode : Nat) : String :=
  let flags :=
    ("dalTLDpSugct?".toList.zipIdx.filter fun flag => mode.testBit (31 - flag.2)).map Prod.fst
  let bits := "rwxrwxrwx".toList.zipIdx.map fun bit =>
    if mode.testBit (8 - bit.2) then bit.1 else '-'
  String.ofList ((if flags = [] then ['-'] else flags) ++ bits)

/-- The components of a clean path. -/
def components (path : String) : TreePath := split path '/'

/-- The path with these components. -/
def slashed (path : TreePath) : String := join path "/"

section Reading

variable {δ : Type} (contents : Contents δ)

/-- The version of a regular file. -/
def fileVersion (mode : Nat) (data : δ) : ManagedVersion δ where
  present := true
  mode := mode
  digest := contents.hash data
  data := some data

/-- `validateManagedVersion`. -/
def validateManagedVersion (version : ManagedVersion δ) : Except String Unit :=
  if ¬version.present then
    if version.mode ≠ 0 ∨ version.digest ≠ "" ∨
        version.data.any (fun data => contents.size data ≠ 0) then
      .error "absent file carries material"
    else .ok ()
  else if version.mode = 0 ∨ version.mode > 0o777 ∨ ¬validHexSHA256 version.digest then
    .error "file mode or digest is invalid"
  else if version.data.any (fun data => contents.hash data ≠ version.digest) then
    .error "file bytes do not match digest"
  else .ok ()

/-! ## Paths -/

/-- The walk of `fssecure.Resolve` along the components of a path. -/
def resolveFrom (t : FileTree δ) (clean : String) (allowMissing : Bool) :
    TreePath → List String → Except String Unit
  | _, [] => .ok ()
  | above, name :: rest =>
    match t.get (above ++ [name]) with
    | none =>
      if allowMissing then .ok () else .error s!"managed path {clean} does not exist"
    | some .symlink =>
      .error s!"managed path {clean} traverses symlink {slashed (above ++ [name])}"
    | some .directory => resolveFrom t clean allowMissing (above ++ [name]) rest
    | some _ =>
      if rest = [] then .ok ()
      else .error s!"managed path {clean} has non-directory ancestor {slashed (above ++ [name])}"

/-- `fssecure.Resolve`. -/
def resolve (t : FileTree δ) (path : String) (allowMissing : Bool) : Except String Unit := do
  let clean ← relative path
  resolveFrom t clean allowMissing [] (components clean)

/-! ## Snapshots -/

/-- `snapshotManagedFile`. -/
def snapshotManagedFile (t : FileTree δ) (path : String) : Except String (ManagedVersion δ) := do
  let clean ← relative path
  resolve t clean true
  match t.get (components clean) with
  | none => .ok {}
  | some (.regular mode data) => .ok (fileVersion contents mode data)
  | some _ => .error s!"managed path {clean} is not a regular file"

/-- `regularFileVersion`; `none` stands for a file that does not exist. -/
def regularFileVersion (t : FileTree δ) (path : TreePath) :
    Except String (Option (ManagedVersion δ)) :=
  match t.get path with
  | none => .ok none
  | some (.regular mode data) => .ok (some (withoutData (fileVersion contents mode data)))
  | some _ => .error s!"{slashed path} is not a regular file"

/-- `snapshotAbsoluteFile`. -/
def snapshotAbsoluteFile (t : FileTree δ) (path : TreePath) : Except String (ManagedVersion δ) :=
  match t.get path with
  | none => .error Errno.notExist.text
  | some (.regular mode data) => .ok (fileVersion contents mode data)
  | some _ => .error s!"{slashed path} is not a regular file"

/-- The version of what a path holds.  A node that is no regular file has none. -/
def nodeVersion : Option (Node δ) → Option (ManagedVersion δ)
  | none => some {}
  | some (.regular mode data) => some (fileVersion contents mode data)
  | some _ => none

/-! ## Directories -/

/-- `treehash.File`. -/
structure TreeFile (δ : Type) where
  path : String
  mode : Nat
  data : δ

/-- One line of the stream that `treehash.Sum` digests. -/
def treeLine (file : TreeFile δ) : String :=
  file.path ++ "\x00" ++ zeroPadded 8 4 (perm file.mode) ++ "\x00" ++
    contents.hash file.data ++ "\n"

/-- The loop of `treehash.Sum` over the sorted files. -/
def treeStream : String → List (TreeFile δ) → Except String String
  | _, [] => .ok ""
  | previous, file :: rest =>
    if file.path = "" ∨ file.path = previous ∨ ¬isRegularMode file.mode then
      .error s!"tree contains an invalid or duplicate regular file {quote file.path}"
    else do
      let tail ← treeStream file.path rest
      return treeLine contents file ++ tail

/-- `treehash.Sum`. -/
def treeSum (files : List (TreeFile δ)) : Except String String := do
  let stream ← treeStream contents "" (files.insertionSort fun left right => left.path ≤ right.path)
  return contents.hash (contents.text stream)

/-- One entry of the walk of `regularTreeFiles`. -/
def regularTreeFile (directory : TreePath) (entry : TreePath × Node δ) :
    Except String (String × ManagedVersion δ) :=
  match entry.2 with
  | .regular mode data =>
    .ok (slashed (entry.1.drop directory.length), fileVersion contents mode data)
  | _ => .error s!"tree contains unsupported file {slashed entry.1}"

/-- The entries that the walk of a directory passes to its visitor. -/
def walkedFiles (t : FileTree δ) (directory : TreePath) : List (TreePath × Node δ) :=
  t.nodes.filter fun entry =>
    directory.isPrefixOf entry.1 && entry.1 != directory && !entry.2.isDirectory

/-- `regularTreeFiles`.  The walk of a path that is no directory visits that path
alone, under the name of the current directory. -/
def regularTreeFiles (t : FileTree δ) (directory : TreePath) :
    Except String (List (String × ManagedVersion δ)) :=
  match t.get directory with
  | none => .error Errno.notExist.text
  | some .directory => (walkedFiles t directory).mapM (regularTreeFile contents directory)
  | some (.regular mode data) => .ok [(".", fileVersion contents mode data)]
  | some _ => .error s!"tree contains unsupported file {slashed directory}"

/-- The file that a version stands for in a tree. -/
def treeFile (path : String) (version : ManagedVersion δ) : Option (TreeFile δ) :=
  version.data.map fun data => { path, mode := version.mode, data }

/-- `snapshotDirectoryDigest`. -/
def snapshotDirectoryDigest (t : FileTree δ) (path : String) : Except String String := do
  resolve t path false
  let clean ← relative path
  let files ← regularTreeFiles contents t (components clean)
  treeSum contents (files.filterMap fun file => treeFile file.1 file.2)

end Reading

/-! ## What a snapshot says -/

section Facts

variable {δ : Type} {contents : Contents δ} {t : FileTree δ} {path : String}

theorem slashed_components (path : String) : slashed (components path) = path := join_split path

theorem components_injective : Function.Injective components := by
  intro p q h
  rw [← slashed_components p, ← slashed_components q, h]

theorem components_ne_nil (path : String) : components path ≠ [] := by
  simp [components, split, splitOn_ne_nil]

variable {clean : String}

variable {allowMissing : Bool}

/-- One step of the walk: a directory is entered, and only the last component may be
something else. -/
theorem resolveFrom_cons {above : TreePath} {name : String} {rest : List String} :
    resolveFrom t clean allowMissing above (name :: rest) = .ok () ↔
      (t.get (above ++ [name]) = none ∧ allowMissing = true) ∨
      (t.get (above ++ [name]) = some .directory ∧
        resolveFrom t clean allowMissing (above ++ [name]) rest = .ok ()) ∨
      ∃ node, t.get (above ++ [name]) = some node ∧ node ≠ .directory ∧ node ≠ .symlink ∧
        rest = [] := by
  rw [resolveFrom]
  cases t.get (above ++ [name]) with
  | none => simp
  | some node => cases node <;> simp

/-- The walk accepts a path exactly when only directories are above it and it is
no symbolic link. -/
theorem resolveFrom_eq_ok_iff (names : List String) :
    ∀ {above : TreePath}, t.get above = some .directory →
      (resolveFrom t clean true above names = .ok () ↔
        t.Clear (above ++ names) ∧ t.get (above ++ names) ≠ some .symlink) := by
  induction names with
  | nil =>
    intro above habove
    rw [append_nil]
    exact iff_of_true rfl ⟨fun other hpre hne => .inr (get_above habove hpre hne), by simp [habove]⟩
  | cons name rest ih =>
    intro above habove
    have hclear : t.Clear (above ++ [name]) := fun other hpre hne =>
      .inr (get_above_of_parent (by simpa using habove) hpre hne)
    have hnext : above ++ [name] <+: above ++ [name] ++ rest := prefix_append _ _
    rw [resolveFrom_cons, show above ++ name :: rest = above ++ [name] ++ rest by simp]
    constructor
    · rintro (⟨hnone, -⟩ | ⟨hdir, hrest⟩ | ⟨node, hget, -, hlink, rfl⟩)
      · refine ⟨hclear.below_missing hnone hnext, ?_⟩
        rw [get_below_missing hnone hnext]
        simp
      · exact (ih hdir).mp hrest
      · exact ⟨by simpa using hclear, by simpa [hget] using hlink⟩
    rintro ⟨hclear, hlink⟩
    cases hget : t.get (above ++ [name]) with
    | none => exact .inl ⟨rfl, rfl⟩
    | some node =>
      by_cases hdir : node = .directory
      · subst hdir
        exact .inr (.inl ⟨rfl, (ih hget).mpr ⟨hclear, hlink⟩⟩)
      -- A component in the middle has to be a directory.
      have hrest : rest = [] := by
        by_contra hrest
        rcases hclear _ hnext (by simpa using hrest) with hnone | hother
        · cases hget.symm.trans hnone
        · exact hdir (Option.some.inj (hget.symm.trans hother))
      subst hrest
      exact .inr (.inr ⟨node, rfl, hdir, fun hsymlink => hlink (by simp [hget, hsymlink]), rfl⟩)

variable (hclean : relative path = .ok path)

include hclean in
theorem resolve_eq_ok_iff : resolve t path true = .ok () ↔
      t.Clear (components path) ∧ t.get (components path) ≠ some .symlink := by
  have hunfold : resolve t path true = resolveFrom t path true [] (components path) := by
    simp [resolve, hclean, bind, Except.bind]
  rw [hunfold, resolveFrom_eq_ok_iff _ (get_nil t), nil_append]

/-- A directory resolves, whether missing components are allowed or not. -/
theorem resolveFrom_of_directory (names : List String) :
    ∀ {above : TreePath}, t.get (above ++ names) = some .directory →
      resolveFrom t clean allowMissing above names = .ok () := by
  induction names with
  | nil =>
    intro above _
    rfl
  | cons name rest ih =>
    intro above h
    rw [show above ++ name :: rest = above ++ [name] ++ rest by simp] at h
    have hnext : t.get (above ++ [name]) = some .directory := by
      by_cases hrest : rest = []
      · simpa [hrest] using h
      · exact get_above h (prefix_append _ _) (by simpa using hrest)
    rw [resolveFrom, hnext]
    exact ih h

include hclean in
theorem resolve_of_directory
    (h : t.get (components path) = some .directory) : resolve t path allowMissing = .ok () := by
  simpa [resolve, hclean, bind, Except.bind] using resolveFrom_of_directory (components path) h

/-- The name of a file in the listing of a directory. -/
def listedName (rest : TreePath) : String := if rest = [] then "." else slashed rest

/-- A listing has the regular files of the directory, and there is nothing in it that is
neither a regular file nor a directory. -/
theorem regularTreeFiles_ok {directory : TreePath} {files : List (String × ManagedVersion δ)}
    (h : regularTreeFiles contents t directory = .ok files) :
    (∀ file ∈ files, ∃ rest mode data, t.get (directory ++ rest) = some (.regular mode data) ∧
      file = (listedName rest, fileVersion contents mode data)) ∧
    ∀ rest node, t.get (directory ++ rest) = some node → node ≠ .directory →
      ∃ mode data, node = .regular mode data ∧
        (listedName rest, fileVersion contents mode data) ∈ files := by
  unfold regularTreeFiles at h
  split at h
  · cases h
  · next hdir =>
    refine ⟨fun file hfile => ?_, fun rest node hget hnode => ?_⟩
    · obtain ⟨entry, hwalked, hround⟩ := (mapM_ok h).1 _ hfile
      obtain ⟨hmem, hbelow⟩ := mem_filter.mp hwalked
      rw [Bool.and_eq_true, Bool.and_eq_true, isPrefixOf_iff_prefix] at hbelow
      obtain ⟨⟨⟨rest, hrest⟩, hne⟩, -⟩ := hbelow
      have hne : rest ≠ [] := by
        rintro rfl
        simp [← hrest] at hne
      unfold regularTreeFile at hround
      split at hround
      · next mode data hreg =>
        cases hround
        refine ⟨rest, mode, data, ?_, ?_⟩
        · rw [get_eq_some_iff_mem (by simp [hne]), hrest, ← hreg]
          exact hmem
        · rw [listedName, if_neg hne, ← hrest, drop_left]
      · cases hround
    · have hne : rest ≠ [] := by
        rintro rfl
        rw [append_nil, hdir] at hget
        exact hnode (Option.some.inj hget).symm
      have hwalked : (directory ++ rest, node) ∈ walkedFiles t directory := by
        refine mem_filter.mpr ⟨(get_eq_some_iff_mem (by simp [hne])).mp hget, ?_⟩
        have hpre := isPrefixOf_iff_prefix.mpr (prefix_append directory rest)
        have hfile : node.isDirectory = false := by cases node <;> simp_all [Node.isDirectory]
        simp [hpre, hfile, hne]
      obtain ⟨result, hres, hround⟩ := (mapM_ok h).2 _ hwalked
      unfold regularTreeFile at hround
      split at hround
      · next mode data hreg =>
        cases hround
        rw [drop_left] at hres
        exact ⟨mode, data, hreg, by rwa [listedName, if_neg hne]⟩
      · cases hround
  · next mode data hreg =>
    cases h
    refine ⟨fun file hfile => ⟨[], mode, data, by simpa using hreg, mem_singleton.mp hfile⟩,
      fun rest node hget _ => ?_⟩
    -- Nothing is below a file.
    have hrest : rest = [] := by
      by_contra hne
      rw [get_below_eq_none (by simp [hreg]) (prefix_append _ rest) (by simpa using hne)] at hget
      cases hget
    subst hrest
    rw [append_nil, hreg] at hget
    exact ⟨mode, data, (Option.some.inj hget).symm, mem_singleton_self _⟩
  · cases h

theorem slashed_append {above below : TreePath} (habove : above ≠ []) (hbelow : below ≠ []) :
    slashed (above ++ below) = slashed above ++ "/" ++ slashed below :=
  String.intercalate_append_of_ne_nil habove hbelow

theorem components_append (above below : String) :
    components (above ++ "/" ++ below) = components above ++ components below := by
  have hjoin : above ++ "/" ++ below = slashed (components above ++ components below) := by
    rw [slashed_append (components_ne_nil above) (components_ne_nil below), slashed_components,
      slashed_components]
  have hslash : ∀ name ∈ components above ++ components below, '/' ∉ name.toList := by
    intro name hname
    rcases mem_append.mp hname with hname | hname
    · exact not_mem_of_mem_split hname
    · exact not_mem_of_mem_split hname
  rw [hjoin]
  exact split_join (by simp [components_ne_nil]) hslash

include hclean in
theorem components_of_clean : ∀ name ∈ components path, PlainName name := by
  obtain ⟨hpath, hne, hplain⟩ := relative_ok hclean
  have hcomps := split_join hne fun name hname => (hplain name hname).2.2.2
  rw [← hpath] at hcomps
  rw [components, hcomps]
  exact hplain

include hclean in
/-- The directory of a clean path is clean. -/
theorem parent_clean (hne : (components path).dropLast ≠ []) :
    relative (slashed (components path).dropLast) = .ok (slashed (components path).dropLast) ∧
      components (slashed (components path).dropLast) = (components path).dropLast := by
  have hplain : ∀ name ∈ (components path).dropLast, PlainName name :=
    fun name hname => components_of_clean hclean name ((dropLast_sublist _).mem hname)
  exact ⟨relative_join hne hplain, split_join hne fun name hname => (hplain name hname).2.2.2⟩

include hclean in
/-- A snapshot succeeds exactly when only directories are above the path, and then
it is the version of what the path holds. -/
theorem snapshotManagedFile_eq_ok_iff {version : ManagedVersion δ} :
    snapshotManagedFile contents t path = .ok version ↔
      t.Clear (components path) ∧
        nodeVersion contents (t.get (components path)) = some version := by
  simp only [snapshotManagedFile, hclean, bind, Except.bind]
  cases hresolve : resolve t path true with
  | error e =>
    refine iff_of_false (by simp) fun ⟨hclear, hver⟩ => ?_
    have hok := (resolve_eq_ok_iff hclean).mpr ⟨hclear, by
      rintro hsymlink
      simp [hsymlink, nodeVersion] at hver⟩
    rw [hresolve] at hok
    cases hok
  | ok _ =>
    have hclear := ((resolve_eq_ok_iff hclean).mp hresolve).1
    rcases hget : t.get (components path) with _ | node
    · simp [nodeVersion, hclear]
    · cases node <;> simp [nodeVersion, hclear]

end Facts

end Atum.Update
