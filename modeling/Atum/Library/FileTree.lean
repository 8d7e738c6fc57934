import Mathlib.Data.String.Basic
import Atum.Library.SortedAssoc

/-!
# A file tree

A tree is a finite map from paths to nodes.  A path is its list of components,
and the empty path is the root, which is always a directory.  The structure
carries its invariant: whatever has a node lies in a directory.

Two operations build every other one.  `put` places a node, and `drop` takes a
set of paths away that contains with a path everything below it.  `get_put` and
`get_drop` describe them by their lookups, and nothing later looks at the list
of nodes again.

`mkdirAll`, `create`, `rename`, `remove` and `removeAll` are the calls of a
file system on such a tree.  Each of them either says what is wrong or gives the
new tree.
-/

/-- A path below the root of a tree. -/
abbrev TreePath := List String

/-- What a path can hold.  `δ` is the content of a regular file. -/
inductive Node (δ : Type) where
  | directory
  | regular (mode : Nat) (data : δ)
  | symlink
  | special
  deriving DecidableEq, Repr

def Node.isDirectory {δ : Type} : Node δ → Bool
  | .directory => true
  | _ => false

@[simp] theorem Node.isDirectory_eq_true {δ : Type} {node : Node δ} :
    node.isDirectory = true ↔ node = .directory := by
  cases node <;> simp [isDirectory]

/-- Why a call of the file system failed. -/
inductive Errno where
  | notExist
  | alreadyExists
  | notDirectory
  | isDirectory
  | notEmpty
  deriving DecidableEq, Repr

def Errno.text : Errno → String
  | .notExist => "no such file or directory"
  | .alreadyExists => "file exists"
  | .notDirectory => "not a directory"
  | .isDirectory => "is a directory"
  | .notEmpty => "directory not empty"

structure FileTree (δ : Type) where
  nodes : List (TreePath × Node δ)
  sorted : SortedAssoc.Sorted nodes
  /-- Every node but those at the top lies in a directory. -/
  closed : ∀ path name node, (path ++ [name], node) ∈ nodes →
    path = [] ∨ nodes.lookup path = some .directory

namespace FileTree

open SortedAssoc List Option

variable {δ : Type} {t : FileTree δ} {path other : TreePath} {node : Node δ} {name : String}

/-- The node at a path. -/
def get (t : FileTree δ) (path : TreePath) : Option (Node δ) :=
  if path = [] then some .directory else t.nodes.lookup path

/-- Whether a path is a directory. -/
def isDir (t : FileTree δ) (path : TreePath) : Bool :=
  match t.get path with
  | some .directory => true
  | _ => false

/-- The mode and the bytes of a regular file. -/
def file (t : FileTree δ) (path : TreePath) : Option (Nat × δ) :=
  match t.get path with
  | some (.regular mode data) => some (mode, data)
  | _ => none

/-- The names in a directory, in order. -/
def children (t : FileTree δ) (path : TreePath) : List String :=
  t.nodes.filterMap fun entry =>
    if path.isPrefixOf entry.1 && entry.1.length == path.length + 1 then entry.1.getLast?
    else none

@[simp] theorem get_nil (t : FileTree δ) : t.get [] = some .directory := rfl

@[simp] theorem isDir_eq_true : t.isDir path = true ↔ t.get path = some .directory := by
  unfold isDir
  split
  · next h => simp [h]
  · next h => exact iff_of_false (by decide) h

variable {mode : Nat} {data : δ}

theorem file_eq_some :
    t.file path = some (mode, data) ↔ t.get path = some (.regular mode data) := by
  unfold file
  split
  · next mode' data' h => simp [h]
  · next hnot => exact iff_of_false (by simp) (hnot mode data)

theorem file_eq_none :
    t.file path = none ↔ ∀ mode data, t.get path ≠ some (.regular mode data) := by
  rw [eq_none_iff_forall_ne_some, Prod.forall]
  simp [ne_eq, file_eq_some]

theorem get_of_ne_nil (h : path ≠ []) : t.get path = t.nodes.lookup path := by
  simp [get, h]

theorem get_eq_some_iff_mem (h : path ≠ []) : t.get path = some node ↔ (path, node) ∈ t.nodes := by
  rw [get_of_ne_nil h, t.sorted.mem_iff_lookup]

/-- What has a node lies in a directory. -/
theorem get_parent (h : t.get (path ++ [name]) = some node) : t.get path = some .directory := by
  rw [get_eq_some_iff_mem (by simp)] at h
  rcases t.closed _ _ _ h with rfl | hpar
  · exact get_nil t
  unfold get
  split
  · rfl
  · exact hpar

variable {below : TreePath}

/-- Every path above a node is a directory. -/
theorem get_above (h : t.get below = some node) (hpre : path <+: below)
    (hne : path ≠ below) : t.get path = some .directory := by
  induction below using List.reverseRecOn generalizing node with
  | nil => exact absurd (prefix_nil.mp hpre) hne
  | append_singleton below name ih =>
    have hpar := get_parent h
    rcases prefix_concat_iff.mp hpre with heq | hpre
    · exact absurd heq hne
    by_cases heq : path = below
    · rw [heq]
      exact hpar
    · exact ih hpar hpre heq

/-- Nothing is below a path that is not a directory. -/
theorem get_below_eq_none (h : t.get path ≠ some .directory)
    (hpre : path <+: below) (hne : path ≠ below) : t.get below = none := by
  cases hget : t.get below with
  | none => rfl
  | some node => exact absurd (get_above hget hpre hne) h

theorem get_below_missing (h : t.get path = none) (hpre : path <+: below) : t.get below = none := by
  by_cases heq : path = below
  · rw [← heq, h]
  · exact get_below_eq_none (by simp [h]) hpre heq

theorem mem_children_iff : name ∈ t.children path ↔ ∃ node, t.get (path ++ [name]) = some node := by
  constructor
  · intro h
    obtain ⟨⟨full, node⟩, hmem, hname⟩ := mem_filterMap.mp h
    split at hname
    · next hchild =>
      rw [Bool.and_eq_true, isPrefixOf_iff_prefix] at hchild
      obtain ⟨⟨rest, rfl⟩, hlen⟩ := hchild
      obtain ⟨last, rfl⟩ : ∃ last, rest = [last] := by
        rw [← length_eq_one_iff]
        simpa using hlen
      obtain rfl : last = name := by simpa using hname
      exact ⟨node, (get_eq_some_iff_mem (by simp)).mpr hmem⟩
    · simp at hname
  · rintro ⟨node, h⟩
    rw [get_eq_some_iff_mem (by simp)] at h
    exact mem_filterMap.mpr ⟨_, h, by simp⟩

theorem children_eq_nil_iff : t.children path = [] ↔ ∀ name, t.get (path ++ [name]) = none := by
  rw [eq_nil_iff_forall_not_mem]
  refine forall_congr' fun name => ?_
  rw [mem_children_iff, eq_none_iff_forall_ne_some, not_exists]

/-! ## The two building blocks -/

/-- The empty tree. -/
def empty : FileTree δ where
  nodes := []
  sorted := List.Pairwise.nil
  closed := by simp

/-- A node may be placed at a path: its parent is a directory, and a node that is
not a directory has nothing below it. -/
def CanPut (t : FileTree δ) (path : TreePath) (node : Node δ) : Prop :=
  path ≠ [] ∧ t.isDir path.dropLast = true ∧
    (node.isDirectory = true ∨ t.children path = [])

instance (t : FileTree δ) (path : TreePath) (node : Node δ) : Decidable (t.CanPut path node) :=
  inferInstanceAs (Decidable (_ ∧ _ ∧ _))

/-- Place a node at a path. -/
def put (t : FileTree δ) (path : TreePath) (node : Node δ) (h : t.CanPut path node) :
    FileTree δ where
  nodes := SortedAssoc.insert path node t.nodes
  sorted := t.sorted.insert path node
  closed := by
    intro parent name child hent
    rcases mem_insert hent with heq | hmem
    · -- The new node lies in a directory, which the insertion does not touch.
      obtain ⟨rfl, rfl⟩ := Prod.mk.inj heq
      obtain ⟨-, hpar, -⟩ := h
      rw [List.dropLast_concat, isDir_eq_true] at hpar
      by_cases hroot : parent = []
      · exact .inl hroot
      · refine .inr ?_
        rw [lookup_insert_of_ne (by simp), ← get_of_ne_nil hroot, hpar]
    rcases t.closed _ _ _ hmem with hroot | hpar
    · exact .inl hroot
    by_cases hroot : parent = []
    · exact .inl hroot
    refine .inr ?_
    by_cases heq : parent = path
    · -- The node at the path has a child, so it stays a directory.
      subst heq
      rcases h.2.2 with hdir | hnone
      · rw [Node.isDirectory_eq_true.mp hdir]
        exact lookup_insert_self _ _ _
      have hget : t.get (parent ++ [name]) = some child :=
        (get_eq_some_iff_mem (by simp)).mpr hmem
      rw [children_eq_nil_iff.mp hnone name] at hget
      cases hget
    · rw [lookup_insert_of_ne heq, hpar]

theorem get_put (h : t.CanPut path node) (other : TreePath) :
    (t.put path node h).get other = if other = path then some node else t.get other := by
  obtain ⟨hne, -⟩ := h
  unfold get put
  by_cases hroot : other = []
  · simp [hroot, Ne.symm hne]
  · by_cases heq : other = path
    · simp [heq, hne]
    · simp [hroot, heq, lookup_insert_of_ne heq]

/-- Take a set of paths away that contains with a path everything below it. -/
def drop (t : FileTree δ) (gone : TreePath → Bool)
    (h : ∀ path name, gone path = true → gone (path ++ [name]) = true) : FileTree δ where
  nodes := t.nodes.filter fun entry => !gone entry.1
  sorted := List.Pairwise.filter _ t.sorted
  closed := by
    intro path name node hmem
    obtain ⟨hmem, hkept⟩ := List.mem_filter.mp hmem
    rcases t.closed _ _ _ hmem with hroot | hpar
    · exact .inl hroot
    refine .inr (Sorted.lookup_of_mem (List.Pairwise.filter _ t.sorted) ?_)
    refine List.mem_filter.mpr ⟨mem_of_lookup hpar, ?_⟩
    cases hgone : gone path with
    | false => rfl
    | true => simp [h path name hgone] at hkept

theorem get_drop {gone : TreePath → Bool}
    (h : ∀ path name, gone path = true → gone (path ++ [name]) = true) (hne : path ≠ []) :
    (t.drop gone h).get path = if gone path = true then none else t.get path := by
  rw [get_of_ne_nil hne, get_of_ne_nil hne]
  have hsorted : Sorted (t.nodes.filter fun entry => !gone entry.1) :=
    List.Pairwise.filter _ t.sorted
  apply Option.ext
  intro node
  change List.lookup path (t.nodes.filter fun entry => !gone entry.1) = some node ↔ _
  rw [← hsorted.mem_iff_lookup, mem_filter, t.sorted.mem_iff_lookup]
  by_cases hgone : gone path = true
  · simp [hgone]
  · simp [hgone]

/-! ## The calls of a file system -/

/-- Create one directory. -/
def mkdir (t : FileTree δ) (path : TreePath) : Except Errno (FileTree δ) :=
  if (t.get path).isSome then .error .alreadyExists
  else if h : t.CanPut path .directory then .ok (t.put path .directory h)
  else .error .notDirectory

/-- Create a regular file that must not exist yet. -/
def create (t : FileTree δ) (path : TreePath) (mode : Nat) (data : δ) : Except Errno (FileTree δ) :=
  if (t.get path).isSome then .error .alreadyExists
  else if h : t.CanPut path (.regular mode data) then .ok (t.put path (.regular mode data) h)
  else .error .notDirectory

/-- Take a path and everything below it away. -/
def dropBelow (t : FileTree δ) (path : TreePath) : FileTree δ :=
  t.drop (fun other => path.isPrefixOf other) (by
    intro other name h
    rw [ List.isPrefixOf_iff_prefix] at h ⊢
    exact h.trans (List.prefix_append _ _))

/-- Remove a file or an empty directory. -/
def remove (t : FileTree δ) (path : TreePath) : Except Errno (FileTree δ) :=
  match t.get path with
  | none => .error .notExist
  | some node =>
    if node.isDirectory = true ∧ (path = [] ∨ t.children path ≠ []) then .error .notEmpty
    else .ok (t.dropBelow path)

/-- Move a file that is not a directory over another path that is not one. -/
def rename (t : FileTree δ) (source target : TreePath) : Except Errno (FileTree δ) :=
  match t.get source with
  | none => .error .notExist
  | some node =>
    if node.isDirectory = true ∨ t.isDir target = true then .error .isDirectory
    else if h : (t.dropBelow source).CanPut target node then
      .ok ((t.dropBelow source).put target node h)
    else .error .notDirectory

/-- Nothing at or below a path is among the survivors. -/
def reached (t : FileTree δ) (survives : TreePath → Bool) (path : TreePath) : Bool :=
  t.nodes.all fun entry => !(path.isPrefixOf entry.1 && survives entry.1)

/-- Remove a path and everything below it, but for the survivors and the
directories they lie in.  The complete removal has no survivor. -/
def removeAll (t : FileTree δ) (path : TreePath) (survives : TreePath → Bool) : FileTree δ :=
  t.drop (fun other => path.isPrefixOf other && t.reached survives other) (by
    intro other name h
    rw [Bool.and_eq_true, List.isPrefixOf_iff_prefix] at h ⊢
    refine ⟨h.1.trans (List.prefix_append _ _), ?_⟩
    rw [reached, List.all_eq_true] at h ⊢
    intro entry hent
    have hnot := h.2 entry hent
    rw [Bool.not_eq_true', Bool.and_eq_false_iff, ← Bool.not_eq_true, List.isPrefixOf_iff_prefix]
      at hnot ⊢
    exact hnot.imp_left fun hnot hpre => hnot ((List.prefix_append _ _).trans hpre))

/-- Create the directories of a path below an existing base. -/
def mkdirAllFrom (t : FileTree δ) (base : TreePath) : List String → Except Errno (FileTree δ)
  | [] => .ok t
  | name :: rest =>
    match t.get (base ++ [name]) with
    | some .directory => mkdirAllFrom t (base ++ [name]) rest
    | some _ => .error .notDirectory
    | none =>
      if h : t.CanPut (base ++ [name]) .directory then
        mkdirAllFrom (t.put (base ++ [name]) .directory h) (base ++ [name]) rest
      else .error .notDirectory

/-- Create a directory and every missing directory above it. -/
def mkdirAll (t : FileTree δ) (path : TreePath) : Except Errno (FileTree δ) :=
  t.mkdirAllFrom [] path

/-! ## What the calls do -/

/-- The second tree differs from the first at one path only. -/
def Changes (t t' : FileTree δ) (path : TreePath) (value : Option (Node δ)) : Prop :=
  ∀ other, t'.get other = if other = path then value else t.get other

variable {t' : FileTree δ} {value : Option (Node δ)}

theorem Changes.get_self (h : t.Changes t' path value) : t'.get path = value := by
  rw [h path, if_pos rfl]

theorem Changes.get_of_ne
    (h : t.Changes t' path value) (hne : other ≠ path) : t'.get other = t.get other := by
  rw [h other, if_neg hne]

/-- The second tree has every node of the first. -/
def Extends (t t' : FileTree δ) : Prop :=
  ∀ path node, t.get path = some node → t'.get path = some node

theorem Extends.refl (t : FileTree δ) : t.Extends t := fun _ _ h => h

theorem Extends.trans {t'' : FileTree δ} (h : t.Extends t') (h' : t'.Extends t'') :
    t.Extends t'' := fun path node hnode => h' path node (h path node hnode)

/-- A new node extends the tree. -/
theorem Changes.extends (h : t.Changes t' path value)
    (hnone : t.get path = none) : t.Extends t' := by
  intro other node hnode
  have hne : other ≠ path := by
    rintro rfl
    rw [hnone] at hnode
    cases hnode
  rw [h.get_of_ne hne, hnode]

/-- The second tree has more directories than the first, all of them on the way
to a path. -/
def Grows (t t' : FileTree δ) (path : TreePath) : Prop :=
  ∀ other, t'.get other = t.get other ∨
    t.get other = none ∧ t'.get other = some .directory ∧ other <+: path

theorem Grows.refl (t : FileTree δ) (path : TreePath) : t.Grows t path := fun _ => .inl rfl

theorem Grows.get_of_not_above (h : t.Grows t' path) (hnot : ¬other <+: path) :
    t'.get other = t.get other := by
  rcases h other with heq | ⟨-, -, hpre⟩
  · exact heq
  · exact absurd hpre hnot

/-- What has a node keeps it. -/
theorem Grows.get_of_some (h : t.Grows t' path) (hsome : t.get other = some node) :
    t'.get other = some node := by
  rcases h other with heq | ⟨hnone, -⟩
  · rw [heq, hsome]
  · rw [hsome] at hnone
    cases hnone

/-- Nothing is created on the way to a directory that is there. -/
theorem Grows.get_eq (h : t.Grows t' path)
    (hdir : t.get path = some .directory) : t'.get = t.get := by
  funext other
  rcases h other with heq | ⟨hnone, -, hpre⟩
  · exact heq
  have hthere : t.get other = some .directory := by
    by_cases heq : other = path
    · rw [heq, hdir]
    · exact get_above hdir hpre heq
  rw [hthere] at hnone
  cases hnone

theorem mkdir_ok (h : t.mkdir path = .ok t') :
    t.get path = none ∧ t.Changes t' path (some .directory) := by
  unfold mkdir at h
  split at h
  · cases h
  next hnone =>
  split at h
  · next hput =>
    cases h
    exact ⟨not_isSome_iff_eq_none.mp hnone, get_put hput⟩
  · cases h

theorem create_ok (h : t.create path mode data = .ok t') :
    t.get path = none ∧ t.Changes t' path (some (.regular mode data)) := by
  unfold create at h
  split at h
  · cases h
  next hnone =>
  split at h
  · next hput =>
    cases h
    exact ⟨not_isSome_iff_eq_none.mp hnone, get_put hput⟩
  · cases h

/-- Below a path that is empty or no directory nothing is lost with it. -/
theorem changes_dropBelow (hne : path ≠ [])
    (hbelow : t.get path ≠ some .directory ∨ t.children path = []) :
    t.Changes (t.dropBelow path) path none := by
  intro other
  by_cases hroot : other = []
  · subst hroot
    simp [Ne.symm hne]
  unfold dropBelow
  rw [get_drop _ hroot]
  simp only [ isPrefixOf_iff_prefix]
  by_cases heq : other = path
  · simp [heq]
  split
  · next hpre =>
    symm
    rcases hbelow with hfile | hempty
    · exact get_below_eq_none hfile hpre (Ne.symm heq)
    -- The first step below the path is a child, and there is none.
    obtain ⟨rest, rfl⟩ := hpre
    obtain ⟨name, rest, rfl⟩ := exists_cons_of_ne_nil
      (show rest ≠ [] by rintro rfl; simp at heq)
    have hchild := children_eq_nil_iff.mp hempty name
    by_cases hrest : rest = []
    · rw [hrest]
      exact hchild
    have hnot : t.get (path ++ [name]) ≠ some .directory := by
      rw [hchild]
      simp
    exact get_below_eq_none hnot ⟨rest, by simp⟩ (by simpa using Ne.symm hrest)
  · rfl

theorem remove_ok (h : t.remove path = .ok t') : t.Changes t' path none := by
  unfold remove at h
  split at h
  · cases h
  next node hget =>
  split at h
  · cases h
  next hremovable =>
  cases h
  rw [Node.isDirectory_eq_true, not_and_or, not_or, not_not] at hremovable
  refine changes_dropBelow ?_ ?_
  · rintro rfl
    rw [get_nil, Option.some.injEq] at hget
    rcases hremovable with hfile | ⟨hroot, -⟩
    · exact hfile hget.symm
    · exact hroot rfl
  rcases hremovable with hfile | ⟨-, hempty⟩
  · left
    rw [hget]
    exact fun heq => hfile (Option.some.inj heq)
  · exact .inr hempty

theorem remove_of_file (h : t.get path = some (.regular mode data)) :
    ∃ t', t.remove path = .ok t' := by
  simp [remove, h, Node.isDirectory]

variable {source target : TreePath}

/-- The file at the source is at the target, and nowhere else. -/
theorem rename_ok (h : t.rename source target = .ok t') :
    ∃ node, t.get source = some node ∧ node ≠ .directory ∧ t.get target ≠ some .directory ∧
      ∀ other, t'.get other =
        if other = target then some node else if other = source then none else t.get other := by
  unfold rename at h
  split at h
  · cases h
  next node hget =>
  split at h
  · cases h
  next hfiles =>
  rw [not_or, Node.isDirectory_eq_true, isDir_eq_true] at hfiles
  split at h
  · next hput =>
    cases h
    have hsrc : t.Changes (t.dropBelow source) source none := by
      refine changes_dropBelow ?_ (.inl ?_)
      · rintro rfl
        rw [get_nil, Option.some.injEq] at hget
        exact hfiles.1 hget.symm
      · rw [hget]
        exact fun heq => hfiles.1 (Option.some.inj heq)
    refine ⟨node, hget, hfiles.1, hfiles.2, fun other => ?_⟩
    rw [get_put hput, hsrc other]
  · cases h

theorem rename_of_file (hsrc : t.get source = some (.regular mode data))
    (htgt : t.get target ≠ some .directory) (hne : target ≠ [])
    (hpar : t.get target.dropLast = some .directory) : ∃ t', t.rename source target = .ok t' := by
  have hdrop : t.Changes (t.dropBelow source) source none := by
    refine changes_dropBelow ?_ (.inl (by rw [hsrc]; simp))
    rintro rfl
    simp at hsrc
  have hput : (t.dropBelow source).CanPut target (.regular mode data) := by
    refine ⟨hne, ?_, .inr (children_eq_nil_iff.mpr fun name => ?_)⟩
    · rw [isDir_eq_true, hdrop.get_of_ne, hpar]
      rintro heq
      rw [heq, hsrc] at hpar
      cases hpar
    rw [hdrop (target ++ [name])]
    split
    · rfl
    · exact get_below_eq_none htgt (prefix_append _ _) (by simp)
  have hnotDir : t.isDir target = false := by
    rw [← Bool.not_eq_true, isDir_eq_true]
    exact htgt
  refine ⟨(t.dropBelow source).put target (.regular mode data) hput, ?_⟩
  simp [rename, hsrc, Node.isDirectory, hnotDir, hput]

/-! ### Removing a directory -/

theorem get_removeAll_of_not_below {survives : TreePath → Bool} (h : ¬path <+: other) :
    (t.removeAll path survives).get other = t.get other := by
  by_cases hroot : other = []
  · rw [hroot, get_nil, get_nil]
  unfold removeAll
  rw [get_drop _ hroot]
  have hnot : path.isPrefixOf other = false := by
    rw [← Bool.not_eq_true, isPrefixOf_iff_prefix]
    exact h
  simp [hnot]

/-- A removal takes nodes away and changes none. -/
theorem get_removeAll_cases (survives : TreePath → Bool) (other : TreePath) :
    (t.removeAll path survives).get other = t.get other ∨
      (t.removeAll path survives).get other = none := by
  by_cases hroot : other = []
  · exact .inl (by rw [hroot, get_nil, get_nil])
  unfold removeAll
  rw [get_drop _ hroot]
  split
  · exact .inr rfl
  · exact .inl rfl

/-! ### Creating directories -/

theorem mkdirAllFrom_ok (names : List String) :
    ∀ {t t' : FileTree δ} {base : TreePath}, t.get base = some .directory →
      t.mkdirAllFrom base names = .ok t' →
      t.Grows t' (base ++ names) ∧ t'.get (base ++ names) = some .directory := by
  induction names with
  | nil =>
    intro t t' base hbase h
    cases h
    rw [append_nil]
    exact ⟨Grows.refl _ _, hbase⟩
  | cons name rest ih =>
    intro t t' base hbase h
    rw [mkdirAllFrom] at h
    rw [show base ++ name :: rest = base ++ [name] ++ rest by simp]
    split at h
    · next hget => exact ih hget h
    · cases h
    next hnone =>
    split at h
    · next hput =>
      have hchg := get_put hput
      obtain ⟨hgrows, hdir⟩ := ih (by rw [hchg, if_pos rfl]) h
      refine ⟨fun other => ?_, hdir⟩
      by_cases heq : other = base ++ [name]
      · subst heq
        refine .inr ⟨hnone, ?_, prefix_append _ _⟩
        exact hgrows.get_of_some (by rw [hchg, if_pos rfl])
      have hsame : (t.put (base ++ [name]) .directory hput).get other = t.get other := by
        rw [hchg, if_neg heq]
      rw [← hsame]
      exact hgrows other
    · cases h

theorem mkdirAll_ok (h : t.mkdirAll path = .ok t') :
    t.Grows t' path ∧ t'.get path = some .directory := by
  simpa using mkdirAllFrom_ok path (get_nil t) h

/-- Directories can be created wherever no other node is in the way. -/
theorem mkdirAllFrom_of_free (names : List String) :
    ∀ {t : FileTree δ} {base : TreePath}, t.get base = some .directory →
      (∀ other, other <+: base ++ names → t.get other = none ∨ t.get other = some .directory) →
      ∃ t', t.mkdirAllFrom base names = .ok t' := by
  induction names with
  | nil =>
    intro t base _ _
    exact ⟨t, rfl⟩
  | cons name rest ih =>
    intro t base hbase hfree
    have hsplit : base ++ name :: rest = base ++ [name] ++ rest := by simp
    rw [hsplit] at hfree
    rw [mkdirAllFrom]
    rcases hfree (base ++ [name]) (prefix_append _ _) with hnone | hdir
    · have hput : t.CanPut (base ++ [name]) .directory :=
        ⟨by simp, by simpa using hbase, .inl rfl⟩
      simp only [hnone, dif_pos hput]
      refine ih (by rw [get_put, if_pos rfl]) fun other hother => ?_
      rw [get_put]
      split
      · exact .inr rfl
      · exact hfree other hother
    · simp only [hdir]
      exact ih hdir hfree

theorem mkdirAll_of_free
    (h : ∀ other, other <+: path → t.get other = none ∨ t.get other = some .directory) :
    ∃ t', t.mkdirAll path = .ok t' :=
  mkdirAllFrom_of_free path (get_nil t) (by simpa using h)

/-! ### Clear paths -/

/-- Nothing but directories is above a path. -/
def Clear (t : FileTree δ) (path : TreePath) : Prop :=
  ∀ above, above <+: path → above ≠ path → t.get above = none ∨ t.get above = some .directory

theorem Clear.grows (h : t.Clear path) (hgrows : t.Grows t' other) : t'.Clear path := by
  intro above hpre hne
  rcases hgrows above with heq | ⟨-, hdir, -⟩
  · rw [heq]
    exact h above hpre hne
  · exact .inr hdir

/-- A path below a missing one is as clear as that. -/
theorem Clear.below_missing (h : t.Clear path) (hnone : t.get path = none) (hpre : path <+: other) :
    t.Clear other := by
  intro above habove _
  rcases prefix_or_prefix_of_prefix habove hpre with hup | hdown
  · by_cases heq : above = path
    · exact .inl (heq ▸ hnone)
    · exact h above hup heq
  · exact .inl (get_below_missing hnone hdown)

theorem above_of_above_dropLast (h : other <+: path.dropLast) : other <+: path :=
  h.trans <| dropLast_prefix _

theorem above_dropLast (hpre : other <+: path) (hne : other ≠ path) : other <+: path.dropLast := by
  have hlen := hpre.length_le
  have hdiffer : other.length ≠ path.length := fun heq => hne (hpre.eq_of_length heq)
  refine prefix_of_prefix_length_le hpre (above_of_above_dropLast prefix_rfl) ?_
  rw [length_dropLast]
  omega

/-- Above a path that lies in a directory, there are only directories. -/
theorem get_above_of_parent (h : t.get path.dropLast = some .directory) (hpre : other <+: path)
    (hne : other ≠ path) : t.get other = some .directory := by
  by_cases heq : other = path.dropLast
  · rw [heq, h]
  · exact get_above h (above_dropLast hpre hne) heq

/-- The directory of a clear path can be created. -/
theorem Clear.mkdirAll_dropLast (h : t.Clear path) (hne : path ≠ []) :
    ∃ t', t.mkdirAll path.dropLast = .ok t' := by
  refine mkdirAll_of_free fun above hpre => h above (above_of_above_dropLast hpre) ?_
  rintro rfl
  have hlen := hpre.length_le
  have hpos := length_pos_iff.mpr hne
  rw [length_dropLast] at hlen
  omega

/-- The trees agree outside of a region. -/
def SameOutside (inside : TreePath → Prop) (t t' : FileTree δ) : Prop :=
  ∀ path, ¬inside path → t'.get path = t.get path

namespace SameOutside

variable {inside : TreePath → Prop} {t' t'' : FileTree δ}

theorem refl (inside : TreePath → Prop) (t : FileTree δ) : t.SameOutside inside t := fun _ _ => rfl

theorem trans (h : t.SameOutside inside t') (h' : t'.SameOutside inside t'') :
    t.SameOutside inside t'' := fun path hpath => (h' path hpath).trans (h path hpath)

end SameOutside

/-- A change in a region leaves the rest as it is. -/
theorem Changes.sameOutside {inside : TreePath → Prop}
    (h : t.Changes t' path value) (hpath : inside path) : t.SameOutside inside t' := by
  intro other hother
  apply h.get_of_ne
  intro heq
  exact hother (heq ▸ hpath)

end FileTree
