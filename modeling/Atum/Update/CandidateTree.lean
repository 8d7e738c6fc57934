import Atum.Update.Transaction

/-!
# The candidate tree of an update

An update tracks the managed files before it resolves anything.  The candidate
tree holds the tracked version of every path and the version that the update
wants to see there, and some directories whose files are tracked completely.
`CandidateTree.transaction` turns it into the transaction that `Commit` runs.

The first part of this module is the model.  The second part says what the
transaction of a tree contains (`transaction_files`, `transaction_directories`).
-/

namespace Atum.Update

open Atum.Go Atum.Config SortedAssoc FileTransaction

variable {δ : Type}

/-- The version was read from some disk. -/
def Taken (contents : Contents δ) (version : ManagedVersion δ) : Prop :=
  ∃ node, nodeVersion contents node = some version

section NoFiles

variable (δ)

abbrev noFiles : List (String × ManagedVersion δ) := []

theorem sorted_noFiles : SortedAssoc.Sorted (noFiles δ) := List.Pairwise.nil

theorem proposed_noFiles (path : String) (h : ((noFiles δ).lookup path).isSome = true) :
    ((noFiles δ).lookup path).isSome = true := h

theorem clean_noFiles : ∀ file ∈ noFiles δ, relative file.1 = .ok file.1 := List.forall_mem_nil _

variable {δ}

theorem taken_noFiles (codec : Codec δ) : ∀ file ∈ noFiles δ, Taken codec.toContents file.2 :=
  List.forall_mem_nil _

end NoFiles

/-- `candidateTree`.  Every tracked path is clean, its version was read from a
disk, and there is a candidate for it. -/
structure CandidateTree (codec : Codec δ) where
  originals : List (String × ManagedVersion δ) := []
  candidates : List (String × ManagedVersion δ) := []
  completeDirectories : List String := []
  sorted : SortedAssoc.Sorted originals := by exact sorted_noFiles _
  candidatesSorted : SortedAssoc.Sorted candidates := by exact sorted_noFiles _
  proposed : ∀ path, (originals.lookup path).isSome = true →
    (candidates.lookup path).isSome = true := by exact proposed_noFiles _
  clean : ∀ file ∈ originals, relative file.1 = .ok file.1 := by exact clean_noFiles _
  taken : ∀ file ∈ originals, Taken codec.toContents file.2 := by exact taken_noFiles _

/-- `filepath.Join`, for a directory that is not empty. -/
def joinPath (directory path : String) : String := Go.clean (directory ++ "/" ++ path)

section Digest

variable (contents : Contents δ)

/-- The tracked files of a directory, under their paths in it. -/
def managedFiles (directory : String) (files : List (String × ManagedVersion δ)) :
    List (TreeFile δ) :=
  let above := Go.clean directory ++ "/"
  files.filterMap fun file =>
    if file.2.present && hasPrefix (Go.clean file.1) above then
      treeFile (trimPrefix (Go.clean file.1) above) file.2
    else none

/-- `managedDirectoryDigest`. -/
def managedDirectoryDigest (directory : String) (files : List (String × ManagedVersion δ)) :
    Except String String :=
  treeSum contents (managedFiles directory files)

end Digest

/-- The listing of a directory holds versions that were read from the disk. -/
theorem taken_of_regularTreeFiles {contents : Contents δ} {t : FileTree δ} {directory : TreePath}
    {files : List (String × ManagedVersion δ)}
    (h : regularTreeFiles contents t directory = .ok files) :
    ∀ file ∈ files, Taken contents file.2 := by
  intro file hfile
  obtain ⟨_, mode, data, -, rfl⟩ := (regularTreeFiles_ok h).1 file hfile
  exact ⟨some (.regular mode data), rfl⟩

namespace CandidateTree

variable {codec : Codec δ}

/-! ## Tracking -/

/-- Note the version of a path, and propose to keep it. -/
def record (tree : CandidateTree codec) (path : String) (version : ManagedVersion δ)
    (hclean : relative path = .ok path) (htaken : Taken codec.toContents version) :
    CandidateTree codec where
  originals := SortedAssoc.insert path version tree.originals
  candidates := SortedAssoc.insert path version tree.candidates
  completeDirectories := tree.completeDirectories
  sorted := tree.sorted.insert _ _
  candidatesSorted := tree.candidatesSorted.insert _ _
  proposed := by
    intro other hother
    rw [SortedAssoc.lookup_insert] at hother ⊢
    split at hother
    · next heq => simp [heq]
    · next hne =>
      rw [if_neg hne]
      exact tree.proposed other hother
  clean := by
    intro file hfile
    rcases SortedAssoc.mem_insert hfile with rfl | hfile
    · exact hclean
    · exact tree.clean file hfile
  taken := by
    intro file hfile
    rcases SortedAssoc.mem_insert hfile with rfl | hfile
    · exact htaken
    · exact tree.taken file hfile

/-- Propose another version of a path. -/
def propose (tree : CandidateTree codec) (path : String) (version : ManagedVersion δ) :
    CandidateTree codec :=
  { tree with
    candidates := SortedAssoc.insert path version tree.candidates
    candidatesSorted := tree.candidatesSorted.insert _ _
    proposed := by
      intro other hother
      rw [SortedAssoc.lookup_insert]
      split
      · rfl
      · exact tree.proposed other hother }

/-- Note that the files of a directory are tracked completely. -/
def complete (tree : CandidateTree codec) (directory : String) : CandidateTree codec :=
  { tree with completeDirectories := tree.completeDirectories.insert directory }

/-- `Track`. -/
def track (tree : CandidateTree codec) (t : FileTree δ) (path : String) :
    Except String (CandidateTree codec × ManagedVersion δ) :=
  match hclean : relative path with
  | .error e => .error e
  | .ok clean =>
    match tree.originals.lookup clean with
    | some current => .ok (tree, current)
    | none =>
      match hsnap : snapshotManagedFile codec.toContents t clean with
      | .error e => .error e
      | .ok current =>
        .ok (tree.record clean current (relative_idem hclean)
          ⟨_, ((snapshotManagedFile_eq_ok_iff (relative_idem hclean)).mp hsnap).2⟩,
          current)

/-- `Set`. -/
def set (tree : CandidateTree codec) (t : FileTree δ) (path : String) (data : δ) :
    Except String (CandidateTree codec) := do
  let (tree, current) ← tree.track t path
  return tree.propose (Go.clean path)
    (fileVersion codec.toContents (if current.present then current.mode else 0o644) data)

/-- `Delete`. -/
def delete (tree : CandidateTree codec) (t : FileTree δ) (path : String) :
    Except String (CandidateTree codec) := do
  let (tree, _) ← tree.track t path
  return tree.propose (Go.clean path) {}

/-! ## Directories -/

/-- The loop of `trackUpdateInputs` over the files of one vendor tree. -/
def trackFiles (directory : String) : (files : List (String × ManagedVersion δ)) →
    (∀ file ∈ files, Taken codec.toContents file.2) → CandidateTree codec →
      Except String (CandidateTree codec)
  | [], _, tree => .ok tree
  | file :: rest, htaken, tree =>
    match hclean : relative (joinPath directory file.1) with
    | .error e => .error e
    | .ok managed =>
      trackFiles directory rest (fun other hother => htaken other (List.mem_cons_of_mem _ hother))
        (if (tree.originals.lookup managed).isSome then tree
        else tree.record managed file.2 (relative_idem hclean) (htaken file List.mem_cons_self))

/-- The part of `trackUpdateInputs` that tracks one vendor tree. -/
def trackVendor (tree : CandidateTree codec) (t : FileTree δ) (id directory : String) :
    Except String (CandidateTree codec) := do
  resolve t directory false
  match hfiles : regularTreeFiles codec.toContents t (components (Go.clean directory)) with
  | .error e => .error s!"snapshot vendor tree {id}: {e}"
  | .ok files =>
    trackFiles directory files (taken_of_regularTreeFiles hfiles)
      (tree.complete (Go.clean directory))

/-- One path of `ReplaceDirectory`. -/
def replacePath (t : FileTree δ) (directory : String)
    (replacement : List (String × ManagedVersion δ)) (tree : CandidateTree codec) (path : String) :
    Except String (CandidateTree codec) :=
  let managed := joinPath directory path
  match replacement.lookup path with
  | none => tree.delete t managed
  | some state => do
      let (tree, _) ← tree.track t managed
      return tree.propose managed state

/-- Every file of a directory is tracked. -/
def checkTracked (tree : CandidateTree codec) (directory : String)
    (file : String × ManagedVersion δ) : Except String Unit :=
  if (tree.originals.lookup (joinPath directory file.1)).isSome then .ok ()
  else .error (s!"tracked tree {directory} gained {file.1} while upstream updates were " ++
      "resolving; retry without discarding the concurrent edit")

/-- `ReplaceDirectory`.  The replacement is the tree of the candidate directory. -/
def replaceDirectory (tree : CandidateTree codec) (t : FileTree δ) (path : String)
    (replacement : FileTree δ) : Except String (CandidateTree codec) := do
  let clean ← relative path
  resolve t clean false
  let current ← (regularTreeFiles codec.toContents t (components clean)).mapError
    fun e => s!"inspect tracked tree {clean}: {e}"
  current.forM (tree.checkTracked clean)
  let candidate ← (regularTreeFiles codec.toContents replacement []).mapError
    fun e => s!"inspect candidate tree {clean}: {e}"
  let paths := (current.map Prod.fst) ++
    (candidate.map Prod.fst).filter fun path => (current.lookup path).isNone
  paths.foldlM (replacePath t clean candidate) (tree.complete clean)

/-! ## The transaction -/

/-- The loop of `Transaction` over the candidates. -/
def addCandidate (tree : CandidateTree codec) (transaction : FileTransaction codec)
    (file : String × ManagedVersion δ) : Except String (FileTransaction codec) :=
  let original := (tree.originals.lookup file.1).getD {}
  if file.2.present then
    transaction.addMode file.1 (file.2.data.getD (codec.text "")) file.2.mode original
  else transaction.delete file.1 original

/-- The loop of `Transaction` over the complete directories. -/
def guardComplete (tree : CandidateTree codec) (transaction : FileTransaction codec)
    (directory : String) : Except String (FileTransaction codec) := do
  let expected ← managedDirectoryDigest codec.toContents directory tree.originals
  transaction.guardDirectory directory expected

/-- `Transaction`. -/
def transaction (tree : CandidateTree codec) : Except String (FileTransaction codec) := do
  let transaction ← tree.candidates.foldlM tree.addCandidate {}
  tree.completeDirectories.foldlM tree.guardComplete transaction

end CandidateTree

/-! ## What the transaction of a tree contains -/

section Contains

variable {codec : Codec δ} {transaction transaction' : FileTransaction codec}
  {candidate : Option (Nat × δ)} {expected : ManagedVersion δ} {path : String}
  {hlisted : expected.present = true ∨ (candidateVersion codec candidate).present = true}

/-- An added path was not there before, and nothing else changes. -/
theorem FileTransaction.add_ok
    (h : transaction.add path expected candidate hlisted = .ok transaction') :
    ∃ clean, relative path = .ok clean ∧ transaction.files.lookup clean = none ∧
      transaction'.files = SortedAssoc.insert clean
        ⟨withoutData expected, candidateVersion codec candidate⟩ transaction.files ∧
      transaction'.directories = transaction.directories := by
  unfold FileTransaction.add at h
  split at h
  · cases h
  next clean hclean =>
  split at h
  · cases h
  next hfresh =>
  split at h
  · cases h
  split at h
  · cases h
  · cases h
    exact ⟨clean, hclean, Option.not_isSome_iff_eq_none.mp hfresh, rfl, rfl⟩

/-- The transaction expects this version of a path. -/
def FileTransaction.Expects (transaction : FileTransaction codec) (path : String)
    (version : ManagedVersion δ) : Prop :=
  ∃ entry, transaction.files.lookup path = some entry ∧ entry.expected = withoutData version

theorem FileTransaction.expects_of_add (hclean : relative path = .ok path)
    (h : transaction.add path expected candidate hlisted = .ok transaction') :
    transaction'.Expects path expected := by
  obtain ⟨clean, hpath, -, hfiles, -⟩ := add_ok h
  obtain rfl := Except.ok.inj (hclean.symm.trans hpath)
  refine ⟨⟨withoutData expected, candidateVersion codec candidate⟩, ?_, rfl⟩
  rw [hfiles, lookup_insert, if_pos rfl]

theorem FileTransaction.Expects.add {other : String} {version : ManagedVersion δ}
    (hexpects : transaction.Expects other version)
    (h : transaction.add path expected candidate hlisted = .ok transaction') :
    transaction'.Expects other version := by
  obtain ⟨entry, hent, hver⟩ := hexpects
  obtain ⟨clean, -, hfresh, hfiles, -⟩ := add_ok h
  refine ⟨entry, ?_, hver⟩
  have hne : other ≠ clean := by
    intro heq
    rw [heq, hfresh] at hent
    cases hent
  rw [hfiles, lookup_insert, if_neg hne]
  exact hent

/-- Guarding a directory adds its digest and changes nothing else. -/
theorem FileTransaction.guardDirectory_ok {expected : String}
    (h : transaction.guardDirectory path expected = .ok transaction') :
    ∃ clean, relative path = .ok clean ∧ transaction.directories.lookup clean = none ∧
      transaction'.directories = SortedAssoc.insert clean expected transaction.directories ∧
      transaction'.files = transaction.files := by
  obtain ⟨clean, hclean, h⟩ := bind_eq_ok.mp h
  split at h
  · cases h
  split at h
  · cases h
  · next hfresh =>
    cases h
    exact ⟨clean, hclean, Option.not_isSome_iff_eq_none.mp hfresh, rfl, rfl⟩

namespace CandidateTree

variable {tree : CandidateTree codec}

/-- One candidate is an addition, or nothing if it was absent and stays so. -/
theorem addCandidate_ok {file : String × ManagedVersion δ}
    (h : tree.addCandidate transaction file = .ok transaction') :
    (∃ candidate hlisted, transaction.add file.1 ((tree.originals.lookup file.1).getD {}) candidate
        hlisted = .ok transaction') ∨ transaction' = transaction ∧ file.2.present = false ∧
        ((tree.originals.lookup file.1).getD {}).present = false := by
  unfold addCandidate FileTransaction.addMode FileTransaction.delete at h
  simp only at h
  split at h
  · split at h
    · cases h
    · exact .inl ⟨_, _, h⟩
  next habsent =>
  split at h
  · exact .inl ⟨_, _, h⟩
  · next hnot =>
    exact .inr ⟨(Except.ok.inj h).symm, by simpa using habsent, by simpa using hnot⟩

variable {directory : String}

theorem expects_guardComplete {version : ManagedVersion δ}
    (h : tree.guardComplete transaction directory = .ok transaction')
    (hexpects : transaction.Expects path version) : transaction'.Expects path version := by
  obtain ⟨digest, -, h⟩ := bind_eq_ok.mp h
  obtain ⟨-, -, -, -, hfiles⟩ := guardDirectory_ok h
  unfold FileTransaction.Expects
  rw [hfiles]
  exact hexpects

/-- A tracked file that exists, or that has a candidate, is in the transaction. -/
theorem transaction_files (h : tree.transaction = .ok transaction)
    {original candidate : ManagedVersion δ} (horig : tree.originals.lookup path = some original)
    (hcand : tree.candidates.lookup path = some candidate)
    (hlisted : original.present = true ∨ candidate.present = true) :
    transaction.Expects path original := by
  obtain ⟨files, hfiles, hdirs⟩ := bind_eq_ok.mp h
  have hclean : relative path = .ok path :=
    tree.clean _ (mem_of_lookup horig)
  have hexpects : files.Expects path original := by
    refine foldlM_of_mem (P := fun transaction => transaction.Expects path original) ?_ ?_
      (mem_of_lookup hcand) hfiles
    · intro before after hround
      rcases addCandidate_ok hround with ⟨_, _, hadd⟩ | ⟨-, habsent, hnone⟩
      · have hexpects := expects_of_add hclean hadd
        rw [horig] at hexpects
        exact hexpects
      rw [horig] at hnone
      rcases hlisted with hpres | hpres
      · exact absurd hpres (by simpa using hnone)
      · exact absurd hpres (by simpa using habsent)
    · intro before file after hround hbefore
      rcases addCandidate_ok hround with ⟨_, _, hadd⟩ | ⟨rfl, -, -⟩
      · exact hbefore.add hadd
      · exact hbefore
  exact foldlM_keep (P := fun transaction => transaction.Expects path original)
    (fun _ _ _ hround hbefore => expects_guardComplete hround hbefore) hexpects hdirs

/-- A complete directory is guarded by the digest of its tracked files. -/
theorem transaction_directories (h : tree.transaction = .ok transaction)
    (hmem : directory ∈ tree.completeDirectories) : ∃ clean digest, relative directory = .ok clean ∧
      managedDirectoryDigest codec.toContents directory tree.originals = .ok digest ∧
      transaction.directories.lookup clean = some digest := by
  obtain ⟨files, -, hdirs⟩ := bind_eq_ok.mp h
  refine foldlM_of_mem (P := fun transaction => ∃ clean digest, relative directory = .ok clean ∧
    managedDirectoryDigest codec.toContents directory tree.originals = .ok digest ∧
    transaction.directories.lookup clean = some digest) ?_ ?_ hmem hdirs
  · intro before after hround
    obtain ⟨digest, hdig, hround⟩ := bind_eq_ok.mp hround
    obtain ⟨clean, hclean, -, hafter, -⟩ := guardDirectory_ok hround
    refine ⟨clean, digest, hclean, hdig, ?_⟩
    rw [hafter, lookup_insert, if_pos rfl]
  rintro before other after hround ⟨clean, digest, hclean, hdig, hlook⟩
  obtain ⟨digest', -, hround⟩ := bind_eq_ok.mp hround
  obtain ⟨clean', -, hfresh, hafter, -⟩ := guardDirectory_ok hround
  refine ⟨clean, digest, hclean, hdig, ?_⟩
  have hne : clean ≠ clean' := by
    intro heq
    rw [heq, hfresh] at hlook
    cases hlook
  rw [hafter, lookup_insert, if_neg hne]
  exact hlook

end CandidateTree

end Contains

end Atum.Update
