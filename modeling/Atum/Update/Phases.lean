import Atum.Update.Transaction

/-!
# The phases of a transaction

What the disk holds while a transaction runs, whatever the last call left
behind.  A transaction is in one of three phases.

* `Idle`: every managed file is the original one, and there is no journal.
* `Prepared`: the prepared journal is on disk.  Every changed file is the
  original or the candidate, and a backup is there unless its original is back
  in place.
* `Committed`: the committed journal was published, and every managed file is
  the candidate.

The calls that the code makes on managed files and on the transaction directory
keep a phase or move to the next one.  The lemmas of this module say so for the
change that a call makes to the tree; no program occurs here.
-/

namespace Atum.Update

open Atum.Go Atum.Config Faults List FileTree

variable {δ : Type} {codec : Codec δ}

/-! ## Versions and nodes -/

/-- The path of a managed file. -/
def location (file : String × TransactionEntry δ) : TreePath := components file.1

/-- What a managed file holds once the transaction is committed. -/
def candidateNode (codec : Codec δ) (entry : TransactionEntry δ) : Option (Node δ) :=
  if entry.candidate.present then
    some (.regular entry.candidate.mode (candidateData codec entry))
  else none

/-- What a path holds has this version. -/
def Matches (codec : Codec δ) (node : Option (Node δ)) (version : ManagedVersion δ) : Prop :=
  ∃ actual, nodeVersion codec.toContents node = some actual ∧
    sameManagedVersion actual version = true

theorem sameManagedVersion_iff {left right : ManagedVersion δ} :
    sameManagedVersion left right = true ↔
      left.present = right.present ∧ left.mode = right.mode ∧ left.digest = right.digest := by
  simp [sameManagedVersion, and_assoc]

variable {node : Option (Node δ)} {version : ManagedVersion δ}

theorem Matches.of_present (h : Matches codec node version) (hpres : version.present = true) :
    ∃ data, node = some (.regular version.mode data) ∧ codec.hash data = version.digest := by
  obtain ⟨actual, hactual, hsame⟩ := h
  rw [sameManagedVersion_iff, hpres] at hsame
  unfold nodeVersion at hactual
  split at hactual
  · cases hactual
    simp at hsame
  · next mode data =>
    cases hactual
    exact ⟨data, by rw [← hsame.2.1]; rfl, hsame.2.2⟩
  · cases hactual

theorem Matches.of_absent
    (h : Matches codec node version) (habsent : version.present = false) : node = none := by
  obtain ⟨actual, hactual, hsame⟩ := h
  rw [sameManagedVersion_iff, habsent] at hsame
  unfold nodeVersion at hactual
  split at hactual
  · rfl
  · cases hactual
    simp [fileVersion] at hsame
  · cases hactual

theorem Matches.ne_directory (h : Matches codec node version) : node ≠ some .directory := by
  rintro rfl
  obtain ⟨actual, hactual, -⟩ := h
  simp [nodeVersion] at hactual

theorem Matches.ne_symlink (h : Matches codec node version) : node ≠ some .symlink := by
  rintro rfl
  obtain ⟨actual, hactual, -⟩ := h
  simp [nodeVersion] at hactual

/-- One node has one version. -/
theorem Matches.same {left right : ManagedVersion δ}
    (hleft : Matches codec node left) (hright : Matches codec node right) :
    sameManagedVersion left right = true := by
  obtain ⟨actual, hactual, hsame⟩ := hleft
  obtain ⟨actual', hactual', hsame'⟩ := hright
  obtain rfl := Option.some.inj (hactual.symm.trans hactual')
  rw [sameManagedVersion_iff] at hsame hsame' ⊢
  exact ⟨hsame.1.symm.trans hsame'.1, hsame.2.1.symm.trans hsame'.2.1,
    hsame.2.2.symm.trans hsame'.2.2⟩

/-- A candidate has the version that its journal record says. -/
theorem EntryValid.matches_candidate {path : String} {entry : TransactionEntry δ}
    (h : EntryValid codec path entry) :
    Matches codec (candidateNode codec entry) entry.candidate := by
  have hvalid := h.candidate
  have hstaged := h.staged
  unfold candidateNode candidateData validateManagedVersion at *
  cases hpres : entry.candidate.present with
  | false =>
    simp only [hpres] at hvalid
    split at hvalid
    · split at hvalid
      · cases hvalid
      next hmat =>
      rw [not_or, not_or, not_not, not_not] at hmat
      exact ⟨{}, by simp [nodeVersion],
        by simp [sameManagedVersion_iff, hpres, hmat.1, hmat.2.1]⟩
    · next hnot => simp at hnot
  | true =>
    rw [hpres] at hstaged
    obtain ⟨data, hdata⟩ := Option.isSome_iff_exists.mp hstaged.symm
    simp only [hpres, hdata] at hvalid ⊢
    split at hvalid
    · next hnot => simp at hnot
    split at hvalid
    · cases hvalid
    split at hvalid
    · cases hvalid
    next hhash =>
    refine ⟨fileVersion codec.toContents entry.candidate.mode data, by simp [nodeVersion], ?_⟩
    rw [sameManagedVersion_iff, hpres]
    exact ⟨rfl, rfl, by simpa [fileVersion] using hhash⟩

/-! ## Paths -/

/-- The directory of a file is not the file. -/
theorem not_prefix_dropLast {path : TreePath} (hne : path ≠ []) : ¬path <+: path.dropLast := by
  intro hpre
  have hlen := hpre.length_le
  have hpos := length_pos_iff.mpr hne
  rw [length_dropLast] at hlen
  omega

/-- The root of all transactions is no managed path and lies neither above nor
below one. -/
def FileTransaction.Apart (transaction : FileTransaction codec) : Prop :=
  ∀ file ∈ transaction.files,
    ¬location file <+: transactionRoot ∧ ¬transactionRoot <+: location file

/-- The file is new. -/
def created (entry : TransactionEntry δ) : Bool :=
  !entry.expected.present && entry.candidate.present

/-- No new file lies below another new file. -/
def FileTransaction.Flat (transaction : FileTransaction codec) : Prop :=
  ∀ file ∈ transaction.files, ∀ other ∈ transaction.files, created file.2 = true →
    created other.2 = true → location file <+: location other → location file = location other

/-- No other bytes have the digest of a candidate. -/
def FileTransaction.Identified (transaction : FileTransaction codec) : Prop :=
  ∀ file ∈ transaction.files, file.2.candidate.present = true →
    ∀ data, codec.hash data = file.2.candidate.digest → data = candidateData codec file.2

theorem root_above_directory (id : String) (rest : TreePath) :
    transactionRoot <+: transactionDirectory id ++ rest := by
  exact prefix_append _ _

theorem indexName_injective : Function.Injective (zeroPadded 10 6) :=
  zeroPadded_injective (by decide) (by decide)

variable {i j : Nat}

theorem transactionBackup_injective {directory : TreePath}
    (h : transactionBackup directory i = transactionBackup directory j) : i = j := by
  have hnames := append_cancel_left h
  exact indexName_injective (by simpa using hnames)

theorem transactionCandidate_injective {directory : TreePath}
    (h : transactionCandidate directory i = transactionCandidate directory j) : i = j := by
  have hnames := append_cancel_left h
  exact indexName_injective (by simpa using hnames)

theorem transactionBackup_ne_candidate (directory : TreePath) (i j : Nat) :
    transactionBackup directory i ≠ transactionCandidate directory j := by
  intro h
  have hnames := append_cancel_left h
  simp at hnames

variable {transaction : FileTransaction codec}

theorem FileTransaction.mem_changed_iff
    {file : String × TransactionEntry δ} : file ∈ transaction.changed ↔
      file ∈ transaction.files ∧ sameManagedVersion file.2.expected file.2.candidate = false := by
  simp [FileTransaction.changed, mem_filter]

theorem FileTransaction.changed_nodup (transaction : FileTransaction codec) :
    transaction.changed.Nodup := by
  refine List.Pairwise.filter _ (transaction.sorted.imp ?_)
  rintro file other hlt rfl
  exact lt_irrefl _ hlt

theorem FileTransaction.index_unique
    {file : String × TransactionEntry δ} (hi : transaction.changed[i]? = some file)
    (hj : transaction.changed[j]? = some file) : i = j := by
  obtain ⟨hlt, -⟩ := List.getElem?_eq_some_iff.mp hi
  exact (List.getElem?_inj hlt transaction.changed_nodup).mp (hi.trans hj.symm)

/-- A path has one entry. -/
theorem FileTransaction.eq_of_location
    {file other : String × TransactionEntry δ} (hfile : file ∈ transaction.files)
    (hother : other ∈ transaction.files) (h : location file = location other) : file = other := by
  have hpath : file.1 = other.1 := components_injective h
  rw [transaction.sorted.mem_iff_lookup] at hfile hother
  rw [← hpath, hfile] at hother
  exact Prod.ext hpath (Option.some.inj hother)

/-! ## The phases -/

/-- One transaction in one project. -/
structure Setting (codec : Codec δ) where
  transaction : FileTransaction codec
  /-- The tree before the transaction. -/
  before : FileTree δ
  id : String
  validID : validTransactionID id = true
  apart : transaction.Apart

namespace Setting

variable (s : Setting codec)

def directory : TreePath := transactionDirectory s.id

/-- The original of a managed file. -/
def original (file : String × TransactionEntry δ) : Option (Node δ) := s.before.get (location file)

def AllOriginal (t : FileTree δ) : Prop :=
  ∀ file ∈ s.transaction.files, t.get (location file) = s.original file

def AllCandidate (t : FileTree δ) : Prop :=
  ∀ file ∈ s.transaction.files, t.get (location file) = candidateNode codec file.2

/-- The journal as a file. -/
def journalNode (state : JournalState) : Node δ :=
  .regular 0o600 (codec.encode (s.transaction.journal state))

/-- The journal in state `committed` was published. -/
def Published (w : World δ) : Prop :=
  (journalPath s.directory, s.journalNode .committed) ∈ w.renamed

/-- No other transaction is on disk. -/
def Housed (t : FileTree δ) : Prop :=
  ∀ name node, t.get (transactionRoot ++ [name]) = some node → name = s.id ∧ node = .directory

/-- What the verification of the managed files has shown. -/
structure Verified : Prop where
  expected : ∀ file ∈ s.transaction.files, Matches codec (s.original file) file.2.expected
  separate : ∀ file ∈ s.transaction.changed, ∀ other ∈ s.transaction.files,
    location file <+: location other → file = other
  nonempty : s.transaction.changed ≠ []

structure Idle (w : World δ) : Prop where
  original : s.AllOriginal w.tree
  unpublished : ¬s.Published w
  housed : s.Housed w.tree
  journal : w.tree.get (journalPath s.directory) = none

structure Prepared (w : World δ) : Prop where
  journal : w.tree.get (journalPath s.directory) = some (s.journalNode .prepared)
  unpublished : ¬s.Published w
  housed : s.Housed w.tree
  clear : ∀ file ∈ s.transaction.files, w.tree.Clear (location file)
  unchanged : ∀ file ∈ s.transaction.files,
    sameManagedVersion file.2.expected file.2.candidate = true →
      w.tree.get (location file) = s.original file
  replaced : ∀ file ∈ s.transaction.changed,
    w.tree.get (location file) = s.original file ∨
      w.tree.get (location file) = candidateNode codec file.2
  backup : ∀ index file, s.transaction.changed[index]? = some file →
    file.2.expected.present = true →
      w.tree.get (transactionBackup s.directory index) = s.original file ∨
        w.tree.get (transactionBackup s.directory index) = none ∧
          w.tree.get (location file) = s.original file

structure Committed (w : World δ) : Prop where
  candidate : s.transaction.Identified → s.AllCandidate w.tree
  published : s.Published w
  housed : s.Housed w.tree
  journal : w.tree.get (journalPath s.directory) = none ∨
    w.tree.get (journalPath s.directory) = some (s.journalNode .committed)

/-- The transaction is in one of its phases. -/
def Phase (w : World δ) : Prop := s.Idle w ∨ s.Verified ∧ s.Prepared w ∨ s.Committed w

/-- The managed files are all original or all candidates, as the journal says.
Files that the transaction leaves alone equal their candidates because no other
bytes have the digest. -/
def Settled (w : World δ) : Prop :=
  s.AllOriginal w.tree ∧ ¬s.Published w ∨
    (s.transaction.Identified → s.AllCandidate w.tree) ∧ s.Published w

/-- Every managed file is as it was or the original. -/
def Nearer (t t' : FileTree δ) : Prop :=
  ∀ file ∈ s.transaction.files,
    t'.get (location file) = t.get (location file) ∨ t'.get (location file) = s.original file

variable {s} {file other : String × TransactionEntry δ} {index : Nat} {t t' : FileTree δ}

theorem Nearer.of_same
    (h : ∀ file ∈ s.transaction.files, t'.get (location file) = t.get (location file)) :
    s.Nearer t t' := fun file hfile => .inl (h file hfile)

theorem Nearer.refl (t : FileTree δ) : s.Nearer t t := Nearer.of_same fun _ _ => rfl

theorem Nearer.get_of_original (h : s.Nearer t t')
    (hfile : file ∈ s.transaction.files) (ht : t.get (location file) = s.original file) :
    t'.get (location file) = s.original file := by
  rcases h file hfile with hsame | horig
  · rw [hsame, ht]
  · exact horig

theorem Nearer.trans {t₁ t₂ t₃ : FileTree δ} (h : s.Nearer t₁ t₂) (h' : s.Nearer t₂ t₃) :
    s.Nearer t₁ t₃ := by
  intro file hfile
  rcases h' file hfile with hsame | horig
  · rw [hsame]
    exact h file hfile
  · exact .inr horig

theorem Nearer.allOriginal (h : s.Nearer t t') (ht : s.AllOriginal t) :
    s.AllOriginal t' := fun file hfile => h.get_of_original hfile (ht file hfile)

theorem Idle.settled {w : World δ} (h : s.Idle w) : s.Settled w :=
    Or.inl ⟨h.original, h.unpublished⟩

theorem Committed.settled {w : World δ} (h : s.Committed w) : s.Settled w :=
  Or.inr ⟨h.candidate, h.published⟩

theorem root_above_journal (s : Setting codec) : transactionRoot <+: journalPath s.directory :=
  root_above_directory s.id _

theorem root_above_backup (s : Setting codec) (index : Nat) :
    transactionRoot <+: transactionBackup s.directory index :=
  root_above_directory s.id _

theorem root_above_candidate (s : Setting codec) (index : Nat) :
    transactionRoot <+: transactionCandidate s.directory index :=
  root_above_directory s.id _

theorem mem_files (h : file ∈ s.transaction.changed) : file ∈ s.transaction.files :=
  (FileTransaction.mem_changed_iff.mp h).1

variable {path : TreePath}

/-- Nothing on the way to a managed file lies in the transaction root. -/
theorem not_root_above (hfile : file ∈ s.transaction.files)
    (hpath : path <+: location file) : ¬transactionRoot <+: path :=
  fun hroot => (s.apart file hfile).2 (hroot.trans hpath)

theorem ne_inside (hfile : file ∈ s.transaction.files) (rest : TreePath) :
    location file ≠ s.directory ++ rest :=
  fun heq => (s.apart file hfile).2 (heq ▸ root_above_directory s.id rest)

/-- A file that the transaction leaves alone exists. -/
theorem Verified.unchanged_present (hv : s.Verified) (hfile : file ∈ s.transaction.files)
    (hsame : sameManagedVersion file.2.expected file.2.candidate = true) :
    s.original file ≠ none := by
  have hpres : file.2.expected.present = true := by
    rcases (s.transaction.valid file hfile).listed with h | h
    · exact h
    · exact (sameManagedVersion_iff.mp hsame).1.trans h
  obtain ⟨data, hdata, -⟩ := (hv.expected file hfile).of_present hpres
  simp [hdata]

/-! ### Calls on one managed file -/

variable (s) in
/-- Only one managed file, its backup and its staged candidate have changed, and
directories on the way to the file were created. -/
structure Touches (index : Nat) (file : String × TransactionEntry δ) (t t' : FileTree δ) :
    Prop where
  outside : ∀ path, ¬transactionRoot <+: path → path ≠ location file →
    t'.get path = t.get path ∨
      t.get path = none ∧ t'.get path = some .directory ∧ path <+: location file
  inside : ∀ path, transactionRoot <+: path → path ≠ transactionBackup s.directory index →
    path ≠ transactionCandidate s.directory index → t'.get path = t.get path

variable {w w' : World δ} {t t' : FileTree δ}

/-- The other managed files are as before. -/
theorem Prepared.get_of_touches (hv : s.Verified) (h : s.Prepared w)
    (hfile : file ∈ s.transaction.changed) (ht : s.Touches index file w.tree t')
    (hother : other ∈ s.transaction.files) (hne : other ≠ file) :
    t'.get (location other) = w.tree.get (location other) := by
  have hloc : location other ≠ location file :=
    fun heq => hne (FileTransaction.eq_of_location hother (mem_files hfile) heq)
  rcases ht.outside _ (s.apart other hother).2 hloc with hsame | ⟨hnone, -, hpre⟩
  · exact hsame
  -- No managed file lies on the way to a changed one.
  cases hver : sameManagedVersion other.2.expected other.2.candidate with
  | false =>
    have hchg := FileTransaction.mem_changed_iff.mpr ⟨hother, hver⟩
    exact absurd (hv.separate other hchg file (mem_files hfile) hpre) hne
  | true =>
    rw [h.unchanged other hother hver] at hnone
    exact absurd hnone (hv.unchanged_present hother hver)

/-- A call on one changed file keeps the phase if the file ends as the original
or the candidate, and its backup is there or not needed. -/
theorem Prepared.touch (hv : s.Verified) (h : s.Prepared w)
    (hat : s.transaction.changed[index]? = some file)
    (ht : s.Touches index file w.tree w'.tree) (hpub : s.Published w' → s.Published w)
    (hstate : w'.tree.get (location file) = s.original file ∨
      w'.tree.get (location file) = candidateNode codec file.2)
    (hbackup : file.2.expected.present = true →
      w'.tree.get (transactionBackup s.directory index) = s.original file ∨
        w'.tree.get (transactionBackup s.directory index) = none ∧
          w'.tree.get (location file) = s.original file) : s.Prepared w' := by
  have hfile : file ∈ s.transaction.changed := mem_of_getElem? hat
  constructor
  case journal =>
    rw [ht.inside _ (root_above_journal s) (by simp [journalPath, transactionBackup])
      (by simp [journalPath, transactionCandidate])]
    exact h.journal
  case unpublished => exact fun hp => h.unpublished (hpub hp)
  case housed =>
    intro name node hnode
    refine h.housed name node ?_
    rw [← hnode, ht.inside _ (prefix_append _ _)]
    · simp [transactionBackup, directory, transactionDirectory]
    · simp [transactionCandidate, directory, transactionDirectory]
  case clear =>
    intro other hother above hpre hne
    have hloc : above ≠ location file := by
      rintro rfl
      exact hne (hv.separate file hfile other hother hpre ▸ rfl)
    rcases ht.outside above (not_root_above hother hpre) hloc with hsame | ⟨-, hdir, -⟩
    · rw [hsame]
      exact h.clear other hother above hpre hne
    · exact .inr hdir
  case unchanged =>
    intro other hother hsame
    rw [h.get_of_touches hv hfile ht hother]
    · exact h.unchanged other hother hsame
    · rintro rfl
      rw [(FileTransaction.mem_changed_iff.mp hfile).2] at hsame
      cases hsame
  case replaced =>
    intro other hother
    by_cases heq : other = file
    · rw [heq]
      exact hstate
    · rw [h.get_of_touches hv hfile ht (mem_files hother) heq]
      exact h.replaced other hother
  case backup =>
    intro index' other hat' hpres
    by_cases heq : other = file
    · subst heq
      obtain rfl : index' = index := FileTransaction.index_unique hat' hat
      exact hbackup hpres
    have hne : index' ≠ index := by
      rintro rfl
      exact heq (Option.some.inj (hat'.symm.trans hat))
    rw [h.get_of_touches hv hfile ht (mem_files (mem_of_getElem? hat')) heq,
      ht.inside _ (root_above_backup s _) (fun hsame => hne (transactionBackup_injective hsame))
        (transactionBackup_ne_candidate _ _ _)]
    exact h.backup index' other hat' hpres

/-- Creating the directory of a managed file. -/
theorem touches_of_grows (hfile : file ∈ s.transaction.files)
    (h : t.Grows t' (location file).dropLast) : s.Touches index file t t' := by
  have hpar : (location file).dropLast <+: location file := dropLast_prefix _
  refine ⟨fun path _ _ => ?_, fun path hroot _ _ => h.get_of_not_above fun hpre => ?_⟩
  · rcases h path with hsame | ⟨hnone, hdir, hpre⟩
    · exact .inl hsame
    · exact .inr ⟨hnone, hdir, hpre.trans hpar⟩
  · exact not_root_above hfile (hpre.trans hpar) hroot

/-- Removing a managed file. -/
theorem touches_of_changes {value : Option (Node δ)} (hfile : file ∈ s.transaction.files)
    (h : t.Changes t' (location file) value) : s.Touches index file t t' := by
  refine ⟨fun path _ hne => .inl (h.get_of_ne hne), fun path hroot _ _ => h.get_of_ne ?_⟩
  rintro rfl
  exact (s.apart file hfile).2 hroot

/-- Moving a backup or a staged candidate over a managed file. -/
theorem touches_of_moves {source : TreePath} {node : Node δ} (hfile : file ∈ s.transaction.files)
    (hsrc : source = transactionBackup s.directory index ∨
      source = transactionCandidate s.directory index)
    (h : Prog.Moves w w' source (location file) node) : s.Touches index file w.tree w'.tree := by
  have hinside : transactionRoot <+: source := by
    rcases hsrc with rfl | rfl
    · exact root_above_backup s index
    · exact root_above_candidate s index
  refine ⟨fun path hout hne => .inl ?_, fun path hroot hbackup hcand => ?_⟩
  · rw [h.get, if_neg hne, if_neg]
    rintro rfl
    exact hout hinside
  rw [h.get, if_neg, if_neg]
  · rintro rfl
    rcases hsrc with heq | heq
    · exact hbackup heq
    · exact hcand heq
  · rintro rfl
    exact (s.apart file hfile).2 hroot

/-- Creating the directory of a changed file keeps the phase and every file. -/
theorem Prepared.grows (hv : s.Verified) (h : s.Prepared w)
    (hat : s.transaction.changed[index]? = some file)
    (hgrows : w.tree.Grows t (location file).dropLast) : s.Prepared { w with tree := t } ∧
      (∀ other ∈ s.transaction.files, t.get (location other) = w.tree.get (location other)) ∧
      ∀ path, transactionRoot <+: path → t.get path = w.tree.get path := by
  have hfile : file ∈ s.transaction.changed := mem_of_getElem? hat
  have ht : s.Touches index file w.tree t := touches_of_grows (mem_files hfile) hgrows
  have hself : t.get (location file) = w.tree.get (location file) :=
    hgrows.get_of_not_above (not_prefix_dropLast (components_ne_nil file.1))
  have hinside : ∀ path, transactionRoot <+: path → t.get path = w.tree.get path :=
    fun path hroot => hgrows.get_of_not_above fun hpre =>
      not_root_above (mem_files hfile) (above_of_above_dropLast hpre) hroot
  refine ⟨h.touch hv hat ht (fun hp => hp) ?_ fun hpres => ?_, fun other hother => ?_, hinside⟩
  · rw [hself]
    exact h.replaced file hfile
  · rw [hself, hinside _ (root_above_backup s _)]
    exact h.backup index file hat hpres
  · by_cases heq : other = file
    · rw [heq, hself]
    · exact h.get_of_touches hv hfile ht hother heq

/-! ### Removing the transaction directory -/

variable {survives : TreePath → Bool}

theorem get_removeAll (h : ¬transactionRoot <+: path) :
    (t.removeAll s.directory survives).get path = t.get path :=
  get_removeAll_of_not_below fun hpre => h ((prefix_append _ _).trans hpre)

theorem AllOriginal.removeAll (h : s.AllOriginal t) :
    s.AllOriginal (t.removeAll s.directory survives) := by
  intro file hfile
  rw [get_removeAll (s.apart file hfile).2]
  exact h file hfile

theorem Housed.removeAll (h : s.Housed t) : s.Housed (t.removeAll s.directory survives) := by
  intro name node hnode
  rcases get_removeAll_cases survives (transactionRoot ++ [name]) with hsame | hnone
  · exact h name node (hsame ▸ hnode)
  · rw [hnone] at hnode
    cases hnode

theorem Idle.removeAll (h : s.Idle w) :
    s.Idle { w with tree := w.tree.removeAll s.directory survives } := by
  refine ⟨AllOriginal.removeAll h.original, h.unpublished, Housed.removeAll h.housed, ?_⟩
  rcases get_removeAll_cases survives (journalPath s.directory) with hsame | hnone
  · exact hsame.trans h.journal
  · exact hnone

theorem Committed.removeAll (h : s.Committed w) :
    s.Committed { w with tree := w.tree.removeAll s.directory survives } := by
  refine ⟨fun hidentified file hfile => ?_, h.published, Housed.removeAll h.housed, ?_⟩
  · rw [get_removeAll (s.apart file hfile).2]
    exact h.candidate hidentified file hfile
  rcases get_removeAll_cases survives (journalPath s.directory) with hsame | hnone
  · rw [hsame]
    exact h.journal
  · exact .inl hnone

/-- Once every original is back in place the directory may go, in any order. -/
theorem Prepared.removeAll (h : s.Prepared w) (horig : s.AllOriginal w.tree) :
    s.Idle { w with tree := w.tree.removeAll s.directory survives } ∨
      s.Prepared { w with tree := w.tree.removeAll s.directory survives } := by
  have hafter : s.AllOriginal (w.tree.removeAll s.directory survives) :=
    AllOriginal.removeAll horig
  rcases get_removeAll_cases survives (journalPath s.directory) with hsame | hnone
  · right
    refine ⟨hsame.trans h.journal, h.unpublished, Housed.removeAll h.housed, ?_,
      fun file hfile _ => hafter file hfile, fun file hfile => .inl (hafter file (mem_files hfile)),
      ?_⟩
    · intro file hfile above hpre hne
      rw [get_removeAll (not_root_above hfile hpre)]
      exact h.clear file hfile above hpre hne
    intro index file hat hpres
    have hloc := hafter file (mem_files (mem_of_getElem? hat))
    rcases get_removeAll_cases survives (transactionBackup s.directory index)
      with hbackup | hbackup
    · rw [hbackup]
      rcases h.backup index file hat hpres with hkept | ⟨hgone, -⟩
      · exact .inl hkept
      · exact .inr ⟨hgone, hloc⟩
    · exact .inr ⟨hbackup, hloc⟩
  · exact .inl ⟨hafter, h.unpublished, Housed.removeAll h.housed, hnone⟩

/-! ### Writing in the transaction directory -/

/-- A path in the transaction directory that is not the journal. -/
def Scratch (s : Setting codec) (path : TreePath) : Prop :=
  s.directory <+: path ∧ path ≠ s.directory ∧ path ≠ journalPath s.directory

theorem not_scratch_of_not_root (h : ¬transactionRoot <+: path) : ¬s.Scratch path :=
  fun hscratch => h ((prefix_append _ _).trans hscratch.1)

theorem Housed.scratch (h : s.Housed t)
    (ht : ∀ path, ¬s.Scratch path → t'.get path = t.get path) : s.Housed t' := by
  intro name node hnode
  refine h name node ?_
  rw [← hnode, ht]
  rintro ⟨hpre, hne, -⟩
  refine hne (hpre.eq_of_length_le ?_).symm
  simp [directory, transactionDirectory]

/-- Nothing depends on what is staged before the journal is there. -/
theorem Idle.scratch (h : s.Idle w) (ht : ∀ path, ¬s.Scratch path → t'.get path = w.tree.get path) :
    s.Idle { w with tree := t' } := by
  refine ⟨fun file hfile => ?_, h.unpublished, Housed.scratch h.housed ht, ?_⟩
  · rw [ht _ (not_scratch_of_not_root (s.apart file hfile).2)]
    exact h.original file hfile
  · rw [ht _ fun hscratch => hscratch.2.2 rfl]
    exact h.journal

end Setting

end Atum.Update
