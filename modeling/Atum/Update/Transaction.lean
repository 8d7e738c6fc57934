import Atum.Library.Faults
import Atum.Update.ManagedFile

/-!
# The update transaction

An update replaces a set of managed files in one transaction.  `commit` stages
the candidates and backs the originals up in a transaction directory, publishes
a journal in state `prepared`, replaces the files one after the other, publishes
the journal again in state `committed`, and removes the directory.
`recoverTransactions` reads what an interrupted transaction left: it puts the
originals back while the journal is prepared, and it only cleans up once the
journal is committed.

A function that touches the disk takes the fates of its calls.  `Fates` gives a
fate to every call by its place in the run: the parts and the rounds of a loop
that lead to it.  Reading does not change the tree, so a function that only
reads is one call.
-/

namespace Atum.Update

open Atum.Go Atum.Config Faults Faults.Prog

/-! ## The journal -/

/-- The states of a transaction journal. -/
inductive JournalState where
  | prepared
  | committed
  | other (name : String) (unknown : name ∉ ["prepared", "committed"])
  deriving DecidableEq, Repr

/-- `transactionRecord`.  A path is a `String`, that is valid UTF-8.  Other paths are left
out: `json.MarshalIndent` writes U+FFFD for their bytes, so that the journal names another
file than the one that was changed. -/
structure TransactionRecord where
  path : String
  originalExists : Bool
  originalMode : Nat
  originalSHA256 : String
  candidateExists : Bool
  candidateMode : Nat
  candidateSHA256 : String
  deriving DecidableEq, Repr

/-- `transactionJournal`. -/
structure TransactionJournal where
  schemaVersion : String
  state : JournalState
  files : List TransactionRecord
  deriving DecidableEq, Repr

/-- The bytes of a file, and the encoding of a journal. -/
structure Codec (δ : Type) extends Contents δ where
  /-- `json.MarshalIndent` with the final newline. -/
  encode : TransactionJournal → δ
  /-- The strict decoder for exactly one document. -/
  decode : δ → Except String TransactionJournal

def transactionSchema : String := "atum.dev/update-transaction/v2"

/-- `validJournalMaterial`, for one side of a record. -/
def validMaterial (present : Bool) (mode : Nat) (digest : String) : Bool :=
  if present then 0 < mode && mode ≤ 0o777 && validHexSHA256 digest
  else mode == 0 && digest == ""

/-- `validJournalMaterial`. -/
def validJournalMaterial (record : TransactionRecord) : Bool :=
  validMaterial record.originalExists record.originalMode record.originalSHA256 &&
    validMaterial record.candidateExists record.candidateMode record.candidateSHA256

/-- The path of a record is clean and its material is valid. -/
def validRecord (record : TransactionRecord) : Bool :=
  match relative record.path with
  | .ok clean => clean == record.path && validJournalMaterial record
  | .error _ => false

/-- The encoding of a journal with valid records decodes to that journal. -/
def Codec.Lawful {δ : Type} (codec : Codec δ) : Prop :=
  ∀ journal, (∀ record ∈ journal.files, validRecord record = true) →
    codec.decode (codec.encode journal) = .ok journal

/-- The loop of `readTransactionJournal` over the records. -/
def validateRecords : List String → Nat → List TransactionRecord → Except String Unit
  | _, _, [] => .ok ()
  | seen, index, record :: rest =>
    if ¬validRecord record then
      .error s!"update transaction journal has invalid file record {index}"
    else if record.path ∈ seen then .error s!"update transaction journal repeats {record.path}"
    else validateRecords (record.path :: seen) (index + 1) rest

/-- The checks of `readTransactionJournal` on a decoded journal. -/
def validateJournal (journal : TransactionJournal) : Except String Unit :=
  if journal.schemaVersion ≠ transactionSchema ∨ journal.files = [] then
    .error "update transaction journal has an invalid schema or empty file set"
  else validateRecords [] 0 journal.files

/-! ## Building a transaction -/

/-- `transactionEntry`. -/
structure TransactionEntry (δ : Type) where
  expected : ManagedVersion δ
  candidate : ManagedVersion δ

/-- What `add` makes sure of. -/
structure EntryValid {δ : Type} (codec : Codec δ) (path : String) (entry : TransactionEntry δ) :
    Prop where
  clean : relative path = .ok path
  expected : validateManagedVersion codec.toContents entry.expected = .ok ()
  candidate : validateManagedVersion codec.toContents entry.candidate = .ok ()
  /-- The bytes of a candidate are at hand. -/
  staged : entry.candidate.present = entry.candidate.data.isSome
  /-- No path is listed that is absent before and after. -/
  listed : entry.expected.present = true ∨ entry.candidate.present = true

theorem sorted_noEntries (δ : Type) :
    SortedAssoc.Sorted ([] : List (String × TransactionEntry δ)) :=
  List.Pairwise.nil

theorem valid_noEntries {δ : Type} (codec : Codec δ) :
    ∀ file ∈ ([] : List (String × TransactionEntry δ)), EntryValid codec file.1 file.2 :=
  List.forall_mem_nil _

/-- `fileTransaction`: the managed files and the guarded directories, by path. -/
structure FileTransaction {δ : Type} (codec : Codec δ) where
  files : List (String × TransactionEntry δ) := []
  directories : List (String × String) := []
  sorted : SortedAssoc.Sorted files := by exact sorted_noEntries _
  valid : ∀ file ∈ files, EntryValid codec file.1 file.2 := by exact valid_noEntries _

section Build

variable {δ : Type} {codec : Codec δ}

/-- The version of a candidate, or the absent version. -/
def candidateVersion (codec : Codec δ) : Option (Nat × δ) → ManagedVersion δ
  | none => {}
  | some (mode, data) => fileVersion codec.toContents mode data

theorem validateManagedVersion_withoutData {version : ManagedVersion δ}
    (h : validateManagedVersion codec.toContents version = .ok ()) :
    validateManagedVersion codec.toContents (withoutData version) = .ok () := by
  unfold validateManagedVersion withoutData at *
  split at h
  · next habsent =>
    split at h
    · cases h
    · next hmat =>
      rw [not_or, not_or] at hmat
      simp [habsent, hmat.1, hmat.2.1]
  next hpres =>
  split at h
  · cases h
  · next hmode =>
    rw [if_neg hpres, if_neg hmode]
    simp

/-- `add`.  Its callers give a candidate or an expected file. -/
def FileTransaction.add (transaction : FileTransaction codec) (path : String)
    (expected : ManagedVersion δ) (candidate : Option (Nat × δ))
    (hlisted : expected.present = true ∨ (candidateVersion codec candidate).present = true) :
    Except String (FileTransaction codec) :=
  match hclean : relative path with
  | .error e => .error e
  | .ok clean =>
    if (transaction.files.lookup clean).isSome then
      .error s!"managed path {clean} is duplicated"
    else
      match hexp : validateManagedVersion codec.toContents expected with
      | .error e => .error s!"managed path {clean} expected state: {e}"
      | .ok () =>
        match hcand : validateManagedVersion codec.toContents
            (candidateVersion codec candidate) with
        | .error e => .error s!"managed path {clean} candidate state: {e}"
        | .ok () =>
          .ok { transaction with
            files := SortedAssoc.insert clean
              ⟨withoutData expected, candidateVersion codec candidate⟩ transaction.files
            sorted := transaction.sorted.insert _ _
            valid := by
              intro file hfile
              rcases SortedAssoc.mem_insert hfile with rfl | hfile
              · refine ⟨relative_idem hclean, validateManagedVersion_withoutData hexp,
                  hcand, ?_, hlisted⟩
                cases candidate <;> rfl
              · exact transaction.valid file hfile }

/-- `Add`. -/
def FileTransaction.addData (transaction : FileTransaction codec) (path : String) (data : δ)
    (expected : ManagedVersion δ) : Except String (FileTransaction codec) :=
  transaction.add path expected
    (some (if expected.present then expected.mode else 0o644, data)) (.inr rfl)

/-- `AddMode`. -/
def FileTransaction.addMode (transaction : FileTransaction codec) (path : String) (data : δ)
    (mode : Nat) (expected : ManagedVersion δ) : Except String (FileTransaction codec) :=
  if ¬isRegularMode mode ∨ perm mode = 0 then
    .error s!"managed file {path} has invalid candidate mode {modeString mode}"
  else transaction.add path expected (some (perm mode, data)) (.inr rfl)

/-- `Delete`. -/
def FileTransaction.delete (transaction : FileTransaction codec) (path : String)
    (expected : ManagedVersion δ) : Except String (FileTransaction codec) :=
  if h : expected.present = true then transaction.add path expected none (.inl h)
  else .ok transaction

/-- `GuardDirectory`. -/
def FileTransaction.guardDirectory (transaction : FileTransaction codec) (path expected : String) :
    Except String (FileTransaction codec) := do
  let clean ← relative path
  if expected = "" then .error s!"managed directory {clean} has an empty identity"
  else if (transaction.directories.lookup clean).isSome then
    .error s!"managed directory {clean} is duplicated"
  else
    .ok { transaction with
      directories := SortedAssoc.insert clean expected transaction.directories }

/-- `Changed`, with the entries. -/
def FileTransaction.changed (transaction : FileTransaction codec) :
    List (String × TransactionEntry δ) :=
  transaction.files.filter fun file => !sameManagedVersion file.2.expected file.2.candidate

/-- One file of `Verify`. -/
def verifyFile (codec : Codec δ) (t : FileTree δ) (file : String × TransactionEntry δ) :
    Except String Unit := do
  let actual ← snapshotManagedFile codec.toContents t file.1
  if sameManagedVersion actual file.2.expected then .ok ()
  else .error (s!"managed file {file.1} changed while upstream updates were resolving; " ++
      "retry without discarding the concurrent edit")

/-- One directory of `Verify`. -/
def verifyDirectory (codec : Codec δ) (t : FileTree δ) (directory : String × String) :
    Except String Unit := do
  let actual ← snapshotDirectoryDigest codec.toContents t directory.1
  if actual = directory.2 then .ok ()
  else .error (s!"managed directory {directory.1} changed while upstream updates were " ++
      "resolving; retry without discarding the concurrent edit")

/-- `Verify`. -/
def FileTransaction.verify (transaction : FileTransaction codec) (t : FileTree δ) :
    Except String Unit := do
  transaction.files.forM (verifyFile codec t)
  transaction.directories.forM (verifyDirectory codec t)

end Build

/-! ## Where the calls are made -/

/-- What a call of the transaction code does. -/
inductive Call where
  | list
  | readJournal
  | verify
  | resolve
  | snapshot
  | readFile
  | readBackup
  | entropy
  | mkdirAll
  | mkdir
  | write
  | copy
  | rename
  | remove
  | removeAll
  | sync
  deriving DecidableEq, Repr

/-- A part of a run: a round of a loop, or one of the steps of a function. -/
inductive Place where
  | round (index : Nat)
  | recovering
  | creating
  | staging
  | preparing
  | applying
  | committing
  | rollingBack
  | cleaning
  | ensuring
  deriving DecidableEq, Repr

/-- The fates of all calls of a run. -/
abbrev Fates (δ : Type) : Type := List Place → Call → Fate δ

/-- The fates of the calls in one part of a run. -/
def Fates.within {δ : Type} (io : Fates δ) (place : Place) : Fates δ :=
  fun places => io (place :: places)

/-- No call fails.  The machine may still crash. -/
def Fates.Working {δ : Type} (io : Fates δ) : Prop :=
  ∀ places call, (io places call).isFail = false

/-- No call in a round of a loop fails. -/
def Fates.RoundsWork {δ : Type} (io : Fates δ) : Prop :=
  ∀ index, (io.within (.round index)).Working

/-- No call of the restore loop of a rollback fails, or the first replacement
failed and nothing has to be restored. -/
def Fates.RollbackSafe {δ : Type} (io : Fates δ) : Prop :=
  (io.within .rollingBack).RoundsWork ∨
    (io [.applying, .round 0] .rename).isFail = true ∧
      (io [.applying, .round 0] .remove).isFail = true

/-- The machine does not crash. -/
def Fates.Steady {δ : Type} (io : Fates δ) : Prop :=
  ∀ places call, (io places call).isCrash = false

/-! ## The transaction directory -/

/-- The directory of all update transactions. -/
def transactionRootPath : String := ".atum/state/update-transactions"

def transactionRoot : TreePath := components transactionRootPath

def transactionDirectory (id : String) : TreePath := transactionRoot ++ [id]

/-- `transactionCandidate`. -/
def transactionCandidate (directory : TreePath) (index : Nat) : TreePath :=
  directory ++ ["candidate", zeroPadded 10 6 index]

/-- `transactionBackup`. -/
def transactionBackup (directory : TreePath) (index : Nat) : TreePath :=
  directory ++ ["backup", zeroPadded 10 6 index]

def journalPath (directory : TreePath) : TreePath := directory ++ ["journal.json"]

/-- `validTransactionID`. -/
def validTransactionID (value : String) : Bool :=
  len value == 24 && value.toList.all isLowerHexDigit

/-- The random bytes of a transaction identity. -/
structure Entropy where
  bytes : List (Fin 256)
  length : bytes.length = 12

/-- The two digits of a byte in hexadecimal. -/
def hexByte (byte : Fin 256) : List Char :=
  [Nat.digitChar (byte.val / 16), Nat.digitChar (byte.val % 16)]

/-- `hex.EncodeToString` of the random bytes. -/
def Entropy.id (entropy : Entropy) : String := String.ofList (entropy.bytes.flatMap hexByte)

section Disk

variable {δ : Type} (codec : Codec δ)

/-- `syncDirectory`. -/
def syncDirectory (fate : Fate δ) (path : TreePath) : Prog δ Unit :=
  inspect fate fun t =>
    match t.get path with
    | some _ => .ok ()
    | none => .error s!"open transaction directory {slashed path}: {Errno.notExist.text}"

/-- `fssecure.EnsureDirectory`. -/
def ensureDirectory (io : Fates δ) (path : String) : Prog δ Unit := do
  let clean ← ofExcept (relative path)
  (call (io [] .mkdirAll) (.mkdirAll (components clean))).context fun e =>
    s!"create directory {clean}: {e}"
  inspect (io [] .resolve) (resolve · clean false)

/-- `ensureManagedParent`. -/
def ensureManagedParent (io : Fates δ) (path : String) : Prog δ TreePath := do
  let clean ← ofExcept (relative path)
  let parent := (components clean).dropLast
  if parent = [] then pure () else ensureDirectory (io.within .ensuring) (slashed parent)
  inspect (io [] .resolve) (resolve · clean true)
  return components clean

/-- `createTransactionDirectory`. -/
def createTransactionDirectory (io : Fates δ) (entropy : Entropy) : Prog δ String := do
  (ensureDirectory (io.within .ensuring) transactionRootPath).context fun e =>
    s!"create update transaction root: {e}"
  let id ← (inspect (io [] .entropy) fun _ => .ok entropy.id).context fun e =>
    s!"generate update transaction identity: {e}"
  (call (io [] .mkdir) (.mkdir (transactionDirectory id))).context fun e =>
    s!"create update transaction {id}: {e}"
  match ← (syncDirectory (io [] .sync) transactionRoot).attempt with
  | .ok () => pure id
  | .error e =>
    (call (io [] .remove) (.remove (transactionDirectory id))).ignore
    throw e

/-- The steps of `writeTransactionJournal` on its temporary file. -/
def publishJournal (io : Fates δ) (directory temporary : TreePath) (journal : TransactionJournal) :
    Prog δ (Bool × Except String Unit) := do
  let written ← ((call (io [] .write) (.write temporary 0o600 (codec.encode journal))).context
    fun e => s!"write update transaction journal: {e}").attempt
  match written with
  | .error e => pure (false, .error e)
  | .ok () =>
    let renamed ← ((call (io [] .rename) (.rename temporary (journalPath directory))).context
      fun e => s!"publish update transaction journal: {e}").attempt
    match renamed with
    | .error e => pure (false, .error e)
    | .ok () =>
      let synced ← (syncDirectory (io [] .sync) directory).attempt
      pure (true, synced)

/-- `writeTransactionJournal`: whether the journal was published, and how the call
ended.  `suffix` is the random part of the name of the temporary file. -/
def writeTransactionJournal (io : Fates δ) (directory : TreePath) (suffix : String)
    (journal : TransactionJournal) : Prog δ (Bool × Except String Unit) := do
  let temporary := directory ++ [".journal-" ++ suffix]
  let outcome ← publishJournal codec io directory temporary journal
  (call (io [] .remove) (.remove temporary)).ignore
  return outcome

/-- `readTransactionJournal`; `none` stands for a journal that does not exist. -/
def readTransactionJournal (t : FileTree δ) (directory : TreePath) :
    Except String (Option TransactionJournal) :=
  match t.get (journalPath directory) with
  | none => .ok none
  | some (.regular _ data) =>
    if codec.size data > 1048576 then
      .error "update transaction journal exceeds 1048576 bytes"
    else
      match codec.decode data with
      | .error e => .error s!"decode update transaction journal: {e}"
      | .ok journal => do
          validateJournal journal
          return some journal
  | some _ => .error s!"read update transaction journal: {Errno.isDirectory.text}"

/-- `removeTransactionDirectory`. -/
def removeTransactionDirectory (io : Fates δ) (id : String) : Prog δ Unit :=
  if ¬validTransactionID id then
    throw s!"refuse to remove invalid update transaction path {slashed (transactionDirectory id)}"
  else do
    (call (io [] .removeAll) (.removeAll (transactionDirectory id))).context fun e =>
      s!"remove update transaction {id}: {e}"
    syncDirectory (io [] .sync) transactionRoot

/-! ## Recovery -/

/-- A version has this mode and this digest. -/
def hasMaterial (version : ManagedVersion δ) (mode : Nat) (digest : String) : Bool :=
  version.mode == mode && version.digest == digest

/-- One record with a surviving backup. -/
def restoreBackup (io : Fates δ) (directory : TreePath) (index : Nat) (record : TransactionRecord)
    (canonical : TreePath) (backup : ManagedVersion δ) : Prog δ Unit :=
  if ¬hasMaterial backup record.originalMode record.originalSHA256 then
    throw s!"update transaction backup for {record.path} does not match its journal"
  else do
    let current ← inspect (io [] .snapshot) (snapshotManagedFile codec.toContents · record.path)
    if current.present ∧ hasMaterial current record.originalMode record.originalSHA256 then pure ()
    else if (current.present ∧ record.candidateExists ∧
          hasMaterial current record.candidateMode record.candidateSHA256) ∨
        (¬current.present ∧ ¬record.candidateExists) then
      (call (io [] .rename) (.rename (transactionBackup directory index) canonical)).context
        fun e => s!"restore managed file {record.path}: {e}"
    else
      throw (s!"managed file {record.path} changed after an interrupted update; " ++
          "refusing to overwrite it during recovery")

/-- One record whose backup is gone: the original has to be in place. -/
def checkRestored (io : Fates δ) (record : TransactionRecord) : Prog δ Unit := do
  let failure := s!"managed file {record.path} cannot be proven restored after interrupted update"
  match ←
    (inspect (io [] .snapshot) (snapshotManagedFile codec.toContents · record.path)).attempt with
  | .error _ => throw failure
  | .ok state =>
    if state.present ∧ hasMaterial state record.originalMode record.originalSHA256 then pure ()
    else throw failure

/-- One record of a file that is new. -/
def removeCreated (io : Fates δ) (record : TransactionRecord) (canonical : TreePath) :
    Prog δ Unit := do
  let state ← inspect (io [] .snapshot) (snapshotManagedFile codec.toContents · record.path)
  if state.present then
    if ¬record.candidateExists ∨ ¬hasMaterial state record.candidateMode record.candidateSHA256 then
      throw s!"new managed file {record.path} changed before rollback"
    else
      (call (io [] .remove) (.remove canonical)).context fun e =>
        s!"remove new managed file {record.path} during rollback: {e}"
  else pure ()

/-- One round of the loop of `recoverPreparedTransaction`. -/
def recoverRecord (io : Fates δ) (directory : TreePath) (index : Nat) (record : TransactionRecord) :
    Prog δ Unit := do
  let canonical ← ensureManagedParent io record.path
  if record.originalExists then
    match ← inspect (io [] .readBackup)
        (regularFileVersion codec.toContents · (transactionBackup directory index)) with
    | some backup => restoreBackup codec io directory index record canonical backup
    | none => checkRestored codec io record
  else removeCreated codec io record canonical

/-- The loop of `recoverPreparedTransaction`, over the records from the last one
to the first. -/
def recoverRecords (io : Fates δ) (directory : TreePath) :
    List (TransactionRecord × Nat) → Prog δ Unit
  | [] => pure ()
  | (record, index) :: rest => do
      recoverRecord codec (io.within (.round index)) directory index record
      recoverRecords io directory rest

/-- The loop that makes the restored directories durable. -/
def syncParents (fate : Fate δ) (records : List TransactionRecord) : Prog δ Unit :=
  inspect fate fun t =>
    match records.find? fun record => (t.get (components record.path).dropLast).isNone with
    | none => .ok ()
    | some record =>
      let parent := slashed (components record.path).dropLast
      .error s!"open transaction directory {parent}: {Errno.notExist.text}"

/-- `recoverPreparedTransaction`. -/
def recoverPreparedTransaction (io : Fates δ) (directory : TreePath)
    (journal : TransactionJournal) :
    Prog δ Unit := do
  recoverRecords codec io directory journal.files.zipIdx.reverse
  syncParents (io [] .sync) journal.files

/-- One record of `verifyCommittedTransaction`. -/
def verifyCommittedRecord (t : FileTree δ) (record : TransactionRecord) : Except String Unit :=
  match snapshotManagedFile codec.toContents t record.path with
  | .error e => .error s!"verify committed managed file {record.path}: {e}"
  | .ok state =>
    if state.present ≠ record.candidateExists ∨
        (state.present ∧ ¬hasMaterial state record.candidateMode record.candidateSHA256) then
      .error s!"committed managed file {record.path} does not match its transaction journal"
    else .ok ()

/-- `verifyCommittedTransaction`. -/
def verifyCommittedTransaction (t : FileTree δ) (journal : TransactionJournal) :
    Except String Unit :=
  journal.files.forM (verifyCommittedRecord codec t)

/-- The state switch of `recoverTransactions`. -/
def settleJournal (io : Fates δ) (id : String) (journal : TransactionJournal) : Prog δ Unit :=
  match journal.state with
  | .prepared => recoverPreparedTransaction codec io (transactionDirectory id) journal
  | .committed => inspect (io [] .verify) (verifyCommittedTransaction codec · journal)
  | .other name _ => throw s!"update transaction {id} has unsupported state {quote name}"

/-- One round of the loop of `recoverTransactions`. -/
def recoverEntry (io : Fates δ) (entry : String × Bool) : Prog δ Unit :=
  if ¬entry.2 ∨ ¬validTransactionID entry.1 then
    throw s!"unexpected update transaction entry {entry.1}"
  else do
    match ← inspect (io [] .readJournal)
        (readTransactionJournal codec · (transactionDirectory entry.1)) with
    | none => removeTransactionDirectory (io.within .cleaning) entry.1
    | some journal =>
      settleJournal codec io entry.1 journal
      removeTransactionDirectory (io.within .cleaning) entry.1

/-- The loop of `recoverTransactions`. -/
def recoverEntries (io : Fates δ) : List (String × Bool) → Prog δ Unit
  | [] => pure ()
  | entry :: rest => do
      recoverEntry codec (io.within (.round rest.length)) entry
      recoverEntries io rest

/-- The entries of the transaction root, in order, and whether they are
directories; `none` stands for a root that does not exist. -/
def listTransactions (t : FileTree δ) : Except String (Option (List (String × Bool))) :=
  match resolve t transactionRootPath true with
  | .error e => .error s!"resolve update transaction root: {e}"
  | .ok () =>
    match t.get transactionRoot with
    | none => .ok none
    | some .directory =>
      .ok (some ((t.children transactionRoot).map fun name =>
        (name, t.isDir (transactionRoot ++ [name]))))
    | some _ => .error s!"inspect update transactions: {Errno.notDirectory.text}"

theorem listTransactions_ok {t : FileTree δ} {found : Option (List (String × Bool))}
    (h : listTransactions t = .ok found) : t.get transactionRoot = none ∧ found = none ∨
      found = some ((t.children transactionRoot).map fun name =>
        (name, t.isDir (transactionRoot ++ [name]))) := by
  unfold listTransactions at h
  split at h
  · cases h
  split at h
  · next hroot => exact .inl ⟨hroot, (Except.ok.inj h).symm⟩
  · exact .inr (Except.ok.inj h).symm
  · cases h

/-- `recoverTransactions`: whether there was something to recover. -/
def recoverTransactions (io : Fates δ) : Prog δ Bool := do
  match ← inspect (io [] .list) listTransactions with
  | none => return false
  | some entries =>
    recoverEntries codec io entries
    return entries ≠ []

/-! ## Commit -/

/-- The record of a changed file. -/
def transactionRecord (file : String × TransactionEntry δ) : TransactionRecord where
  path := file.1
  originalExists := file.2.expected.present
  originalMode := file.2.expected.mode
  originalSHA256 := file.2.expected.digest
  candidateExists := file.2.candidate.present
  candidateMode := file.2.candidate.mode
  candidateSHA256 := file.2.candidate.digest

/-- The bytes of a candidate. -/
def candidateData (entry : TransactionEntry δ) : δ := entry.candidate.data.getD (codec.text "")

/-- The bytes of a regular file. -/
def readFile (t : FileTree δ) (path : TreePath) : Except String δ :=
  match t.get path with
  | some (.regular _ data) => .ok data
  | some _ => .error Errno.isDirectory.text
  | none => .error Errno.notExist.text

/-- The backup of one file. -/
def backupFile (io : Fates δ) (directory : TreePath) (index : Nat)
    (file : String × TransactionEntry δ) : Prog δ Unit := do
  inspect (io [] .resolve) (resolve · file.1 false)
  let data ← (inspect (io [] .readFile) (readFile · (components file.1))).context
    fun e => s!"backup managed file {file.1}: {e}"
  (call (io [] .copy)
    (.write (transactionBackup directory index) file.2.expected.mode data)).context
    fun e => s!"backup managed file {file.1}: {e}"
  let backup ← (inspect (io [] .readBackup)
    (snapshotAbsoluteFile codec.toContents · (transactionBackup directory index))).context
    fun e => s!"verify backup managed file {file.1}: {e}"
  if sameManagedVersion backup file.2.expected then pure ()
  else throw s!"backup managed file {file.1} does not match its expected state"

/-- The candidate of one file. -/
def stageCandidate (io : Fates δ) (directory : TreePath) (index : Nat)
    (file : String × TransactionEntry δ) : Prog δ Unit :=
  if file.2.candidate.present then
    (call (io [] .write) (.write (transactionCandidate directory index) file.2.candidate.mode
      (candidateData codec file.2))).context fun e => s!"stage managed file {file.1}: {e}"
  else pure ()

/-- One round of the staging loop of `Commit`. -/
def stageFile (io : Fates δ) (directory : TreePath) (index : Nat)
    (file : String × TransactionEntry δ) : Prog δ Unit := do
  stageCandidate codec io directory index file
  if file.2.expected.present then backupFile codec io directory index file else pure ()

/-- The staging loop of `Commit`. -/
def stageFiles (io : Fates δ) (directory : TreePath) :
    Nat → List (String × TransactionEntry δ) → Prog δ Unit
  | _, [] => pure ()
  | index, file :: rest => do
      stageFile codec (io.within (.round index)) directory index file
      stageFiles io directory (index + 1) rest

/-- One round of the apply loop of `Commit`. -/
def applyRecord (io : Fates δ) (directory : TreePath) (index : Nat) (record : TransactionRecord) :
    Prog δ Unit := do
  let canonical ← (ensureManagedParent io record.path).context fun e =>
    s!"prepare managed file {record.path}: {e}"
  let replace : Prog δ Unit :=
    if record.candidateExists then
      call (io [] .rename) (.rename (transactionCandidate directory index) canonical)
    else call (io [] .remove) (.remove canonical)
  replace.context fun e => s!"replace managed file {record.path}: {e}"
  syncDirectory (io [] .sync) canonical.dropLast

/-- The apply loop of `Commit`. -/
def applyRecords (io : Fates δ) (directory : TreePath) :
    Nat → List TransactionRecord → Prog δ Unit
  | _, [] => pure ()
  | index, record :: rest => do
      applyRecord (io.within (.round index)) directory index record
      applyRecords io directory (index + 1) rest

/-- `rollbackTransaction`: the error that `Commit` returns. -/
def rollbackTransaction (io : Fates δ) (directory : TreePath) (journal : TransactionJournal)
    (cause : String) : Prog δ String := do
  match ← (recoverPreparedTransaction codec io directory
      { journal with state := .prepared }).attempt with
  | .ok () => return cause
  | .error e => return cause ++ "\n" ++ e

variable {codec}

/-- The journal of a transaction. -/
def FileTransaction.journal (transaction : FileTransaction codec) (state : JournalState) :
    TransactionJournal where
  schemaVersion := transactionSchema
  state := state
  files := transaction.changed.map transactionRecord

/-- The names that `Commit` draws at random. -/
structure Names where
  entropy : Entropy
  prepared : String
  committed : String

/-- `Commit` up to its second verification: create the two directories, and stage
and back up every changed file. -/
def FileTransaction.stage (transaction : FileTransaction codec) (io : Fates δ) (id : String) :
    Prog δ Unit := do
  let directory := transactionDirectory id
  (call (io [] .mkdir) (.mkdir (directory ++ ["candidate"]))).context fun e =>
    s!"create update transaction {id}: {e}"
  (call (io [.staging] .mkdir) (.mkdir (directory ++ ["backup"]))).context fun e =>
    s!"create update transaction {id}: {e}"
  stageFiles codec io directory 0 transaction.changed
  syncDirectory (io [] .sync) (directory ++ ["candidate"])
  syncDirectory (io [.staging] .sync) (directory ++ ["backup"])

/-- `Commit` up to the published journal: stage, verify again, and publish the
prepared journal.  `edit` is what other programs did to the tree by the time of
the verification. -/
def FileTransaction.prepare (transaction : FileTransaction codec)
    (edit : FileTree δ → FileTree δ) (io : Fates δ) (id : String) (suffix : String) :
    Prog δ Unit := do
  transaction.stage (io.within .staging) id
  interfere edit
  inspect (io [.staging] .verify) transaction.verify
  let (_, result) ← writeTransactionJournal codec (io.within .preparing)
    (transactionDirectory id) suffix (transaction.journal .prepared)
  ofExcept result

/-- `Commit` from the prepared journal on.  The flag says whether the deferred
function removes the transaction directory. -/
def FileTransaction.finish (transaction : FileTransaction codec) (io : Fates δ) (id : String)
    (suffix : String) : Prog δ (Bool × Except String Unit) := do
  let directory := transactionDirectory id
  let rollback := rollbackTransaction codec (io.within .rollingBack) directory
    (transaction.journal .committed)
  match ← (applyRecords (io.within .applying) directory 0
      (transaction.journal .prepared).files).attempt with
  | .error cause => return (true, .error (← rollback cause))
  | .ok () =>
    match ← writeTransactionJournal codec (io.within .committing) directory suffix
        (transaction.journal .committed) with
    | (true, .error e) => return (false, .error e)
    | (false, .error e) => return (true, .error (← rollback e))
    | (_, .ok ()) =>
      let removed ← (removeTransactionDirectory (io.within .cleaning) id).attempt
      return (false, removed)

/-- The deferred function of `Commit`. -/
def deferredRemoval (fate : Fate δ) (id : String) (removeDirectory : Bool) : Prog δ Unit :=
  if removeDirectory then (call fate (.removeAll (transactionDirectory id))).ignore else pure ()

/-- The body of `Commit` under the deferred removal. -/
def FileTransaction.commitBody (transaction : FileTransaction codec)
    (edit : FileTree δ → FileTree δ) (io : Fates δ) (id : String) (names : Names) :
    Prog δ (Bool × Except String Unit) := do
  match ← (transaction.prepare edit io id names.prepared).attempt with
  | .error e => return (true, .error e)
  | .ok () => transaction.finish io id names.committed

/-- The part of `Commit` that runs once the transaction directory is there. -/
def FileTransaction.commitIn (transaction : FileTransaction codec)
    (edit : FileTree δ → FileTree δ) (io : Fates δ) (id : String) (names : Names) :
    Prog δ Unit := do
  let outcome ← transaction.commitBody edit io id names
  deferredRemoval (io [] .removeAll) id outcome.1
  ofExcept outcome.2

/-- `Commit`, while other programs change the tree before the second verification. -/
def FileTransaction.commitAmid (transaction : FileTransaction codec)
    (edit : FileTree δ → FileTree δ) (io : Fates δ) (names : Names) : Prog δ Unit := do
  let recovered ← recoverTransactions codec (io.within .recovering)
  if recovered then
    throw "an interrupted update was recovered after candidate resolution; retry the update"
  else do
    inspect (io [] .verify) transaction.verify
    if transaction.changed = [] then pure ()
    else do
      let id ← createTransactionDirectory (io.within .creating) names.entropy
      transaction.commitIn edit io id names

/-- `Commit`, with no other program at work. -/
def FileTransaction.commit (transaction : FileTransaction codec) (io : Fates δ) (names : Names) :
    Prog δ Unit :=
  transaction.commitAmid (fun t => t) io names

end Disk

end Atum.Update
