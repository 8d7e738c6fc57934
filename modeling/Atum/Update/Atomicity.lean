import Atum.Update.Commit

/-!
# Atomicity of the update transaction

`Commit` may crash at any call, recovery may run any number of times after that,
and it may crash or fail at any call as well.  Once a recovery completes, the
managed files are all original or all candidates, and which of the two is decided
by the committed journal (`commit_atomic`).  Three things are needed for that,
and `Commit` checks none of them: no new file lies below another new file, no
managed path lies on the way to the transaction directory or in it, and the
journal is short enough for its reader.

If a call of `Commit` fails after the prepared journal, the rollback brings the
originals back, and then the directory is removed.  The directory is also removed
when the rollback fails (`commit_keeps_originals` and its counterexample).
-/

namespace Atum.Update

open Atum.Go Atum.Config Faults Faults.Prog List String

variable {δ : Type} {codec : Codec δ}

/-! ## The names of a transaction -/

theorem utf8Len_hex (bytes : List (Fin 256)) :
    String.utf8Len (bytes.flatMap hexByte) = 2 * bytes.length := by
  have hbyte : ∀ byte : Fin 256, String.utf8Len (hexByte byte) = 2 := by decide +kernel
  induction bytes with
  | nil => rfl
  | cons byte rest ih =>
    rw [flatMap_cons, utf8Len_append, hbyte byte, ih, length_cons]
    omega

/-- The identity of a transaction is one that recovery accepts. -/
theorem Entropy.validID (entropy : Entropy) : validTransactionID entropy.id = true := by
  have hdigits : ∀ byte : Fin 256, (hexByte byte).all isLowerHexDigit = true := by decide +kernel
  have hlen : len entropy.id = 24 := by
    rw [len, Entropy.id, utf8ByteSize_ofList, utf8Len_hex, entropy.length]
  rw [validTransactionID, hlen, Entropy.id, toList_ofList]
  simp only [beq_self_eq_true, Bool.true_and, all_eq_true, mem_flatMap]
  rintro c ⟨byte, -, hc⟩
  exact all_eq_true.mp (hdigits byte) c hc

/-- A transaction that `Commit` runs, in its project. -/
def FileTransaction.setting (transaction : FileTransaction codec) (names : Names)
    (before : FileTree δ) (hapart : transaction.Apart) : Setting codec where
  transaction := transaction
  before := before
  id := names.entropy.id
  validID := names.entropy.validID
  apart := hapart

/-! ## Crash atomicity -/

/-- What `Commit` relies on and does not check. -/
structure FileTransaction.Admissible (transaction : FileTransaction codec) : Prop where
  /-- The transaction directory is away from the managed paths. -/
  apart : transaction.Apart
  /-- No new file lies below another new file. -/
  flat : transaction.Flat
  /-- The reader accepts the journal. -/
  short : codec.size (codec.encode (transaction.journal .prepared)) ≤ 1048576

/-- No transaction is on disk. -/
def NoTransaction (t : FileTree δ) : Prop := ∀ name, t.get (transactionRoot ++ [name]) = none

/-- The journal of a transaction was published in state `committed`. -/
def FileTransaction.PublishedCommitted (transaction : FileTransaction codec) (names : Names)
    (w : World δ) : Prop :=
  (journalPath (transactionDirectory names.entropy.id),
    Node.regular 0o600 (codec.encode (transaction.journal .committed))) ∈ w.renamed

/-- The world after recovery ran a number of times, each time until it returned,
failed or crashed. -/
def recoverRepeatedly (codec : Codec δ) (runs : List (Fates δ)) (w : World δ) : World δ :=
  runs.foldl (fun w io => (recoverTransactions codec io w).2) w

theorem idle_of_noTransaction {s : Setting codec} (hclean : NoTransaction s.before) :
    s.Idle { tree := s.before } := by
  have hdir : s.before.get s.directory = none := hclean s.id
  refine ⟨fun _ _ => rfl, by simp [Setting.Published], fun name node hnode => ?_, ?_⟩
  · rw [hclean name] at hnode
    cases hnode
  · exact FileTree.get_below_eq_none (by simp [hdir]) (prefix_append _ _)
      (by simp [journalPath])

section Recovery

variable {s : Setting codec} {w : World δ} (hlawful : codec.Lawful)
  (hshort : codec.size (codec.encode (s.transaction.journal .prepared)) ≤ 1048576)
include hlawful hshort

/-- Recovery keeps the transaction in its phases, wherever it stops. -/
theorem phase_recoverTransactions (io : Fates δ) (h : s.Phase w) :
    s.Phase (recoverTransactions codec io w).2 := by
  rcases wp_exit (Setting.recoverTransactions_wp hlawful hshort h) with
    ⟨_, -, h'⟩ | ⟨_, -, h'⟩ | ⟨-, h'⟩
  · exact h'.1
  · exact h'.1
  · exact h'.1

theorem phase_recoverRepeatedly (runs : List (Fates δ)) :
    ∀ {w : World δ}, s.Phase w → s.Phase (recoverRepeatedly codec runs w) := by
  induction runs with
  | nil => exact fun h => h
  | cons io rest ih => exact fun h => ih (phase_recoverTransactions hlawful hshort io h)

/-- A recovery that returns, or that meets no failure and no crash, settles the
transaction. -/
theorem settled_recoverTransactions {io : Fates δ} (h : s.Phase w)
    (hcompletes : io.Working ∧ io.Steady ∨
      ∃ recovered, (recoverTransactions codec io w).1 = .ok recovered) :
    s.Settled (recoverTransactions codec io w).2 := by
  rcases wp_exit (Setting.recoverTransactions_wp hlawful hshort h) with
    ⟨_, -, h'⟩ | ⟨_, hexit, h'⟩ | ⟨hexit, h'⟩
  · exact h'.2 (.inl rfl)
  · rcases hcompletes with hcompletes | ⟨_, hok⟩
    · exact h'.2 (.inr hcompletes.1)
    · rw [hexit] at hok
      cases hok
  rcases hcompletes with hcompletes | ⟨_, hok⟩
  · exact absurd hcompletes.2 h'.2
  · rw [hexit] at hok
    cases hok

end Recovery

/-- `Commit` leaves its transaction in one of its phases, wherever it stops. -/
theorem phase_commit {s : Setting codec} (hlawful : codec.Lawful) (hflat : s.transaction.Flat)
    {io : Fates δ} (hrollback : io.RollbackSafe) {names : Names}
    (hid : names.entropy.id = s.id) (hclean : NoTransaction s.before) :
    s.Phase (s.transaction.commit io names { tree := s.before }).2 := by
  have hidle := idle_of_noTransaction hclean
  rcases wp_exit (w := { tree := s.before })
    (Setting.commit_wp hlawful hflat hrollback hid hclean hidle)
    with ⟨_, -, h⟩ | ⟨_, -, h⟩ | ⟨-, h⟩
  · exact h.1
  · exact h.1
  · exact h

/-- A changed file whose original was the expected one is not both. -/
theorem original_ne_candidate {transaction : FileTransaction codec}
    {file : String × TransactionEntry δ} {node : Option (Node δ)}
    (hfile : file ∈ transaction.changed) (hexp : Matches codec node file.2.expected) :
    node ≠ candidateNode codec file.2 := by
  rintro rfl
  obtain ⟨hmem, hchg⟩ := FileTransaction.mem_changed_iff.mp hfile
  have hsame := hexp.same (transaction.valid file hmem).matches_candidate
  rw [hchg] at hsame
  cases hsame

/-- Crash atomicity.  `Commit` runs on a disk without a transaction; its calls may
fail outside of the rollback, and the machine may crash at any of them.  Then
recovery runs any number of times, failing and crashing anywhere.  After one more
recovery that completes, the managed files are all candidates if the committed
journal was published, and all original if it was not; and a changed file is the
candidate exactly if it was published. -/
theorem commit_atomic (hlawful : codec.Lawful) (transaction : FileTransaction codec)
    (hadmissible : transaction.Admissible) (hidentified : transaction.Identified)
    (before : FileTree δ) (hclean : NoTransaction before) (names : Names) (io : Fates δ)
    (hrollback : io.RollbackSafe) (interrupted : List (Fates δ)) (final : Fates δ) (w : World δ)
    (hw : w = recoverRepeatedly codec interrupted
      (transaction.commit io names { tree := before }).2)
    (hcompletes : final.Working ∧ final.Steady ∨
      ∃ recovered, (recoverTransactions codec final w).1 = .ok recovered) :
    let after := (recoverTransactions codec final w).2
    (transaction.PublishedCommitted names after ∧
        (∀ file ∈ transaction.files, after.tree.get (location file) = candidateNode codec file.2) ∨
      ¬transaction.PublishedCommitted names after ∧
        ∀ file ∈ transaction.files,
          after.tree.get (location file) = before.get (location file)) ∧
    ∀ file ∈ transaction.changed, Matches codec (before.get (location file)) file.2.expected →
      (after.tree.get (location file) = candidateNode codec file.2 ↔
        transaction.PublishedCommitted names after) := by
  intro after
  let s : Setting codec := transaction.setting names before hadmissible.apart
  have hphase : s.Phase w := by
    rw [hw]
    exact phase_recoverRepeatedly hlawful hadmissible.short interrupted
      (phase_commit (s := s) hlawful hadmissible.flat hrollback rfl hclean)
  have hsettled : s.Settled after :=
    settled_recoverTransactions hlawful hadmissible.short hphase hcompletes
  rcases hsettled with ⟨horiginal, hunpublished⟩ | ⟨hcandidate, hpublished⟩
  · refine ⟨Or.inr ⟨hunpublished, horiginal⟩, fun file hfile hexpected => ?_⟩
    refine iff_of_false ?_ hunpublished
    rw [horiginal file (Setting.mem_files hfile)]
    exact original_ne_candidate hfile hexpected
  · have hall := hcandidate hidentified
    refine ⟨Or.inl ⟨hpublished, hall⟩, fun file hfile _ => ?_⟩
    exact iff_of_true (hall file (Setting.mem_files hfile)) hpublished

/-! ### Concrete runs -/

instance sampleDigits : NeZero 16 := ⟨by decide⟩

/-- Contents for concrete runs. -/
inductive Sample where
  | file (digit : Fin 16)
  | journal (journal : TransactionJournal)
  | text (text : String)
  deriving DecidableEq

/-- The digest of a file repeats its digit. -/
def sampleCodec : Codec Sample where
  hash
    | .file digit => String.ofList (List.replicate 64 (Nat.digitChar digit))
    | .journal _ => "journal"
    | .text text => "text " ++ text
  text := .text
  size _ := 1
  encode := .journal
  decode
    | .journal journal => .ok journal
    | _ => .error "not a journal"

theorem sampleCodec_lawful : sampleCodec.Lawful := fun _ _ => rfl

def sampleNames : Names where
  entropy := ⟨List.replicate 12 0, rfl⟩
  prepared := "1"
  committed := "2"

/-- A project with one file. -/
def oneFile (data : Sample) : FileTree Sample where
  nodes := [(["a"], .regular 0o644 data)]
  sorted := List.pairwise_singleton _ _
  closed := by
    intro path name node h
    obtain ⟨hpath, -⟩ := Prod.mk.inj (List.mem_singleton.mp h)
    exact .inl (List.append_eq_singleton_iff.mp hpath |>.elim And.left fun h => by simp at h)

def sampleTree : FileTree Sample := oneFile (.file 1)

theorem sampleVersion_valid : ∀ digit : Fin 16,
    validateManagedVersion sampleCodec.toContents
      (fileVersion sampleCodec.toContents 0o644 (.file digit)) = .ok () := by
  decide +kernel

theorem relative_sample : relative "a" = .ok "a" := by
  decide +kernel

/-- A transaction that replaces the contents of the file. -/
def replaceFile (before after : Fin 16) : FileTransaction sampleCodec where
  files := [("a",
    { expected := withoutData (fileVersion sampleCodec.toContents 0o644 (.file before))
      candidate := fileVersion sampleCodec.toContents 0o644 (.file after) })]
  sorted := List.pairwise_singleton _ _
  valid := by
    intro file hfile
    obtain rfl := List.mem_singleton.mp hfile
    exact ⟨relative_sample, validateManagedVersion_withoutData (sampleVersion_valid before),
      sampleVersion_valid after, rfl, .inl rfl⟩

def sampleTransaction : FileTransaction sampleCodec := replaceFile 1 2

/-- Every call is done but one. -/
def fatesWith (place : List Place) (call : Call) (fate : Fate Sample) : Fates Sample :=
  fun place' call' => if place' = place ∧ call' = call then fate else .done

theorem sampleTransaction_admissible : sampleTransaction.Admissible where
  apart := by
    intro file hfile
    obtain rfl := mem_singleton.mp hfile
    decide +kernel
  flat := by
    intro file hfile other hother _ _ _
    rw [mem_singleton.mp hfile, mem_singleton.mp hother]
  short := by decide

theorem replaceFile_identified (before after : Fin 16) : (replaceFile before after).Identified := by
  intro file hfile _ data hdata
  obtain rfl := mem_singleton.mp hfile
  change sampleCodec.hash data = sampleCodec.hash (.file after) at hdata
  cases data with
  | file digit =>
    have hdigit : ∀ left right : Fin 16,
        sampleCodec.hash (.file left) = sampleCodec.hash (.file right) → left = right := by
      decide +kernel
    exact congrArg Sample.file (hdigit digit after hdata)
  | journal journal =>
    have hne : ∀ digit : Fin 16, "journal" ≠ sampleCodec.hash (.file digit) := by decide +kernel
    exact absurd hdata (hne after)
  | text text =>
    have hhead : ∀ digit : Fin 16, (sampleCodec.hash (.file digit)).toList.head? ≠ some 't' := by
      decide +kernel
    refine absurd ?_ (hhead after)
    rw [← hdata]
    simp [sampleCodec]

theorem sampleTree_noTransaction : NoTransaction sampleTree := by
  intro name
  have hroot : transactionRoot = [".atum", "state", "update-transactions"] := by decide +kernel
  simp [hroot, FileTree.get, sampleTree, oneFile]

/-- The machine crashes after the file was replaced. -/
def crashInApply : Fates Sample :=
  fatesWith [.applying, .round 0] .rename (.crash { applied := true })

def crashedRun : Exit Unit × World Sample :=
  sampleTransaction.commit crashInApply sampleNames { tree := sampleTree }

/-- The recovery after the crash. -/
def recoveredRun : Exit Bool × World Sample :=
  recoverTransactions sampleCodec (fun _ _ => .done) crashedRun.2

theorem crashInApply_rollbackSafe : crashInApply.RollbackSafe := by
  refine .inl fun index places call => ?_
  simp [crashInApply, Fates.within, fatesWith, Fate.isFail]

theorem recoveredRun_unpublished :
    ¬sampleTransaction.PublishedCommitted sampleNames recoveredRun.2 := by
  unfold FileTransaction.PublishedCommitted
  decide +kernel

theorem commit_atomic_crash_in_apply :
    (crashedRun.1, crashedRun.2.tree.get ["a"]) = (.crashed, some (.regular 0o644 (.file 2))) ∧
      recoveredRun.2.tree.get ["a"] = some (.regular 0o644 (.file 1)) := by
  refine ⟨by decide +kernel, ?_⟩
  have hend := (commit_atomic sampleCodec_lawful sampleTransaction
    sampleTransaction_admissible (replaceFile_identified 1 2) sampleTree sampleTree_noTransaction
    sampleNames crashInApply crashInApply_rollbackSafe [] (fun _ _ => .done) crashedRun.2 rfl
    (.inl ⟨fun _ _ => rfl, fun _ _ => rfl⟩)).1
  rcases hend with ⟨hpublished, -⟩ | ⟨-, horiginal⟩
  · exact absurd hpublished recoveredRun_unpublished
  have hcomponents : components "a" = ["a"] := by decide +kernel
  have hfile := horiginal _ (mem_singleton_self _)
  rw [location, hcomponents] at hfile
  rw [recoveredRun, hfile]
  decide +kernel

/-- Two new files, one below the other. -/
def nestedFiles : Except String (FileTransaction sampleCodec) := do
  let transaction ← FileTransaction.addData {} "a" (.file 1) {}
  transaction.addData "a/b" (.file 2) {}

/-- `Commit` accepts two new files, one below the other.  It replaces the first
one, fails on the second one, fails to roll back, and removes the transaction
directory.  A crash right there and a recovery in which every call works leave
the first file as the candidate and the second one as the original. -/
theorem commit_tears_nested_files : nestedFiles.map (fun transaction =>
      let crashed := transaction.commit (fatesWith [] .removeAll (.crash {})) sampleNames
        { tree := .empty }
      let recovered := recoverTransactions sampleCodec (fun _ _ => .done) crashed.2
      (crashed.1, recovered.1, recovered.2.tree.get ["a"], recovered.2.tree.get ["a", "b"])) =
    .ok (.crashed, .ok false, some (.regular 0o644 (.file 1)), none) := by
  decide +kernel

/-! ## Failed commits -/

/-- No original is lost: every managed file is the original, or the prepared
journal is on disk with a backup of every original that is not in place. -/
def FileTransaction.KeepsOriginals (transaction : FileTransaction codec) (names : Names)
    (before t : FileTree δ) : Prop :=
  (∀ file ∈ transaction.files, t.get (location file) = before.get (location file)) ∨
    t.get (journalPath (transactionDirectory names.entropy.id)) =
        some (.regular 0o600 (codec.encode (transaction.journal .prepared))) ∧
      ∀ index file, transaction.changed[index]? = some file → file.2.expected.present = true →
        t.get (location file) = before.get (location file) ∨
          t.get (transactionBackup (transactionDirectory names.entropy.id) index) =
            before.get (location file)

/-- A commit that returns an error before the committed journal keeps the
originals, if no call of the restore loop of the rollback fails or if the first
replacement was the call that failed. -/
theorem commit_keeps_originals (hlawful : codec.Lawful) (transaction : FileTransaction codec)
    (hapart : transaction.Apart) (hflat : transaction.Flat) (before : FileTree δ)
    (hclean : NoTransaction before) (names : Names) (io : Fates δ) (hrollback : io.RollbackSafe)
    (e : String) (herror : (transaction.commit io names { tree := before }).1 = .error e)
    (hunpublished : ¬transaction.PublishedCommitted names
      (transaction.commit io names { tree := before }).2) :
    transaction.KeepsOriginals names before
      (transaction.commit io names { tree := before }).2.tree := by
  let s : Setting codec := transaction.setting names before hapart
  have hidle : s.Idle { tree := before } := idle_of_noTransaction (s := s) hclean
  have hcommit : (transaction.commit io names).wp (fun _ w' => s.Phase w' ∧ s.Settled w') s.Phase
      { tree := before } := Setting.commit_wp (s := s) hlawful hflat hrollback rfl hclean hidle
  rcases wp_exit hcommit with ⟨_, hexit, -⟩ | ⟨_, -, h⟩ | ⟨hexit, -⟩
  · rw [hexit] at herror
    cases herror
  · rcases h.2 with ⟨horiginal, -⟩ | ⟨-, hpublished⟩
    · exact .inl horiginal
    · exact absurd hpublished hunpublished
  · rw [hexit] at herror
    cases herror

/-- The replaced file cannot be made durable. -/
def failSync : Fates Sample := fatesWith [.applying, .round 0] .sync (.fail {})

theorem failSync_error : (sampleTransaction.commit failSync sampleNames { tree := sampleTree }).1 =
    .error "input/output error" := by
  decide +kernel

theorem failSync_unpublished : ¬sampleTransaction.PublishedCommitted sampleNames
    (sampleTransaction.commit failSync sampleNames { tree := sampleTree }).2 := by
  unfold FileTransaction.PublishedCommitted
  decide +kernel

theorem failSync_rollbackSafe : failSync.RollbackSafe := by
  refine .inl fun index places call => ?_
  simp [failSync, Fates.within, fatesWith, Fate.isFail]

/-- The rollback of a commit that could not make its file durable. -/
theorem commit_keeps_originals_failSync : sampleTransaction.KeepsOriginals sampleNames sampleTree
    (sampleTransaction.commit failSync sampleNames { tree := sampleTree }).2.tree :=
  commit_keeps_originals sampleCodec_lawful sampleTransaction sampleTransaction_admissible.apart
    sampleTransaction_admissible.flat sampleTree sampleTree_noTransaction sampleNames failSync
    failSync_rollbackSafe _ failSync_error failSync_unpublished

/-- Making the replaced file durable fails, and so does the restoring rename of the
rollback. -/
def failTwice : Fates Sample := fun places call =>
  if places = [.applying, .round 0] ∧ call = .sync then .fail {}
  else if places = [.rollingBack, .round 0] ∧ call = .rename then .fail {}
  else .done

/-- The commit in which both calls fail. -/
def failedRun : Exit Unit × World Sample :=
  sampleTransaction.commit failTwice sampleNames { tree := sampleTree }

/-- A rollback that fails loses the original.  The prepared journal was published
and the file was replaced; the file is the candidate, the transaction directory
with its journal and its backup is gone, and recovery finds nothing to do. -/
theorem commit_loses_original :
    failedRun.1 = .error "input/output error\nrestore managed file a: input/output error" ∧
    failedRun.2.renamed = [(journalPath (transactionDirectory sampleNames.entropy.id),
          .regular 0o600 (.journal (sampleTransaction.journal .prepared))),
        (["a"], .regular 0o644 (.file 2))] ∧
    failedRun.2.tree.nodes = [([".atum"], .directory), ([".atum", "state"], .directory),
      (transactionRoot, .directory), (["a"], .regular 0o644 (.file 2))] ∧
    (recoverTransactions sampleCodec (fun _ _ => .done) failedRun.2).2.tree.get ["a"] =
      some (.regular 0o644 (.file 2)) := by
  decide +kernel

end Atum.Update
