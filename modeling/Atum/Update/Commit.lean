import Atum.Update.Recovery
import Atum.Update.Staging

/-!
# Commit

What `Commit` does to the phase of its transaction.  Until the prepared journal
is published nothing has happened to a managed file (`prepare_guarded`).  Every round
of the apply loop replaces one file and keeps the phase (`applyRecord_guarded`).  The
committed journal is only published after all of them, and an error before that
leads to a rollback (`finish_wp`).  If the restore loop of the rollback meets no
failure, or if nothing has to be restored, `Commit` leaves the managed files
settled however it ends (`commit_wp`).
-/

namespace Atum.Update

open Atum.Go Atum.Config Faults Faults.Prog List FileTree FileTransaction

variable {δ : Type} {codec : Codec δ} {io : Fates δ} {w w' : World δ}

/-! ## Verification -/

/-- A file that passes the verification has its expected version, and only
directories are above it. -/
theorem verifyFile_eq_ok {t : FileTree δ} {file : String × TransactionEntry δ}
    (hclean : relative file.1 = .ok file.1) (h : verifyFile codec t file = .ok ()) :
    t.Clear (location file) ∧ Matches codec (t.get (location file)) file.2.expected := by
  unfold verifyFile at h
  cases hsnap : snapshotManagedFile codec.toContents t file.1 with
  | error e => simp [hsnap, bind, Except.bind] at h
  | ok version =>
    obtain ⟨hclear, hver⟩ := (snapshotManagedFile_eq_ok_iff hclean).mp hsnap
    simp only [hsnap, bind, Except.bind] at h
    split at h
    · next hsame => exact ⟨hclear, version, hver, hsame⟩
    · cases h

theorem FileTransaction.verify_files {transaction : FileTransaction codec} {t : FileTree δ}
    (h : transaction.verify t = .ok ()) :
    ∀ file ∈ transaction.files, verifyFile codec t file = .ok () := by
  unfold FileTransaction.verify at h
  cases hfiles : transaction.files.forM (verifyFile codec t) with
  | error e => simp [hfiles, bind, Except.bind] at h
  | ok _ => exact (forM_eq_ok_iff _).mp hfiles

namespace Setting

variable {s : Setting codec} {file : String × TransactionEntry δ} {index : Nat} {t : FileTree δ}

/-- What `Verify` shows while every managed file is the original. -/
theorem verified_of_verify (hflat : s.transaction.Flat) (hchg : s.transaction.changed ≠ [])
    (horig : s.AllOriginal t) (h : s.transaction.verify t = .ok ()) :
    s.Verified ∧ ∀ file ∈ s.transaction.files, t.Clear (location file) := by
  have hfacts : ∀ file ∈ s.transaction.files, t.Clear (location file) ∧
      Matches codec (t.get (location file)) file.2.expected := fun file hfile =>
    verifyFile_eq_ok (s.transaction.valid file hfile).clean
      (verify_files h file hfile)
  refine ⟨⟨fun file hfile => horig file hfile ▸ (hfacts file hfile).2, ?_, hchg⟩,
    fun file hfile => (hfacts file hfile).1⟩
  intro file hfile other hother hpre
  by_cases hsame : location file = location other
  · exact eq_of_location (mem_files hfile) hother hsame
  -- A file above another one is absent, and so is the other one: both are new.
  obtain ⟨-, hver⟩ := hfacts file (mem_files hfile)
  obtain ⟨hclear, hver'⟩ := hfacts other hother
  have hnone : t.get (location file) = none := by
    rcases hclear _ hpre hsame with hnone | hdir
    · exact hnone
    · exact absurd hdir hver.ne_directory
  have hnone' : t.get (location other) = none :=
    get_below_eq_none (by simp [hnone]) hpre hsame
  have hcreated : ∀ {node : Option (Node δ)} {other : String × TransactionEntry δ},
      other ∈ s.transaction.files → Matches codec node other.2.expected → node = none →
      created other.2 = true := by
    intro node other hother hmatches hnode
    have habsent : other.2.expected.present = false := by
      cases hpres : other.2.expected.present with
      | false => rfl
      | true =>
        obtain ⟨data, hdata, -⟩ := hmatches.of_present hpres
        rw [hnode] at hdata
        cases hdata
    have hlisted := (s.transaction.valid other hother).listed
    simpa [created, habsent] using hlisted
  exact absurd (hflat file (mem_files hfile) other hother
    (hcreated (mem_files hfile) hver hnone) (hcreated hother hver' hnone') hpre) hsame

variable {suffix : String} {value : Option (Node δ)} {state : JournalState} (hv : s.Verified)

/-! ## Creating the directory -/

/-- Creating the transaction root keeps the phase. -/
theorem Idle.grows_root (h : s.Idle w) (ht : w.tree.Grows t transactionRoot) :
    s.Idle { w with tree := t } := by
  have hlonger : ∀ rest : TreePath, rest ≠ [] → ¬transactionRoot ++ rest <+: transactionRoot := by
    intro rest hrest hpre
    have hlen := hpre.length_le
    have hpos := length_pos_iff.mpr hrest
    rw [length_append] at hlen
    omega
  refine ⟨fun file hfile => ?_, h.unpublished, fun name node hnode => h.housed name node ?_, ?_⟩
  · rw [ht.get_of_not_above (s.apart file hfile).1]
    exact h.original file hfile
  · rwa [ht.get_of_not_above (hlonger [name] (by simp))] at hnode
  · rw [ht.get_of_not_above]
    · exact h.journal
    · exact hlonger _ (by simp)

/-- The transaction directory itself may come and go. -/
theorem Idle.changes_directory (h : s.Idle w) (hval : value = none ∨ value = some .directory)
    (ht : w.tree.Changes t s.directory value) : s.Idle { w with tree := t } := by
  refine ⟨fun file hfile => ?_, h.unpublished, fun name node hnode => ?_, ?_⟩
  · rw [ht.get_of_ne (by simpa using ne_inside hfile [])]
    exact h.original file hfile
  · by_cases hname : name = s.id
    · subst hname
      change t.get s.directory = some node at hnode
      rw [ht.get_self] at hnode
      rcases hval with rfl | rfl
      · cases hnode
      · exact ⟨rfl, (Option.some.inj hnode).symm⟩
    · refine h.housed name node ?_
      rwa [ht.get_of_ne (by simpa [directory, transactionDirectory] using hname)] at hnode
  · rw [ht.get_of_ne (by simp [journalPath])]
    exact h.journal

theorem createTransactionDirectory_guarded {entropy : Entropy} (hid : entropy.id = s.id)
    (h : s.Idle w) : Guarded (createTransactionDirectory io entropy)
      (fun id w' => id = s.id ∧ s.Idle w') s.Idle w := by
  have hensure : Guarded (ensureDirectory (io.within .ensuring) transactionRootPath)
      (fun _ => s.Idle) s.Idle w := by
    rw [ensureDirectory, transactionRootPath_clean, ofExcept_ok_bind]
    refine .bind (.describe (.mkdirAll (fun t ht => h.grows_root ht) fun t ht _ => ?_))
    exact .look (h.grows_root ht) fun _ _ => h.grows_root ht
  refine .bind (.describe (hensure.imp fun _ w₁ h₁ => ?_))
  -- The name of the directory is drawn.
  refine .bind (.describe (.look h₁ fun id hok => ?_))
  cases hok
  rw [hid]
  have hmade : ∀ t, w₁.tree.mkdir s.directory = .ok t → s.Idle { w₁ with tree := t } :=
    fun t ht => h₁.changes_directory (.inr rfl) (mkdir_ok ht).2
  refine .bind (.describe (.atomicTree h₁ hmade fun t ht => ?_))
  have h₂ := hmade t ht
  refine wp_bind (wp_attempt (wp_inspect (fun _ _ => wp_pure ⟨rfl, h₂⟩) (fun _ e => ?_)
    fun _ => h₂))
  -- The directory that could not be made durable is removed again.
  have hrem : ∀ t', FileTree.remove t s.directory = .ok t' → s.Idle { w₁ with tree := t' } :=
    fun t' ht' => h₂.changes_directory (.inl rfl) (remove_ok ht')
  exact wp_bind (wp_ignore (wp_atomicTree (fun t' ht' => wp_throw (hrem t' ht'))
    (fun _ _ => wp_throw h₂) fun _ => ⟨h₂, hrem⟩))

/-! ## Staging -/

variable {path : TreePath}

theorem Idle.adds (h : s.Idle w) (hadds : Adds s.directory w w') : s.Idle w' := by
  have hidle : s.Idle { w with tree := w'.tree } := h.scratch hadds.outside
  rw [← hadds.renamed] at hidle
  exact hidle

variable (s) in
/-- The candidate of a changed file is staged and its original is backed up. -/
def StagedAt (w : World δ) (index : Nat) (file : String × TransactionEntry δ) : Prop :=
  (file.2.candidate.present = true →
    w.tree.get (transactionCandidate s.directory index) = candidateNode codec file.2) ∧
  (file.2.expected.present = true →
    w.tree.get (transactionBackup s.directory index) = s.original file)

variable (s) in
/-- The files before an index are staged. -/
structure Staged (index : Nat) (w : World δ) : Prop where
  idle : s.Idle w
  staged : ∀ i file, i < index → s.transaction.changed[i]? = some file → s.StagedAt w i file

/-- Staging copies the originals. -/
theorem stage_guarded (hv : s.Verified) (h : s.Idle w) : Guarded (s.transaction.stage io s.id)
    (fun _ => s.Staged s.transaction.changed.length) s.Idle w := by
  refine stage_dependable.guarded.mono ?_ fun _ => h.adds
  rintro _ w' ⟨hadds, hstaged⟩
  have hidle := h.adds hadds
  refine ⟨hidle, fun i file _ hat => ?_⟩
  have hfile := mem_files (mem_of_getElem? hat)
  obtain ⟨hcand, hbackup⟩ := hstaged i file hat
  rw [Nat.zero_add] at hcand hbackup
  refine ⟨hcand, fun hpres => ?_⟩
  obtain ⟨mode, data, hget, hcopy⟩ := hbackup hpres
  obtain ⟨data', hdata', -⟩ := (hv.expected file hfile).of_present hpres
  rw [hidle.original file hfile, hdata'] at hget
  cases hget
  exact hcopy.trans hdata'.symm

/-- The head of the rest of a list, and the rest after it. -/
theorem drop_eq_cons {α : Type} {items rest : List α} {item : α} {index : Nat}
    (h : items.drop index = item :: rest) :
    items[index]? = some item ∧ items.drop (index + 1) = rest := by
  constructor
  · have hget : (items.drop index)[0]? = items[index + 0]? := List.getElem?_drop
    rw [h] at hget
    simpa using hget.symm
  · rw [← tail_drop, h, tail_cons]

/-! ## The prepared journal -/

variable (s) in
/-- Nothing has happened to a managed file. -/
def Begun (w : World δ) : Prop :=
  s.Idle w ∨ s.Verified ∧ s.Prepared w ∧ s.AllOriginal w.tree

theorem Begun.phase (h : s.Begun w) : s.Phase w := by
  rcases h with h | ⟨hv, h, -⟩
  · exact .inl h
  · exact .inr (.inl ⟨hv, h⟩)

theorem Begun.settled (h : s.Begun w) : s.Settled w := by
  rcases h with h | ⟨-, h, horig⟩
  · exact h.settled
  · exact .inl ⟨horig, h.unpublished⟩

theorem Begun.removeAll {survives : TreePath → Bool} (h : s.Begun w) :
    s.Begun { w with tree := w.tree.removeAll s.directory survives } := by
  rcases h with h | ⟨hv, h, horig⟩
  · exact .inl h.removeAll
  · rcases h.removeAll horig with hidle | hprep
    · exact .inl hidle
    · exact .inr ⟨hv, hprep, AllOriginal.removeAll horig⟩

variable (s) in
/-- The files before an index are replaced, and the later candidates are staged. -/
structure Applying (index : Nat) (w : World δ) : Prop where
  prepared : s.Prepared w
  applied : ∀ i file, i < index → s.transaction.changed[i]? = some file →
    w.tree.get (location file) = candidateNode codec file.2
  staged : ∀ i file, index ≤ i → s.transaction.changed[i]? = some file →
    file.2.candidate.present = true →
      w.tree.get (transactionCandidate s.directory i) = candidateNode codec file.2
  backups : ∀ i file, s.transaction.changed[i]? = some file → file.2.expected.present = true →
    w.tree.get (transactionBackup s.directory i) = s.original file

theorem journalNode_injective (hlawful : codec.Lawful) {left right : JournalState}
    (h : s.journalNode left = s.journalNode right) : left = right := by
  have hencode : codec.encode (s.transaction.journal left) =
      codec.encode (s.transaction.journal right) := (Node.regular.inj h).2
  have hdecode := s.transaction.decode_encode_journal hlawful left
  rw [hencode, s.transaction.decode_encode_journal hlawful right] at hdecode
  exact congrArg TransactionJournal.state (Except.ok.inj hdecode).symm

theorem scratch_temporary (s : Setting codec) (suffix : String) :
    s.Scratch (temporaryJournal s.directory suffix) :=
  ⟨prefix_append _ _, by simp [temporaryJournal], (journalPath_ne_temporary _ suffix).symm⟩

theorem Idle.unwritten (h : s.Idle w) (hw : Unwritten s.directory suffix w w') : s.Idle w' := by
  have hidle : s.Idle { w with tree := w'.tree } :=
    h.scratch fun path hpath => hw.get path fun heq => hpath (heq ▸ scratch_temporary s suffix)
  rw [← hw.renamed] at hidle
  exact hidle

theorem Housed.written {journal : TransactionJournal} (h : s.Housed w.tree)
    (hw : Written codec s.directory suffix journal w w') : s.Housed w'.tree := by
  intro name node hnode
  refine h name node ?_
  rw [← hnode, hw.get]
  · simp [temporaryJournal, directory, transactionDirectory]
  · simp [journalPath, directory, transactionDirectory]

/-- Publishing the prepared journal ends the preparation. -/
theorem Staged.written (hlawful : codec.Lawful) (h : s.Staged s.transaction.changed.length w)
    (hclear : ∀ file ∈ s.transaction.files, w.tree.Clear (location file))
    (hw : Written codec s.directory suffix (s.transaction.journal .prepared) w w') :
    s.Applying 0 w' ∧ s.AllOriginal w'.tree := by
  have horig : s.AllOriginal w'.tree := fun file hfile =>
    (hw.get_outside (s.apart file hfile).2).trans (h.idle.original file hfile)
  have hstaged : ∀ {i file}, s.transaction.changed[i]? = some file → s.StagedAt w i file := by
    intro i file hat
    obtain ⟨hlt, -⟩ := List.getElem?_eq_some_iff.mp hat
    exact h.staged i file hlt hat
  refine ⟨⟨⟨hw.published, ?_, Housed.written h.idle.housed hw, ?_,
      fun file hfile _ => horig file hfile,
    fun file hfile => .inl (horig file (mem_files hfile)), ?_⟩, ?_, ?_, ?_⟩, horig⟩
  · unfold Published
    rw [hw.renamed, mem_append, mem_singleton]
    rintro (hmem | heq)
    · exact h.idle.unpublished hmem
    · cases journalNode_injective hlawful (Prod.mk.inj heq).2
  · intro file hfile above hpre hne
    rw [hw.get_outside (not_root_above hfile hpre)]
    exact hclear file hfile above hpre hne
  · intro i file hat hpres
    rw [hw.get_backup]
    exact .inl ((hstaged hat).2 hpres)
  · intro i file hi
    omega
  · intro i file _ hat hpres
    rw [hw.get_candidate]
    exact (hstaged hat).1 hpres
  · intro i file hat hpres
    rw [hw.get_backup]
    exact (hstaged hat).2 hpres

/-- Up to the prepared journal nothing happens to a managed file. -/
theorem prepare_guarded (hlawful : codec.Lawful) (hflat : s.transaction.Flat)
    (hv : s.Verified) (h : s.Idle w) : Guarded (s.transaction.prepare (fun t => t) io s.id suffix)
      (fun _ w' => s.Verified ∧ s.Applying 0 w' ∧ s.AllOriginal w'.tree) s.Begun w := by
  refine .bind ((stage_guarded hv h).mono (fun _ w₁ h₁ => ?_) fun _ h₁ => .inl h₁)
  refine .bind (wp_interfere ?_)
  -- The expectations are verified a second time.
  refine .bind (.look (.inl h₁.idle) fun _ hverify => ?_)
  obtain ⟨hv', hclear⟩ := verified_of_verify hflat hv.nonempty h₁.idle.original hverify
  have hpub : ∀ {w'}, Written codec s.directory suffix (s.transaction.journal .prepared) w₁ w' →
      s.Begun w' ∧ s.Verified ∧ s.Applying 0 w' ∧ s.AllOriginal w'.tree := by
    intro w' hw
    obtain ⟨happlying, horig⟩ := h₁.written hlawful hclear hw
    exact ⟨Or.inr ⟨hv', happlying.prepared, horig⟩, hv', happlying, horig⟩
  refine wp_bind (wp_mono (writeTransactionJournal_wp suffix _) (fun r w₂ h₂ => ?_)
    fun w₂ h₂ => ?_)
  · rcases h₂ with ⟨⟨e, rfl⟩, h₂⟩ | ⟨⟨result, rfl⟩, h₂⟩
    · exact wp_throw (.inl (h₁.idle.unwritten h₂))
    · cases result with
      | error e => exact wp_throw (hpub h₂).1
      | ok _ => exact wp_pure (hpub h₂).2
  · rcases h₂ with h₂ | h₂
    · exact .inl (h₁.idle.unwritten h₂)
    · exact (hpub h₂).1

/-! ## The apply loop -/

/-- Creating the directory of the next file. -/
theorem Applying.grows (hv : s.Verified) (h : s.Applying index w)
    (hat : s.transaction.changed[index]? = some file)
    (hgrows : w.tree.Grows t (location file).dropLast) : s.Applying index { w with tree := t } := by
  obtain ⟨hprep, hfiles, hinside⟩ := h.prepared.grows hv hat hgrows
  refine ⟨hprep, fun i other hi hother => ?_, fun i other hi hother hpres => ?_,
    fun i other hother hpres => ?_⟩
  · exact (hfiles other (mem_files (mem_of_getElem? hother))).trans (h.applied i other hi hother)
  · exact (hinside _ (root_above_candidate s i)).trans (h.staged i other hi hother hpres)
  · exact (hinside _ (root_above_backup s i)).trans (h.backups i other hother hpres)

include hv in
/-- Replacing the next file. -/
theorem Applying.replace (h : s.Applying index w) (hat : s.transaction.changed[index]? = some file)
    (ht : s.Touches index file w.tree w'.tree) (hpub : s.Published w' → s.Published w)
    (hget : w'.tree.get (location file) = candidateNode codec file.2)
    (hbackup : w'.tree.get (transactionBackup s.directory index) =
      w.tree.get (transactionBackup s.directory index)) : s.Applying (index + 1) w' := by
  have hfile : file ∈ s.transaction.changed := mem_of_getElem? hat
  refine ⟨h.prepared.touch hv hat ht hpub (.inr hget) fun hpres =>
    Or.inl (hbackup.trans (h.backups index file hat hpres)), ?_, ?_, ?_⟩
  · intro i other hi hother
    by_cases heq : i = index
    · subst heq
      obtain rfl : file = other := Option.some.inj (hat.symm.trans hother)
      exact hget
    have hne : other ≠ file := by
      rintro rfl
      exact heq (index_unique hother hat)
    rw [h.prepared.get_of_touches hv hfile ht (mem_files (mem_of_getElem? hother)) hne]
    exact h.applied i other (by omega) hother
  · intro i other hi hother hpres
    rw [ht.inside _ (root_above_candidate s i) (transactionBackup_ne_candidate _ _ _).symm
      fun heq => absurd (transactionCandidate_injective heq) (by omega)]
    exact h.staged i other (by omega) hother hpres
  intro i other hother hpres
  by_cases heq : i = index
  · rw [heq] at hother ⊢
    exact hbackup.trans (h.backups index other hother hpres)
  · rw [ht.inside _ (root_above_backup s i) (fun hsame => heq (transactionBackup_injective hsame))
      (transactionBackup_ne_candidate _ _ _)]
    exact h.backups i other hother hpres

include hv in
/-- Moving the staged candidate over the file. -/
theorem Applying.rename {node : Node δ} (h : s.Applying index w)
    (hat : s.transaction.changed[index]? = some file) (hpres : file.2.candidate.present = true)
    (hmoves : Moves w w' (transactionCandidate s.directory index) (location file) node) :
    s.Applying (index + 1) w' := by
  have hfile : file ∈ s.transaction.files := mem_files (mem_of_getElem? hat)
  have hne : transactionBackup s.directory index ≠ location file := (ne_inside hfile _).symm
  refine h.replace hv hat (touches_of_moves hfile (.inr rfl) hmoves) ?_ ?_ ?_
  · unfold Published
    rw [hmoves.noted, mem_append, mem_singleton]
    rintro (hmem | heq)
    · exact hmem
    · exact absurd (Prod.mk.inj heq).1.symm (ne_inside hfile _)
  · rw [hmoves.get, if_pos rfl, ← hmoves.found]
    exact h.staged index file le_rfl hat hpres
  · rw [hmoves.get, if_neg hne, if_neg (transactionBackup_ne_candidate _ _ _)]

include hv in
/-- Removing a file that has no candidate. -/
theorem Applying.remove (h : s.Applying index w)
    (hat : s.transaction.changed[index]? = some file) (habsent : ¬file.2.candidate.present = true)
    (ht : w.tree.Changes t (location file) none) : s.Applying (index + 1) { w with tree := t } := by
  have hfile : file ∈ s.transaction.files := mem_files (mem_of_getElem? hat)
  have hne : transactionBackup s.directory index ≠ location file := (ne_inside hfile _).symm
  refine h.replace hv hat (touches_of_changes hfile ht) (fun hp => hp) ?_ (ht.get_of_ne hne)
  rw [candidateNode, if_neg habsent]
  exact ht.get_self

include hv in
/-- One round of the apply loop replaces one file. -/
theorem applyRecord_guarded (h : s.Applying index w)
    (hat : s.transaction.changed[index]? = some file) :
    Guarded (applyRecord io s.directory index (transactionRecord file))
      (fun _ => s.Applying (index + 1)) s.Prepared w := by
  have hfile : file ∈ s.transaction.changed := mem_of_getElem? hat
  have hclean := (s.transaction.valid file (mem_files hfile)).clean
  refine .bind (.describe ((ensureManagedParent_dependable (fun _ => trivial) hclean
    (.inl trivial)).guarded.mono ?_ ?_))
  · rintro _ _ ⟨rfl, t, ht, -, rfl⟩
    have h₁ := h.grows hv hat ht
    have hsync : ∀ {w₂ : World δ}, s.Applying (index + 1) w₂ →
        Guarded (syncDirectory (io [] .sync) (location file).dropLast)
          (fun _ => s.Applying (index + 1)) s.Prepared w₂ :=
      fun h₂ => .look h₂.prepared fun _ _ => h₂
    refine .bind (.describe ?_)
    split
    · next hpres =>
      exact .rename h₁.prepared (fun w₂ node hmoves => (h₁.rename hv hat hpres hmoves).prepared)
        fun w₂ node hmoves => hsync (h₁.rename hv hat hpres hmoves)
    next habsent =>
    exact .atomicTree h₁.prepared (fun t ht => (h₁.remove hv hat habsent (remove_ok ht)).prepared)
      fun t ht => hsync (h₁.remove hv hat habsent (remove_ok ht))
  · rintro _ ⟨t, ht, rfl⟩
    exact (h.grows hv hat ht).prepared

include hv in
/-- A round whose replacement fails changes no managed file. -/
theorem applyRecord_of_fail (h : s.Applying index w)
    (hat : s.transaction.changed[index]? = some file) (horig : s.AllOriginal w.tree)
    (hrename : (io [] .rename).isFail = true) (hrem : (io [] .remove).isFail = true) :
    Guarded (applyRecord io s.directory index (transactionRecord file)) (fun _ _ => False)
      (fun w' => s.Prepared w' ∧ s.AllOriginal w'.tree) w := by
  have hfile : file ∈ s.transaction.changed := mem_of_getElem? hat
  have hgrows : ∀ t, w.tree.Grows t (location file).dropLast →
      s.Prepared { w with tree := t } ∧ s.AllOriginal t := by
    intro t ht
    obtain ⟨hprep, hfiles, -⟩ := h.prepared.grows hv hat ht
    exact ⟨hprep, fun other hother => (hfiles other hother).trans (horig other hother)⟩
  have hclean := (s.transaction.valid file (mem_files hfile)).clean
  refine .bind (.describe ((ensureManagedParent_dependable (fun _ => trivial) hclean
    (.inl trivial)).guarded.mono ?_ ?_))
  · rintro _ _ ⟨-, t, ht, -, rfl⟩
    refine .bind (.describe ?_)
    split
    · exact wp_call_of_fail hrename fun _ => hgrows t ht
    · exact wp_call_of_fail hrem fun _ => hgrows t ht
  · rintro _ ⟨t, ht, rfl⟩
    exact hgrows t ht

include hv in
/-- The apply loop replaces every changed file. -/
theorem applyRecords_guarded (rest : List (String × TransactionEntry δ)) :
    ∀ {index : Nat} {w : World δ}, s.transaction.changed.drop index = rest → s.Applying index w →
      Guarded (applyRecords io s.directory index (rest.map transactionRecord))
        (fun _ => s.Applying s.transaction.changed.length) s.Prepared w := by
  induction rest with
  | nil =>
    intro index w hrest h
    have hlen : s.transaction.changed.length ≤ index := drop_eq_nil_iff.mp hrest
    refine .ret ⟨h.prepared, fun i file hi hat => h.applied i file (by omega) hat,
      fun i file hi hat => ?_, h.backups⟩
    obtain ⟨hlt, -⟩ := List.getElem?_eq_some_iff.mp hat
    omega
  | cons file rest ih =>
    intro index w hrest h
    obtain ⟨hat, hrest⟩ := drop_eq_cons hrest
    exact .bind ((applyRecord_guarded hv h hat).imp fun _ _ h₁ => ih hrest h₁)

/-! ## The committed journal and the rollback -/

include hv in
/-- Once every changed file is replaced, every managed file is the candidate. -/
theorem Applying.allCandidate (hidentified : s.transaction.Identified)
    (h : s.Applying s.transaction.changed.length w) : s.AllCandidate w.tree := by
  intro file hfile
  cases hsame : sameManagedVersion file.2.expected file.2.candidate with
  | false =>
    obtain ⟨i, hat⟩ := List.getElem?_of_mem (mem_changed_iff.mpr ⟨hfile, hsame⟩)
    obtain ⟨hlt, -⟩ := List.getElem?_eq_some_iff.mp hat
    exact h.applied i file hlt hat
  | true =>
    -- An unchanged file has the mode and the digest of its candidate.
    have horig := hv.unchanged_present hfile hsame
    rw [h.prepared.unchanged file hfile hsame]
    rw [sameManagedVersion_iff] at hsame
    have hpres : file.2.expected.present = true := by
      cases hpres : file.2.expected.present with
      | true => rfl
      | false => exact absurd ((hv.expected file hfile).of_absent hpres) horig
    obtain ⟨data, hdata, hhash⟩ := (hv.expected file hfile).of_present hpres
    have hthere : file.2.candidate.present = true := hsame.1.symm.trans hpres
    rw [hdata, candidateNode, if_pos hthere, hsame.2.1,
      hidentified file hfile hthere data (hhash.trans hsame.2.2)]

include hv in
/-- Publishing the committed journal. -/
theorem Applying.written (h : s.Applying s.transaction.changed.length w)
    (hw : Written codec s.directory suffix (s.transaction.journal .committed) w w') :
    s.Committed w' := by
  refine ⟨fun hidentified file hfile => ?_, ?_, Housed.written h.prepared.housed hw,
    .inr hw.published⟩
  · rw [hw.get_outside (s.apart file hfile).2]
    exact h.allCandidate hv hidentified file hfile
  · unfold Published
    rw [hw.renamed]
    exact mem_append_right _ (mem_singleton_self _)

theorem Prepared.unwritten (h : s.Prepared w) (hw : Unwritten s.directory suffix w w') :
    s.Prepared w' := by
  have hloc : ∀ file ∈ s.transaction.files,
      w'.tree.get (location file) = w.tree.get (location file) :=
    fun file hfile => hw.get_outside (s.apart file hfile).2
  refine ⟨(hw.get _ (journalPath_ne_temporary _ suffix)).trans h.journal, ?_,
    Housed.scratch h.housed fun path hpath => hw.get path fun heq =>
      hpath (heq ▸ scratch_temporary s suffix), ?_, ?_, ?_, ?_⟩
  · unfold Published
    rw [hw.renamed]
    exact h.unpublished
  · intro file hfile above hpre hne
    rw [hw.get_outside (not_root_above hfile hpre)]
    exact h.clear file hfile above hpre hne
  · intro file hfile hsame
    exact (hloc file hfile).trans (h.unchanged file hfile hsame)
  · intro file hfile
    rw [hloc file (mem_files hfile)]
    exact h.replaced file hfile
  intro i file hat hpres
  rw [hloc file (mem_files (mem_of_getElem? hat)),
    hw.get _ (by simp [transactionBackup, temporaryJournal])]
  exact h.backup i file hat hpres

include hv in
/-- A rollback keeps the phase, and it brings every original back unless a call
fails. -/
theorem rollbackTransaction_wp (h : s.Prepared w) (state : JournalState) (cause : String) :
    (rollbackTransaction codec io s.directory (s.transaction.journal state) cause).wp
      (fun r w' => (∃ e, r = .ok e) ∧ s.Recovering w.tree w' ∧
        (io.RoundsWork → s.AllOriginal w'.tree)) s.Prepared w := by
  refine wp_bind (wp_attempt (wp_mono (recoverPreparedTransaction_wp hv h rfl)
    (fun r w₁ h₁ => ?_) fun _ h₁ => h₁.1.1))
  cases r with
  | ok _ => exact wp_pure ⟨⟨_, rfl⟩, h₁.1, fun _ => h₁.2 (.inl rfl)⟩
  | error e => exact wp_pure ⟨⟨_, rfl⟩, h₁.1, fun hworking => h₁.2 (.inr hworking)⟩

variable (s) in
/-- What `Commit` knows when it leaves its body: either the transaction directory
is to be removed and the rollback has run, or the transaction is committed. -/
def Finished (io : Fates δ) (removeDirectory : Bool) (w : World δ) : Prop :=
  match removeDirectory with
  | true => s.Verified ∧ s.Prepared w ∧ (io.RollbackSafe → s.AllOriginal w.tree)
  | false => s.Committed w

include hv in
theorem finish_wp (h : s.Applying 0 w) (hbefore : s.AllOriginal w.tree) :
    (s.transaction.finish io s.id suffix).wp
      (fun r w' => ∃ flag result, r = .ok (flag, result) ∧ s.Finished io flag w') s.Phase w := by
  have hphase : ∀ {w' : World δ}, s.Prepared w' → s.Phase w' := fun h' => .inr (.inl ⟨hv, h'⟩)
  have hrollback : ∀ {w' : World δ} (cause : String), s.Prepared w' →
      (¬(io.within .rollingBack).RoundsWork → io.RollbackSafe → s.AllOriginal w'.tree) →
      (do
        let e ← rollbackTransaction codec (io.within .rollingBack) s.directory
          (s.transaction.journal .committed) cause
        return (true, .error e) : Prog δ (Bool × Except String Unit)).wp
        (fun r w' => ∃ flag result, r = .ok (flag, result) ∧ s.Finished io flag w') s.Phase w' := by
    intro w' cause h' hnothing
    refine wp_bind (wp_mono (rollbackTransaction_wp hv h' .committed cause) ?_ fun _ h₁ =>
      hphase h₁)
    rintro r w₁ ⟨⟨e, rfl⟩, h₁, horig⟩
    refine wp_pure ⟨true, .error e, rfl, hv, h₁.1, fun hsafe => ?_⟩
    by_cases hrounds : (io.within .rollingBack).RoundsWork
    · exact horig hrounds
    · exact h₁.2.allOriginal (hnothing hrounds hsafe)
  -- Nothing has to be undone if the first replacement fails.
  have happly : Guarded (applyRecords (io.within .applying) s.directory 0
      (s.transaction.changed.map transactionRecord))
      (fun _ w' => s.Applying s.transaction.changed.length w' ∧
        (io.RollbackSafe → (io.within .rollingBack).RoundsWork))
      (fun w' => s.Prepared w' ∧ (¬(io.within .rollingBack).RoundsWork → io.RollbackSafe →
        s.AllOriginal w'.tree)) w := by
    by_cases hfails : (io [.applying, .round 0] .rename).isFail = true ∧
        (io [.applying, .round 0] .remove).isFail = true
    · obtain ⟨file, rest, hchg⟩ := exists_cons_of_ne_nil hv.nonempty
      have hat : s.transaction.changed[0]? = some file := by simp [hchg]
      rw [hchg]
      exact .bind ((applyRecord_of_fail hv h hat hbefore hfails.1 hfails.2).mono
        (fun _ _ => False.elim) fun _ h₁ => ⟨h₁.1, fun _ _ => h₁.2⟩)
    · have hrounds : io.RollbackSafe → (io.within .rollingBack).RoundsWork :=
        fun hsafe => hsafe.resolve_right hfails
      exact (applyRecords_guarded hv s.transaction.changed rfl h).mono
        (fun _ _ h₁ => ⟨h₁, hrounds⟩) fun _ h₁ =>
          ⟨h₁, fun hnot hsafe => absurd (hrounds hsafe) hnot⟩
  refine wp_bind (wp_attempt (wp_mono happly (fun r w₁ h₁ => ?_) fun _ h₁ => hphase h₁.1))
  cases r with
  | error cause => exact hrollback cause h₁.1 h₁.2
  | ok _ =>
    obtain ⟨happlied, hrounds⟩ := h₁
    refine wp_bind (wp_mono (writeTransactionJournal_wp suffix _) (fun r w₂ h₂ => ?_)
      fun w₂ h₂ => ?_)
    · rcases h₂ with ⟨⟨e, rfl⟩, h₂⟩ | ⟨⟨result, rfl⟩, h₂⟩
      · exact hrollback e (happlied.prepared.unwritten h₂)
          fun hnot hsafe => absurd (hrounds hsafe) hnot
      have hcommitted := happlied.written hv h₂
      cases result with
      | error e => exact wp_pure ⟨false, .error e, rfl, hcommitted⟩
      | ok _ =>
        refine wp_bind (wp_attempt (wp_mono (removeTransactionDirectory_wp
          fun _ => hcommitted.removeAll) (fun r w₃ h₃ => ?_) fun w₃ h₃ => ?_))
        · exact wp_pure ⟨false, r, rfl, h₃⟩
        · exact .inr (.inr h₃.1)
    · rcases h₂ with h₂ | h₂
      · exact hphase (happlied.prepared.unwritten h₂)
      · exact .inr (.inr (happlied.written hv h₂))

/-! ## The whole run -/

variable {names : Names}

theorem commitBody_wp (hlawful : codec.Lawful) (hflat : s.transaction.Flat)
    (hv : s.Verified) (h : s.Idle w) : (s.transaction.commitBody (fun t => t) io s.id names).wp
      (fun r w' => ∃ flag result, r = .ok (flag, result) ∧
        (flag = true ∧ s.Begun w' ∨ s.Finished io flag w')) s.Phase w := by
  refine wp_bind (wp_attempt (wp_mono (prepare_guarded hlawful hflat hv h) (fun r w₁ h₁ => ?_)
    fun _ h₁ => h₁.phase))
  cases r with
  | error e => exact wp_pure ⟨true, .error e, rfl, .inl ⟨rfl, h₁⟩⟩
  | ok _ =>
    obtain ⟨hv', happlying, horig⟩ := h₁
    refine wp_mono (finish_wp hv' happlying horig) ?_ fun _ h₂ => h₂
    rintro r w₂ ⟨flag, result, rfl, hfin⟩
    exact ⟨flag, result, rfl, .inr hfin⟩

/-- If the rollback is safe, the managed files are settled at the end. -/
theorem commitIn_wp (hlawful : codec.Lawful) (hflat : s.transaction.Flat)
    (hrollback : io.RollbackSafe) (hv : s.Verified) (h : s.Idle w) :
    (s.transaction.commitIn (fun t => t) io s.id names).wp
    (fun _ w' => s.Phase w' ∧ s.Settled w') s.Phase w := by
  refine wp_bind (wp_mono (commitBody_wp hlawful hflat hv h) ?_ fun _ h₁ => h₁)
  rintro _ w₁ ⟨flag, result, rfl, h₁⟩
  cases flag with
  | true =>
    -- The directory goes, and no managed file differs from its original.
    have hbegun : s.Begun w₁ := by
      rcases h₁ with ⟨-, hbegun⟩ | ⟨hv', hprep, horig⟩
      · exact hbegun
      · exact .inr ⟨hv', hprep, horig hrollback⟩
    have hend : ∀ {w' : World δ}, s.Begun w' →
        (ofExcept result : Prog δ Unit).wp (fun _ w' => s.Phase w' ∧ s.Settled w') s.Phase w' :=
      fun h' => wp_ofExcept ⟨h'.phase, h'.settled⟩
    exact wp_bind (wp_ignore (wp_removeAll (hend hbegun.removeAll)
      (fun _ _ _ => hend hbegun.removeAll) fun _ _ => hbegun.removeAll.phase))
  | false =>
    rcases h₁ with ⟨hflag, -⟩ | hcommitted
    · cases hflag
    · exact wp_bind (wp_pure (wp_ofExcept ⟨Or.inr (.inr hcommitted), hcommitted.settled⟩))

/-- With no transaction on disk recovery has nothing to do. -/
theorem recoverTransactions_of_clean (hclean : ∀ name, w.tree.get (transactionRoot ++ [name]) =
    none) : (recoverTransactions codec io).wp (fun _ w' => w' = w) (fun w' => w' = w) w := by
  refine wp_bind (wp_inspect ?_ (fun _ _ => rfl) fun _ => rfl)
  intro found hfound
  cases found with
  | none => exact wp_pure rfl
  | some entries =>
    have hnil : w.tree.children transactionRoot = [] := children_eq_nil_iff.mpr hclean
    obtain rfl : entries = [] := by
      rcases listTransactions_ok hfound with ⟨-, hnone⟩ | hsome
      · cases hnone
      · rwa [hnil, Option.some.injEq] at hsome
    exact wp_bind (wp_pure (wp_pure rfl))

/-- `Commit`, from a disk without a transaction: wherever it stops, its transaction
is in one of its phases, and unless the machine crashes it is settled. -/
theorem commit_wp (hlawful : codec.Lawful) (hflat : s.transaction.Flat)
    (hrollback : io.RollbackSafe) (hid : names.entropy.id = s.id)
    (hclean : ∀ name, w.tree.get (transactionRoot ++ [name]) = none) (h : s.Idle w) :
    (s.transaction.commit io names).wp (fun _ w' => s.Phase w' ∧ s.Settled w') s.Phase w := by
  have hend : s.Phase w ∧ s.Settled w := ⟨Or.inl h, h.settled⟩
  refine wp_bind (wp_mono (recoverTransactions_of_clean hclean) ?_ ?_)
  · rintro (e | recovered) w' rfl
    · exact hend
    dsimp only
    split
    · exact wp_throw hend
    refine wp_bind (wp_inspect (fun _ hverify => ?_) (fun _ _ => hend) fun _ => hend.1)
    dsimp only
    split
    · exact wp_pure hend
    next hchg =>
    obtain ⟨hv, -⟩ := verified_of_verify hflat hchg h.original hverify
    refine wp_bind (wp_mono (createTransactionDirectory_guarded hid h) (fun r w₁ h₁ => ?_)
      fun _ h₁ => .inl h₁)
    cases r with
    | error e => exact ⟨Or.inl h₁, h₁.settled⟩
    | ok id =>
      obtain ⟨rfl, h₁⟩ := h₁
      exact commitIn_wp hlawful hflat hrollback hv h₁
  · rintro w' rfl
    exact hend.1

end Setting

end Atum.Update
