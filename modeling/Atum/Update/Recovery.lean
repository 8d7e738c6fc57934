import Atum.Update.Rounds

/-!
# Recovery

What `recoverTransactions` does from any phase of a transaction.  While the
journal is prepared, every round of the restore loop brings one file back to its
original and keeps the phase; a call that fails and a crash keep it as well, so
recovery may be interrupted and run again any number of times
(`recoverRecords_dependable`).  Recovery that ends without a failed call leaves
the managed files settled (`recoverTransactions_settles`).
-/

namespace Atum.Update

open Atum.Go Atum.Config Faults Faults.Prog List FileTree Fates

variable {δ : Type} {codec : Codec δ} {io : Fates δ} {w w' : World δ}

/-! ## Reading the journal -/

section Journal

theorem validMaterial_of_valid {version : ManagedVersion δ}
    (h : validateManagedVersion codec.toContents version = .ok ()) :
    validMaterial version.present version.mode version.digest = true := by
  unfold validateManagedVersion at h
  unfold validMaterial
  split at h
  · next habsent =>
    split at h
    · cases h
    · next hmat =>
      rw [not_or, not_or, not_not, not_not] at hmat
      simp [habsent, hmat.1, hmat.2.1]
  next hpres =>
  split at h
  · cases h
  next hmat =>
  rw [not_or, not_or, not_not] at hmat
  have hmode : 0 < version.mode := by omega
  have hlimit : version.mode ≤ 0o777 := by omega
  rw [if_pos (not_not.mp hpres), hmat.2.2]
  simp [hmode, hlimit]

/-- A record of a transaction passes the check of the reader. -/
theorem validRecord_of_valid {file : String × TransactionEntry δ}
    (h : EntryValid codec file.1 file.2) : validRecord (transactionRecord file) = true := by
  simp [validRecord, transactionRecord, h.clean, validJournalMaterial,
    validMaterial_of_valid h.expected, validMaterial_of_valid h.candidate]

theorem FileTransaction.validRecord_journal (transaction : FileTransaction codec)
    (state : JournalState) :
    ∀ record ∈ (transaction.journal state).files, validRecord record = true := by
  intro record hrecord
  obtain ⟨file, hfile, rfl⟩ := mem_map.mp hrecord
  exact validRecord_of_valid (transaction.valid file (FileTransaction.mem_changed_iff.mp hfile).1)

theorem FileTransaction.decode_encode_journal (hlawful : codec.Lawful)
    (transaction : FileTransaction codec) (state : JournalState) :
    codec.decode (codec.encode (transaction.journal state)) = .ok (transaction.journal state) :=
  hlawful _ (transaction.validRecord_journal state)

theorem validateRecords_eq_ok {records : List TransactionRecord} :
    ∀ {seen : List String} {index : Nat}, (∀ record ∈ records, validRecord record = true) →
      (records.map TransactionRecord.path).Nodup →
      (∀ record ∈ records, record.path ∉ seen) → validateRecords seen index records = .ok () := by
  induction records with
  | nil =>
    intro seen index _ _ _
    rfl
  | cons record rest ih =>
    intro seen index hvalid hnodup hseen
    rw [map_cons, nodup_cons] at hnodup
    rw [validateRecords, if_neg (by simp [hvalid record]), if_neg (hseen record (by simp))]
    refine ih (fun other hother => hvalid other (by simp [hother])) hnodup.2 fun other hother => ?_
    rw [mem_cons, not_or]
    refine ⟨fun heq => hnodup.1 ?_, hseen other (by simp [hother])⟩
    exact heq ▸ mem_map_of_mem hother

/-- The reader accepts the journal that `Commit` writes. -/
theorem FileTransaction.validateJournal_journal (transaction : FileTransaction codec)
    (hchg : transaction.changed ≠ []) (state : JournalState) :
    validateJournal (transaction.journal state) = .ok () := by
  have hfiles : (transaction.journal state).files = transaction.changed.map transactionRecord := rfl
  rw [validateJournal, if_neg (by simpa [FileTransaction.journal] using hchg)]
  refine validateRecords_eq_ok (transaction.validRecord_journal state) ?_ (by simp)
  rw [hfiles, map_map]
  refine List.Pairwise.map _ (fun _ _ h => h) (List.Pairwise.filter _ (transaction.sorted.imp ?_))
  intro file other hlt heq
  exact absurd heq (ne_of_lt hlt)

end Journal

/-! ## One record -/

namespace Setting

variable {s : Setting codec} {file : String × TransactionEntry δ} {index : Nat}

variable (s) in
/-- The world at any time of a recovery that started from a tree. -/
def Recovering (origin : FileTree δ) (w : World δ) : Prop :=
  s.Prepared w ∧ s.Nearer origin w.tree

variable (s) in
/-- The world after a round of the restore loop. -/
def Restored (origin : FileTree δ) (file : String × TransactionEntry δ) (w : World δ) : Prop :=
  s.Recovering origin w ∧ w.tree.get (location file) = s.original file

/-- What a round needs is there while the journal is prepared. -/
theorem Prepared.ready (hv : s.Verified) (h : s.Prepared w)
    (hat : s.transaction.changed[index]? = some file) :
    Ready codec (transactionRecord file) (transactionBackup s.directory index) w.tree := by
  have hfile : file ∈ s.transaction.changed := mem_of_getElem? hat
  have horig : Matches codec (s.original file) (transactionRecord file).original :=
    hv.expected file (mem_files hfile)
  refine ⟨h.clear file (mem_files hfile), ?_, fun hpres => ?_⟩
  · rcases h.replaced file hfile with hget | hget
    · exact .inl (hget ▸ horig)
    · exact .inr (hget ▸ (s.transaction.valid file (mem_files hfile)).matches_candidate)
  · rcases h.backup index file hat hpres with hbackup | ⟨hbackup, hget⟩
    · exact .inl (hbackup ▸ horig)
    · exact .inr ⟨hbackup, hget ▸ horig⟩

/-- A file that is restored is the original. -/
theorem Prepared.restores (hv : s.Verified) (h : s.Prepared w)
    (hat : s.transaction.changed[index]? = some file)
    (hrestores : Restores codec (transactionRecord file)
      (transactionBackup s.directory index) w w') :
    s.Recovering w.tree w' := by
  have hfile : file ∈ s.transaction.changed := mem_of_getElem? hat
  have hnearer : s.Touches index file w.tree w'.tree →
      w'.tree.get (location file) = s.original file → s.Nearer w.tree w'.tree := by
    intro ht hself other hother
    by_cases heq : other = file
    · rw [heq]
      exact .inr hself
    · exact .inl (h.get_of_touches hv hfile ht hother heq)
  have hchange := hrestores.change
  split at hchange
  · next hpres =>
    obtain ⟨node, hmoves⟩ :
        ∃ node, Moves w w' (transactionBackup s.directory index) (location file) node := hchange
    have ht := touches_of_moves (mem_files hfile) (.inl rfl) hmoves
    have hself : w'.tree.get (location file) = s.original file := by
      refine (hmoves.get _).trans ((if_pos rfl).trans ?_)
      rcases h.backup index file hat hpres with hbackup | ⟨hbackup, -⟩
      · exact hmoves.found.symm.trans hbackup
      · cases hmoves.found.symm.trans hbackup
    have hne : transactionBackup s.directory index ≠ location file :=
      (ne_inside (mem_files hfile) _).symm
    have hgone : w'.tree.get (transactionBackup s.directory index) = none := by
      rw [hmoves.get, if_neg hne, if_pos rfl]
    refine ⟨h.touch hv hat ht ?_ (.inl hself) fun _ => .inr ⟨hgone, hself⟩, hnearer ht hself⟩
    unfold Published
    rw [hmoves.noted, mem_append, mem_singleton]
    rintro (hmem | heq)
    · exact hmem
    · exact absurd (Prod.mk.inj heq).1.symm (ne_inside (mem_files hfile) _)
  · next habsent =>
    obtain ⟨t, hchg, rfl⟩ := hchange
    have ht : s.Touches index file w.tree t := touches_of_changes (mem_files hfile) hchg
    have hself : t.get (location file) = s.original file :=
      hchg.get_self.trans ((hv.expected file (mem_files hfile)).of_absent
        (Bool.eq_false_iff.mpr habsent)).symm
    exact ⟨h.touch hv hat ht (fun h => h) (.inl hself) fun hpres => absurd hpres habsent,
      hnearer ht hself⟩

theorem Prepared.rounds (hv : s.Verified) (h : s.Prepared w)
    (hat : s.transaction.changed[index]? = some file)
    (hrounds : Rounds codec (transactionRecord file) (transactionBackup s.directory index) w w') :
    s.Recovering w.tree w' := by
  obtain ⟨t, hgrows, htries⟩ := hrounds
  obtain ⟨hprep, hsame, -⟩ := h.grows hv hat hgrows
  rcases htries with rfl | hrestores
  · exact ⟨hprep, Nearer.of_same hsame⟩
  · obtain ⟨h', hnearer⟩ := hprep.restores hv hat hrestores
    exact ⟨h', (Nearer.of_same hsame).trans hnearer⟩

/-- A changed file that has the version of the original is the original. -/
theorem Prepared.get_of_matches (h : s.Prepared w) (hfile : file ∈ s.transaction.changed)
    (hmatches : Matches codec (w.tree.get (location file)) file.2.expected) :
    w.tree.get (location file) = s.original file := by
  refine (h.replaced file hfile).resolve_right fun hget => ?_
  obtain ⟨hmem, hdiffers⟩ := FileTransaction.mem_changed_iff.mp hfile
  have hsame := hmatches.same (hget ▸ (s.transaction.valid file hmem).matches_candidate)
  rw [hdiffers] at hsame
  cases hsame

variable (hv : s.Verified)

include hv in
/-- One round of the restore loop restores one file. -/
theorem recoverRecord_dependable (h : s.Prepared w)
    (hat : s.transaction.changed[index]? = some file) :
    Dependable (recoverRecord codec io s.directory index (transactionRecord file))
      (¬io.Working) (¬io.Steady) (fun _ w' => s.Restored w.tree file w')
      (s.Recovering w.tree) w := by
  have hfile : file ∈ s.transaction.changed := mem_of_getElem? hat
  have hvalid : (transactionRecord file).Valid :=
    TransactionRecord.valid_of_validRecord
      (validRecord_of_valid (s.transaction.valid file (mem_files hfile)))
  refine (recoverRecord_rounds (fun h => h) hvalid
    (.inr fun t hgrows => (h.grows hv hat hgrows).1.ready hv hat)).mono ?_ ?_
      (fun h => h) fun h => h
  · rintro _ w' ⟨hrounds, hset⟩
    have hrec := h.rounds hv hat hrounds
    exact ⟨hrec, hrec.1.get_of_matches hfile hset.original⟩
  · exact fun w' hrounds => h.rounds hv hat hrounds

/-! ## The restore loop -/

include hv in
/-- The restore loop restores every file that it comes to, and wherever it stops
it can start again. -/
theorem recoverRecords_dependable (records : List (TransactionRecord × Nat))
    (hrecs : ∀ record ∈ records, ∃ file, s.transaction.changed[record.2]? = some file ∧
      record.1 = transactionRecord file) : ∀ {w : World δ}, s.Prepared w →
      Dependable (recoverRecords codec io s.directory records) (¬io.RoundsWork) (¬io.Steady)
        (fun _ w' => s.Recovering w.tree w' ∧ ∀ record ∈ records, ∀ file,
          s.transaction.changed[record.2]? = some file →
            w'.tree.get (location file) = s.original file) (s.Recovering w.tree) w := by
  induction records with
  | nil =>
    intro w h
    exact .ret ⟨⟨h, Nearer.refl _⟩, by simp⟩
  | cons head rest ih =>
    intro w h
    obtain ⟨record, index⟩ := head
    obtain ⟨file, hat, rfl⟩ := hrecs (record, index) (by simp)
    refine .bind ((recoverRecord_dependable hv h hat).mono ?_ (fun _ h => h)
      (fun hfailing hrounds => hfailing (hrounds index)) not_steady_of_within)
    rintro _ w₁ ⟨h₁, hget⟩
    -- What this round restored stays restored in the later ones.
    refine (ih (fun record hrec => hrecs record (by simp [hrec])) h₁.1).mono ?_ ?_
      (fun h => h) (fun h => h)
    · rintro _ w₂ ⟨h₂, hrest⟩
      refine ⟨⟨h₂.1, h₁.2.trans h₂.2⟩, fun record hrec other hother => ?_⟩
      rcases mem_cons.mp hrec with rfl | hrec
      · obtain rfl : file = other := Option.some.inj (hat.symm.trans hother)
        exact h₂.2.get_of_original (mem_files (mem_of_getElem? hat)) hget
      · exact hrest record hrec other hother
    · exact fun w₂ h₂ => ⟨h₂.1, h₁.2.trans h₂.2⟩

include hv in
/-- `recoverPreparedTransaction` brings every original back unless a call of the
restore loop fails. -/
theorem recoverPreparedTransaction_wp (h : s.Prepared w) {journal : TransactionJournal}
    (hjournal : journal.files = s.transaction.changed.map transactionRecord) :
    (recoverPreparedTransaction codec io s.directory journal).wp
      (fun r w' => s.Recovering w.tree w' ∧ (r.isOk = true ∨ io.RoundsWork → s.AllOriginal w'.tree))
      (fun w' => s.Recovering w.tree w' ∧ ¬io.Steady) w := by
  have hrecs : ∀ record ∈ journal.files.zipIdx.reverse,
      ∃ file, s.transaction.changed[record.2]? = some file ∧ record.1 = transactionRecord file := by
    rintro ⟨record, index⟩ hrec
    rw [mem_reverse, mem_zipIdx_iff_getElem?, hjournal, List.getElem?_map,
      Option.map_eq_some_iff] at hrec
    obtain ⟨file, hat, hfile⟩ := hrec
    exact ⟨file, hat, hfile.symm⟩
  refine wp_bind (wp_mono (recoverRecords_dependable hv _ hrecs h) (fun r w₁ h₁ => ?_)
    fun w₁ h₁ => h₁)
  cases r with
  | error e =>
    refine ⟨h₁.1, ?_⟩
    rintro (hok | hworking)
    · cases hok
    · exact absurd hworking h₁.2
  | ok _ =>
    obtain ⟨h₁, hrestored⟩ := h₁
    have hall : s.AllOriginal w₁.tree := by
      intro file hfile
      cases hsame : sameManagedVersion file.2.expected file.2.candidate with
      | true => exact h₁.1.unchanged file hfile hsame
      | false =>
        obtain ⟨index, hat⟩ := List.getElem?_of_mem
          (FileTransaction.mem_changed_iff.mpr ⟨hfile, hsame⟩)
        refine hrestored (transactionRecord file, index) ?_ file hat
        rw [mem_reverse, mem_zipIdx_iff_getElem?, hjournal, List.getElem?_map, hat]
        rfl
    exact wp_inspect (fun _ _ => ⟨h₁, fun _ => hall⟩) (fun _ _ => ⟨h₁, fun _ => hall⟩)
      fun hc => ⟨h₁, not_steady hc⟩

end Setting

/-! ## The whole recovery -/

namespace Setting

variable {s : Setting codec} {t : FileTree δ}

theorem readTransactionJournal_of_none (h : t.get (journalPath s.directory) = none) :
    readTransactionJournal codec t s.directory = .ok none := by
  simp [readTransactionJournal, h]

variable {state : JournalState}

/-- What the reader finds is the journal that was written. -/
theorem journal_of_read (hlawful : codec.Lawful) {found : Option TransactionJournal}
    (hget : t.get (journalPath s.directory) = some (s.journalNode state))
    (h : readTransactionJournal codec t s.directory = .ok found) :
    found = some (s.transaction.journal state) := by
  simp only [readTransactionJournal, hget, journalNode,
    s.transaction.decode_encode_journal hlawful] at h
  split at h
  · cases h
  cases hvalid : validateJournal (s.transaction.journal state) with
  | error e =>
    rw [hvalid] at h
    cases h
  | ok _ =>
    rw [hvalid] at h
    exact (Except.ok.inj h).symm

/-- The reader accepts the journal if it is not too long. -/
theorem readTransactionJournal_journal (hlawful : codec.Lawful) (hv : s.Verified)
    (hsize : codec.size (codec.encode (s.transaction.journal state)) ≤ 1048576)
    (hget : t.get (journalPath s.directory) = some (s.journalNode state)) :
    readTransactionJournal codec t s.directory = .ok (some (s.transaction.journal state)) := by
  simp only [readTransactionJournal, hget, journalNode,
    s.transaction.decode_encode_journal hlawful]
  rw [if_neg (by omega), s.transaction.validateJournal_journal hv.nonempty state]
  rfl

variable {inv : World δ → Prop}

/-- Whatever survives a removal of the directory survives `removeTransactionDirectory`. -/
theorem removeTransactionDirectory_wp
    (hinv : ∀ survives, inv { w with tree := w.tree.removeAll s.directory survives }) :
    (removeTransactionDirectory io s.id).wp (fun _ w' => inv w')
      (fun w' => inv w' ∧ ¬io.Steady) w := by
  rw [removeTransactionDirectory, if_neg (not_not.mpr s.validID)]
  refine wp_bind (wp_context (wp_removeAll ?_ (fun _ survives _ => hinv survives)
    fun hc survives => ⟨hinv survives, not_steady hc⟩))
  exact wp_inspect (fun _ _ => hinv _) (fun _ _ => hinv _)
    fun hc => ⟨hinv _, not_steady hc⟩

variable (s) in
/-- What recovery guarantees when it ends: the transaction is in one of its
phases, and it is settled if recovery returned or no call failed. -/
def Recovered {α : Type} (io : Fates δ) (r : Except String α) (w : World δ) : Prop :=
  s.Phase w ∧ (r.isOk = true ∨ io.Working → s.Settled w)

variable (s) in
/-- What recovery guarantees when the machine crashes in it. -/
def Interrupted (io : Fates δ) (w : World δ) : Prop := s.Phase w ∧ ¬io.Steady

/-- The cleanup after a transaction that is settled. -/
theorem cleaning_wp
    (hinv : ∀ survives, inv { w with tree := w.tree.removeAll s.directory survives })
    (hphase : ∀ w', inv w' → s.Phase w' ∧ s.Settled w') :
    (removeTransactionDirectory (io.within .cleaning) s.id).wp (s.Recovered io)
      (s.Interrupted io) w :=
  wp_mono (removeTransactionDirectory_wp hinv)
    (fun _ w' h' => ⟨(hphase w' h').1, fun _ => (hphase w' h').2⟩)
    fun w' h' => ⟨(hphase w' h'.1).1, not_steady_of_within h'.2⟩

theorem recoverEntry_of_idle (h : s.Idle w) :
    (recoverEntry codec io (s.id, true)).wp (s.Recovered io) (s.Interrupted io) w := by
  rw [recoverEntry, if_neg (by simp [s.validID])]
  have hread : readTransactionJournal codec w.tree (transactionDirectory s.id) = .ok none :=
    readTransactionJournal_of_none h.journal
  refine wp_bind (wp_inspect ?_ (fun _ _ => ⟨Or.inl h, fun _ => h.settled⟩)
    fun hc => ⟨Or.inl h, not_steady hc⟩)
  intro found hfound
  obtain rfl := Except.ok.inj (hread.symm.trans hfound)
  exact cleaning_wp (fun _ => h.removeAll) fun w' h' => ⟨Or.inl h', h'.settled⟩

theorem recoverEntry_of_committed (hlawful : codec.Lawful) (h : s.Committed w) :
    (recoverEntry codec io (s.id, true)).wp (s.Recovered io) (s.Interrupted io) w := by
  have hphase : s.Phase w := Or.inr (.inr h)
  have hclean : (removeTransactionDirectory (io.within .cleaning) s.id).wp (s.Recovered io)
      (s.Interrupted io) w :=
    cleaning_wp (fun _ => h.removeAll) fun w' h' => ⟨Or.inr (.inr h'), h'.settled⟩
  rw [recoverEntry, if_neg (by simp [s.validID])]
  refine wp_bind (wp_inspect ?_ (fun _ _ => ⟨hphase, fun _ => h.settled⟩)
    fun hc => ⟨hphase, not_steady hc⟩)
  intro found hfound
  rcases h.journal with hnone | hjournal
  · obtain rfl := Except.ok.inj ((readTransactionJournal_of_none hnone).symm.trans hfound)
    exact hclean
  obtain rfl := journal_of_read hlawful hjournal hfound
  -- The journal is committed, so recovery only looks at the files.
  have hsettle : (settleJournal codec io s.id (s.transaction.journal .committed)).wp
      (fun _ w' => w' = w) (fun w' => w' = w ∧ ¬io.Steady) w := by
    change (inspect (io [] .verify)
      (verifyCommittedTransaction codec · (s.transaction.journal .committed))).wp _ _ w
    exact wp_inspect (fun _ _ => rfl) (fun _ _ => rfl) fun hc => ⟨rfl, not_steady hc⟩
  refine wp_bind (wp_mono hsettle ?_ ?_)
  · rintro (e | a) _ rfl
    · exact ⟨hphase, fun _ => h.settled⟩
    · exact hclean
  · rintro _ ⟨rfl, hc⟩
    exact ⟨hphase, hc⟩

theorem recoverEntry_of_prepared (hlawful : codec.Lawful) (hv : s.Verified)
    (hsize : codec.size (codec.encode (s.transaction.journal .prepared)) ≤ 1048576)
    (h : s.Prepared w) :
    (recoverEntry codec io (s.id, true)).wp (s.Recovered io) (s.Interrupted io) w := by
  have hread : readTransactionJournal codec w.tree (transactionDirectory s.id) =
      .ok (some (s.transaction.journal .prepared)) :=
    readTransactionJournal_journal hlawful hv hsize h.journal
  rw [recoverEntry, if_neg (by simp [s.validID])]
  refine wp_bind (wp_inspect ?_ ?_ fun hc => ⟨Or.inr (.inl ⟨hv, h⟩), not_steady hc⟩)
  · intro found hfound
    obtain rfl := Except.ok.inj (hread.symm.trans hfound)
    have hsettle : (settleJournal codec io s.id (s.transaction.journal .prepared)).wp
        (fun r w' => s.Recovering w.tree w' ∧
          (r.isOk = true ∨ io.RoundsWork → s.AllOriginal w'.tree))
        (fun w' => s.Recovering w.tree w' ∧ ¬io.Steady) w := recoverPreparedTransaction_wp hv h rfl
    refine wp_bind (wp_mono hsettle (fun r w₁ h₁ => ?_)
      fun w₁ h₁ => ⟨Or.inr (.inl ⟨hv, h₁.1.1⟩), h₁.2⟩)
    obtain ⟨⟨h₁, -⟩, horig⟩ := h₁
    cases r with
    | error e =>
      refine ⟨Or.inr (.inl ⟨hv, h₁⟩), ?_⟩
      rintro (hok | hworking)
      · cases hok
      · exact .inl ⟨horig (.inr hworking.rounds), h₁.unpublished⟩
    | ok _ =>
      have hall := horig (.inl rfl)
      refine cleaning_wp (fun survives => ?_) fun _ (h' : s.Phase _ ∧ s.Settled _) => h'
      have hset : s.Settled { w₁ with tree := w₁.tree.removeAll s.directory survives } :=
        Or.inl ⟨AllOriginal.removeAll hall, h₁.unpublished⟩
      rcases h₁.removeAll hall with hidle | hprep
      · exact ⟨Or.inl hidle, hset⟩
      · exact ⟨Or.inr (.inl ⟨hv, hprep⟩), hset⟩
  · rintro (hf | ⟨e, he⟩) _
    · refine ⟨Or.inr (.inl ⟨hv, h⟩), ?_⟩
      rintro (hok | hworking)
      · cases hok
      · exact absurd hworking (not_working hf)
    · rw [hread] at he
      cases he

/-- Recovery of the only transaction on disk, from any of its phases. -/
theorem recoverEntry_wp (hlawful : codec.Lawful)
    (hsize : codec.size (codec.encode (s.transaction.journal .prepared)) ≤ 1048576)
    (h : s.Phase w) :
    (recoverEntry codec io (s.id, true)).wp (s.Recovered io) (s.Interrupted io) w := by
  rcases h with h | ⟨hv, h⟩ | h
  · exact recoverEntry_of_idle h
  · exact recoverEntry_of_prepared hlawful hv hsize h
  · exact recoverEntry_of_committed hlawful h

theorem settled_or_prepared (h : s.Phase w) : s.Settled w ∨ s.Prepared w := by
  rcases h with h | ⟨-, h⟩ | h
  · exact .inl h.settled
  · exact .inr h
  · exact .inl h.settled

theorem transactionRootPath_clean : relative transactionRootPath = .ok transactionRootPath := by
  decide +kernel

/-- A prepared transaction is found. -/
theorem Prepared.listed (h : s.Prepared w) :
    ∃ entries, listTransactions w.tree = .ok (some entries) ∧ entries ≠ [] := by
  have hdir : w.tree.get (transactionRoot ++ [s.id]) = some .directory :=
    get_above h.journal (prefix_append _ _)
      (by simp [journalPath, directory, transactionDirectory])
  have hroot : w.tree.get transactionRoot = some .directory := get_parent hdir
  have hresolve : resolve w.tree transactionRootPath true = .ok () :=
    resolve_of_directory transactionRootPath_clean hroot
  refine ⟨(w.tree.children transactionRoot).map fun name =>
    (name, w.tree.isDir (transactionRoot ++ [name])),
    by simp only [listTransactions, hresolve, hroot], ?_⟩
  rw [ne_eq, map_eq_nil_iff]
  exact ne_nil_of_mem (mem_children_iff.mpr ⟨_, hdir⟩)

/-- Every entry that recovery finds is the transaction. -/
theorem Housed.entries (h : s.Housed t) {entries : List (String × Bool)}
    (hents : listTransactions t = .ok (some entries)) :
    ∀ entry ∈ entries, entry = (s.id, true) := by
  rcases listTransactions_ok hents with ⟨-, hnone⟩ | hsome
  · cases hnone
  obtain rfl := Option.some.inj hsome
  intro entry hent
  obtain ⟨name, hname, rfl⟩ := mem_map.mp hent
  obtain ⟨node, hnode⟩ := mem_children_iff.mp hname
  obtain ⟨rfl, rfl⟩ := h name node hnode
  rw [isDir_eq_true.mpr hnode]

theorem Phase.housed (h : s.Phase w) : s.Housed w.tree := by
  rcases h with h | ⟨-, h⟩ | h
  · exact h.housed
  · exact h.housed
  · exact h.housed

variable (hlawful : codec.Lawful)
  (hsize : codec.size (codec.encode (s.transaction.journal .prepared)) ≤ 1048576)
include hlawful hsize

/-- The loop over the entries: one round settles the transaction, and the later
ones keep it settled. -/
theorem recoverEntries_wp (entries : List (String × Bool))
    (hents : ∀ entry ∈ entries, entry = (s.id, true)) : ∀ {w : World δ}, s.Phase w →
      (recoverEntries codec io entries).wp (fun r w' => s.Phase w' ∧
        (r.isOk = true ∨ io.Working → entries ≠ [] ∨ s.Settled w → s.Settled w'))
        (s.Interrupted io) w := by
  induction entries with
  | nil =>
    intro w h
    exact wp_pure ⟨h, fun _ hor => hor.elim (absurd rfl) fun hset => hset⟩
  | cons entry rest ih =>
    intro w h
    obtain rfl := hents entry (by simp)
    refine wp_bind (wp_mono (recoverEntry_wp hlawful hsize h) (fun r w₁ h₁ => ?_)
      fun w₁ h₁ => ⟨h₁.1, not_steady_of_within h₁.2⟩)
    cases r with
    | error e =>
      refine ⟨h₁.1, ?_⟩
      rintro (hok | hworking) _
      · cases hok
      · exact h₁.2 (.inr fun places => hworking (.round rest.length :: places))
    | ok _ =>
      refine wp_mono (ih (fun entry hent => hents entry (by simp [hent])) h₁.1)
        (fun r w₂ h₂ => ⟨h₂.1, fun hr _ => h₂.2 hr (.inr (h₁.2 (.inl rfl)))⟩) fun _ h₂ => h₂

/-- `recoverTransactions`, from any phase of a transaction: wherever it stops, the
transaction is in one of its phases, and if it returns or no call fails, the
managed files are settled. -/
theorem recoverTransactions_wp (h : s.Phase w) :
    (recoverTransactions codec io).wp (s.Recovered io) (s.Interrupted io) w := by
  refine wp_bind (wp_inspect ?_ ?_ fun hc => ⟨h, not_steady hc⟩)
  · intro found hfound
    cases found with
    | none =>
      refine wp_pure ⟨h, fun _ => ?_⟩
      rcases settled_or_prepared h with hset | hprep
      · exact hset
      · obtain ⟨entries, hents, -⟩ := hprep.listed
        rw [hents] at hfound
        cases hfound
    | some entries =>
      refine wp_bind (wp_mono (recoverEntries_wp hlawful hsize entries (h.housed.entries hfound) h)
        (fun r w₁ h₁ => ?_) fun _ h₁ => h₁)
      have hready : entries ≠ [] ∨ s.Settled w := by
        rcases settled_or_prepared h with hset | hprep
        · exact .inr hset
        · obtain ⟨entries', hents', hne⟩ := hprep.listed
          rw [hfound] at hents'
          exact .inl (Option.some.inj (Except.ok.inj hents') ▸ hne)
      cases r with
      | error e => exact ⟨h₁.1, fun hr => h₁.2 hr hready⟩
      | ok _ => exact wp_pure ⟨h₁.1, fun _ => h₁.2 (.inl rfl) hready⟩
  · intro hwhy e
    refine ⟨h, fun hr => ?_⟩
    rcases settled_or_prepared h with hset | hprep
    · exact hset
    rcases hr with hok | hworking
    · cases hok
    rcases hwhy with hf | ⟨e', he'⟩
    · exact absurd hworking (not_working hf)
    · obtain ⟨entries, hents, -⟩ := hprep.listed
      rw [hents] at he'
      cases he'

end Setting

end Atum.Update
