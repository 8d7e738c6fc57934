import Atum.Update.Phases

/-!
# A round of the restore loop

What `recoverRecord` does, on any tree.  It creates the directory of its file, and then
it restores the file or changes nothing (`Rounds`).  If the file is the original or the
candidate and the backup was kept (`Ready`), the round ends well unless a call fails or
the machine crashes (`recoverRecord_rounds`).
-/

namespace Atum.Update

open Atum.Go Atum.Config Faults Faults.Prog List FileTree Fates

variable {δ : Type} {codec : Codec δ} {io : Fates δ} {w w' : World δ}

/-! ## Fates -/

variable {places : List Place} {call : Call}

theorem Fates.not_working (h : (io places call).isFail = true) : ¬io.Working := by
  intro hworking
  rw [hworking places call] at h
  cases h

theorem Fates.not_steady (h : (io places call).isCrash = true) : ¬io.Steady := by
  intro hsteady
  rw [hsteady places call] at h
  cases h

variable {place : Place}

theorem Fates.not_steady_of_within (h : ¬(io.within place).Steady) :
    ¬io.Steady := fun hsteady => h fun places => hsteady (place :: places)

theorem Fates.Working.rounds (h : io.Working) : io.RoundsWork :=
  fun index places => h (.round index :: places)

/-! ## Directories of managed files -/

variable {failing : Prop} (hfailing : ¬io.Working → failing)

include hfailing in
/-- The directory of a managed file can be created whenever only directories are
above the file. -/
theorem ensureManagedParent_dependable {path : String} (hclean : relative path = .ok path)
    (hready : failing ∨
      w.tree.Clear (components path) ∧ w.tree.get (components path) ≠ some .symlink) :
    Dependable (ensureManagedParent io path) failing (¬io.Steady)
      (fun canonical w' => canonical = components path ∧
        ∃ t, w.tree.Grows t (components path).dropLast ∧
          t.get (components path).dropLast = some .directory ∧ w' = { w with tree := t })
      (fun w' => ∃ t, w.tree.Grows t (components path).dropLast ∧ w' = { w with tree := t }) w := by
  have hne := components_ne_nil path
  have hfin : ∀ t, w.tree.Grows t (components path).dropLast →
      t.get (components path).dropLast = some .directory →
      Dependable (do inspect (io [] .resolve) (resolve · path true); return components path)
        failing (¬io.Steady) (fun canonical w' => canonical = components path ∧
          ∃ t, w.tree.Grows t (components path).dropLast ∧
            t.get (components path).dropLast = some .directory ∧ w' = { w with tree := t })
        (fun w' => ∃ t, w.tree.Grows t (components path).dropLast ∧ w' = { w with tree := t })
        { w with tree := t } := by
    intro t hgrows hdir
    refine .bind (.look ⟨t, hgrows, rfl⟩ not_steady ?_ fun _ _ => .ret ⟨rfl, t, hgrows, hdir, rfl⟩)
    rintro (hf | ⟨e, he⟩)
    · exact hfailing (not_working hf)
    -- Creating the directory does not touch the file.
    refine hready.resolve_right fun ⟨hclear, hnot⟩ => ?_
    have hresolve : resolve t path true = .ok () := by
      rw [resolve_eq_ok_iff hclean, hgrows.get_of_not_above (not_prefix_dropLast hne)]
      exact ⟨hclear.grows hgrows, hnot⟩
    rw [hresolve] at he
    cases he
  rw [ensureManagedParent, hclean, ofExcept_ok_bind]
  dsimp only
  split
  · next hroot => exact hfin w.tree (FileTree.Grows.refl _ _) (by rw [hroot, get_nil])
  next hroot =>
  obtain ⟨hpar, hcomps⟩ := parent_clean hclean hroot
  rw [ensureDirectory, hpar, ofExcept_ok_bind, hcomps]
  refine .bind (.bind (.describe (wp_mkdirAll (fun t hgrows hdir => ?_) ?_
    fun hc t hgrows => ⟨⟨t, hgrows, rfl⟩, not_steady hc⟩)))
  · refine .look ⟨t, hgrows, rfl⟩ (fun hc => not_steady hc) ?_ fun _ _ => hfin t hgrows hdir
    rintro (hf | ⟨e, he⟩)
    · exact hfailing (not_working hf)
    · rw [resolve_of_directory hpar (hcomps.symm ▸ hdir)] at he
      cases he
  · rintro (hf | ⟨e, he⟩) t _ hgrows
    · exact ⟨⟨t, hgrows, rfl⟩, hfailing (not_working hf)⟩
    refine ⟨⟨t, hgrows, rfl⟩, hready.resolve_right fun h => ?_⟩
    obtain ⟨t', ht'⟩ := h.1.mkdirAll_dropLast hne
    rw [ht'] at he
    cases he

/-! ## Records -/

namespace TransactionRecord

/-- The path of the managed file. -/
def location (record : TransactionRecord) : TreePath := components record.path

/-- The journaled original. -/
def original (record : TransactionRecord) : ManagedVersion δ where
  present := record.originalExists
  mode := record.originalMode
  digest := record.originalSHA256

/-- The journaled candidate. -/
def candidate (record : TransactionRecord) : ManagedVersion δ where
  present := record.candidateExists
  mode := record.candidateMode
  digest := record.candidateSHA256

/-- What `readTransactionJournal` makes sure of. -/
structure Valid (record : TransactionRecord) : Prop where
  clean : relative record.path = .ok record.path
  absentOriginal : record.originalExists = false →
    record.originalMode = 0 ∧ record.originalSHA256 = ""
  absentCandidate : record.candidateExists = false →
    record.candidateMode = 0 ∧ record.candidateSHA256 = ""

theorem validMaterial_absent {mode : Nat} {digest : String}
    (h : validMaterial false mode digest = true) : mode = 0 ∧ digest = "" := by
  simpa [validMaterial] using h

theorem valid_of_validRecord {record : TransactionRecord}
    (h : validRecord record = true) : record.Valid := by
  unfold validRecord at h
  split at h
  · next clean hclean =>
    rw [Bool.and_eq_true, beq_iff_eq, validJournalMaterial, Bool.and_eq_true] at h
    obtain ⟨rfl, horig, hcand⟩ := h
    refine ⟨hclean, fun habsent => ?_, fun habsent => ?_⟩
    · rw [habsent] at horig
      exact validMaterial_absent horig
    · rw [habsent] at hcand
      exact validMaterial_absent hcand
  · cases h

theorem parent_ne_location (record : TransactionRecord) :
    record.location.dropLast ≠ record.location := fun heq =>
  not_prefix_dropLast (components_ne_nil record.path) (heq.symm ▸ prefix_rfl)

end TransactionRecord

variable {expected version : ManagedVersion δ} {node : Option (Node δ)}

/-- What the code compares is the version. -/
theorem matches_iff (hver : nodeVersion codec.toContents node = some version) :
    Matches codec node expected ↔ version.present = expected.present ∧
      hasMaterial version expected.mode expected.digest = true := by
  rw [hasMaterial, Bool.and_eq_true, beq_iff_eq, beq_iff_eq, ← sameManagedVersion_iff]
  refine ⟨?_, fun hsame => ⟨version, hver, hsame⟩⟩
  rintro ⟨actual, hactual, hsame⟩
  obtain rfl := Option.some.inj (hver.symm.trans hactual)
  exact hsame

theorem matches_absent (hpres : expected.present = false)
    (hmat : expected.mode = 0 ∧ expected.digest = "") : Matches codec none expected :=
  ⟨{}, rfl, sameManagedVersion_iff.mpr ⟨hpres.symm, hmat.1.symm, hmat.2.symm⟩⟩

/-- A version that is not present is that of nothing. -/
theorem nodeVersion_absent
    (h : nodeVersion codec.toContents node = some version) (habsent : version.present = false) :
    node = none := by
  unfold nodeVersion at h
  split at h
  · rfl
  · cases h
    cases habsent
  · cases h

variable {record : TransactionRecord} {backup : TreePath} {t : FileTree δ}

/-- A record is done: the file is the original, its directory is there, and the
backup is gone or still the original. -/
structure SettledRecord (codec : Codec δ) (record : TransactionRecord) (backup : TreePath)
    (t : FileTree δ) : Prop where
  original : Matches codec (t.get record.location) record.original
  parent : t.get record.location.dropLast = some .directory
  backup : record.originalExists = true →
    t.get backup = none ∨ Matches codec (t.get backup) record.original

/-- A round can do its work: the file is the original or the candidate, and the
backup is there or not needed. -/
structure Ready (codec : Codec δ) (record : TransactionRecord) (backup : TreePath)
    (t : FileTree δ) : Prop where
  clear : t.Clear record.location
  file : Matches codec (t.get record.location) record.original ∨
    Matches codec (t.get record.location) record.candidate
  backup : record.originalExists = true → Matches codec (t.get backup) record.original ∨
    t.get backup = none ∧ Matches codec (t.get record.location) record.original

/-- A file that is the candidate becomes the original: its backup takes its place, or
it goes. -/
structure Restores (codec : Codec δ) (record : TransactionRecord) (backup : TreePath)
    (w w' : World δ) : Prop where
  candidate : Matches codec (w.tree.get record.location) record.candidate
  replaced : ¬Matches codec (w.tree.get record.location) record.original
  original : Matches codec (w'.tree.get record.location) record.original
  change : if record.originalExists then ∃ node, Moves w w' backup record.location node
    else ∃ t, w.tree.Changes t record.location none ∧ w' = { w with tree := t }

/-- The file is restored, or nothing happens. -/
def Tries (codec : Codec δ) (record : TransactionRecord) (backup : TreePath) (w w' : World δ) :
    Prop :=
  w' = w ∨ Restores codec record backup w w'

/-- What a round does: it creates the directory of the file, and restores the file. -/
def Rounds (codec : Codec δ) (record : TransactionRecord) (backup : TreePath) (w w' : World δ) :
    Prop :=
  ∃ t, w.tree.Grows t record.location.dropLast ∧
    Tries codec record backup { w with tree := t } w'

/-! ## The parts of a round -/

variable (hvalid : record.Valid) (hready : failing ∨ Ready codec record backup w.tree)
  (hpar : w.tree.get record.location.dropLast = some .directory)

include hfailing hvalid hready in
theorem snapshot_dependable {good : ManagedVersion δ → World δ → Prop} {safe : World δ → Prop}
    (hsafe : safe w) (h : ∀ version,
      nodeVersion codec.toContents (w.tree.get record.location) = some version → good version w) :
    Dependable (inspect (io [] .snapshot) (snapshotManagedFile codec.toContents · record.path))
      failing (¬io.Steady) good safe w := by
  refine .look hsafe not_steady ?_ fun version hok =>
    h version ((snapshotManagedFile_eq_ok_iff hvalid.clean).mp hok).2
  rintro (hf | ⟨e, he⟩)
  · exact hfailing (not_working hf)
  refine hready.resolve_right fun hr => ?_
  obtain ⟨version, hver⟩ : ∃ version,
      nodeVersion codec.toContents (w.tree.get record.location) = some version := by
    rcases hr.file with ⟨version, hver, -⟩ | ⟨version, hver, -⟩
    · exact ⟨version, hver⟩
    · exact ⟨version, hver⟩
  rw [(snapshotManagedFile_eq_ok_iff hvalid.clean).mpr ⟨hr.clear, hver⟩] at he
  cases he

include hvalid in
/-- The condition on which a backup is moved over its file. -/
theorem candidate_iff
    (hver : nodeVersion codec.toContents (w.tree.get record.location) = some version) :
    (version.present = true ∧ record.candidateExists = true ∧
        hasMaterial version record.candidateMode record.candidateSHA256 = true) ∨
      (¬version.present = true ∧ ¬record.candidateExists = true) ↔
    Matches codec (w.tree.get record.location) record.candidate := by
  constructor
  · rintro (⟨hthere, hexists, hmat⟩ | ⟨hgone, hdeleted⟩)
    · exact (matches_iff hver).mpr ⟨hthere.trans hexists.symm, hmat⟩
    have hdeleted : record.candidateExists = false := by simpa using hdeleted
    rw [nodeVersion_absent hver (by simpa using hgone)]
    exact matches_absent hdeleted (hvalid.absentCandidate hdeleted)
  · intro hcand
    obtain ⟨hpres, hmat⟩ := (matches_iff hver).mp hcand
    cases hthere : version.present with
    | true => exact .inl ⟨rfl, hpres.symm.trans hthere, hmat⟩
    | false => exact .inr ⟨by simp, ne_true_of_eq_false (hpres.symm.trans hthere)⟩

variable {directory : TreePath} {index mode : Nat} {data : δ}

include hfailing hvalid hpar in
/-- A backup that survived restores its file if that is the candidate. -/
theorem restoreBackup_dependable (hpres : record.originalExists = true)
    (hbackup : w.tree.get (transactionBackup directory index) = some (.regular mode data))
    (hready : failing ∨ Ready codec record (transactionBackup directory index) w.tree) :
    Dependable (restoreBackup codec io directory index record record.location
      (withoutData (fileVersion codec.toContents mode data))) failing (¬io.Steady)
      (fun _ w' => Tries codec record (transactionBackup directory index) w w' ∧
        SettledRecord codec record (transactionBackup directory index) w'.tree)
      (Tries codec record (transactionBackup directory index) w) w := by
  have hkept : Matches codec (w.tree.get (transactionBackup directory index)) record.original ↔
      hasMaterial (withoutData (fileVersion codec.toContents mode data)) record.originalMode
        record.originalSHA256 = true := by
    have hver : nodeVersion codec.toContents (some (.regular mode data)) =
        some (fileVersion codec.toContents mode data) := rfl
    rw [hbackup, matches_iff hver]
    exact and_iff_right hpres.symm
  unfold restoreBackup
  split
  · next hmat =>
    refine .raise (.inl rfl) (hready.resolve_right fun hr => hmat (hkept.mp ?_))
    exact (hr.backup hpres).resolve_right fun hnone => by simp [hbackup] at hnone
  next hmat =>
  have hkept := hkept.mpr (not_not.mp hmat)
  refine .bind (snapshot_dependable hfailing hvalid hready (.inl rfl) fun current hcur => ?_)
  split
  · next horig =>
    refine .ret ⟨.inl rfl, ?_, hpar, fun _ => .inr hkept⟩
    exact (matches_iff hcur).mpr ⟨horig.1.trans hpres.symm, horig.2⟩
  next horig =>
  have hother : ¬Matches codec (w.tree.get record.location) record.original := by
    intro hmatches
    obtain ⟨hthere, hmat⟩ := (matches_iff hcur).mp hmatches
    exact horig ⟨hthere.trans hpres, hmat⟩
  have hiff := candidate_iff hvalid hcur
  split
  · next hcond =>
    have hcand := hiff.mp hcond
    have hmoved : ∀ w' node, Moves w w' (transactionBackup directory index) record.location node →
        Tries codec record (transactionBackup directory index) w w' ∧
          SettledRecord codec record (transactionBackup directory index) w'.tree := by
      intro w' node hmoves
      have hself : w'.tree.get record.location =
          w.tree.get (transactionBackup directory index) := by
        rw [hmoves.get, if_pos rfl, hmoves.found]
      refine ⟨.inr ⟨hcand, hother, hself ▸ hkept, if_pos hpres ▸ ⟨node, hmoves⟩⟩, hself ▸ hkept, ?_,
        fun _ => ?_⟩
      · -- The directory of the file is neither the file nor the backup.
        have hsrc : record.location.dropLast ≠ transactionBackup directory index := fun heq =>
          hkept.ne_directory (heq ▸ hpar)
        rw [hmoves.get, if_neg record.parent_ne_location, if_neg hsrc, hpar]
      by_cases hsrc : transactionBackup directory index = record.location
      · rw [hsrc, hself]
        exact .inr hkept
      · exact .inl (by rw [hmoves.get, if_neg hsrc, if_pos rfl])
    refine .describe (wp_rename hmoved ?_ fun hc => ⟨⟨.inl rfl, not_steady hc⟩,
      fun w' node hmoves => ⟨(hmoved w' node hmoves).1, not_steady hc⟩⟩)
    rintro (hf | ⟨e, he⟩) _
    · exact ⟨.inl rfl, hfailing (not_working hf)⟩
    obtain ⟨t, ht⟩ := rename_of_file hbackup hcand.ne_directory (components_ne_nil _) hpar
    rw [ht] at he
    cases he
  · next hcond =>
    exact .raise (.inl rfl) (hready.resolve_right fun hr =>
      hr.file.elim hother fun hcand => hcond (hiff.mpr hcand))

include hfailing hvalid hready hpar in
/-- A file without a backup has to be the original. -/
theorem checkRestored_dependable (hpres : record.originalExists = true)
    (hbackup : w.tree.get backup = none) :
    Dependable (checkRestored codec io record) failing (¬io.Steady)
      (fun _ w' => Tries codec record backup w w' ∧ SettledRecord codec record backup w'.tree)
      (Tries codec record backup w) w := by
  refine .attempt_bind (snapshot_dependable hfailing hvalid hready
    (.inl rfl) fun state hstate => ?_)
    fun _ _ hsafe hfails => .raise hsafe hfails
  dsimp only
  split
  · next horig =>
    refine .ret ⟨.inl rfl, ?_, hpar, fun _ => .inl hbackup⟩
    exact (matches_iff hstate).mpr ⟨horig.1.trans hpres.symm, horig.2⟩
  · next hnot =>
    refine .raise (.inl rfl) (hready.resolve_right fun hr => hnot ?_)
    rcases hr.backup hpres with hkept | ⟨-, hmatches⟩
    · obtain ⟨data, hreg, -⟩ := hkept.of_present hpres
      rw [hbackup] at hreg
      cases hreg
    · obtain ⟨hthere, hmat⟩ := (matches_iff hstate).mp hmatches
      exact ⟨hthere.trans hpres, hmat⟩

include hfailing hvalid hready hpar in
/-- A new file goes if it is the candidate. -/
theorem removeCreated_dependable (habsent : record.originalExists = false) :
    Dependable (removeCreated codec io record record.location) failing (¬io.Steady)
      (fun _ w' => Tries codec record backup w w' ∧ SettledRecord codec record backup w'.tree)
      (Tries codec record backup w) w := by
  have hnone : Matches codec none record.original :=
    matches_absent habsent (hvalid.absentOriginal habsent)
  refine .bind (snapshot_dependable hfailing hvalid hready (.inl rfl) fun state hstate => ?_)
  split
  · next hthere =>
    have hother : ¬Matches codec (w.tree.get record.location) record.original := by
      intro hmatches
      rw [(matches_iff hstate).mp hmatches |>.1] at hthere
      exact absurd hthere (by simp [TransactionRecord.original, habsent])
    split
    · next hcand =>
      refine .raise (.inl rfl) (hready.resolve_right fun hr => ?_)
      obtain ⟨hpres, hmat⟩ := (matches_iff hstate).mp (hr.file.resolve_left hother)
      exact hcand.elim (absurd (hpres.symm.trans hthere)) (absurd hmat)
    next hcand =>
    rw [not_or, not_not, not_not] at hcand
    have hmatches : Matches codec (w.tree.get record.location) record.candidate :=
      (matches_iff hstate).mpr ⟨hthere.trans hcand.1.symm, hcand.2⟩
    have hrem : ∀ t, FileTree.remove w.tree record.location = .ok t →
        Tries codec record backup w { w with tree := t } ∧ SettledRecord codec record backup t := by
      intro t ht
      have hchg := remove_ok ht
      have hself : Matches codec (t.get record.location) record.original := by
        rwa [hchg.get_self]
      refine ⟨.inr ⟨hmatches, hother, hself, ?_⟩, hself, ?_, by simp [habsent]⟩
      · rw [if_neg (by simp [habsent])]
        exact ⟨t, hchg, rfl⟩
      · rw [hchg.get_of_ne record.parent_ne_location, hpar]
    refine .describe (wp_atomicTree hrem ?_ fun hc => ⟨⟨.inl rfl, not_steady hc⟩,
      fun t ht => ⟨(hrem t ht).1, not_steady hc⟩⟩)
    rintro (hf | ⟨e, he⟩) _
    · exact ⟨.inl rfl, hfailing (not_working hf)⟩
    obtain ⟨data, hget, -⟩ := hmatches.of_present hcand.1
    obtain ⟨t, ht⟩ := remove_of_file hget
    rw [ht] at he
    cases he
  · next hgone =>
    refine .ret ⟨.inl rfl, ?_, hpar, by simp [habsent]⟩
    rw [nodeVersion_absent hstate (by simpa using hgone)]
    exact hnone

include hfailing hvalid hpar in
/-- What a round does once the directory of the file is there. -/
theorem recoverRecord_tries
    (hready : failing ∨ Ready codec record (transactionBackup directory index) w.tree) :
    Dependable (if record.originalExists then do
        match ← inspect (io [] .readBackup)
            (regularFileVersion codec.toContents · (transactionBackup directory index)) with
        | some backup => restoreBackup codec io directory index record record.location backup
        | none => checkRestored codec io record
      else removeCreated codec io record record.location) failing (¬io.Steady)
      (fun _ w' => Tries codec record (transactionBackup directory index) w w' ∧
        SettledRecord codec record (transactionBackup directory index) w'.tree)
      (Tries codec record (transactionBackup directory index) w) w := by
  split
  · next hpres =>
    refine .bind (.look (.inl rfl) not_steady ?_ fun found hfound => ?_)
    · rintro (hf | ⟨e, he⟩)
      · exact hfailing (not_working hf)
      refine hready.resolve_right fun hr => ?_
      rcases hr.backup hpres with hkept | ⟨hnone, -⟩
      · obtain ⟨data, hreg, -⟩ := hkept.of_present hpres
        simp [regularFileVersion, hreg] at he
      · simp [regularFileVersion, hnone] at he
    unfold regularFileVersion at hfound
    split at hfound
    · next hnone =>
      cases hfound
      exact checkRestored_dependable hfailing hvalid hready hpar hpres hnone
    · next mode data hreg =>
      cases hfound
      exact restoreBackup_dependable hfailing hvalid hpar hpres hreg hready
    · cases hfound
  · next habsent =>
    exact removeCreated_dependable hfailing hvalid hready hpar (by simpa using habsent)

include hfailing hvalid in
/-- One round of the restore loop, from any tree. -/
theorem recoverRecord_rounds
    (hready : failing ∨ ∀ t, w.tree.Grows t record.location.dropLast →
      Ready codec record (transactionBackup directory index) t) :
    Dependable (recoverRecord codec io directory index record) failing (¬io.Steady)
      (fun _ w' => Rounds codec record (transactionBackup directory index) w w' ∧
        SettledRecord codec record (transactionBackup directory index) w'.tree)
      (Rounds codec record (transactionBackup directory index) w) w := by
  refine .bind ((ensureManagedParent_dependable hfailing hvalid.clean
    (hready.imp_right fun hr => ?_)).mono ?_ ?_ id id)
  · have hr := hr w.tree (FileTree.Grows.refl _ _)
    exact ⟨hr.clear, hr.file.elim Matches.ne_symlink Matches.ne_symlink⟩
  · rintro _ _ ⟨rfl, t, hgrows, hpar, rfl⟩
    exact (recoverRecord_tries hfailing hvalid hpar (hready.imp_right fun hr => hr t hgrows)).mono
      (fun _ _ h => ⟨⟨t, hgrows, h.1⟩, h.2⟩) (fun _ h => ⟨t, hgrows, h⟩) id id
  · rintro _ ⟨t, hgrows, rfl⟩
    exact ⟨t, hgrows, .inl rfl⟩

end Atum.Update
