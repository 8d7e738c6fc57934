import Atum.Update.Atomicity

/-!
# Recovery and foreign edits

What `recoverPreparedTransaction` does to the managed files when the disk holds
anything: backups may be missing or wrong, and other programs may have changed
the files since the update was interrupted.  `Recovery` follows a transaction
through its phases; here the journal is any journal that passes its checks, and
the tree is any tree.

One round of the restore loop touches its file, its backup, and missing
directories above the file (`Round.of_rounds`).  So it can only disturb another
managed file that is missing and in the way, or that is stored as the backup
(`Displaces`).  Recovery respects the managed files exactly if no round disturbs one
(`recovery_respects_edits`).
-/

namespace Atum.Update

open Atum.Go Atum.Config Faults Faults.Prog List FileTree Fates

variable {δ : Type} {codec : Codec δ} {io : Fates δ} {w w' : World δ}

/-! ## Journals -/

theorem validateRecords_ok (records : List TransactionRecord) :
    ∀ {seen : List String} {index : Nat}, validateRecords seen index records = .ok () →
      (∀ record ∈ records, record.Valid ∧ record.path ∉ seen) ∧ (records.map (·.path)).Nodup := by
  induction records with
  | nil => exact fun _ => ⟨by simp, nodup_nil⟩
  | cons record rest ih =>
    intro seen index h
    rw [validateRecords] at h
    split at h
    · cases h
    next hvalid =>
    split at h
    · cases h
    next hfresh =>
    obtain ⟨hrest, hnodup⟩ := ih h
    refine ⟨fun other hother => ?_, nodup_cons.mpr ⟨fun hrepeated => ?_, hnodup⟩⟩
    · rcases mem_cons.mp hother with rfl | hother
      · exact ⟨TransactionRecord.valid_of_validRecord (not_not.mp hvalid), hfresh⟩
      · exact ⟨(hrest other hother).1, fun hseen => (hrest other hother).2 (by simp [hseen])⟩
    · obtain ⟨other, hother, heq⟩ := mem_map.mp hrepeated
      exact (hrest other hother).2 (by simp [heq])

/-- A journal that passes its checks has valid records, and no two for one path. -/
structure TransactionJournal.Checked (journal : TransactionJournal) : Prop where
  valid : ∀ record ∈ journal.files, record.Valid
  unique : ∀ record ∈ journal.files, ∀ other ∈ journal.files,
    record.location = other.location → record = other

theorem TransactionJournal.checked_of_validate {journal : TransactionJournal}
    (h : validateJournal journal = .ok ()) : journal.Checked := by
  unfold validateJournal at h
  split at h
  · cases h
  · obtain ⟨hvalid, hnodup⟩ := validateRecords_ok _ h
    exact ⟨fun record hrec => (hvalid record hrec).1, fun record hrec other hother heq =>
      inj_on_of_nodup_map hnodup hrec hother (components_injective heq)⟩

/-! ## What a round does -/

variable {record other : TransactionRecord} {backup path : TreePath} {t t' : FileTree δ}

/-- The backup takes the place of its file: it is the original, and the file is the
candidate and not the original. -/
structure Restorable (codec : Codec δ) (record : TransactionRecord) (backup : TreePath)
    (t : FileTree δ) : Prop where
  present : record.originalExists = true
  clear : t.Clear record.location
  backup : Matches codec (t.get backup) record.original
  candidate : Matches codec (t.get record.location) record.candidate
  replaced : ¬Matches codec (t.get record.location) record.original

/-- What a round on a record may do to the tree: restore the file if it is the
candidate, consume the backup, and create the directories above the file. -/
def Round (codec : Codec δ) (record : TransactionRecord) (backup : TreePath) (t t' : FileTree δ) :
    Prop :=
  ∀ path, t'.get path = t.get path ∨
    (path = record.location ∧ Matches codec (t.get path) record.candidate ∧
      Matches codec (t'.get path) record.original) ∨
    (path = backup ∧ path ≠ record.location ∧ Restorable codec record backup t ∧
      t'.get path = none) ∨
    (path <+: record.location ∧ path ≠ record.location ∧ t.get path = none ∧
      t'.get path = some .directory)

/-- Restoring a file leaves directories alone. -/
theorem Tries.get_directory (h : Tries codec record backup w w')
    (hdir : w.tree.get path = some .directory) : w'.tree.get path = some .directory := by
  rcases h with rfl | hrestores
  · exact hdir
  have hne : path ≠ record.location := by
    rintro rfl
    exact hrestores.candidate.ne_directory hdir
  have hchange := hrestores.change
  split at hchange
  · obtain ⟨node, hmoves⟩ := hchange
    have hsource : path ≠ backup := by
      rintro rfl
      exact hmoves.file (Option.some.inj (hmoves.found.symm.trans hdir))
    rw [hmoves.get, if_neg hne, if_neg hsource, hdir]
  · obtain ⟨t', hchg, rfl⟩ := hchange
    exact (hchg.get_of_ne hne).trans hdir

/-- Creating the directory of a file does not touch the file. -/
theorem Grows.get_location (h : t.Grows t' record.location.dropLast) :
    t'.get record.location = t.get record.location :=
  h.get_of_not_above (not_prefix_dropLast (components_ne_nil record.path))

/-- The backup that a round consumes could be restored before the round. -/
theorem Restores.restorable {t : FileTree δ} {node : Node δ}
    (hgrows : w.tree.Grows t record.location.dropLast)
    (h : Restores codec record backup { w with tree := t } w')
    (hpresent : record.originalExists = true)
    (hmoves : Moves { w with tree := t } w' backup record.location node) :
    Restorable codec record backup w.tree := by
  have hlocation := Grows.get_location hgrows
  have hplaced : w'.tree.get record.location = some node := by rw [hmoves.get, if_pos rfl]
  have hbackup : w.tree.get backup = some node := by
    rcases hgrows backup with heq | ⟨-, hdir, -⟩
    · rw [← heq, hmoves.found]
    · exact absurd (Option.some.inj (hmoves.found.symm.trans hdir)) hmoves.file
  refine ⟨hpresent, fun above hpre hne => ?_, ?_, hlocation ▸ h.candidate, hlocation ▸ h.replaced⟩
  · -- The file is there in the end, so only directories are above it.
    have hdir := get_above hplaced hpre hne
    rw [hmoves.get, if_neg hne] at hdir
    split at hdir
    · cases hdir
    rcases hgrows above with heq | ⟨hnone, -⟩
    · exact .inr (heq.symm.trans hdir)
    · exact .inl hnone
  · rw [hbackup, ← hplaced]
    exact h.original

theorem Round.of_rounds (h : Rounds codec record backup w w') :
    Round codec record backup w.tree w'.tree := by
  obtain ⟨t, hgrows, htries⟩ := h
  intro path
  -- Directories are only created above the file, where nothing else changes.
  rcases hgrows path with heq | ⟨hnone, hdir, hpre⟩
  · rw [← heq]
    rcases htries with rfl | hrestores
    · exact .inl rfl
    by_cases hpath : path = record.location
    · exact .inr (.inl ⟨hpath, hpath ▸ hrestores.candidate, hpath ▸ hrestores.original⟩)
    have hchange := hrestores.change
    split at hchange
    · next hpresent =>
      obtain ⟨node, hmoves⟩ := hchange
      rw [hmoves.get, if_neg hpath]
      split
      · next hsource =>
        exact .inr (.inr (.inl ⟨hsource, hpath, hrestores.restorable hgrows hpresent hmoves, rfl⟩))
      · exact .inl rfl
    · obtain ⟨t', hchg, rfl⟩ := hchange
      exact .inl (hchg.get_of_ne hpath)
  have hne : path ≠ record.location := by
    rintro rfl
    exact not_prefix_dropLast (components_ne_nil record.path) hpre
  exact .inr (.inr (.inr ⟨above_of_above_dropLast hpre, hne, hnone, htries.get_directory hdir⟩))

/-- A round leaves directories alone. -/
theorem Round.get_directory (h : Round codec record backup t t')
    (hdir : t.get path = some .directory) : t'.get path = some .directory := by
  rcases h path with heq | ⟨-, hcandidate, -⟩ | ⟨hpath, -, hrestorable, -⟩ | ⟨-, -, hnone, -⟩
  · rw [heq, hdir]
  · exact absurd hdir hcandidate.ne_directory
  · exact absurd (hpath ▸ hdir) hrestorable.backup.ne_directory
  · rw [hdir] at hnone
    cases hnone

/-- Before a round nothing but directories was above what is there after it. -/
theorem Round.clear {node : Node δ} (h : Round codec record backup t t')
    (hnode : t'.get path = some node) : t.Clear path := by
  intro above hpre hne
  have hdir := get_above hnode hpre hne
  rcases h above with heq | ⟨-, -, horiginal⟩ | ⟨-, -, -, hgone⟩ | ⟨-, -, hnone, -⟩
  · exact .inr (heq.symm.trans hdir)
  · exact absurd hdir horiginal.ne_directory
  · rw [hdir] at hgone
    cases hgone
  · exact .inl hnone

/-! ## The files in the way of a round -/

variable {directory : TreePath} {index : Nat}

/-- On this tree the round on a record disturbs another managed file: it creates a
directory where the file is missing, or it consumes the file as its backup, and that is
not how the file becomes its original. -/
inductive Displaces (codec : Codec δ) (directory : TreePath) (record : TransactionRecord)
    (index : Nat) (t : FileTree δ) (other : TransactionRecord) : Prop
  | covers (above : other.location <+: record.location)
      (apart : other.location ≠ record.location) (missing : t.get other.location = none)
      (clear : t.Clear other.location)
  | consumes (backup : other.location = transactionBackup directory index)
      (apart : other.location ≠ record.location)
      (restorable : Restorable codec record (transactionBackup directory index) t)
      (wanted : other.originalExists = true ∨ ¬Matches codec (t.get other.location) other.candidate)

/-- What the loop may do to a managed file: nothing, or turn the candidate into
the original. -/
def Respects (codec : Codec δ) (record : TransactionRecord) (t t' : FileTree δ) : Prop :=
  t'.get record.location = t.get record.location ∨
    Matches codec (t.get record.location) record.candidate ∧
      Matches codec (t'.get record.location) record.original

theorem Respects.trans {t'' : FileTree δ} (h : Respects codec record t t')
    (h' : Respects codec record t' t'') : Respects codec record t t'' := by
  rcases h' with heq' | ⟨hcand', horig'⟩
  · unfold Respects
    rw [heq']
    exact h
  · rcases h with heq | ⟨hcand, -⟩
    · exact .inr ⟨heq ▸ hcand', horig'⟩
    · exact .inr ⟨hcand, horig'⟩

/-- A round respects every managed file that it does not disturb. -/
theorem respects_of_round {journal : TransactionJournal} (hchecked : journal.Checked)
    (hrecord : record ∈ journal.files) (hother : other ∈ journal.files)
    (hround : Round codec record (transactionBackup directory index) t t')
    (hkeeps : ¬Displaces codec directory record index t other) : Respects codec other t t' := by
  rcases hround other.location with
    hsame | ⟨hpath, hmatches⟩ | ⟨hpath, hne, hrestorable, hgone⟩ | ⟨hpre, hne, hnone, hdir⟩
  · exact .inl hsame
  · obtain rfl := hchecked.unique other hother record hrecord hpath
    exact .inr hmatches
  · by_cases hnew : other.originalExists = false ∧
        Matches codec (t.get other.location) other.candidate
    · refine .inr ⟨hnew.2, ?_⟩
      rw [hgone]
      exact matches_absent hnew.1 ((hchecked.valid other hother).absentOriginal hnew.1)
    · refine absurd (.consumes hpath hne hrestorable ?_) hkeeps
      rcases Bool.eq_false_or_eq_true other.originalExists with hpresent | habsent
      · exact .inl hpresent
      · exact .inr fun hcandidate => hnew ⟨habsent, hcandidate⟩
  · exact absurd (.covers hpre hne hnone (hround.clear hdir)) hkeeps

section Done

variable (hvalid : record.Valid)

include hvalid

/-- A round in which every call works creates the directories above its file. -/
theorem recoverRecord_covers (habove : path <+: record.location) (hne : path ≠ record.location)
    (hnone : w.tree.get path = none) (hclear : w.tree.Clear path) :
    (recoverRecord codec (fun _ _ => .done) directory index record w).2.tree.get path =
      some .directory := by
  have hensure : Dependable (ensureManagedParent (fun _ _ => .done) record.path) False _ _ _ w :=
    ensureManagedParent_dependable (fun h => h fun _ _ => rfl) hvalid.clean
      (.inr ⟨hclear.below_missing hnone habove, by
        rw [show components record.path = record.location from rfl,
          get_below_missing hnone habove]
        simp⟩)
  rcases wp_exit hensure with
    ⟨canonical, hok, rfl, t, -, hparent, hworld⟩ | ⟨_, -, -, hfalse⟩ | ⟨-, -, hcrash⟩
  · have hdir : t.get path = some .directory := get_above_of_parent hparent habove hne
    have htries := @recoverRecord_tries δ codec (fun _ _ => .done) { w with tree := t } True
      (fun _ => trivial) record hvalid hparent directory index (.inl trivial)
    rw [recoverRecord, bind_of_ok (Prod.ext hok hworld)]
    rcases wp_exit htries with ⟨_, -, htries, -⟩ | ⟨_, -, htries, -⟩ | ⟨-, htries, -⟩
    · exact htries.get_directory hdir
    · exact htries.get_directory hdir
    · exact htries.get_directory hdir
  · exact hfalse.elim
  · exact absurd (fun _ _ => rfl) hcrash

/-- A round in which every call works consumes a backup that can be restored. -/
theorem recoverRecord_consumes
    (h : Restorable codec record (transactionBackup directory index) w.tree)
    (hne : transactionBackup directory index ≠ record.location) :
    (recoverRecord codec (fun _ _ => .done) directory index record w).2.tree.get
      (transactionBackup directory index) = none := by
  have hready : ∀ t, w.tree.Grows t record.location.dropLast →
      Ready codec record (transactionBackup directory index) t := by
    intro t hgrows
    obtain ⟨data, hbackup, -⟩ := h.backup.of_present h.present
    refine ⟨h.clear.grows hgrows, .inr ?_, fun _ => .inl ?_⟩
    · rw [Grows.get_location hgrows]
      exact h.candidate
    · rw [hgrows.get_of_some hbackup, ← hbackup]
      exact h.backup
  have hrun : Dependable (recoverRecord codec (fun _ _ => .done) directory index record) False
      _ _ _ w := recoverRecord_rounds (fun h => h fun _ _ => rfl) hvalid (.inr hready)
  rcases wp_exit hrun with
    ⟨_, -, ⟨t, hgrows, htries⟩, hsettled⟩ | ⟨_, -, -, hfalse⟩ | ⟨-, -, hcrash⟩
  · rcases htries with heq | hrestores
    · have horiginal := hsettled.original
      rw [heq, Grows.get_location hgrows] at horiginal
      exact absurd horiginal h.replaced
    · have hchange := hrestores.change
      rw [if_pos h.present] at hchange
      obtain ⟨node, hmoves⟩ := hchange
      rw [hmoves.get, if_neg hne, if_pos rfl]
  · exact hfalse.elim
  · exact absurd (fun _ _ => rfl) hcrash

/-- Where a round disturbs a managed file, it does not respect the file. -/
theorem Displaces.not_respects (h : Displaces codec directory record index w.tree other) :
    ¬Respects codec other w.tree
      (recoverRecord codec (fun _ _ => .done) directory index record w).2.tree := by
  unfold Respects
  cases h with
  | covers above apart missing clear =>
    rw [recoverRecord_covers hvalid above apart missing clear, missing]
    rintro (heq | ⟨-, horiginal⟩)
    · cases heq
    · exact horiginal.ne_directory rfl
  | consumes hbackup apart restorable wanted =>
    rw [hbackup] at apart wanted ⊢
    rw [recoverRecord_consumes hvalid restorable apart]
    rintro (heq | ⟨hcandidate, horiginal⟩)
    · obtain ⟨data, hdata, -⟩ := restorable.backup.of_present restorable.present
      rw [hdata] at heq
      cases heq
    · rcases wanted with hpresent | hnot
      · obtain ⟨data, hdata, -⟩ := horiginal.of_present hpresent
        cases hdata
      · exact hnot hcandidate

end Done

/-! ## The restore loop -/

/-- A round of the restore loop, with the trees before and after it. -/
structure LoopRound (δ : Type) where
  record : TransactionRecord
  index : Nat
  before : FileTree δ
  after : FileTree δ

/-- The rounds that the loop of `recoverPreparedTransaction` comes to. -/
def recoveryRounds (codec : Codec δ) (io : Fates δ) (directory : TreePath) :
    List (TransactionRecord × Nat) → World δ → List (LoopRound δ)
  | [], _ => []
  | (record, index) :: rest, w =>
    let run := recoverRecord codec (io.within (.round index)) directory index record w
    { record, index, before := w.tree, after := run.2.tree } ::
      match run.1 with
      | .ok _ => recoveryRounds codec io directory rest run.2
      | _ => []

variable {round : LoopRound δ} {records : List (TransactionRecord × Nat)}

theorem mem_recoveryRounds_cons : round ∈ recoveryRounds codec io directory
      ((record, index) :: records) w ↔
    round = { record, index, before := w.tree, after :=
      (recoverRecord codec (io.within (.round index)) directory index record w).2.tree } ∨
    ∃ u w', recoverRecord codec (io.within (.round index)) directory index record w =
      (.ok u, w') ∧ round ∈ recoveryRounds codec io directory records w' := by
  rw [recoveryRounds, mem_cons]
  refine or_congr_right ?_
  cases hrun : recoverRecord codec (io.within (.round index)) directory index record w with
  | mk exit w' => cases exit <;> simp

/-- A round of the loop is a run of `recoverRecord` on one of the records. -/
theorem run_of_mem_recoveryRounds (records : List (TransactionRecord × Nat)) :
    ∀ {w : World δ}, round ∈ recoveryRounds codec io directory records w →
      (round.record, round.index) ∈ records ∧ ∃ w₁ : World δ, w₁.tree = round.before ∧
        (recoverRecord codec (io.within (.round round.index)) directory round.index
          round.record w₁).2.tree = round.after := by
  induction records with
  | nil => simp [recoveryRounds]
  | cons entry rest ih =>
    intro w h
    rcases mem_recoveryRounds_cons.mp h with rfl | ⟨_, w', -, hrest⟩
    · exact ⟨mem_cons_self, w, rfl, rfl⟩
    · exact ⟨mem_cons_of_mem _ (ih hrest).1, (ih hrest).2⟩

theorem ensureManagedParent_follows (io : Fates δ) (path : String) :
    Follows (ensureManagedParent io path) (ensureManagedParent (fun _ _ => .done) path) := by
  refine .bind (.refl _) fun clean => ?_
  have hresolve : Follows
      (do inspect (io [] .resolve) (resolve · clean true); return components clean)
      (do inspect .done (resolve · clean true); return components clean) :=
    .bind (.look _) fun _ => .refl _
  refine .ite hresolve (.bind (.bind (.refl _) fun parent => ?_) fun _ => hresolve)
  exact .bind (.describe (.perform _)) fun _ => .look _

theorem restoreBackup_follows (io : Fates δ) (directory : TreePath) (index : Nat)
    (record : TransactionRecord) (canonical : TreePath) (backup : ManagedVersion δ) :
    Follows (restoreBackup codec io directory index record canonical backup)
      (restoreBackup codec (fun _ _ => .done) directory index record canonical backup) :=
  .ite (.refl _) (.bind (.look _) fun _ =>
    .ite (.refl _) (.ite (.describe (.perform _)) (.refl _)))

theorem checkRestored_follows (io : Fates δ) (record : TransactionRecord) :
    Follows (checkRestored codec io record) (checkRestored codec (fun _ _ => .done) record) := by
  refine .attempt_bind (.look _) (fun state => .refl _) fun e w b w' h => ?_
  cases h

theorem removeCreated_follows (io : Fates δ) (record : TransactionRecord) (canonical : TreePath) :
    Follows (removeCreated codec io record canonical)
      (removeCreated codec (fun _ _ => .done) record canonical) :=
  .bind (.look _) fun _ => .ite (.ite (.refl _) (.describe (.perform _))) (.refl _)

/-- A round that ends well does what it does if every call works. -/
theorem recoverRecord_follows (io : Fates δ) (directory : TreePath) (index : Nat)
    (record : TransactionRecord) :
    Follows (recoverRecord codec io directory index record)
      (recoverRecord codec (fun _ _ => .done) directory index record) := by
  refine .bind (ensureManagedParent_follows io record.path) fun canonical => ?_
  refine .ite (.bind (.look _) fun found => ?_) (removeCreated_follows io record canonical)
  cases found with
  | some backup => exact restoreBackup_follows io directory index record canonical backup
  | none => exact checkRestored_follows io record

/-- Whatever happens to its calls, the loop comes to no other rounds than if every call
works. -/
theorem recoveryRounds_follow (records : List (TransactionRecord × Nat)) :
    ∀ {w : World δ}, round ∈ recoveryRounds codec io directory records w →
      ∃ round' ∈ recoveryRounds codec (fun _ _ => .done) directory records w,
        round'.record = round.record ∧ round'.index = round.index ∧
          round'.before = round.before := by
  induction records with
  | nil => simp [recoveryRounds]
  | cons entry rest ih =>
    intro w h
    rcases mem_recoveryRounds_cons.mp h with rfl | ⟨u, w', hrun, hrest⟩
    · exact ⟨_, mem_recoveryRounds_cons.mpr (.inl rfl), rfl, rfl, rfl⟩
    · obtain ⟨round', hround', heq⟩ := ih hrest
      exact ⟨round', mem_recoveryRounds_cons.mpr
        (.inr ⟨u, w', recoverRecord_follows _ _ _ _ w u w' hrun, hround'⟩), heq⟩

/-- The file is the original, and its directory is there. -/
structure Placed (codec : Codec δ) (record : TransactionRecord) (t : FileTree δ) : Prop where
  original : Matches codec (t.get record.location) record.original
  parent : t.get record.location.dropLast = some .directory

/-- Some rounds of the loop: they respect every managed file, and a file that is in its
place stays there. -/
structure Advances (codec : Codec δ) (journal : TransactionJournal) (t t' : FileTree δ) :
    Prop where
  respects : ∀ record ∈ journal.files, Respects codec record t t'
  placed : ∀ record ∈ journal.files, Placed codec record t → Placed codec record t'

variable {journal : TransactionJournal}

theorem Advances.refl (t : FileTree δ) : Advances codec journal t t :=
  ⟨fun _ _ => .inl rfl, fun _ _ h => h⟩

theorem Advances.trans {t'' : FileTree δ} (h : Advances codec journal t t')
    (h' : Advances codec journal t' t'') : Advances codec journal t t'' :=
  ⟨fun record hrec => (h.respects record hrec).trans (h'.respects record hrec),
    fun record hrec hplaced => h'.placed record hrec (h.placed record hrec hplaced)⟩

theorem Advances.of_round (hround : Round codec record backup t t')
    (hrespects : ∀ other ∈ journal.files, Respects codec other t t') :
    Advances codec journal t t' := by
  refine ⟨hrespects, fun other hother hplaced => ⟨?_, hround.get_directory hplaced.parent⟩⟩
  rcases hrespects other hother with hsame | ⟨-, horiginal⟩
  · rw [hsame]
    exact hplaced.original
  · exact horiginal

/-- If every round respects the managed files, so does the loop, wherever it stops; and if
it ends well every file that it came to is in its place. -/
theorem recoverRecords_advances (hchecked : journal.Checked)
    (records : List (TransactionRecord × Nat))
    (hrecs : ∀ entry ∈ records, entry.1 ∈ journal.files) :
    ∀ {w : World δ}, (∀ round ∈ recoveryRounds codec io directory records w,
        ∀ record ∈ journal.files, Respects codec record round.before round.after) →
      Guarded (recoverRecords codec io directory records)
        (fun _ w' => Advances codec journal w.tree w'.tree ∧
          ∀ entry ∈ records, Placed codec entry.1 w'.tree)
        (fun w' => Advances codec journal w.tree w'.tree) w := by
  induction records with
  | nil => exact fun _ => .ret ⟨Advances.refl _, by simp⟩
  | cons entry rest ih =>
    intro w hrounds
    obtain ⟨record, index⟩ := entry
    have hrecord : record ∈ journal.files := hrecs (record, index) (by simp)
    have hrun : Guarded (recoverRecord codec (io.within (.round index)) directory index record)
        _ _ w := (recoverRecord_rounds (fun _ => trivial) (hchecked.valid record hrecord)
          (.inl trivial)).guarded
    have hadvances : ∀ w₁, (recoverRecord codec (io.within (.round index)) directory index
        record w).2 = w₁ → Rounds codec record (transactionBackup directory index) w w₁ →
        Advances codec journal w.tree w₁.tree := by
      rintro _ rfl hround
      exact .of_round (Round.of_rounds hround)
        (hrounds _ (mem_recoveryRounds_cons.mpr (.inl rfl)))
    refine .bind ((Guarded.of_run hrun).mono ?_ fun w₁ ⟨hworld, hround⟩ =>
      hadvances w₁ hworld hround)
    rintro u w₁ ⟨hok, hround, hsettled⟩
    have hfirst := hadvances w₁ (congrArg Prod.snd hok) hround
    have hrest : ∀ round ∈ recoveryRounds codec io directory rest w₁,
        ∀ record ∈ journal.files, Respects codec record round.before round.after :=
      fun round hmem => hrounds round (mem_recoveryRounds_cons.mpr (.inr ⟨u, w₁, hok, hmem⟩))
    refine (ih (fun entry hentry => hrecs entry (by simp [hentry])) hrest).mono ?_
      fun w₂ h₂ => hfirst.trans h₂
    rintro _ w₂ ⟨h₂, hplaced⟩
    exact ⟨hfirst.trans h₂, forall_mem_cons.mpr
      ⟨h₂.placed record hrecord ⟨hsettled.original, hsettled.parent⟩, hplaced⟩⟩

theorem recoverPreparedTransaction_advances (hchecked : journal.Checked)
    (hrounds : ∀ round ∈ recoveryRounds codec io directory journal.files.zipIdx.reverse w,
      ∀ record ∈ journal.files, Respects codec record round.before round.after) :
    Guarded (recoverPreparedTransaction codec io directory journal)
      (fun _ w' => Advances codec journal w.tree w'.tree ∧
        ∀ record ∈ journal.files, Placed codec record w'.tree)
      (fun w' => Advances codec journal w.tree w'.tree) w := by
  have hrecs : ∀ entry ∈ journal.files.zipIdx.reverse, entry.1 ∈ journal.files :=
    fun entry hent => fst_mem_of_mem_zipIdx (mem_reverse.mp hent)
  refine .bind ((recoverRecords_advances hchecked _ hrecs hrounds).imp fun _ w₁ ⟨h₁, hplaced⟩ => ?_)
  refine .look h₁ fun _ _ => ⟨h₁, fun record hrecord => ?_⟩
  obtain ⟨index, hat⟩ := List.getElem?_of_mem hrecord
  exact hplaced (record, index) (mem_reverse.mpr (mem_zipIdx_iff_getElem?.mpr hat))

/-! ## A second run -/

theorem Placed.congr (h : Placed codec record t) (heq : t'.get = t.get) : Placed codec record t' :=
  ⟨by rw [heq]; exact h.original, by rw [heq]; exact h.parent⟩

/-- A round on a file in its place changes nothing. -/
theorem recoverRecord_placed (hvalid : record.Valid) (h : Placed codec record w.tree) :
    Guarded (recoverRecord codec io directory index record)
      (fun _ w' => w'.tree.get = w.tree.get) (fun w' => w'.tree.get = w.tree.get) w := by
  have hsame : ∀ w', Rounds codec record (transactionBackup directory index) w w' →
      w'.tree.get = w.tree.get := by
    rintro w' ⟨t, hgrows, htries⟩
    have heq := hgrows.get_eq h.parent
    rcases htries with rfl | hrestores
    · exact heq
    · exact absurd (h.congr heq).original hrestores.replaced
  exact (recoverRecord_rounds (fun _ => trivial) hvalid (.inl trivial)).guarded.mono
    (fun _ w' h' => hsame w' h'.1) hsame

theorem recoverRecords_placed (records : List (TransactionRecord × Nat)) :
    ∀ {w : World δ}, (∀ entry ∈ records, entry.1.Valid ∧ Placed codec entry.1 w.tree) →
      Guarded (recoverRecords codec io directory records)
        (fun _ w' => w'.tree.get = w.tree.get) (fun w' => w'.tree.get = w.tree.get) w := by
  induction records with
  | nil => exact fun _ => .ret rfl
  | cons entry rest ih =>
    intro w h
    obtain ⟨⟨hvalid, hplaced⟩, hrest⟩ := forall_mem_cons.mp h
    refine .bind ((recoverRecord_placed hvalid hplaced).imp fun _ w₁ heq => ?_)
    have hnext : ∀ entry ∈ rest, entry.1.Valid ∧ Placed codec entry.1 w₁.tree :=
      fun entry hentry => ⟨(hrest entry hentry).1, (hrest entry hentry).2.congr heq⟩
    exact (ih hnext).mono (fun _ w₂ heq₂ => heq₂.trans heq) fun w₂ heq₂ => heq₂.trans heq

theorem recoverPreparedTransaction_placed (hchecked : journal.Checked)
    (h : ∀ record ∈ journal.files, Placed codec record w.tree) :
    Guarded (recoverPreparedTransaction codec io directory journal)
      (fun _ w' => w'.tree.get = w.tree.get) (fun w' => w'.tree.get = w.tree.get) w := by
  refine .bind ((recoverRecords_placed _ fun entry hentry => ?_).imp fun _ w₁ heq =>
    .look heq fun _ _ => heq)
  have hrecord := fst_mem_of_mem_zipIdx (mem_reverse.mp hentry)
  exact ⟨hchecked.valid _ hrecord, h _ hrecord⟩

/-! ## The result -/

/-- A recovery respects the managed files: every round, and so the whole run, only turns
candidates into originals; a file that is neither stops it and stays as it is; and after
success a second run changes nothing. -/
structure RespectsEdits (codec : Codec δ) (directory : TreePath) (journal : TransactionJournal)
    (io : Fates δ) (w : World δ) : Prop where
  rounds : ∀ round ∈ recoveryRounds codec io directory journal.files.zipIdx.reverse w,
    ∀ record ∈ journal.files, Respects codec record round.before round.after
  respects : ∀ record ∈ journal.files, Respects codec record w.tree
    (recoverPreparedTransaction codec io directory journal w).2.tree
  refuses : ∀ record ∈ journal.files,
    ¬Matches codec (w.tree.get record.location) record.original →
    ¬Matches codec (w.tree.get record.location) record.candidate →
      (recoverPreparedTransaction codec io directory journal w).1 ≠ .ok () ∧
        (recoverPreparedTransaction codec io directory journal w).2.tree.get record.location =
          w.tree.get record.location
  repeats : (recoverPreparedTransaction codec io directory journal w).1 = .ok () → ∀ again,
    (recoverPreparedTransaction codec again directory journal
        (recoverPreparedTransaction codec io directory journal w).2).2.tree.get =
      (recoverPreparedTransaction codec io directory journal w).2.tree.get

/-- If every round respects the managed files, so does the recovery. -/
theorem respectsEdits_of_rounds (hchecked : journal.Checked)
    (hrounds : ∀ round ∈ recoveryRounds codec io directory journal.files.zipIdx.reverse w,
      ∀ record ∈ journal.files, Respects codec record round.before round.after) :
    RespectsEdits codec directory journal io w := by
  have hwp : Guarded (recoverPreparedTransaction codec io directory journal) _ _ w :=
    recoverPreparedTransaction_advances hchecked hrounds
  have hrun := wp_exit hwp
  have hadvances : Advances codec journal w.tree
      (recoverPreparedTransaction codec io directory journal w).2.tree := by
    rcases hrun with ⟨_, -, hpost, -⟩ | ⟨_, -, hpost⟩ | ⟨-, hcrash⟩
    · exact hpost
    · exact hpost
    · exact hcrash
  have hplaced : (recoverPreparedTransaction codec io directory journal w).1 = .ok () →
      ∀ record ∈ journal.files, Placed codec record
        (recoverPreparedTransaction codec io directory journal w).2.tree := by
    intro hok
    rcases hrun with ⟨_, -, -, hpost⟩ | ⟨_, herror, -⟩ | ⟨hcrashed, -⟩
    · exact hpost
    · cases hok.symm.trans herror
    · cases hok.symm.trans hcrashed
  refine ⟨hrounds, hadvances.respects, fun record hrecord horiginal hcandidate => ?_,
    fun hok again => ?_⟩
  · have hsame := (hadvances.respects record hrecord).resolve_right fun h => hcandidate h.1
    exact ⟨fun hok => horiginal (hsame ▸ (hplaced hok record hrecord).original), hsame⟩
  · have hrerun : Guarded (recoverPreparedTransaction codec again directory journal) _ _
        (recoverPreparedTransaction codec io directory journal w).2 :=
      recoverPreparedTransaction_placed hchecked (hplaced hok)
    rcases wp_exit hrerun with ⟨_, -, hsame⟩ | ⟨_, -, hsame⟩ | ⟨-, hsame⟩
    · exact hsame
    · exact hsame
    · exact hsame

instance (node : Option (Node δ)) (version : ManagedVersion δ) :
    Decidable (Matches codec node version) :=
  decidable_of_iff ((nodeVersion codec.toContents node).any (sameManagedVersion · version) = true)
    (by simp [Matches, Option.any_eq_true])

/-- Two new files, one below the other. -/
def nestedJournal : TransactionJournal where
  schemaVersion := transactionSchema
  state := .prepared
  files := [
    { path := "a", originalExists := false, originalMode := 0, originalSHA256 := "",
      candidateExists := true, candidateMode := 0o644,
      candidateSHA256 := sampleCodec.hash (.file 1) },
    { path := "a/b", originalExists := false, originalMode := 0, originalSHA256 := "",
      candidateExists := true, candidateMode := 0o644,
      candidateSHA256 := sampleCodec.hash (.file 2) }]

/-- Two files that are replaced, the first of them stored as the backup of the second. -/
def lodgedJournal (directory : TreePath) : TransactionJournal where
  schemaVersion := transactionSchema
  state := .prepared
  files := [
    { path := slashed (transactionBackup directory 1), originalExists := true,
      originalMode := 0o644, originalSHA256 := sampleCodec.hash (.file 1),
      candidateExists := true, candidateMode := 0o644,
      candidateSHA256 := sampleCodec.hash (.file 3) },
    { path := "a", originalExists := true, originalMode := 0o644,
      originalSHA256 := sampleCodec.hash (.file 1), candidateExists := true,
      candidateMode := 0o644, candidateSHA256 := sampleCodec.hash (.file 2) }]

/-- The backups of the transaction, with one file in them, and a replaced file. -/
def lodgedTree : Except Errno (FileTree Sample) := do
  let t ← FileTree.empty.mkdirAll (transactionDirectory sampleNames.entropy.id ++ ["backup"])
  let t ← t.create (transactionBackup (transactionDirectory sampleNames.entropy.id) 1) 0o644
      (.file 1)
  t.create ["a"] 0o644 (.file 2)

end Atum.Update
