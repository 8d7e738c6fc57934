import Atum.Update.Rounds

/-!
# Staging

Before the prepared journal is published, `Commit` stages the candidates and copies the
originals.  All of that adds files to the transaction directory and touches nothing that
was there before (`Adds`), so what one round has staged stays in its place, and a round
that fails leaves nothing behind but more of such files (`stage_dependable`).
-/

namespace Atum.Update

open Atum.Go Atum.Config Faults Faults.Prog List FileTree Fates

variable {δ : Type} {codec : Codec δ} {io : Fates δ} {w w' w₁ : World δ}

/-- A path in a transaction directory that is not the journal. -/
def ScratchIn (directory path : TreePath) : Prop :=
  directory <+: path ∧ path ≠ directory ∧ path ≠ journalPath directory

/-- There are new files in the transaction directory, and nothing else has changed. -/
structure Adds (directory : TreePath) (w w' : World δ) : Prop where
  keeps : w.tree.Extends w'.tree
  outside : w.tree.SameOutside (ScratchIn directory) w'.tree
  renamed : w'.renamed = w.renamed

variable {directory path : TreePath} {t : FileTree δ} {value : Option (Node δ)}

theorem Adds.refl (directory : TreePath) (w : World δ) : Adds directory w w :=
  ⟨FileTree.Extends.refl _, FileTree.SameOutside.refl _ _, rfl⟩

theorem Adds.trans (h : Adds directory w w₁) (h' : Adds directory w₁ w') : Adds directory w w' :=
  ⟨h.keeps.trans h'.keeps, h.outside.trans h'.outside, h'.renamed.trans h.renamed⟩

theorem Adds.of_changes (hpath : ScratchIn directory path) (hnone : w.tree.get path = none)
    (h : w.tree.Changes t path value) : Adds directory w { w with tree := t } :=
  ⟨h.extends hnone, fun _ hother => h.get_of_ne fun heq => hother (heq ▸ hpath), rfl⟩

/-- A part that adds files, after others. -/
theorem Adds.then {α : Type} {x : Prog δ α} {failing crashing : Prop} {good : α → World δ → Prop}
    (h : Adds directory w w₁)
    (hx : Dependable x failing crashing (fun a w' => Adds directory w₁ w' ∧ good a w')
      (Adds directory w₁) w₁) :
    Dependable x failing crashing (fun a w' => Adds directory w w' ∧
      Adds directory w₁ w' ∧ good a w')
      (Adds directory w) w₁ :=
  hx.mono (fun _ _ h' => ⟨h.trans h'.1, h'.1, h'.2⟩) (fun _ h' => h.trans h')
    (fun h => h) fun h => h

theorem write_dependable {fate : Fate δ} {mode : Nat} {data : δ} {crashing : Prop}
    (hpath : ScratchIn directory path) (hcrash : fate.isCrash = true → crashing) :
    Dependable (call fate (.write path mode data)) True crashing
      (fun _ w' => Adds directory w w' ∧ w'.tree.get path = some (.regular mode data))
      (Adds directory w) w := by
  have hwriting : ∀ t, Writing w.tree t path → Adds directory w { w with tree := t } := by
    rintro t (rfl | ⟨hnone, _, _, ht⟩)
    · exact Adds.refl _ _
    · exact .of_changes hpath hnone ht
  exact wp_write (fun t hnone ht => ⟨.of_changes hpath hnone ht, ht.get_self⟩)
    (fun _ t _ ht => ⟨hwriting t ht, trivial⟩) fun hc t ht => ⟨hwriting t ht, hcrash hc⟩

theorem mkdir_dependable {fate : Fate δ} {crashing : Prop} (hpath : ScratchIn directory path)
    (hcrash : fate.isCrash = true → crashing) :
    Dependable (call fate (.mkdir path)) True crashing (fun _ w' => Adds directory w w' ∧ True)
      (Adds directory w) w := by
  have hmade : ∀ t, w.tree.mkdir path = .ok t → Adds directory w { w with tree := t } :=
    fun t ht => .of_changes hpath (mkdir_ok ht).1 (mkdir_ok ht).2
  exact wp_atomicTree (fun t ht => ⟨hmade t ht, trivial⟩) (fun _ _ => ⟨.refl _ _, trivial⟩)
    fun hc => ⟨⟨.refl _ _, hcrash hc⟩, fun t ht => ⟨hmade t ht, hcrash hc⟩⟩

/-! ## One file -/

variable {index : Nat} {file : String × TransactionEntry δ}

theorem scratchIn_candidate (directory : TreePath) (index : Nat) :
    ScratchIn directory (transactionCandidate directory index) :=
  ⟨prefix_append _ _, by simp [transactionCandidate],
    by simp [transactionCandidate, journalPath]⟩

theorem scratchIn_backup (directory : TreePath) (index : Nat) :
    ScratchIn directory (transactionBackup directory index) :=
  ⟨prefix_append _ _, by simp [transactionBackup], by simp [transactionBackup, journalPath]⟩

/-- The candidate of a file is staged, and its bytes are copied. -/
structure StagedFile (codec : Codec δ) (directory : TreePath) (index : Nat)
    (file : String × TransactionEntry δ) (t : FileTree δ) : Prop where
  candidate : file.2.candidate.present = true →
    t.get (transactionCandidate directory index) = candidateNode codec file.2
  backup : file.2.expected.present = true → ∃ mode data,
    t.get (location file) = some (.regular mode data) ∧
      t.get (transactionBackup directory index) = some (.regular file.2.expected.mode data)

theorem Adds.candidate (h : Adds directory w w') (hcand : file.2.candidate.present = true →
      w.tree.get (transactionCandidate directory index) = candidateNode codec file.2)
    (hpres : file.2.candidate.present = true) :
    w'.tree.get (transactionCandidate directory index) = candidateNode codec file.2 := by
  rw [candidateNode, if_pos hpres] at hcand ⊢
  exact h.keeps _ _ (hcand hpres)

theorem StagedFile.adds (h : StagedFile codec directory index file w.tree)
    (hadds : Adds directory w w') : StagedFile codec directory index file w'.tree := by
  refine ⟨hadds.candidate h.candidate, fun hpres => ?_⟩
  obtain ⟨mode, data, hfile, hbackup⟩ := h.backup hpres
  exact ⟨mode, data, hadds.keeps _ _ hfile, hadds.keeps _ _ hbackup⟩

theorem stageCandidate_dependable : Dependable (stageCandidate codec io directory index file)
    True (¬io.Steady) (fun _ w' => Adds directory w w' ∧ (file.2.candidate.present = true →
      w'.tree.get (transactionCandidate directory index) = candidateNode codec file.2))
    (Adds directory w) w := by
  unfold stageCandidate
  split
  · next hpres =>
    refine .describe ((write_dependable (scratchIn_candidate directory index) not_steady).imp
      fun _ _ h => ⟨h.1, fun _ => ?_⟩)
    rw [h.2, candidateNode, if_pos hpres]
  · next habsent => exact .ret ⟨.refl _ _, fun hpres => absurd hpres habsent⟩

theorem backupFile_dependable : Dependable (backupFile codec io directory index file)
    True (¬io.Steady) (fun _ w' => Adds directory w w' ∧ ∃ mode data,
      w'.tree.get (location file) = some (.regular mode data) ∧
        w'.tree.get (transactionBackup directory index) =
          some (.regular file.2.expected.mode data)) (Adds directory w) w := by
  have hself := Adds.refl directory w
  -- The path is resolved, and then the file is read.
  refine .bind (.look hself not_steady (fun _ => trivial) fun _ _ => ?_)
  refine .bind (.describe (.look hself not_steady (fun _ => trivial) fun data hread => ?_))
  obtain ⟨mode, hfile⟩ : ∃ mode, w.tree.get (location file) = some (.regular mode data) := by
    unfold readFile at hread
    split at hread
    · next mode _ hget =>
      cases hread
      exact ⟨mode, hget⟩
    all_goals cases hread
  -- The backup is written.
  refine .bind (.describe ((write_dependable (scratchIn_backup directory index) not_steady).imp ?_))
  rintro _ w₁ ⟨hadds, hbackup⟩
  -- The backup is read again, and compared with the version that is expected.
  refine .bind (.describe (.look hadds not_steady (fun _ => trivial) fun backup _ => ?_))
  split
  · exact .ret ⟨hadds, mode, data, hadds.keeps _ _ hfile, hbackup⟩
  · exact .raise hadds trivial

theorem stageFile_dependable : Dependable (stageFile codec io directory index file) True
    (¬io.Steady) (fun _ w' => Adds directory w w' ∧ StagedFile codec directory index file w'.tree)
    (Adds directory w) w := by
  refine .bind (stageCandidate_dependable.imp fun _ w₁ h₁ => ?_)
  obtain ⟨hadds, hcandidate⟩ := h₁
  split
  · refine (hadds.then backupFile_dependable).imp fun _ w₂ h₂ => ?_
    obtain ⟨hadds', hmore, hbackup⟩ := h₂
    exact ⟨hadds', hmore.candidate hcandidate, fun _ => hbackup⟩
  · next habsent => exact .ret ⟨hadds, hcandidate, fun hpres => absurd hpres habsent⟩

/-! ## The staging loop -/

/-- The files of a list are staged from an index on. -/
def StagedFiles (codec : Codec δ) (directory : TreePath) (index : Nat)
    (files : List (String × TransactionEntry δ)) (t : FileTree δ) : Prop :=
  ∀ offset file, files[offset]? = some file → StagedFile codec directory (index + offset) file t

theorem stageFiles_dependable (files : List (String × TransactionEntry δ)) :
    ∀ {index : Nat} {w : World δ}, Dependable (stageFiles codec io directory index files) True
      (¬io.Steady) (fun _ w' => Adds directory w w' ∧
        StagedFiles codec directory index files w'.tree)
      (Adds directory w) w := by
  induction files with
  | nil => exact .ret ⟨.refl _ _, fun offset file hfile => by simp at hfile⟩
  | cons file rest ih =>
    intro index w
    refine .bind (stageFile_dependable.mono (fun _ w₁ h₁ => ?_) (fun _ h => h) (fun h => h)
      not_steady_of_within)
    refine (h₁.1.then ih).imp ?_
    rintro _ w' ⟨hadds, hadds', hrest⟩
    refine ⟨hadds, fun offset other hother => ?_⟩
    cases offset with
    | zero =>
      obtain rfl : file = other := by simpa using hother
      exact h₁.2.adds hadds'
    | succ offset =>
      have hplace := hrest offset other (by simpa using hother)
      rwa [Nat.add_assoc, Nat.add_comm 1 offset] at hplace

theorem stage_dependable {transaction : FileTransaction codec} {id : String} :
    Dependable (transaction.stage io id) True (¬io.Steady)
      (fun _ w' => Adds (transactionDirectory id) w w' ∧
        StagedFiles codec (transactionDirectory id) 0 transaction.changed w'.tree)
      (Adds (transactionDirectory id) w) w := by
  have hscratch : ∀ name, name ≠ "journal.json" →
      ScratchIn (transactionDirectory id) (transactionDirectory id ++ [name]) := fun name hname =>
    ⟨prefix_append _ _, by simp, by simpa [journalPath] using hname⟩
  -- The two directories of the transaction are made.
  refine .bind (.describe ((mkdir_dependable (hscratch _ (by decide)) not_steady).imp ?_))
  rintro _ w₁ ⟨hadds₁, -⟩
  refine .bind (.describe ((hadds₁.then
    (mkdir_dependable (hscratch _ (by decide)) not_steady)).imp ?_))
  rintro _ w₂ ⟨hadds₂, -⟩
  -- The files are staged, and the directories are made durable.
  refine .bind ((hadds₂.then (stageFiles_dependable _)).imp ?_)
  rintro _ w₃ ⟨hadds, -, hstaged⟩
  refine .bind (.look hadds not_steady (fun _ => trivial) fun _ _ => ?_)
  exact .look hadds not_steady (fun _ => trivial) fun _ _ => ⟨hadds, hstaged⟩

/-! ## Writing the journal -/

/-- The temporary file of a journal. -/
def temporaryJournal (directory : TreePath) (suffix : String) : TreePath :=
  directory ++ [".journal-" ++ suffix]

/-- The journal was not published. -/
structure Unwritten (directory : TreePath) (suffix : String) (w w' : World δ) : Prop where
  get : ∀ path, path ≠ temporaryJournal directory suffix → w'.tree.get path = w.tree.get path
  renamed : w'.renamed = w.renamed

/-- The journal was published. -/
structure Written (codec : Codec δ) (directory : TreePath) (suffix : String)
    (journal : TransactionJournal) (w w' : World δ) : Prop where
  published : w'.tree.get (journalPath directory) = some (.regular 0o600 (codec.encode journal))
  get : ∀ path, path ≠ temporaryJournal directory suffix → path ≠ journalPath directory →
    w'.tree.get path = w.tree.get path
  renamed : w'.renamed = w.renamed ++
    [(journalPath directory, .regular 0o600 (codec.encode journal))]

theorem journalPath_ne_temporary (directory : TreePath) (suffix : String) :
    journalPath directory ≠ temporaryJournal directory suffix := by
  intro h
  have hname : "journal.json" = ".journal-" ++ suffix := by
    simpa [journalPath, temporaryJournal] using h
  have hchars := congrArg String.toList hname
  rw [String.toList_append] at hchars
  cases hchars

variable {suffix : String} {journal : TransactionJournal}

/-- Removing the temporary file does not matter. -/
theorem Unwritten.changes (h : Unwritten directory suffix w w')
    (ht : w'.tree.Changes t (temporaryJournal directory suffix) value) :
    Unwritten directory suffix w { w' with tree := t } :=
  ⟨fun path hne => (ht.get_of_ne hne).trans (h.get path hne), h.renamed⟩

theorem Written.changes (h : Written codec directory suffix journal w w')
    (ht : w'.tree.Changes t (temporaryJournal directory suffix) value) :
    Written codec directory suffix journal w { w' with tree := t } :=
  ⟨(ht.get_of_ne (journalPath_ne_temporary directory suffix)).trans h.published,
    fun path hne hne' => (ht.get_of_ne hne).trans (h.get path hne hne'), h.renamed⟩

theorem Written.get_candidate (h : Written codec directory suffix journal w w') (index : Nat) :
    w'.tree.get (transactionCandidate directory index) =
      w.tree.get (transactionCandidate directory index) :=
  h.get _ (by simp [transactionCandidate, temporaryJournal])
    (by simp [transactionCandidate, journalPath])

theorem Written.get_backup (h : Written codec directory suffix journal w w') (index : Nat) :
    w'.tree.get (transactionBackup directory index) =
      w.tree.get (transactionBackup directory index) :=
  h.get _ (by simp [transactionBackup, temporaryJournal]) (by simp [transactionBackup, journalPath])

/-- What is outside of the transaction root does not change with the journal. -/
theorem Written.get_outside {id : String}
    (h : Written codec (transactionDirectory id) suffix journal w w')
    (hpath : ¬transactionRoot <+: path) : w'.tree.get path = w.tree.get path := by
  refine h.get path ?_ ?_
  · rintro rfl
    exact hpath (root_above_directory id _)
  · rintro rfl
    exact hpath (root_above_directory id _)

theorem Unwritten.get_outside {id : String} (h : Unwritten (transactionDirectory id) suffix w w')
    (hpath : ¬transactionRoot <+: path) : w'.tree.get path = w.tree.get path := by
  refine h.get path ?_
  rintro rfl
  exact hpath (root_above_directory id _)

/-- `publishJournal` publishes the journal or it does not, and says which. -/
theorem publishJournal_wp (suffix : String) (journal : TransactionJournal) :
    (publishJournal codec io directory (temporaryJournal directory suffix) journal).wp
      (fun r w' => (∃ e, r = .ok (false, .error e)) ∧ Unwritten directory suffix w w' ∨
        (∃ result, r = .ok (true, result)) ∧ Written codec directory suffix journal w w')
      (fun w' => Unwritten directory suffix w w' ∨ Written codec directory suffix journal w w')
        w := by
  have hwriting : ∀ t, Writing w.tree t (temporaryJournal directory suffix) →
      Unwritten directory suffix w { w with tree := t } := by
    rintro t (rfl | ⟨-, mode, data, ht⟩)
    · exact ⟨fun _ _ => rfl, rfl⟩
    · exact ⟨fun path hne => ht.get_of_ne hne, rfl⟩
  refine wp_bind (wp_attempt (wp_context (wp_write (fun t _ ht => ?_)
    (fun _ t e ht => wp_pure (.inl ⟨⟨_, rfl⟩, hwriting t ht⟩))
    fun _ t ht => .inl (hwriting t ht))))
  have hunwritten : Unwritten directory suffix w { w with tree := t } :=
    ⟨fun path hne => ht.get_of_ne hne, rfl⟩
  have hmoved : ∀ w' node, Moves { w with tree := t } w' (temporaryJournal directory suffix)
      (journalPath directory) node → Written codec directory suffix journal w w' := by
    intro w' node hmoves
    obtain rfl : node = .regular 0o600 (codec.encode journal) :=
      Option.some.inj (hmoves.found.symm.trans ht.get_self)
    refine ⟨by rw [hmoves.get, if_pos rfl], fun path hne hne' => ?_, hmoves.noted⟩
    rw [hmoves.get, if_neg hne', if_neg hne]
    exact ht.get_of_ne hne
  refine wp_bind (wp_attempt (wp_context (wp_rename (fun w' node hmoves => ?_)
    (fun _ e => wp_pure (.inl ⟨⟨_, rfl⟩, hunwritten⟩))
    fun _ => ⟨Or.inl hunwritten, fun w' node hmoves => .inr (hmoved w' node hmoves)⟩)))
  have hwritten := hmoved w' node hmoves
  exact wp_bind (wp_attempt (wp_inspect (fun _ _ => wp_pure (.inr ⟨⟨_, rfl⟩, hwritten⟩))
    (fun _ _ => wp_pure (.inr ⟨⟨_, rfl⟩, hwritten⟩)) fun _ => .inr hwritten))

theorem writeTransactionJournal_wp (suffix : String) (journal : TransactionJournal) :
    (writeTransactionJournal codec io directory suffix journal).wp
      (fun r w' => (∃ e, r = .ok (false, .error e)) ∧ Unwritten directory suffix w w' ∨
        (∃ result, r = .ok (true, result)) ∧ Written codec directory suffix journal w w')
      (fun w' => Unwritten directory suffix w w' ∨ Written codec directory suffix journal w w')
        w := by
  refine wp_bind (wp_mono (publishJournal_wp suffix journal) (fun r w₁ h₁ => ?_) fun _ h₁ => h₁)
  rcases h₁ with ⟨⟨e, rfl⟩, h₁⟩ | ⟨⟨result, rfl⟩, h₁⟩
  · refine wp_bind (wp_ignore (wp_atomicTree (fun t ht => wp_pure (.inl ⟨⟨e, rfl⟩, ?_⟩))
      (fun _ _ => wp_pure (.inl ⟨⟨e, rfl⟩, h₁⟩)) fun _ => ⟨Or.inl h₁, fun t ht => .inl ?_⟩))
    · exact h₁.changes (remove_ok ht)
    · exact h₁.changes (remove_ok ht)
  refine wp_bind (wp_ignore (wp_atomicTree (fun t ht => wp_pure (.inr ⟨⟨result, rfl⟩, ?_⟩))
    (fun _ _ => wp_pure (.inr ⟨⟨result, rfl⟩, h₁⟩)) fun _ => ⟨Or.inr h₁, fun t ht => .inr ?_⟩))
  · exact h₁.changes (remove_ok ht)
  · exact h₁.changes (remove_ok ht)

end Atum.Update
