import Atum.Update.Detection
import Atum.Update.ForeignEdits

/-!
# Successful commits

What is on disk once `Commit` has returned no error.  The transaction may list
any paths, and any of its calls that `Commit` tolerates may have failed.  The
run is read backwards: every part of it ended well, so staging put every
candidate where the apply loop looks for it (`stage_ok`), no managed path is
the place of a staged candidate (`prepare_ok`), and the apply loop moved each
candidate to its path (`applyRecords_ok`).  Outside of the transaction root, a
path of a changed file then holds its candidate, and every other path holds what
it held before (`commit_ok`).  In both cases a path without a file may have
become a directory on the way to another file.
-/

namespace Atum.Update

open Atum.Go Atum.Config Faults Faults.Prog List FileTree FileTransaction Fates

variable {δ : Type} {codec : Codec δ} {io : Fates δ} {w w' : World δ}
  {directory : TreePath} {index : Nat} {file : String × TransactionEntry δ} {u : Unit}

variable {path : TreePath} {transaction : FileTransaction codec} {id : String}

/-! ## Staging -/

/-- Staged candidates are where the apply loop looks for them. -/
def StagedFrom (codec : Codec δ) (directory : TreePath) (index : Nat)
    (files : List (String × TransactionEntry δ)) (t : FileTree δ) : Prop :=
  ∀ offset file, files[offset]? = some file → file.2.candidate.present = true →
    t.get (transactionCandidate directory (index + offset)) = candidateNode codec file.2

theorem stage_ok (h : transaction.stage io id w = (.ok u, w')) :
    StagedFrom codec (transactionDirectory id) 0 transaction.changed w'.tree :=
      fun offset file hat =>
  ((wp_ok stage_dependable h).2 offset file hat).candidate

/-! ## The journal -/

variable {suffix : String}

theorem sameOutside_journal {journal : TransactionJournal} {outcome : Bool × Except String Unit}
    (h : writeTransactionJournal codec io (transactionDirectory id) suffix journal w =
      (.ok outcome, w')) : w.tree.SameOutside Reserved w'.tree ∧
      ∀ index, w'.tree.get (transactionCandidate (transactionDirectory id) index) =
        w.tree.get (transactionCandidate (transactionDirectory id) index) := by
  rcases wp_ok (writeTransactionJournal_wp suffix journal) h with ⟨-, hw⟩ | ⟨-, hw⟩
  · exact ⟨fun path hpath => hw.get_outside fun hroot => hpath (.inl hroot),
      fun index => hw.get _ (by simp [transactionCandidate, temporaryJournal])⟩
  · exact ⟨fun path hpath => hw.get_outside fun hroot => hpath (.inl hroot), hw.get_candidate⟩

/-- A preparation that ended well: the candidates are staged, nothing outside of
the transaction root was touched, and no path that was absent is the place of a
staged candidate. -/
theorem prepare_ok (h : transaction.prepare (fun t => t) io id suffix w = (.ok u, w')) :
    StagedFrom codec (transactionDirectory id) 0 transaction.changed w'.tree ∧
      w.tree.SameOutside Reserved w'.tree ∧
      ∀ file ∈ transaction.files, file.2.expected.present = false → ∀ offset other,
        transaction.changed[offset]? = some other → other.2.candidate.present = true →
          location file ≠ transactionCandidate (transactionDirectory id) offset := by
  obtain ⟨_, w₁, hstage, h₁⟩ := bind_eq_ok h
  obtain ⟨_, w₂, hedit, h₂⟩ := bind_eq_ok h₁
  obtain ⟨-, rfl⟩ := Prod.mk.inj hedit
  obtain ⟨_, w₃, hlook, h₃⟩ := bind_eq_ok h₂
  obtain ⟨hverify, rfl⟩ := inspect_eq_ok hlook
  obtain ⟨outcome, w₄, hjournal, h₄⟩ := bind_eq_ok h₃
  obtain ⟨-, rfl⟩ := ofExcept_eq_ok h₄
  have hstaged := stage_ok hstage
  have hframe := (stage_framed id).of_run hstage
  obtain ⟨hsame, hcands⟩ := sameOutside_journal hjournal
  refine ⟨fun offset file hfile hpres => ?_, hframe.trans hsame, ?_⟩
  · rw [hcands]
    exact hstaged offset file hfile hpres
  intro file hfile habsent offset other hother hpres heq
  obtain ⟨-, hmatches⟩ := verifyFile_eq_ok (transaction.valid file hfile).clean
    (verify_files hverify file hfile)
  have hnone : w₁.tree.get (location file) = none := hmatches.of_absent habsent
  have hplace := hstaged offset other hother hpres
  rw [Nat.zero_add, ← heq, hnone, candidateNode, if_pos hpres] at hplace
  cases hplace

/-! ## The apply loop -/

/-- A node stays, or a missing node becomes a directory. -/
def KeepsNode (node node' : Option (Node δ)) : Prop :=
  node' = node ∨ node = none ∧ node' = some .directory

theorem KeepsNode.refl (node : Option (Node δ)) : KeepsNode node node := Or.inl rfl

variable {node' : Option (Node δ)}

theorem KeepsNode.trans {node node'' : Option (Node δ)} (h : KeepsNode node node')
    (h' : KeepsNode node' node'') : KeepsNode node node'' := by
  rcases h with rfl | ⟨hnone, rfl⟩
  · exact h'
  · rcases h' with rfl | ⟨hnever, -⟩
    · exact .inr ⟨hnone, rfl⟩
    · cases hnever

theorem KeepsNode.of_some {node : Node δ}
    (h : KeepsNode (some node) node') : node' = some node := by
  rcases h with h | ⟨hnever, -⟩
  · exact h
  · cases hnever

/-- What a round of the apply loop does. -/
structure Replaces (record : TransactionRecord) (candidate : TreePath) (t t' : FileTree δ) :
    Prop where
  file : t'.get record.location = if record.candidateExists then t.get candidate else none
  others : ∀ path, path ≠ record.location → path ≠ candidate →
    KeepsNode (t.get path) (t'.get path)

theorem applyRecord_ok {record : TransactionRecord}
    (hclean : relative record.path = .ok record.path)
    (h : applyRecord io directory index record w = (.ok u, w')) :
    Replaces record (transactionCandidate directory index) w.tree w'.tree := by
  obtain ⟨canonical, w₁, hensure, h₁⟩ := bind_eq_ok h
  obtain ⟨hcanon, t, hgrows, -, rfl⟩ := wp_ok (ensureManagedParent_dependable
    (fun _ => trivial) hclean (.inl trivial)) (context_eq_ok hensure)
  obtain rfl : canonical = record.location := hcanon
  obtain ⟨_, w₂, hrep, h₂⟩ := bind_eq_ok h₁
  obtain ⟨-, rfl⟩ := inspect_eq_ok h₂
  have hgrown : ∀ path, KeepsNode (w.tree.get path) (t.get path) := fun path =>
    (hgrows path).imp id fun hgrown => ⟨hgrown.1, hgrown.2.1⟩
  split at hrep
  · next hexists =>
    obtain ⟨node, hmoves⟩ := call_rename_ok (context_eq_ok hrep)
    have hfound : w.tree.get (transactionCandidate directory index) = some node := by
      rcases hgrown (transactionCandidate directory index) with hsame | ⟨-, hdir⟩
      · rw [← hsame, hmoves.found]
      · rw [hmoves.found] at hdir
        exact absurd (Option.some.inj hdir) hmoves.file
    refine ⟨?_, fun path hne hne' => ?_⟩
    · rw [if_pos hexists, hfound]
      exact (hmoves.get _).trans (if_pos rfl)
    · rw [hmoves.get, if_neg hne, if_neg hne']
      exact hgrown path
  · next hdeleted =>
    have hchg := remove_ok (atomicTree_eq_ok (call_eq_ok (context_eq_ok hrep)))
    refine ⟨?_, fun path hne _ => ?_⟩
    · rw [if_neg hdeleted]
      exact hchg.get_self
    · rw [hchg.get_of_ne hne]
      exact hgrown path

/-- Where a path ends up: at the candidate of its file, or where it was. -/
structure Lands (codec : Codec δ) (files : List (String × TransactionEntry δ)) (t t' : FileTree δ)
    (path : TreePath) : Prop where
  changed : ∀ file ∈ files, location file = path →
    KeepsNode (candidateNode codec file.2) (t'.get path)
  other : (∀ file ∈ files, location file ≠ path) → KeepsNode (t.get path) (t'.get path)

theorem applyRecords_ok (files : List (String × TransactionEntry δ)) :
    ∀ {index : Nat} {w : World δ},
      applyRecords io directory index (files.map transactionRecord) w = (.ok u, w') →
      (∀ file ∈ files, relative file.1 = .ok file.1) → (files.map location).Nodup →
      StagedFrom codec directory index files w.tree →
      (∀ file ∈ files, ∀ offset other, files[offset]? = some other →
        other.2.candidate.present = true →
          location file ≠ transactionCandidate directory (index + offset)) →
      ∀ path, (∀ place, path ≠ transactionCandidate directory place) →
        Lands codec files w.tree w'.tree path := by
  induction files with
  | nil =>
    intro index w h _ _ _ _ path _
    obtain ⟨-, rfl⟩ := pure_eq_ok h
    exact ⟨by simp, fun _ => KeepsNode.refl _⟩
  | cons file rest ih =>
    intro index w h hclean hnodup hstaged hplaces path hpath
    obtain ⟨_, w₁, hround, h₁⟩ := bind_eq_ok h
    have hreps := applyRecord_ok (hclean file (by simp)) hround
    rw [map_cons, nodup_cons] at hnodup
    -- The candidates of the later rounds are still in their places.
    have hlater : StagedFrom codec directory (index + 1) rest w₁.tree := by
      intro offset other hother hpres
      have hplace := hstaged (offset + 1) other (by simpa using hother) hpres
      have hidx : index + (offset + 1) = index + 1 + offset := by omega
      have hkept := hreps.others (transactionCandidate directory (index + (offset + 1)))
        (hplaces file (by simp) (offset + 1) other (by simpa using hother) hpres).symm
        fun heq => by have := transactionCandidate_injective heq; omega
      rw [hplace, candidateNode, if_pos hpres] at hkept
      rw [← hidx, hkept.of_some, candidateNode, if_pos hpres]
    have hrest := ih h₁ (fun other hother => hclean other (by simp [hother])) hnodup.2 hlater
      (fun other hother offset staged hat hpres => by
        have hne := hplaces other (by simp [hother]) (offset + 1) staged (by simpa using hat) hpres
        rwa [show index + (offset + 1) = index + 1 + offset by omega] at hne) path hpath
    refine ⟨fun other hother heq => ?_, fun hnone => ?_⟩
    · rcases mem_cons.mp hother with rfl | hother
      · -- No later round comes to this path again.
        have hlast : ∀ later ∈ rest, location later ≠ path := by
          rintro later hmem rfl
          exact hnodup.1 (mem_map.mpr ⟨later, hmem, heq.symm⟩)
        have hself : w₁.tree.get path = candidateNode codec other.2 := by
          rw [← heq]
          refine hreps.file.trans ?_
          cases hpres : other.2.candidate.present with
          | true => exact (if_pos hpres).trans (hstaged 0 other (by simp) hpres)
          | false => simp [transactionRecord, candidateNode, hpres]
        rw [← hself]
        exact hrest.other hlast
      · exact hrest.changed other hother heq
    · have hfirst := hreps.others path (hnone file (by simp)).symm (hpath index)
      exact hfirst.trans (hrest.other fun other hother => hnone other (by simp [hother]))

/-! ## The whole run -/

section Run

variable {transaction : FileTransaction codec} {id : String}

theorem location_nodup (transaction : FileTransaction codec) :
    (transaction.changed.map location).Nodup := by
  refine (nodup_map_iff_inj_on transaction.changed_nodup).mpr fun file hfile other hother heq => ?_
  exact eq_of_location (mem_changed_iff.mp hfile).1
    (mem_changed_iff.mp hother).1 heq

theorem removeTransactionDirectory_framed :
    Framed (removeTransactionDirectory io id) Reserved (¬io.Steady) := by
  unfold removeTransactionDirectory
  split
  · exact Framed.raise _
  · refine Framed.bind (Framed.removeAll not_steady fun other hother =>
      Or.inl ((prefix_append _ _).trans hother)).describe fun _ => ?_
    exact Framed.look not_steady

/-- A run of `Commit` that ended well applied every record, and after that it
touched the transaction root only. -/
theorem finish_ok {suffix : String} {flag : Bool}
    (h : transaction.finish io id suffix w = (.ok (flag, .ok ()), w')) :
    ∃ w₁, applyRecords (io.within .applying) (transactionDirectory id) 0
        (transaction.changed.map transactionRecord) w = (.ok (), w₁) ∧
      w₁.tree.SameOutside Reserved w'.tree := by
  obtain ⟨applied, w₁, hattempt, h₁⟩ := bind_eq_ok h
  rcases attempt_eq_ok hattempt with ⟨⟨⟩, rfl, happly⟩ | ⟨cause, rfl, -⟩
  · refine ⟨w₁, happly, ?_⟩
    obtain ⟨outcome, w₂, hjournal, h₂⟩ := bind_eq_ok h₁
    refine (sameOutside_journal hjournal).1.trans ?_
    obtain ⟨published, result⟩ := outcome
    cases result with
    | ok _ =>
      have hclean : (do
          let removed ← (removeTransactionDirectory (io.within .cleaning) id).attempt
          return (false, removed)) w₂ = (.ok (flag, .ok ()), w') := by
        cases published <;> exact h₂
      obtain ⟨removed, w₃, hrem, h₃⟩ := bind_eq_ok hclean
      obtain ⟨-, rfl⟩ := pure_eq_ok h₃
      exact removeTransactionDirectory_framed.attempt.of_run hrem
    | error e =>
      cases published with
      | true =>
        obtain ⟨hnever, -⟩ := pure_eq_ok h₂
        cases hnever
      | false =>
        obtain ⟨e', w₃, -, h₃⟩ := bind_eq_ok h₂
        obtain ⟨hnever, -⟩ := pure_eq_ok h₃
        cases hnever
  · obtain ⟨e, w₂, -, h₂⟩ := bind_eq_ok h₁
    obtain ⟨hnever, -⟩ := pure_eq_ok h₂
    cases hnever

variable {path : TreePath}

/-- What is the same outside of the transaction root lands in the same place. -/
theorem Lands.of_sameOutside {files : List (String × TransactionEntry δ)} {t t₁ t₂ t' : FileTree δ}
    (hpath : ¬Reserved path) (hbefore : t.SameOutside Reserved t₁)
    (h : Lands codec files t₁ t₂ path) (hafter : t₂.SameOutside Reserved t') :
    Lands codec files t t' path := by
  refine ⟨fun file hfile heq => ?_, fun hnone => ?_⟩
  · rw [hafter path hpath]
    exact h.changed file hfile heq
  · rw [hafter path hpath, ← hbefore path hpath]
    exact h.other hnone

variable {names : Names}

/-- The part of `Commit` behind the transaction directory.  A file that exists is
not in that directory. -/
theorem commitIn_ok
    (hplaces : ∀ file ∈ transaction.changed, file.2.expected.present = true → ∀ offset,
      location file ≠ transactionCandidate (transactionDirectory id) offset)
    (h : transaction.commitIn (fun t => t) io id names w = (.ok u, w'))
    (hpath : ¬Reserved path) : Lands codec transaction.changed w.tree w'.tree path := by
  obtain ⟨⟨flag, result⟩, w₁, hbody, h₁⟩ := bind_eq_ok h
  obtain ⟨_, w₂, hdeferred, h₂⟩ := bind_eq_ok h₁
  obtain ⟨hres, rfl⟩ := ofExcept_eq_ok h₂
  obtain rfl : result = .ok () := hres
  have hrem := (deferredRemoval_framed id flag).of_run hdeferred
  obtain ⟨prepared, w₃, hattempt, h₃⟩ := bind_eq_ok hbody
  rcases attempt_eq_ok hattempt with ⟨_, rfl, hprepare⟩ | ⟨e, rfl, -⟩
  · obtain ⟨hstaged, hframe, habsent⟩ := prepare_ok hprepare
    obtain ⟨w₄, happly, hfin⟩ := finish_ok h₃
    refine Lands.of_sameOutside hpath hframe ?_ (hfin.trans hrem)
    refine applyRecords_ok _ happly (fun file hfile => ?_) (location_nodup transaction) hstaged
      (fun file hfile offset other hother hpres => ?_) path fun place heq => ?_
    · exact (transaction.valid file (mem_changed_iff.mp hfile).1).clean
    · rw [Nat.zero_add]
      cases hthere : file.2.expected.present with
      | true => exact hplaces file hfile hthere offset
      | false =>
        exact habsent file (mem_changed_iff.mp hfile).1 hthere offset other hother
          hpres
    · exact hpath (heq ▸ reserved_inside id _)
  · obtain ⟨hnever, -⟩ := pure_eq_ok h₃
    cases hnever

/-- `Commit` found no transaction to recover. -/
theorem recoverTransactions_ok_false
    (h : recoverTransactions codec io w = (.ok false, w')) : w' = w ∧ NoTransaction w.tree := by
  obtain ⟨found, w₁, hlook, h₁⟩ := bind_eq_ok h
  obtain ⟨hlist, rfl⟩ := inspect_eq_ok hlook
  refine ⟨?_, ?_⟩
  · have hfalse : (recoverTransactions codec io w₁).1 = .ok false := by rw [h]
    exact (Prod.mk.inj (h.symm.trans (recoverTransactions_false hfalse))).2
  rcases listTransactions_ok hlist with ⟨hroot, rfl⟩ | rfl
  · intro name
    exact get_below_eq_none (by simp [hroot]) (prefix_append _ _) (by simp)
  · obtain ⟨_, w₂, -, h₂⟩ := bind_eq_ok h₁
    obtain ⟨hempty, -⟩ := pure_eq_ok h₂
    exact children_eq_nil_iff.mp (by simpa using hempty)

/-- A commit that returned no error has verified the tree, and outside of the
transaction root every path of a changed file holds its candidate. -/
theorem commit_ok (h : transaction.commit io names w = (.ok u, w')) :
    transaction.verify w.tree = .ok () ∧
      ∀ path, ¬Reserved path → Lands codec transaction.changed w.tree w'.tree path := by
  obtain ⟨recovered, w₁, hrecover, h₁⟩ := bind_eq_ok h
  cases recovered with
  | true => cases h₁
  | false =>
    obtain ⟨rfl, hclean⟩ := recoverTransactions_ok_false hrecover
    obtain ⟨_, w₂, hlook, h₂⟩ := bind_eq_ok h₁
    obtain ⟨hverify, rfl⟩ := inspect_eq_ok hlook
    refine ⟨hverify, fun path hpath => ?_⟩
    split at h₂
    · next hnone =>
      obtain ⟨-, rfl⟩ := pure_eq_ok h₂
      rw [hnone]
      exact ⟨by simp, fun _ => KeepsNode.refl _⟩
    obtain ⟨id, w₃, hcreate, h₃⟩ := bind_eq_ok h₂
    have hcreated := (createTransactionDirectory_framed names.entropy).of_run hcreate
    refine Lands.of_sameOutside hpath hcreated (commitIn_ok ?_ h₃ hpath)
      (FileTree.SameOutside.refl _ _)
    -- A verified file that exists is not below the transaction root.
    intro file hfile hpres offset heq
    have hmem := (mem_changed_iff.mp hfile).1
    obtain ⟨-, hmatches⟩ := verifyFile_eq_ok (transaction.valid file hmem).clean
      (verify_files hverify file hmem)
    obtain ⟨data, hdata, -⟩ := hmatches.of_present hpres
    have hnone : w₂.tree.get (transactionCandidate (transactionDirectory id) offset) = none := by
      have hdir : w₂.tree.get (transactionDirectory id) = none := hclean id
      exact get_below_eq_none (by simp [hdir]) (prefix_append _ _)
        (by simp [transactionCandidate])
    rw [← heq] at hnone
    exact absurd (hdata.symm.trans hnone) (by simp)

/-- After a commit that returned no error every managed file holds its candidate. -/
theorem commit_file (hidentified : transaction.Identified)
    (h : transaction.commit io names w = (.ok u, w')) (hfile : file ∈ transaction.files)
    (hpath : ¬Reserved (location file)) :
    KeepsNode (candidateNode codec file.2) (w'.tree.get (location file)) := by
  obtain ⟨hverify, hlands⟩ := commit_ok h
  cases hsame : sameManagedVersion file.2.expected file.2.candidate with
  | false =>
    exact (hlands _ hpath).changed file (mem_changed_iff.mpr ⟨hfile, hsame⟩) rfl
  | true =>
    -- The file is not written, because it has the version of its candidate already.
    obtain ⟨-, actual, hactual, hexp⟩ := verifyFile_eq_ok (transaction.valid file hfile).clean
      (verify_files hverify file hfile)
    rw [sameManagedVersion_iff] at hsame hexp
    have hcand : Matches codec (w.tree.get (location file)) file.2.candidate :=
      ⟨actual, hactual, sameManagedVersion_iff.mpr ⟨hexp.1.trans hsame.1,
        hexp.2.1.trans hsame.2.1, hexp.2.2.trans hsame.2.2⟩⟩
    have hnode : w.tree.get (location file) = candidateNode codec file.2 := by
      unfold candidateNode
      cases hpres : file.2.candidate.present with
      | false => exact hcand.of_absent hpres
      | true =>
        obtain ⟨data, hdata, hhash⟩ := hcand.of_present hpres
        rw [hdata, hidentified file hfile hpres data hhash]
        rfl
    rw [← hnode]
    refine (hlands _ hpath).other fun other hother heq => ?_
    obtain ⟨hmem, hchg⟩ := mem_changed_iff.mp hother
    rw [eq_of_location hmem hfile heq] at hchg
    rw [sameManagedVersion_iff.mpr hsame] at hchg
    cases hchg

/-- Every other path holds what it held before. -/
theorem commit_other (h : transaction.commit io names w = (.ok u, w'))
    (hpath : ¬Reserved path) (hnone : ∀ file ∈ transaction.files, location file ≠ path) :
    KeepsNode (w.tree.get path) (w'.tree.get path) :=
  ((commit_ok h).2 path hpath).other fun file hfile =>
    hnone file (mem_changed_iff.mp hfile).1

/-! ## One update after the other -/

/-- Runs of `Commit` that all return no error. -/
inductive Commits : World δ → List (FileTransaction codec) → World δ → Prop
  | nil (w : World δ) : Commits w [] w
  | cons {w w₁ w' rest io names} {transaction : FileTransaction codec}
      (hrun : transaction.commit io names w = (.ok (), w₁)) (hrest : Commits w₁ rest w') :
      Commits w (transaction :: rest) w'

/-- The candidate of the last transaction with the path, or else the given node. -/
def lastCandidate (path : TreePath) (node : Option (Node δ)) :
    List (FileTransaction codec) → Option (Node δ)
  | [] => node
  | transaction :: rest =>
    match transaction.files.find? fun file => location file = path with
    | none => lastCandidate path node rest
    | some file => lastCandidate path (candidateNode codec file.2) rest

/-- No update is lost: after any runs every path holds the candidate of the last run
that manages it, or else what it held before. -/
theorem commits_last_candidate {transactions : List (FileTransaction codec)}
    (hidentified : ∀ transaction ∈ transactions, transaction.Identified)
    (h : Commits w transactions w') {path : TreePath} (hpath : ¬Reserved path) :
    KeepsNode (lastCandidate path (w.tree.get path) transactions) (w'.tree.get path) := by
  -- What the path holds between two runs may be a directory on the way to another file.
  suffices hfrom : ∀ node, KeepsNode node (w.tree.get path) →
      KeepsNode (lastCandidate path node transactions) (w'.tree.get path) from hfrom _ (.refl _)
  induction h with
  | nil w => exact fun _ hnode => hnode
  | cons hrun _ ih =>
    intro node hnode
    obtain ⟨hfirst, hidentified⟩ := forall_mem_cons.mp hidentified
    rw [lastCandidate]
    split
    · next hnone =>
      refine ih hidentified _ (hnode.trans (commit_other hrun hpath fun file hfile heq => ?_))
      exact List.find?_eq_none.mp hnone file hfile (decide_eq_true heq)
    · next file hfile =>
      obtain rfl : location file = path := by simpa using find?_some hfile
      exact ih hidentified _ (commit_file hfirst hrun (mem_of_find?_eq_some hfile) hpath)

end Run

/-- Two updates of one file, the second of the file that the first one wrote. -/
theorem commits_last_candidate_sample : ∃ w',
    Commits { tree := sampleTree } [replaceFile 1 2, replaceFile 2 3] w' ∧
      KeepsNode (some (.regular 0o644 (.file 3))) (w'.tree.get ["a"]) := by
  have hexits : ((replaceFile 1 2).commit (fun _ _ => .done) sampleNames { tree := sampleTree }).1 =
        .ok () ∧
      ((replaceFile 2 3).commit (fun _ _ => .done) sampleNames
        ((replaceFile 1 2).commit (fun _ _ => .done) sampleNames { tree := sampleTree }).2).1 =
          .ok () := by decide +kernel
  generalize hfirst : (replaceFile 1 2).commit _ _ _ = first at hexits
  generalize hsecond : (replaceFile 2 3).commit _ _ _ = second at hexits
  have hcommits : Commits { tree := sampleTree } [replaceFile 1 2, replaceFile 2 3] second.2 :=
    .cons (hfirst.trans (Prod.ext hexits.1 rfl))
      (.cons (hsecond.trans (Prod.ext hexits.2 rfl)) (.nil _))
  have hlast : lastCandidate ["a"] (sampleTree.get ["a"]) [replaceFile 1 2, replaceFile 2 3] =
      some (.regular 0o644 (.file 3)) := by decide +kernel
  rw [← hlast]
  refine ⟨_, hcommits, commits_last_candidate ?_ hcommits (by unfold Reserved; decide +kernel)⟩
  simp [replaceFile_identified]

end Atum.Update
