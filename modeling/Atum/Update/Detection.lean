import Atum.Update.Atomicity
import Atum.Update.CandidateTree
import Atum.Update.TreeHash

/-!
# Detection of concurrent edits

Other programs may change managed files while an update resolves its candidates.
`Commit` verifies the tracked versions before it stages anything, and once more
before it publishes its journal.  A file that differs at one of the two
verifications makes `Commit` fail, and `Commit` changes no managed file then
(`commit_detects_edit`).

That is so for the paths that the transaction covers.  A path that was absent
when it was tracked and that has no candidate is left out of the transaction, and
a file that another program creates there is not noticed
(`commit_misses_created_file`).
-/

namespace Atum.Update

open Atum.Go Atum.Config Faults Faults.Prog List SortedAssoc FileTree FileTransaction Fates

variable {δ : Type}

/-! ## Listings with one digest -/

section Listings

variable {contents : Contents δ}

/-- Two listings that their digests tell apart: no path in them holds a NUL, and
their streams do not collide. -/
structure Discernible (contents : Contents δ) (left right : List (TreeFile δ)) : Prop where
  paths : ∀ file ∈ left ++ right, '\x00' ∉ file.path.toList
  streams : ∀ s s', treeStream contents "" (sortFiles left) = .ok s →
    treeStream contents "" (sortFiles right) = .ok s' →
    contents.hash (contents.text s) = contents.hash (contents.text s') → s = s'

/-- Two listings with one digest have the same files. -/
theorem Discernible.mem_of_treeSum {left right : List (TreeFile δ)} {digest : String}
    (h : Discernible contents left right) (hlines : ∀ data, '\n' ∉ (contents.hash data).toList)
    (hleft : treeSum contents left = .ok digest) (hright : treeSum contents right = .ok digest)
    {file : TreeFile δ} (hfile : file ∈ left) :
    ∃ other ∈ right, treeKey contents other = treeKey contents file := by
  obtain ⟨s, hs, hdig⟩ := bind_eq_ok.mp hleft
  obtain ⟨s', hs', hdig'⟩ := bind_eq_ok.mp hright
  have hsame : contents.hash (contents.text s) = contents.hash (contents.text s') :=
    (Except.ok.inj hdig).trans (Except.ok.inj hdig').symm
  obtain rfl := h.streams s s' hs hs' hsame
  have hkeys := treeStream_injective hlines (fun other hother => h.paths other (by
    simpa [mem_insertionSort] using hother)) hs hs'
  have hmem : treeKey contents file ∈ (sortFiles right).map (treeKey contents) := by
    have hsorted : file ∈ sortFiles left := (mem_insertionSort _).mpr hfile
    exact hkeys ▸ mem_map_of_mem hsorted
  obtain ⟨other, hother, hkey⟩ := mem_map.mp hmem
  exact ⟨other, (mem_insertionSort _).mp hother, hkey⟩

end Listings

/-! ## Verification -/

/-- What a path holds is the tracked version: the same file, or no file.  A
directory is no file. -/
def Unchanged (node : Option (Node δ)) (version : ManagedVersion δ) : Prop :=
  match node with
  | none | some .directory => version.present = false
  | some (.regular mode data) =>
    version.present = true ∧ version.mode = mode ∧ version.data = some data
  | some _ => False

namespace CandidateTree

variable {codec : Codec δ}

/-- The path exists or has a candidate. -/
def Listed (tree : CandidateTree codec) (path : String) : Prop :=
  ∃ original candidate, tree.originals.lookup path = some original ∧
    tree.candidates.lookup path = some candidate ∧
    (original.present = true ∨ candidate.present = true)

/-- The transaction looks at the path: a listed path is at it or below it, or a
complete directory is at it, below it or above it. -/
def Covers (tree : CandidateTree codec) (path : String) : Prop :=
  (∃ other, tree.Listed other ∧ components path <+: components other) ∨
    ∃ directory ∈ tree.completeDirectories, ∃ clean, relative directory = .ok clean ∧
      (components path <+: components clean ∨ components clean <+: components path)

/-- No two different contents that a verification compares have the same digest. -/
structure Discerns (tree : CandidateTree codec) (t : FileTree δ) : Prop where
  bytes : ∀ file ∈ tree.originals, ∀ mode data,
    t.get (components file.1) = some (.regular mode data) → codec.hash data = file.2.digest →
      file.2.data = some data
  listings : ∀ directory ∈ tree.completeDirectories, ∀ clean files,
    relative directory = .ok clean →
    regularTreeFiles codec.toContents t (components clean) = .ok files →
      Discernible codec.toContents (files.filterMap fun file => treeFile file.1 file.2)
        (managedFiles directory tree.originals)

end CandidateTree

section Verification

variable {codec : Codec δ} {tree : CandidateTree codec} {transaction : FileTransaction codec}
  {t : FileTree δ} {path : String} {original : ManagedVersion δ}

theorem unchanged_of_absent {node : Option (Node δ)} (habsent : original.present = false)
    (h : node = none ∨ node = some .directory) : Unchanged node original := by
  rcases h with rfl | rfl
  · exact habsent
  · exact habsent

theorem FileTransaction.verify_directories (h : transaction.verify t = .ok ()) :
    ∀ directory ∈ transaction.directories, verifyDirectory codec t directory = .ok () := by
  obtain ⟨_, -, hdirs⟩ := bind_eq_ok.mp h
  exact (forM_eq_ok_iff _).mp hdirs

variable (htransaction : tree.transaction = .ok transaction)
  (hverify : transaction.verify t = .ok ())

include htransaction hverify in
/-- What the verification of a listed path shows. -/
theorem verify_listed {candidate : ManagedVersion δ}
    (horig : tree.originals.lookup path = some original)
    (hcand : tree.candidates.lookup path = some candidate)
    (hlisted : original.present = true ∨ candidate.present = true) :
    t.Clear (components path) ∧ Matches codec (t.get (components path)) original := by
  obtain ⟨entry, hent, hexp⟩ :=
    CandidateTree.transaction_files htransaction horig hcand hlisted
  have hmem := mem_of_lookup hent
  obtain ⟨hclear, hmatches⟩ := verifyFile_eq_ok (transaction.valid _ hmem).clean
    (verify_files hverify _ hmem)
  rw [hexp] at hmatches
  exact ⟨hclear, hmatches⟩

include htransaction hverify in
/-- A listed path is unchanged when its verification succeeds. -/
theorem unchanged_of_listed (hdiscerns : tree.Discerns t)
    (horig : tree.originals.lookup path = some original) (hlisted : tree.Listed path) :
    Unchanged (t.get (components path)) original := by
  obtain ⟨original', candidate, horig', hcand, hpres⟩ := hlisted
  obtain rfl := Option.some.inj (horig.symm.trans horig')
  obtain ⟨-, hmatches⟩ := verify_listed htransaction hverify horig hcand hpres
  cases hthere : original.present with
  | false => exact unchanged_of_absent hthere (.inl (hmatches.of_absent hthere))
  | true =>
    obtain ⟨data, hdata, hhash⟩ := hmatches.of_present hthere
    have hbytes := hdiscerns.bytes _ (mem_of_lookup horig) _ _ hdata hhash
    rw [hdata]
    exact ⟨hthere, rfl, hbytes⟩

variable {directory : String}

include htransaction hverify in
/-- What the verification of a complete directory shows. -/
theorem verify_complete (hmem : directory ∈ tree.completeDirectories) :
    ∃ clean files digest, relative directory = .ok clean ∧
      regularTreeFiles codec.toContents t (components clean) = .ok files ∧
      treeSum codec.toContents (files.filterMap fun file => treeFile file.1 file.2) = .ok digest ∧
      treeSum codec.toContents (managedFiles directory tree.originals) = .ok digest := by
  obtain ⟨clean, digest, hclean, hdig, hlook⟩ :=
    CandidateTree.transaction_directories htransaction hmem
  have hguard := verify_directories hverify _ (mem_of_lookup hlook)
  obtain ⟨actual, hactual, hsame⟩ := bind_eq_ok.mp hguard
  split at hsame
  · next heq =>
    obtain rfl : actual = digest := heq
    obtain ⟨-, -, hactual⟩ := bind_eq_ok.mp hactual
    obtain ⟨clean', hclean', hactual⟩ := bind_eq_ok.mp hactual
    obtain rfl := Except.ok.inj ((relative_idem hclean).symm.trans hclean')
    obtain ⟨files, hfiles, hsum⟩ := bind_eq_ok.mp hactual
    exact ⟨clean, files, actual, hclean, hfiles, hsum, hdig⟩
  · cases hsame

variable {clean : String}

/-- A tracked file of a directory exists, and its path starts with the directory. -/
theorem mem_managedFiles {file : TreeFile δ}
    (hclean : relative directory = .ok clean) (h : file ∈ managedFiles directory tree.originals) :
    ∃ version, tree.originals.lookup (clean ++ "/" ++ file.path) = some version ∧
      version.present = true := by
  obtain ⟨⟨tracked, version⟩, hmem, hfile⟩ := mem_filterMap.mp h
  rw [clean_of_relative hclean, clean_of_relative (tree.clean _ hmem)] at hfile
  split at hfile
  · next hbelow =>
    rw [Bool.and_eq_true] at hbelow
    obtain ⟨data, -, rfl⟩ := Option.map_eq_some_iff.mp hfile
    refine ⟨version, ?_, hbelow.1⟩
    rw [append_trimPrefix hbelow.2]
    exact tree.sorted.lookup_of_mem hmem
  · cases hfile

include htransaction hverify in
/-- A file in a complete directory that passes its verification is tracked. -/
theorem tracked_in_complete (hdiscerns : tree.Discerns t)
    (hlines : ∀ data, '\n' ∉ (codec.hash data).toList) (hmem : directory ∈ tree.completeDirectories)
    (hclean : relative directory = .ok clean) (hbelow : components clean <+: components path)
    {found : Node δ} (hget : t.get (components path) = some found) (hfile : found ≠ .directory) :
    ∃ version, tree.originals.lookup path = some version ∧ version.present = true := by
  obtain ⟨clean', files, digest, hclean', hfiles, hactual, hexp⟩ :=
    verify_complete htransaction hverify hmem
  obtain rfl := Except.ok.inj (hclean.symm.trans hclean')
  -- A file in the listing is a tracked file that exists.
  have htracked : ∀ file ∈ files.filterMap fun file => treeFile file.1 file.2,
      ∃ version, tree.originals.lookup (clean ++ "/" ++ file.path) = some version ∧
        version.present = true := by
    intro file hfile
    obtain ⟨other, hother, hkey⟩ := (hdiscerns.listings directory hmem clean files hclean
      hfiles).mem_of_treeSum hlines hactual hexp hfile
    rw [← (Prod.mk.inj hkey).1]
    exact mem_managedFiles hclean hother
  obtain ⟨rest, hrest⟩ := hbelow
  rw [← hrest] at hget
  obtain ⟨mode, data, -, hlisted⟩ := (regularTreeFiles_ok hfiles).2 rest found hget hfile
  obtain ⟨version, hver, hpres⟩ := htracked ⟨listedName rest, mode, data⟩
    (mem_filterMap.mpr ⟨_, hlisted, rfl⟩)
  by_cases hhere : rest = []
  · -- The path is the directory itself, and a clean path has no component that is a dot.
    have hdot : "." ∈ components (clean ++ "/" ++ listedName rest) := by
      rw [components_append, listedName, if_pos hhere]
      exact mem_append_right _ (by decide)
    exact absurd rfl (components_of_clean (tree.clean _ (mem_of_lookup hver)) "." hdot).2.1
  · have hpath : clean ++ "/" ++ listedName rest = path := by
      rw [listedName, if_neg hhere, ← slashed_components clean,
        ← slashed_append (components_ne_nil clean) hhere, hrest, slashed_components]
    exact ⟨version, hpath ▸ hver, hpres⟩

include htransaction hverify in
/-- In a complete directory that passes its verification there is no file at a path
that was absent. -/
theorem free_in_complete (hdiscerns : tree.Discerns t)
    (hlines : ∀ data, '\n' ∉ (codec.hash data).toList)
    (horig : tree.originals.lookup path = some original) (habsent : original.present = false)
    (hmem : directory ∈ tree.completeDirectories)
    (hclean : relative directory = .ok clean) (hbelow : components clean <+: components path) :
    t.get (components path) = none ∨ t.get (components path) = some .directory := by
  cases hget : t.get (components path) with
  | none => exact .inl rfl
  | some found =>
    refine .inr (congrArg some ?_)
    by_contra hfile
    obtain ⟨version, hver, hpres⟩ := tracked_in_complete htransaction hverify hdiscerns hlines
      hmem hclean hbelow hget hfile
    rw [← Option.some.inj (horig.symm.trans hver), habsent] at hpres
    cases hpres

include htransaction hverify in
/-- A covered path that passes the verification is unchanged. -/
theorem unchanged_of_verify (hdiscerns : tree.Discerns t)
    (hlines : ∀ data, '\n' ∉ (codec.hash data).toList)
    (horig : tree.originals.lookup path = some original) (hcovers : tree.Covers path) :
    Unchanged (t.get (components path)) original := by
  cases hthere : original.present with
  | true =>
    -- A file that existed is listed itself.
    obtain ⟨candidate, hcand⟩ := Option.isSome_iff_exists.mp
      (tree.proposed path (by rw [horig]; rfl))
    exact unchanged_of_listed htransaction hverify hdiscerns horig
      ⟨original, candidate, horig, hcand, .inl hthere⟩
  | false =>
    rcases hcovers with ⟨other, hlisted, hpre⟩ | ⟨directory, hmem, clean, hclean, hpre⟩
    · by_cases heq : components path = components other
      · rw [← components_injective heq] at hlisted
        exact unchanged_of_listed htransaction hverify hdiscerns horig hlisted
      · obtain ⟨original', candidate, horig', hcand, hpres⟩ := hlisted
        obtain ⟨hclear, -⟩ := verify_listed htransaction hverify horig' hcand hpres
        exact unchanged_of_absent hthere (hclear _ hpre heq)
    refine unchanged_of_absent hthere ?_
    by_cases hbelow : components clean <+: components path
    · exact free_in_complete htransaction hverify hdiscerns hlines horig hthere hmem hclean
        hbelow
    have hpre : components path <+: components clean := hpre.resolve_right hbelow
    obtain ⟨clean', files, digest, hclean', hfiles, -⟩ :=
      verify_complete htransaction hverify hmem
    obtain rfl := Except.ok.inj (hclean.symm.trans hclean')
    cases hnode : t.get (components clean) with
    | none => simp [regularTreeFiles, hnode] at hfiles
    | some node =>
      refine .inr (get_above hnode hpre ?_)
      intro heq
      exact hbelow (heq ▸ prefix_refl _)

end Verification

/-! ## What `Commit` changes before its journal -/

/-- The transaction root, what lies in it, and the directories above it. -/
def Reserved (path : TreePath) : Prop := transactionRoot <+: path ∨ path <+: transactionRoot

theorem reserved_inside (id : String) (rest : TreePath) : Reserved
    (transactionDirectory id ++ rest) :=
  Or.inl (root_above_directory id rest)

theorem reserved_directory (id : String) : Reserved (transactionDirectory id) :=
  Or.inl (prefix_append _ _)

section Frame

variable {codec : Codec δ} {io : Fates δ} {transaction : FileTransaction codec}

theorem createTransactionDirectory_framed (entropy : Entropy) :
    Framed (createTransactionDirectory io entropy) Reserved (¬io.Steady) := by
  have hensure : ∀ io : Fates δ,
      Framed (ensureDirectory io transactionRootPath) Reserved (¬io.Steady) := by
    intro io
    have hmkdir : Framed (call (io [] .mkdirAll) (.mkdirAll transactionRoot)) Reserved
        (¬io.Steady) := Framed.mkdirAll not_steady fun other hother => .inr hother
    exact hmkdir.describe.bind fun _ => Framed.look not_steady
  refine ((hensure (io.within .ensuring)).mono not_steady_of_within).describe.bind fun _ => ?_
  refine (Framed.look not_steady).describe.bind fun id => ?_
  refine (Framed.mkdir not_steady (reserved_directory id)).describe.bind fun _ => ?_
  refine (Framed.look not_steady).attempt.bind fun synced => ?_
  cases synced with
  | ok _ => exact Framed.ret id
  | error e =>
    exact (Framed.remove not_steady (reserved_directory id)).ignore.bind
      fun _ => Framed.raise e

theorem Adds.sameOutside {w w' : World δ} {id : String}
    (h : Adds (transactionDirectory id) w w') : w.tree.SameOutside Reserved w'.tree :=
  fun _ hpath => h.outside _ fun hscratch => hpath (.inl ((prefix_append _ _).trans hscratch.1))

/-- Staging changes nothing outside of the transaction root. -/
theorem stage_framed (id : String) : Framed (transaction.stage io id) Reserved (¬io.Steady) := by
  refine fun w => wp_mono stage_dependable (fun r w' h => ?_) fun _ h => ⟨h.1.sameOutside, h.2⟩
  cases r with
  | ok _ => exact h.1.sameOutside
  | error e => exact h.1.sameOutside

theorem deferredRemoval_framed (id : String) (flag : Bool) :
    Framed (deferredRemoval (io [] .removeAll) id flag) Reserved (¬io.Steady) := by
  unfold deferredRemoval
  split
  · exact (Framed.removeAll not_steady fun other hother =>
      Or.inl ((prefix_append _ _).trans hother)).ignore
  · exact Framed.ret ()

/-- Nothing outside of the transaction root was changed by `Commit`: it is as it was
before, or as the other programs left it. -/
def Untouched (edit : FileTree δ → FileTree δ) (before after : FileTree δ) : Prop :=
  before.SameOutside Reserved after ∨
    ∃ t, before.SameOutside Reserved t ∧ (edit t).SameOutside Reserved after

variable {edit : FileTree δ → FileTree δ} {w : World δ} {id : String}

/-- A preparation whose verification fails. -/
theorem prepare_fails {suffix : String}
    (hfails : ∀ t, w.tree.SameOutside Reserved t → ∃ e, transaction.verify (edit t) = .error e) :
    (transaction.prepare edit io id suffix).wp
      (fun r w' => (∃ e, r = .error e) ∧ Untouched edit w.tree w'.tree)
      (fun w' => Untouched edit w.tree w'.tree ∧ ¬io.Steady) w := by
  refine wp_bind (wp_mono (stage_framed id w) (fun r w₁ h₁ => ?_)
    fun _ h₁ => ⟨Or.inl h₁.1, not_steady_of_within h₁.2⟩)
  cases r with
  | error e => exact ⟨⟨e, rfl⟩, .inl h₁⟩
  | ok _ =>
    have huntouched : Untouched edit w.tree (edit w₁.tree) :=
      Or.inr ⟨w₁.tree, h₁, FileTree.SameOutside.refl _ _⟩
    refine wp_bind (wp_interfere (wp_bind (wp_inspect (fun a ha => ?_)
      (fun _ e => ⟨⟨e, rfl⟩, huntouched⟩) fun hc => ⟨huntouched, not_steady hc⟩)))
    obtain ⟨e, he⟩ := hfails w₁.tree h₁
    rw [he] at ha
    cases ha

variable {names : Names}

/-- A commit whose second verification fails. -/
theorem commitIn_fails
    (hfails : ∀ t, w.tree.SameOutside Reserved t → ∃ e, transaction.verify (edit t) = .error e) :
    (transaction.commitIn edit io id names).wp
      (fun r w' => (∃ e, r = .error e) ∧ Untouched edit w.tree w'.tree)
      (fun w' => Untouched edit w.tree w'.tree ∧ ¬io.Steady) w := by
  have hbody : (transaction.commitBody edit io id names).wp
      (fun r w' => ∃ e, r = .ok (true, .error e) ∧ Untouched edit w.tree w'.tree)
      (fun w' => Untouched edit w.tree w'.tree ∧ ¬io.Steady) w := by
    refine wp_bind (wp_attempt (wp_mono (prepare_fails hfails) ?_ fun _ h₁ => h₁))
    rintro r w₁ ⟨⟨e, rfl⟩, h₁⟩
    exact wp_pure ⟨e, rfl, h₁⟩
  refine wp_bind (wp_mono hbody ?_ fun _ h₁ => h₁)
  rintro r w₁ ⟨e, rfl, h₁⟩
  have hkeep : ∀ {t : FileTree δ}, w₁.tree.SameOutside Reserved t → Untouched edit w.tree t := by
    intro t ht
    rcases h₁ with h₁ | ⟨t', ht', h₁⟩
    · exact .inl (h₁.trans ht)
    · exact .inr ⟨t', ht', h₁.trans ht⟩
  refine wp_bind (wp_mono (deferredRemoval_framed id true w₁) (fun r w₂ h₂ => ?_)
    fun _ h₂ => ⟨hkeep h₂.1, h₂.2⟩)
  cases r with
  | ok _ => exact wp_throw ⟨⟨e, rfl⟩, hkeep h₂⟩
  | error e' => exact ⟨⟨e', rfl⟩, hkeep h₂⟩

/-- A recovery that found nothing did nothing. -/
theorem recoverTransactions_false (h : (recoverTransactions codec io w).1 = .ok false) :
    recoverTransactions codec io w = (.ok false, w) := by
  have hwp : (recoverTransactions codec io).wp (fun r w' => r = .ok false → w' = w)
      (fun _ => True) w := by
    refine wp_bind (wp_inspect ?_ (fun _ _ hok => by cases hok) fun _ => trivial)
    intro found _
    cases found with
    | none => exact wp_pure fun _ => rfl
    | some entries =>
      cases entries with
      | nil => exact wp_bind (wp_pure (wp_pure fun _ => rfl))
      | cons entry rest =>
        have hany : (recoverEntries codec io (entry :: rest)).wp (fun _ _ => True)
            (fun _ => True) w := by
          unfold wp
          split <;> trivial
        refine wp_bind (wp_mono hany (fun r w' _ => ?_) fun _ _ => trivial)
        cases r with
        | ok _ => exact wp_pure fun hok => by simp at hok
        | error e => exact fun hok => by cases hok
  rcases wp_exit hwp with ⟨recovered, hexit, hw⟩ | ⟨_, hexit, -⟩ | ⟨hexit, -⟩
  · obtain rfl := Exit.ok.inj (hexit.symm.trans h)
    exact Prod.ext hexit (hw rfl)
  · rw [hexit] at h
    cases h
  · rw [hexit] at h
    cases h

/-- A commit one of whose verifications fails. -/
theorem commitAmid_fails
    (hrecovered : (recoverTransactions codec (io.within .recovering) w).1 = .ok false)
    (hfails : (∃ e, transaction.verify w.tree = .error e) ∨ transaction.changed ≠ [] ∧
      ∀ t, w.tree.SameOutside Reserved t → ∃ e, transaction.verify (edit t) = .error e) :
    (transaction.commitAmid edit io names).wp
      (fun r w' => (∃ e, r = .error e) ∧ Untouched edit w.tree w'.tree)
      (fun w' => Untouched edit w.tree w'.tree ∧ ¬io.Steady) w := by
  have hself : Untouched edit w.tree w.tree := Or.inl (FileTree.SameOutside.refl _ _)
  have hrecover : (recoverTransactions codec (io.within .recovering)).wp
      (fun r w' => r = .ok false ∧ w' = w) (fun _ => False) w := by
    unfold wp
    rw [recoverTransactions_false hrecovered]
    exact ⟨rfl, rfl⟩
  refine wp_bind (wp_mono hrecover ?_ fun _ h => h.elim)
  rintro r w' ⟨rfl, rfl⟩
  refine wp_bind (wp_inspect (fun _ hverify => ?_) (fun _ e => ⟨⟨e, rfl⟩, hself⟩)
    fun hc => ⟨hself, not_steady hc⟩)
  rcases hfails with ⟨e, he⟩ | ⟨hchg, hfails⟩
  · rw [he] at hverify
    cases hverify
  rw [if_neg hchg]
  refine wp_bind (wp_mono (createTransactionDirectory_framed names.entropy w') (fun r w₁ h₁ => ?_)
    fun _ h₁ => ⟨Or.inl h₁.1, not_steady_of_within h₁.2⟩)
  cases r with
  | error e => exact ⟨⟨e, rfl⟩, .inl h₁⟩
  | ok id =>
    have hlater : ∀ {t : FileTree δ}, Untouched edit w₁.tree t → Untouched edit w'.tree t := by
      rintro t (ht | ⟨t', ht', ht⟩)
      · exact .inl (h₁.trans ht)
      · exact .inr ⟨t', h₁.trans ht', ht⟩
    refine wp_mono (commitIn_fails fun t ht => hfails t (h₁.trans ht)) ?_ ?_
    · rintro r w₂ ⟨herr, h₂⟩
      exact ⟨herr, hlater h₂⟩
    · rintro w₂ ⟨h₂, hcrash⟩
      exact ⟨hlater h₂, hcrash⟩

end Frame

/-! ## Detection -/

variable {codec : Codec δ}

/-- Another program has changed a tracked path on this tree, and the digests show it. -/
def CandidateTree.Edited (tree : CandidateTree codec) (path : String)
    (original : ManagedVersion δ) (t : FileTree δ) : Prop :=
  ¬Unchanged (t.get (components path)) original ∧ tree.Discerns t

/-- A covered path that another program has changed by the time of the first
verification of `Commit`, or of the second one, makes `Commit` fail.  It returns
an error unless the machine crashes, and outside of the transaction root nothing
is changed but by the other programs.

`Commit` verifies once there is nothing to recover, and it verifies a second time
only if it is going to change a file. -/
theorem commit_detects_edit (hlines : ∀ data, '\n' ∉ (codec.hash data).toList)
    (tree : CandidateTree codec) (transaction : FileTransaction codec)
    (htransaction : tree.transaction = .ok transaction)
    (path : String) (original : ManagedVersion δ)
    (horiginal : tree.originals.lookup path = some original) (hcovers : tree.Covers path)
    (edit : FileTree δ → FileTree δ) (io : Fates δ) (names : Names) (w : World δ)
    (hrecovered : (recoverTransactions codec (io.within .recovering) w).1 = .ok false)
    (hedited : tree.Edited path original w.tree ∨ transaction.changed ≠ [] ∧
      ∀ t, w.tree.SameOutside Reserved t → tree.Edited path original (edit t)) :
    let run := transaction.commitAmid edit io names w
    (run.1 ≠ .ok ()) ∧ (io.Steady → ∃ e, run.1 = .error e) ∧
      Untouched edit w.tree run.2.tree := by
  intro run
  have hfails : ∀ t, tree.Edited path original t → ∃ e, transaction.verify t = .error e := by
    intro t ht
    cases hverify : transaction.verify t with
    | error e => exact ⟨e, rfl⟩
    | ok _ =>
      exact absurd (unchanged_of_verify htransaction hverify ht.2 hlines horiginal hcovers) ht.1
  have hcommit : (transaction.commitAmid edit io names).wp
      (fun r w' => (∃ e, r = .error e) ∧ Untouched edit w.tree w'.tree)
      (fun w' => Untouched edit w.tree w'.tree ∧ ¬io.Steady) w :=
    commitAmid_fails hrecovered
      (hedited.imp (hfails _) fun h => ⟨h.1, fun t ht => hfails _ (h.2 t ht)⟩)
  rcases wp_exit hcommit with ⟨_, -, herror, -⟩ | ⟨e, hexit, -, huntouched⟩ | ⟨hexit, hcrash⟩
  · obtain ⟨e, he⟩ := herror
    cases he
  · refine ⟨?_, fun _ => ⟨e, hexit⟩, huntouched⟩
    intro hok
    exact absurd (hexit.symm.trans hok) (by simp)
  · refine ⟨?_, fun hsteady => absurd hsteady hcrash.2, hcrash.1⟩
    intro hok
    exact absurd (hexit.symm.trans hok) (by simp)

/-! ### Concrete runs -/

/-- Contents whose digests have no line breaks. -/
def lineCodec : Codec Sample :=
  { sampleCodec with
    hash := fun data => String.ofList ((sampleCodec.hash data).toList.filter (· != '\n')) }

theorem lineCodec_lines (data : Sample) : '\n' ∉ (lineCodec.hash data).toList := by
  simp [lineCodec]

/-- The version of a file of the sample project. -/
def sampleVersion (digit : Fin 16) : ManagedVersion Sample :=
  fileVersion lineCodec.toContents 0o644 (.file digit)

/-- A tree that tracks the file of the sample project and replaces it. -/
def sampleCandidates : CandidateTree lineCodec where
  originals := [("a", sampleVersion 1)]
  candidates := [("a", sampleVersion 2)]
  sorted := List.pairwise_singleton _ _
  candidatesSorted := List.pairwise_singleton _ _
  proposed := by
    intro path h
    rw [List.lookup_cons] at h ⊢
    split at h <;> simp_all
  clean := by
    intro file hfile
    have hname : file.1 = "a" := congrArg Prod.fst (List.mem_singleton.mp hfile)
    rw [hname]
    exact relative_sample
  taken := by
    intro file hfile
    have hver : file.2 = sampleVersion 1 := congrArg Prod.snd (List.mem_singleton.mp hfile)
    exact ⟨some (.regular 0o644 (.file 1)), by rw [hver, nodeVersion, sampleVersion]⟩

theorem sampleCandidates_edited :
    sampleCandidates.Edited "a" (sampleVersion 1) (oneFile (.file 3)) := by
  have hget : (oneFile (.file 3)).get (components "a") = some (.regular 0o644 (.file 3)) := by
    decide +kernel
  refine ⟨?_, ?_, ?_⟩
  · rw [hget]
    simp [Unchanged, sampleVersion, fileVersion]
  · intro file hfile mode data hdata hhash
    have hother : lineCodec.hash (.file 3) ≠ (sampleVersion 1).digest := by decide +kernel
    rw [mem_singleton.mp hfile] at hdata hhash
    rw [hget] at hdata
    rw [← (Node.regular.inj (Option.some.inj hdata)).2] at hhash
    exact absurd hhash hother
  · intro directory hdir
    simp [sampleCandidates] at hdir

/-- Another program has written the file before `Commit` verifies it. -/
theorem commit_detects_edit_rewritten : match sampleCandidates.transaction with
    | .error _ => False
    | .ok transaction =>
      let run := transaction.commitAmid (fun t => t) (fun _ _ => .done) sampleNames
        { tree := oneFile (.file 3) }
      (∃ e, run.1 = .error e) ∧
        Untouched (fun t => t) (oneFile (.file 3)) run.2.tree := by
  have hok : sampleCandidates.transaction.isOk = true := by decide +kernel
  have hcovers : sampleCandidates.Covers "a" :=
    Or.inl ⟨"a", ⟨_, _, rfl, rfl, .inl rfl⟩, prefix_refl _⟩
  cases htransaction : sampleCandidates.transaction with
  | error e =>
    rw [htransaction] at hok
    cases hok
  | ok transaction =>
    have hdetected := commit_detects_edit lineCodec_lines sampleCandidates transaction htransaction
      "a" _ rfl hcovers (fun t => t) (fun _ _ => .done) sampleNames { tree := oneFile (.file 3) }
      (by decide +kernel) (.inl sampleCandidates_edited)
    exact ⟨hdetected.2.1 fun _ _ => rfl, hdetected.2.2⟩

/-- The update tracks a file and a path where there is nothing, and it replaces the
file. -/
def trackedAbsent : Except String (CandidateTree lineCodec) := do
  let (tree, _) ← CandidateTree.track {} (oneFile (.file 1)) "new"
  tree.set (oneFile (.file 1)) "a" (.file 2)

/-- Another program creates a file at a tracked path before `Commit` runs.  `Commit`
does not notice: it returns no error, and it replaces the other file. -/
theorem commit_misses_created_file : (do
      let tree ← trackedAbsent
      let transaction ← tree.transaction
      let edited ← ((oneFile (.file 1)).create ["new"] 0o644 (.file 3)).mapError Errno.text
      let run := transaction.commit (fun _ _ => .done) sampleNames { tree := edited }
      return (tree.originals.lookup "new", edited.get ["new"], run.1, run.2.tree.get ["a"])) =
    Except.ok (some {}, some (.regular 0o644 (.file 3)), .ok (),
      some (.regular 0o644 (.file 2))) := by
  decide +kernel

end Atum.Update
