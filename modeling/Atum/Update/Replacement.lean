import Atum.Update.Success

/-!
# Replacing a directory

`ReplaceDirectory` proposes the files of a candidate directory for a managed
directory: every file of the candidate directory gets its version, and every
other file that is on disk is deleted.  Once a transaction of that tree is
committed, the files of the managed directory should be those of the candidate
directory.

The module follows a path below the directory through three steps: what the
listings say about it (`lookup_regularTreeFiles`), what is proposed for it
(`replaceDirectory_candidate`), and which entry the transaction has for it
(`transaction_lookup`).  The result is `replaceDirectory_exact_iff`: a path that
was proposed before, and that is neither on disk nor in the candidate directory,
is left over.
-/

namespace Atum.Update

open Atum.Go Atum.Config Faults Faults.Prog List SortedAssoc FileTree FileTransaction

variable {δ : Type}

/-! ## Disks -/

/-- What every disk guarantees: names are plain, and the mode of a file is its
permission bits. -/
structure OnDisk (t : FileTree δ) : Prop where
  names : ∀ path node, t.get path = some node → ∀ name ∈ path, PlainName name
  modes : ∀ path mode data, t.get path = some (.regular mode data) → mode ≤ 0o777

/-- A path below a directory. -/
structure Below (rest : TreePath) : Prop where
  nonempty : rest ≠ []
  plain : ∀ name ∈ rest, PlainName name

variable {rest : TreePath}

theorem Below.components_slashed (h : Below rest) : components (slashed rest) = rest :=
  split_join h.nonempty fun name hname => (h.plain name hname).2.2.2

theorem Below.slashed_injective {other : TreePath} (h : Below rest) (hother : Below other)
    (heq : slashed rest = slashed other) : rest = other := by
  rw [← h.components_slashed, ← hother.components_slashed, heq]

theorem Below.slashed_ne_dot (h : Below rest) : slashed rest ≠ "." := by
  intro heq
  have hcomps := h.components_slashed
  rw [heq] at hcomps
  exact (h.plain "." (by rw [← hcomps]; decide)).2.1 rfl

/-- A managed path: what `ReplaceDirectory` makes of a name in a listing. -/
def managedPath (clean : String) (rest : TreePath) : String := slashed (components clean ++ rest)

section Paths

variable {clean : String} {rest : TreePath}

theorem below_managed (hclean : relative clean = .ok clean) (h : Below rest) :
    Below (components clean ++ rest) := by
  refine ⟨by simp [components_ne_nil], fun name hname => ?_⟩
  rcases mem_append.mp hname with hname | hname
  · exact components_of_clean hclean name hname
  · exact h.plain name hname

theorem components_managedPath (hclean : relative clean = .ok clean) (h : Below rest) :
    components (managedPath clean rest) = components clean ++ rest :=
  (below_managed hclean h).components_slashed

theorem relative_managedPath (hclean : relative clean = .ok clean) (h : Below rest) :
    relative (managedPath clean rest) = .ok (managedPath clean rest) :=
  relative_join (below_managed hclean h).nonempty (below_managed hclean h).plain

theorem joinPath_slashed (hclean : relative clean = .ok clean) (h : Below rest) :
    joinPath clean (slashed rest) = managedPath clean rest := by
  have hjoin : clean ++ "/" ++ slashed rest = managedPath clean rest := by
    rw [managedPath, slashed_append (components_ne_nil clean) h.nonempty, slashed_components]
  rw [joinPath, hjoin]
  exact clean_of_relative (relative_managedPath hclean h)

theorem joinPath_dot (hclean : relative clean = .ok clean) : joinPath clean "." = clean := by
  have hdot := clean_append_stay (components_ne_nil clean) (components_of_clean hclean) (.inr rfl)
  have hself : join (components clean) "/" = clean := slashed_components clean
  rwa [hself] at hdot

end Paths

/-! ## Listings -/

section Listings

variable {contents : Contents δ} {t : FileTree δ} {directory : TreePath}
  {files : List (String × ManagedVersion δ)}

/-- The version of a regular file on a disk. -/
def versionAt (contents : Contents δ) (t : FileTree δ) (path : TreePath) :
    Option (ManagedVersion δ) :=
  (t.file path).map fun file => fileVersion contents file.1 file.2

variable {version : ManagedVersion δ}

/-- The names in a listing of a directory. -/
theorem mem_regularTreeFiles (hdisk : OnDisk t)
    (h : regularTreeFiles contents t directory = .ok files) {name : String}
    (hmem : (name, version) ∈ files) : name = "." ∨ ∃ rest, Below rest ∧ name = slashed rest ∧
      versionAt contents t (directory ++ rest) = some version := by
  obtain ⟨rest, mode, data, hget, heq⟩ := (regularTreeFiles_ok h).1 _ hmem
  obtain ⟨rfl, rfl⟩ := Prod.mk.inj heq
  by_cases hne : rest = []
  · exact .inl (if_pos hne)
  · refine .inr ⟨rest, ⟨hne, fun other hother => ?_⟩, if_neg hne, ?_⟩
    · exact hdisk.names _ _ hget other (mem_append_right _ hother)
    · rw [versionAt, file_eq_some.mpr hget, Option.map_some]

/-- Every file of a directory is in its listing. -/
theorem mem_regularTreeFiles_of_file (h : regularTreeFiles contents t directory = .ok files)
    (hrest : rest ≠ []) (hver : versionAt contents t (directory ++ rest) = some version) :
    (slashed rest, version) ∈ files := by
  obtain ⟨⟨mode, data⟩, hfile, rfl⟩ := Option.map_eq_some_iff.mp hver
  obtain ⟨_, _, heq, hmem⟩ := (regularTreeFiles_ok h).2 rest _ (file_eq_some.mp hfile) (by simp)
  cases heq
  rwa [listedName, if_neg hrest] at hmem

/-- What a listing says about a path. -/
theorem lookup_regularTreeFiles (hdisk : OnDisk t)
    (h : regularTreeFiles contents t directory = .ok files) (hrest : Below rest) :
    files.lookup (slashed rest) = versionAt contents t (directory ++ rest) := by
  -- Whatever the listing answers is the version at the path.
  have hanswer : ∀ version, files.lookup (slashed rest) = some version →
      versionAt contents t (directory ++ rest) = some version := by
    intro version hver
    rcases mem_regularTreeFiles hdisk h (mem_of_lookup hver) with
      hdot | ⟨other, hother, hname, hat⟩
    · exact absurd hdot hrest.slashed_ne_dot
    · rwa [hrest.slashed_injective hother hname]
  cases hver : versionAt contents t (directory ++ rest) with
  | none =>
    rw [Option.eq_none_iff_forall_ne_some]
    intro version hlook
    rw [hanswer version hlook] at hver
    cases hver
  | some version =>
    have hmem := mem_regularTreeFiles_of_file h hrest.nonempty hver
    cases hlook : files.lookup (slashed rest) with
    | none =>
      rw [lookup_eq_none_iff] at hlook
      exact absurd (hlook _ hmem) (by simp)
    | some other => rw [← hanswer other hlook, hver]

end Listings

/-! ## Candidates -/

namespace CandidateTree

variable {codec : Codec δ} {tree tree' : CandidateTree codec} {t : FileTree δ}

/-- What an operation on one path does: the path is tracked, it has this candidate,
and every other path is as before. -/
structure Proposes (tree tree' : CandidateTree codec) (path : String)
    (candidate : Option (ManagedVersion δ)) : Prop where
  tracked : (tree'.originals.lookup path).isSome = true
  candidate : tree'.candidates.lookup path = candidate
  others : ∀ other, other ≠ path → tree'.originals.lookup other = tree.originals.lookup other ∧
    tree'.candidates.lookup other = tree.candidates.lookup other
  complete : tree'.completeDirectories = tree.completeDirectories

variable {path : String} {version : ManagedVersion δ}

theorem track_ok (h : tree.track t path = .ok (tree', version)) :
    ∃ clean candidate, relative path = .ok clean ∧ tree.Proposes tree' clean candidate := by
  unfold track at h
  split at h
  · cases h
  next clean hclean =>
  refine ⟨clean, tree'.candidates.lookup clean, hclean, ?_⟩
  split at h
  · next current hcur =>
    cases h
    exact ⟨by rw [hcur]; rfl, rfl, fun _ _ => ⟨rfl, rfl⟩, rfl⟩
  split at h
  · cases h
  cases h
  refine ⟨?_, rfl, fun other hne => ⟨?_, ?_⟩, rfl⟩
  · simp only [record, lookup_insert_self, Option.isSome_some]
  · exact lookup_insert_of_ne hne _ _
  · exact lookup_insert_of_ne hne _ _

variable {candidate : Option (ManagedVersion δ)}

theorem Proposes.propose (h : tree.Proposes tree' path candidate) (version : ManagedVersion δ) :
    tree.Proposes (tree'.propose path version) path (some version) := by
  refine ⟨h.tracked, lookup_insert_self _ _ _, fun other hne => ?_, h.complete⟩
  refine ⟨(h.others other hne).1, ?_⟩
  exact (lookup_insert_of_ne hne _ _).trans (h.others other hne).2

theorem delete_ok (h : tree.delete t path = .ok tree') :
    ∃ clean, relative path = .ok clean ∧ tree.Proposes tree' clean (some {}) := by
  obtain ⟨⟨tracked, version⟩, htrack, h⟩ := bind_eq_ok.mp h
  obtain ⟨clean, candidate, hclean, hproposes⟩ := track_ok htrack
  cases h
  rw [clean_of_relative hclean]
  exact ⟨clean, hclean, hproposes.propose {}⟩

theorem set_ok {data : δ} (h : tree.set t path data = .ok tree') :
    ∃ clean version, relative path = .ok clean ∧ tree.Proposes tree' clean (some version) := by
  obtain ⟨⟨tracked, current⟩, htrack, h⟩ := bind_eq_ok.mp h
  obtain ⟨clean, candidate, hclean, hproposes⟩ := track_ok htrack
  cases h
  rw [clean_of_relative hclean]
  exact ⟨clean, _, hclean, hproposes.propose _⟩

variable {replacement : List (String × ManagedVersion δ)} {directory name : String}

/-- One path of `ReplaceDirectory`. -/
theorem replacePath_ok (hclean : relative (joinPath directory name) = .ok (joinPath directory name))
    (h : replacePath t directory replacement tree name = .ok tree') :
    tree.Proposes tree' (joinPath directory name) (some ((replacement.lookup name).getD {})) := by
  unfold replacePath at h
  split at h
  · next hnone =>
    obtain ⟨clean, hclean', hproposes⟩ := delete_ok h
    obtain rfl := Except.ok.inj (hclean.symm.trans hclean')
    rw [hnone]
    exact hproposes
  next state hstate =>
  obtain ⟨⟨tracked, version⟩, htrack, h⟩ := bind_eq_ok.mp h
  obtain ⟨clean, candidate, hclean', hproposes⟩ := track_ok htrack
  obtain rfl := Except.ok.inj (hclean.symm.trans hclean')
  cases h
  rw [hstate]
  exact hproposes.propose state

/-- Every path with a candidate is tracked. -/
def Tracked (tree : CandidateTree codec) : Prop :=
  ∀ path, (tree.candidates.lookup path).isSome = true → (tree.originals.lookup path).isSome = true

theorem Proposes.keeps_tracked
    (h : tree.Proposes tree' path candidate) (htracked : tree.Tracked) : tree'.Tracked := by
  intro other hother
  by_cases heq : other = path
  · rw [heq]
    exact h.tracked
  obtain ⟨horiginals, hcands⟩ := h.others other heq
  rw [hcands] at hother
  rw [horiginals]
  exact htracked other hother

/-- A name that a listing can hold. -/
def ListedName (name : String) : Prop := name = "." ∨ ∃ rest, Below rest ∧ name = slashed rest

variable {clean : String}

theorem ListedName.relative_joinPath (hclean : relative clean = .ok clean)
    (h : ListedName name) : relative (joinPath clean name) = .ok (joinPath clean name) := by
  rcases h with rfl | ⟨rest, hrest, rfl⟩
  · rw [joinPath_dot hclean]
    exact hclean
  · rw [joinPath_slashed hclean hrest]
    exact relative_managedPath hclean hrest

/-- The path of another name is another path. -/
theorem ListedName.joinPath_ne
    (hclean : relative clean = .ok clean) (hrest : Below rest) (h : ListedName name)
    (hne : name ≠ slashed rest) : managedPath clean rest ≠ joinPath clean name := by
  intro heq
  have hcomps := congrArg components heq
  rw [components_managedPath hclean hrest] at hcomps
  rcases h with rfl | ⟨other, hother, rfl⟩
  · rw [joinPath_dot hclean] at hcomps
    exact hrest.nonempty (append_right_eq_self.mp hcomps)
  · rw [joinPath_slashed hclean hother, components_managedPath hclean hother] at hcomps
    exact hne (by rw [append_cancel_left hcomps])

/-- What the loop of `ReplaceDirectory` did. -/
structure Replaced (tree tree' : CandidateTree codec) (clean : String) (names : List String)
    (replacement : List (String × ManagedVersion δ)) : Prop where
  proposed : ∀ rest, Below rest → tree'.candidates.lookup (managedPath clean rest) =
    if slashed rest ∈ names then some ((replacement.lookup (slashed rest)).getD {})
    else tree.candidates.lookup (managedPath clean rest)
  complete : tree'.completeDirectories = tree.completeDirectories
  tracked : tree.Tracked → tree'.Tracked

theorem foldlM_replacePath_ok (hclean : relative clean = .ok clean) (names : List String)
    (hnames : ∀ name ∈ names, ListedName name) :
    ∀ {tree : CandidateTree codec}, names.foldlM (replacePath t clean replacement) tree =
    .ok tree' → tree.Replaced tree' clean names replacement := by
  induction names with
  | nil =>
    intro tree h
    cases h
    exact ⟨by simp, rfl, fun h => h⟩
  | cons name rest ih =>
    intro tree h
    obtain ⟨next, hround, h⟩ := bind_eq_ok.mp h
    have hname := hnames name (by simp)
    have hproposes := replacePath_ok (hname.relative_joinPath hclean) hround
    have hlater := ih (fun other hother => hnames other (by simp [hother])) h
    refine ⟨fun below hbelow => ?_, hlater.complete.trans hproposes.complete,
      fun htracked => hlater.tracked (hproposes.keeps_tracked htracked)⟩
    rw [hlater.proposed below hbelow]
    by_cases hmem : slashed below ∈ rest
    · rw [if_pos hmem, if_pos (mem_cons_of_mem _ hmem)]
    rw [if_neg hmem]
    by_cases heq : name = slashed below
    · rw [if_pos (by simp [heq]), ← joinPath_slashed hclean hbelow, ← heq]
      exact hproposes.candidate
    · rw [if_neg (by simp [hmem, Ne.symm heq])]
      exact (hproposes.others _ (hname.joinPath_ne hclean hbelow heq)).2

theorem mapError_eq_ok {α : Type} {x : Except String α} {f : String → String} {a : α}
    (h : x.mapError f = .ok a) : x = .ok a := by
  cases x with
  | ok b => exact h
  | error e => cases h

/-- What `ReplaceDirectory` proposes for a path of the directory: the file of the
candidate directory, nothing for a file that is only on disk, and what was proposed
before for every other path. -/
theorem replaceDirectory_ok {replacement : FileTree δ} (hdisk : OnDisk t)
    (hrep : OnDisk replacement) (hclean : relative path = .ok clean)
    (h : tree.replaceDirectory t path replacement = .ok tree') :
    (∀ rest, Below rest → tree'.candidates.lookup (managedPath clean rest) =
        match versionAt codec.toContents replacement rest,
          versionAt codec.toContents t (components clean ++ rest) with
        | some version, _ => some version
        | none, some _ => some {}
        | none, none => tree.candidates.lookup (managedPath clean rest)) ∧
      clean ∈ tree'.completeDirectories ∧ (tree.Tracked → tree'.Tracked) := by
  obtain ⟨clean', hclean', h⟩ := bind_eq_ok.mp h
  obtain rfl := Except.ok.inj (hclean.symm.trans hclean')
  have hidem := relative_idem hclean
  obtain ⟨_, -, h⟩ := bind_eq_ok.mp h
  obtain ⟨current, hcur, h⟩ := bind_eq_ok.mp h
  have hcur := mapError_eq_ok hcur
  obtain ⟨_, -, h⟩ := bind_eq_ok.mp h
  obtain ⟨candidate, hcand, h⟩ := bind_eq_ok.mp h
  have hcand := mapError_eq_ok hcand
  -- The loop runs over the names of both listings.
  have hnames : ∀ name ∈ current.map Prod.fst ++
      (candidate.map Prod.fst).filter (fun path => (current.lookup path).isNone),
      ListedName name := by
    intro name hname
    rcases mem_append.mp hname with hname | hname
    · obtain ⟨entry, hent, rfl⟩ := mem_map.mp hname
      exact (mem_regularTreeFiles hdisk hcur hent).imp id fun ⟨rest, hrest, heq, _⟩ =>
        ⟨rest, hrest, heq⟩
    · obtain ⟨entry, hent, rfl⟩ := mem_map.mp (mem_filter.mp hname).1
      exact (mem_regularTreeFiles hrep hcand hent).imp id
        fun ⟨rest, hrest, heq, _⟩ => ⟨rest, hrest, heq⟩
  have hreplaced := foldlM_replacePath_ok hidem _ hnames h
  refine ⟨fun rest hrest => ?_, ?_, hreplaced.tracked⟩
  · have hon := lookup_regularTreeFiles hdisk hcur hrest
    have hin := lookup_regularTreeFiles hrep hcand hrest
    rw [nil_append] at hin
    rw [hreplaced.proposed rest hrest]
    rw [← hon, ← hin]
    have hmem : slashed rest ∈ current.map Prod.fst ++
        (candidate.map Prod.fst).filter (fun path => (current.lookup path).isNone) ↔
        (current.lookup (slashed rest)).isSome = true ∨
          (candidate.lookup (slashed rest)).isSome = true := by
      rw [mem_append, mem_filter, mem_keys_iff]
      cases current.lookup (slashed rest) <;> simp
    cases hlook : candidate.lookup (slashed rest) with
    | some version => rw [if_pos (hmem.mpr (.inr (by rw [hlook]; rfl)))]; rfl
    | none =>
      cases hthere : current.lookup (slashed rest) with
      | some version => rw [if_pos (hmem.mpr (.inl (by rw [hthere]; rfl)))]; rfl
      | none =>
        rw [if_neg]
        · rfl
        · rw [hmem, hthere, hlook]
          simp
  · rw [hreplaced.complete]
    exact mem_insert_self

/-! ## The trees of an update -/

theorem tracked_record {hclean : relative path = .ok path} {htaken : Taken codec.toContents version}
    (h : tree.Tracked) : (tree.record path version hclean htaken).Tracked := by
  intro other hother
  simp only [record, lookup_insert] at hother ⊢
  split
  · rfl
  · next hne =>
    rw [if_neg hne] at hother
    exact h other hother

theorem tracked_trackFiles (files : List (String × ManagedVersion δ)) :
    ∀ {htaken : ∀ file ∈ files, Taken codec.toContents file.2} {tree : CandidateTree codec},
      tree.Tracked → trackFiles directory files htaken tree = .ok tree' → tree'.Tracked := by
  induction files with
  | nil =>
    intro _ tree htracked h
    exact Except.ok.inj h ▸ htracked
  | cons file rest ih =>
    intro _ tree htracked h
    rw [trackFiles] at h
    split at h
    · cases h
    refine ih ?_ h
    split
    · exact htracked
    · exact tracked_record htracked

theorem tracked_trackVendor {id : String} (htracked : tree.Tracked)
    (h : tree.trackVendor t id directory = .ok tree') : tree'.Tracked := by
  obtain ⟨_, -, h⟩ := bind_eq_ok.mp h
  have hcompl : (tree.complete (Go.clean directory)).Tracked := htracked
  split at h
  · cases h
  · exact tracked_trackFiles _ hcompl h

/-- The candidate trees that an update can build, every operation on the disk of
its time. -/
inductive Built : CandidateTree codec → Prop
  | empty : Built {}
  | track {tree tree' : CandidateTree codec} {t : FileTree δ} {path : String}
      {version : ManagedVersion δ} (before : Built tree)
      (h : tree.track t path = .ok (tree', version)) : Built tree'
  | set {tree tree' : CandidateTree codec} {t : FileTree δ} {path : String} {data : δ}
      (before : Built tree) (h : tree.set t path data = .ok tree') : Built tree'
  | delete {tree tree' : CandidateTree codec} {t : FileTree δ} {path : String}
      (before : Built tree) (h : tree.delete t path = .ok tree') : Built tree'
  | vendor {tree tree' : CandidateTree codec} {t : FileTree δ} {id directory : String}
      (before : Built tree) (h : tree.trackVendor t id directory = .ok tree') : Built tree'
  | replace {tree tree' : CandidateTree codec} {t replacement : FileTree δ} {path : String}
      (before : Built tree) (disk : OnDisk t) (source : OnDisk replacement)
      (h : tree.replaceDirectory t path replacement = .ok tree') : Built tree'

theorem Built.tracked (h : tree.Built) : tree.Tracked := by
  induction h with
  | empty => simp [Tracked]
  | track _ h ih =>
    obtain ⟨clean, candidate, -, hproposes⟩ := track_ok h
    exact hproposes.keeps_tracked ih
  | set _ h ih =>
    obtain ⟨clean, version, -, hproposes⟩ := set_ok h
    exact hproposes.keeps_tracked ih
  | delete _ h ih =>
    obtain ⟨clean, -, hproposes⟩ := delete_ok h
    exact hproposes.keeps_tracked ih
  | vendor _ h ih => exact tracked_trackVendor ih h
  | replace _ hdisk hsrc h ih =>
    obtain ⟨clean, hclean, -⟩ := bind_eq_ok.mp h
    exact (replaceDirectory_ok hdisk hsrc hclean h).2.2 ih

/-! ## The entries of a transaction -/

/-- The entry that a tracked path gets. -/
def entryOf (codec : Codec δ) (original candidate : ManagedVersion δ) :
    Option (TransactionEntry δ) :=
  if candidate.present then
    some ⟨withoutData original, candidateVersion codec
      (some (perm candidate.mode, candidate.data.getD (codec.text "")))⟩
  else if original.present then some ⟨withoutData original, candidateVersion codec none⟩
  else none

variable {transaction : FileTransaction codec}

theorem addCandidate_lookup {transaction' : FileTransaction codec}
    {file : String × ManagedVersion δ} (hclean : relative file.1 = .ok file.1)
    (h : tree.addCandidate transaction file = .ok transaction') (path : String) :
    transaction'.files.lookup path = if path = file.1 then
        (entryOf codec ((tree.originals.lookup file.1).getD {}) file.2).or
          (transaction.files.lookup path) else transaction.files.lookup path := by
  have hadded : ∀ {candidate hlisted}, transaction.add file.1
      ((tree.originals.lookup file.1).getD {}) candidate hlisted = .ok transaction' →
      transaction'.files.lookup path = if path = file.1 then
        some ⟨withoutData ((tree.originals.lookup file.1).getD {}),
          candidateVersion codec candidate⟩
        else transaction.files.lookup path := by
    intro candidate hlisted hadd
    obtain ⟨clean, hpath, -, hfiles, -⟩ := add_ok hadd
    obtain rfl := Except.ok.inj (hclean.symm.trans hpath)
    rw [hfiles, lookup_insert]
  unfold addCandidate at h
  dsimp only at h
  split at h
  · next hpres =>
    unfold FileTransaction.addMode at h
    split at h
    · cases h
    · rw [hadded h, entryOf, if_pos hpres]
      rfl
  next habsent =>
  unfold FileTransaction.delete at h
  split at h
  · next hthere =>
    rw [hadded h, entryOf, if_neg habsent, if_pos hthere]
    rfl
  next hnot =>
  cases h
  rw [entryOf]
  split <;> rfl

theorem foldlM_addCandidate_lookup (files : List (String × ManagedVersion δ)) (path : String)
    (hclean : ∀ file ∈ files, relative file.1 = .ok file.1) (hnodup : (files.map Prod.fst).Nodup) :
    ∀ {transaction transaction' : FileTransaction codec},
      files.foldlM tree.addCandidate transaction = .ok transaction' →
      transaction'.files.lookup path =
        ((files.lookup path).bind (entryOf codec ((tree.originals.lookup path).getD {}))).or
          (transaction.files.lookup path) := by
  induction files with
  | nil =>
    intro transaction transaction' h
    cases h
    rfl
  | cons file rest ih =>
    intro transaction transaction' h
    obtain ⟨next, hround, h⟩ := bind_eq_ok.mp h
    rw [map_cons, nodup_cons] at hnodup
    rw [ih (fun other hother => hclean other (by simp [hother])) hnodup.2 h,
      addCandidate_lookup (hclean file (by simp)) hround, lookup_cons]
    by_cases heq : path = file.1
    · have hnone : rest.lookup path = none := by
        rw [← Option.not_isSome_iff_eq_none, ← mem_keys_iff, heq]
        exact hnodup.1
      rw [if_pos heq, hnone, heq, beq_self_eq_true]
      rfl
    · rw [if_neg heq, beq_eq_false_iff_ne.mpr heq]

/-- The entry of a path in the transaction of a tree. -/
theorem transaction_lookup (htracked : tree.Tracked)
    (h : tree.transaction = .ok transaction) (path : String) :
    transaction.files.lookup path = (tree.candidates.lookup path).bind
      (entryOf codec ((tree.originals.lookup path).getD {})) := by
  obtain ⟨files, hfiles, hdirs⟩ := bind_eq_ok.mp h
  have hclean : ∀ file ∈ tree.candidates, relative file.1 = .ok file.1 := by
    intro file hfile
    have hsome := htracked file.1 (by rw [tree.candidatesSorted.lookup_of_mem hfile]; rfl)
    obtain ⟨version, hver⟩ := Option.isSome_iff_exists.mp hsome
    exact tree.clean (file.1, version) (mem_of_lookup hver)
  have hsame : transaction.files = files.files := by
    refine foldlM_keep (P := fun transaction => transaction.files = files.files) ?_ rfl hdirs
    intro before directory after hround hbefore
    obtain ⟨digest, -, hguard⟩ := bind_eq_ok.mp hround
    obtain ⟨-, -, -, -, hafter⟩ := guardDirectory_ok hguard
    exact hafter.trans hbefore
  rw [hsame, foldlM_addCandidate_lookup _ path hclean tree.candidatesSorted.nodup hfiles]
  exact Option.or_none

end CandidateTree

/-! ## The result -/

section Result

variable {codec : Codec δ} {tree tree' : CandidateTree codec} {transaction : FileTransaction codec}
  {io : Fates δ} {names : Names} {w w' : World δ} {u : Unit} {clean : String} {rest : TreePath}

theorem perm_of_le {mode : Nat} (h : mode ≤ 0o777) : perm mode = mode := by
  have hmod : perm mode = mode % 2 ^ 9 := Nat.and_two_pow_sub_one_eq_mod mode 9
  omega

variable {path : TreePath} {t : FileTree δ}

/-- What is kept of a place without a file is no file. -/
theorem KeepsNode.file_eq_none {t' : FileTree δ}
    (h : KeepsNode (t.get path) (t'.get path)) (hnone : t.file path = none) :
    t'.file path = none := by
  rw [FileTree.file_eq_none] at hnone ⊢
  rcases h with heq | ⟨-, hdir⟩
  · rw [heq]
    exact hnone
  · simp [hdir]

/-- After a successful commit a path of a complete directory holds the file that the
tree proposes for it, and no file if the tree proposes none. -/
theorem committed_file (htracked : tree.Tracked) (hclean : relative clean = .ok clean)
    (hcompl : clean ∈ tree.completeDirectories)
    (htx : tree.transaction = .ok transaction) (hidentified : transaction.Identified)
    (hdiscerns : tree.Discerns w.tree) (hlines : ∀ data, '\n' ∉ (codec.hash data).toList)
    (hcommit : transaction.commit io names w = (.ok u, w')) (hrest : Below rest)
    (hpath : ¬Reserved (components clean ++ rest)) : w'.tree.file (components clean ++ rest) =
      ((tree.candidates.lookup (managedPath clean rest)).filter (·.present)).map fun version =>
        (perm version.mode, version.data.getD (codec.text "")) := by
  have hcomps := components_managedPath hclean hrest
  have hlook := CandidateTree.transaction_lookup htracked htx (managedPath clean rest)
  -- An entry for the path decides what it holds.
  have hent : ∀ entry, transaction.files.lookup (managedPath clean rest) = some entry →
      KeepsNode (candidateNode codec entry) (w'.tree.get (components clean ++ rest)) := by
    intro entry hfile
    have hkeeps := commit_file hidentified hcommit (mem_of_lookup hfile)
      (by rw [location, hcomps]; exact hpath)
    rwa [location, hcomps] at hkeeps
  -- Without an entry there was no file before, or it would be tracked.
  have hfree : transaction.files.lookup (managedPath clean rest) = none →
      (∀ version, tree.originals.lookup (managedPath clean rest) = some version →
        version.present = false) → w'.tree.file (components clean ++ rest) = none := by
    intro hnone habsent
    have hkeeps : KeepsNode (w.tree.get (components clean ++ rest))
        (w'.tree.get (components clean ++ rest)) := by
      refine commit_other hcommit hpath fun file hfile heq => ?_
      rw [← hcomps] at heq
      have hsome : transaction.files.lookup file.1 = some file.2 :=
        transaction.sorted.lookup_of_mem hfile
      rw [components_injective heq, hnone] at hsome
      cases hsome
    refine hkeeps.file_eq_none ?_
    rw [FileTree.file_eq_none]
    intro mode data hget
    obtain ⟨version, hver, hpres⟩ := tracked_in_complete htx (commit_ok hcommit).1
      hdiscerns hlines hcompl hclean (by rw [hcomps]; exact prefix_append _ _)
      (by rw [hcomps]; exact hget) (by simp)
    rw [habsent version hver] at hpres
    cases hpres
  cases hcand : tree.candidates.lookup (managedPath clean rest) with
  | none =>
    rw [hcand] at hlook
    refine hfree hlook fun version hver => ?_
    have hproposed := tree.proposed _ (by rw [hver]; rfl)
    rw [hcand] at hproposed
    cases hproposed
  | some version =>
    rw [hcand, Option.bind_some, CandidateTree.entryOf] at hlook
    cases hpres : version.present with
    | true =>
      rw [if_pos hpres] at hlook
      have hfile := (hent _ hlook).of_some
      rw [file_eq_some.mpr hfile, Option.filter_some, if_pos hpres]
      rfl
    | false =>
      rw [if_neg (by simp [hpres])] at hlook
      rw [Option.filter_some, if_neg (by simp [hpres]), Option.map_none]
      split at hlook
      · rw [FileTree.file_eq_none]
        intro mode data hget
        rcases hent _ hlook with hnone | ⟨-, hdir⟩
        · rw [hget] at hnone
          cases hnone
        · rw [hget] at hdir
          cases hdir
      next habsent =>
      refine hfree hlook fun original horig => ?_
      rw [horig] at habsent
      simpa using habsent

/-- A path of the directory that was proposed before and that `ReplaceDirectory`
does not come to: it is neither on disk nor in the candidate directory. -/
def Leftover (tree : CandidateTree codec) (disk replacement : FileTree δ) (clean path : String) :
    Prop :=
  ∃ rest, rest ≠ [] ∧ components path = components clean ++ rest ∧
    (∃ version, tree.candidates.lookup path = some version ∧ version.present = true) ∧
    disk.file (components path) = none ∧ replacement.file rest = none

theorem versionAt_eq_none {contents : Contents δ} :
    versionAt contents t path = none ↔ t.file path = none := Option.map_eq_none_iff

/-- `ReplaceDirectory` and a successful commit of the tree make the files of a
directory those of the candidate directory exactly if nothing was left over from
what the tree had proposed earlier.  The disk may change between the two.

The files of the update itself, in the transaction root, are left out.  `disk` and
`replacement` are what `ReplaceDirectory` finds. -/
theorem replaceDirectory_exact_iff (hlines : ∀ data, '\n' ∉ (codec.hash data).toList)
    (tree tree' : CandidateTree codec) (hbuilt : tree.Built) (disk replacement : FileTree δ)
    (hdisk : OnDisk disk) (hreplacement : OnDisk replacement) (path clean : String)
    (hclean : relative path = .ok clean)
    (hreplace : tree.replaceDirectory disk path replacement = .ok tree')
    (transaction : FileTransaction codec) (htransaction : tree'.transaction = .ok transaction)
    (hidentified : transaction.Identified) (io : Fates δ) (names : Names) (w : World δ)
    (hw : OnDisk w.tree) (hdiscerns : tree'.Discerns w.tree)
    (hcommit : (transaction.commit io names w).1 = .ok ()) :
    let after := (transaction.commit io names w).2.tree
    (∀ rest, rest ≠ [] → ¬Reserved (components clean ++ rest) →
        after.file (components clean ++ rest) = replacement.file rest) ↔
      ∀ other, ¬Reserved (components other) → ¬Leftover tree disk replacement clean other := by
  intro after
  have hidem := relative_idem hclean
  have hrun : transaction.commit io names w = (.ok (), (transaction.commit io names w).2) :=
    Prod.ext hcommit rfl
  obtain ⟨hproposed, hcomplete, htracked⟩ :=
    CandidateTree.replaceDirectory_ok hdisk hreplacement hclean hreplace
  have hfile : ∀ rest, Below rest → ¬Reserved (components clean ++ rest) →
      after.file (components clean ++ rest) =
        ((tree'.candidates.lookup (managedPath clean rest)).filter (·.present)).map fun version =>
          (perm version.mode, version.data.getD (codec.text "")) := fun rest hrest hpath =>
    committed_file (htracked hbuilt.tracked) hidem hcomplete htransaction hidentified hdiscerns
      hlines hrun hrest hpath
  constructor
  · intro hexact other hother hleftover
    obtain ⟨rest, hne, hcomponents, ⟨version, hversion, hpresent⟩, hoff, hout⟩ := hleftover
    obtain ⟨original, horiginal⟩ := Option.isSome_iff_exists.mp
      (hbuilt.tracked other (by rw [hversion]; rfl))
    have hplain := components_of_clean (tree.clean _ (mem_of_lookup horiginal))
    rw [hcomponents] at hplain hoff hother
    have hrest : Below rest := ⟨hne, fun name hname => hplain name (mem_append_right _ hname)⟩
    have hmanaged : managedPath clean rest = other := by
      rw [managedPath, ← hcomponents, slashed_components]
    have hstays := hproposed rest hrest
    rw [versionAt_eq_none.mpr hout, versionAt_eq_none.mpr hoff, hmanaged, hversion] at hstays
    have hheld := hfile rest hrest hother
    rw [hexact rest hne hother, hout, hmanaged, hstays, Option.filter_some,
      if_pos hpresent] at hheld
    cases hheld
  · intro hnone rest hne hpath
    by_cases hplain : ∀ name ∈ rest, PlainName name
    · have hrest : Below rest := ⟨hne, hplain⟩
      have hcomponents := components_managedPath hidem hrest
      rw [hfile rest hrest hpath, hproposed rest hrest]
      cases hin : replacement.file rest with
      | some found =>
        have hmode := hreplacement.modes rest found.1 found.2 (file_eq_some.mp hin)
        simp [versionAt, hin, fileVersion, perm_of_le hmode]
      | none =>
        rw [versionAt_eq_none.mpr hin]
        cases hon : disk.file (components clean ++ rest) with
        | some found => simp [versionAt, hon]
        | none =>
          rw [versionAt_eq_none.mpr hon]
          cases hversion : tree.candidates.lookup (managedPath clean rest) with
          | none => rfl
          | some version =>
            have hleftover : ¬version.present = true := fun hpresent =>
              hnone (managedPath clean rest) (by rw [hcomponents]; exact hpath)
                ⟨rest, hne, hcomponents, ⟨version, hversion, hpresent⟩,
                  by rw [hcomponents]; exact hon, hin⟩
            simp [hleftover]
    · -- No disk has a file at such a path, and no managed path is there.
      have hout : replacement.file rest = none := by
        rw [FileTree.file_eq_none]
        exact fun mode data hget => hplain (hreplacement.names _ _ hget)
      have hkeeps : KeepsNode (w.tree.get (components clean ++ rest))
          (after.get (components clean ++ rest)) := by
        refine commit_other hrun hpath fun file hmem heq => hplain fun name hname => ?_
        refine components_of_clean (transaction.valid file hmem).clean name ?_
        rw [location] at heq
        rw [heq]
        exact mem_append_right _ hname
      rw [hout]
      refine hkeeps.file_eq_none ?_
      rw [FileTree.file_eq_none]
      exact fun mode data hget => hplain fun name hname =>
        hw.names _ _ hget name (mem_append_right _ hname)

end Result

/-! ### Concrete runs -/

/-- A project with a directory of two files. -/
def vendorDisk : FileTree Sample where
  nodes := [(["v"], .directory), (["v", "a"], .regular 0o644 (.file 1)),
    (["v", "b"], .regular 0o644 (.file 3))]
  sorted := by
    unfold SortedAssoc.Sorted
    decide +kernel
  closed := by
    intro path name node h
    have hpaths : (path ++ [name]).dropLast = [] ∨ (path ++ [name]).dropLast = ["v"] := by
      have hmem := List.mem_map_of_mem (f := fun entry => entry.1.dropLast) h
      simpa using hmem
    rw [List.dropLast_concat] at hpaths
    exact hpaths.imp_right fun hpath => by rw [hpath]; rfl

theorem onDisk_of_nodes {t : FileTree δ}
    (hnames : ∀ entry ∈ t.nodes, ∀ name ∈ entry.1, PlainName name)
    (hmodes : ∀ entry ∈ t.nodes, ∀ mode data, entry.2 = .regular mode data → mode ≤ 0o777) :
    OnDisk t := by
  have hmem : ∀ path node, path ≠ [] → t.get path = some node → (path, node) ∈ t.nodes :=
    fun path node hne hget => (get_eq_some_iff_mem hne).mp hget
  constructor
  · intro path node hget name hname
    exact hnames _ (hmem path node (ne_nil_of_mem hname) hget) name hname
  intro path mode data hget
  have hne : path ≠ [] := by
    rintro rfl
    cases hget
  exact hmodes _ (hmem path _ hne hget) mode data rfl

/-- Only the file with this digit has its digest. -/
theorem lineCodec_identifies {data : Sample}
    (h : lineCodec.hash data = lineCodec.hash (.file 2)) : data = .file 2 := by
  cases data with
  | file digit =>
    have hdigit : ∀ d : Fin 16, lineCodec.hash (.file d) = lineCodec.hash (.file 2) → d = 2 := by
      decide +kernel
    rw [hdigit digit h]
  | journal journal =>
    have hne : lineCodec.hash (.file 2) ≠ "journal" := by decide +kernel
    have hjournal : lineCodec.hash (.journal journal) = "journal" := by
      change String.ofList ("journal".toList.filter (· != '\n')) = "journal"
      decide +kernel
    exact absurd (h.symm.trans hjournal) hne
  | text text =>
    have hhead : (lineCodec.hash (.file 2)).toList.head? = some '2' := by decide +kernel
    rw [← h] at hhead
    simp [lineCodec, sampleCodec] at hhead

/-- An update that has tracked the directory, has deleted one of its files and has set
the other. -/
def vendorEdited : Except String (CandidateTree lineCodec) := do
  let tree ← (CandidateTree.trackVendor {} vendorDisk "v" "v" : Except _ (CandidateTree lineCodec))
  let tree ← tree.delete vendorDisk "v/a"
  tree.set vendorDisk "v/b" (.file 5)

theorem vendorEdited_built {tree : CandidateTree lineCodec} (h : vendorEdited = .ok tree) :
    tree.Built := by
  obtain ⟨tracked, htracked, h⟩ := bind_eq_ok.mp h
  obtain ⟨edited, hdelete, hset⟩ := bind_eq_ok.mp h
  exact .set (.delete (.vendor .empty htracked) hdelete) hset

/-- Then `ReplaceDirectory`, with a candidate directory that has only the deleted file. -/
def vendorReplaced : Except String (CandidateTree lineCodec) := do
  let tree ← vendorEdited
  tree.replaceDirectory vendorDisk "v" (oneFile (.file 2))

/-- The candidates of a transaction. -/
def candidatesOf (transaction : FileTransaction lineCodec) : List (ManagedVersion Sample) :=
  transaction.files.map fun file => file.2.candidate

theorem vendorReplaced_discerns {tree : CandidateTree lineCodec} (h : vendorReplaced = .ok tree) :
    tree.Discerns vendorDisk := by
  have horiginals : vendorReplaced.map (·.originals) =
      .ok [("v/a", sampleVersion 1), ("v/b", sampleVersion 3)] := by
    decide +kernel
  have hdirs : vendorReplaced.map (·.completeDirectories) = .ok ["v"] := by decide +kernel
  rw [h] at horiginals hdirs
  have horiginals : tree.originals = _ := Except.ok.inj horiginals
  have hdirs : tree.completeDirectories = ["v"] := Except.ok.inj hdirs
  constructor
  · -- The disk holds what was tracked.
    have hheld : ∀ file ∈ [("v/a", sampleVersion 1), ("v/b", sampleVersion 3)],
        vendorDisk.file (components file.1) = file.2.data.map fun data => (0o644, data) := by
      decide +kernel
    intro file hfile mode data hget _
    rw [horiginals] at hfile
    have hdata := hheld file hfile
    rw [file_eq_some.mpr hget] at hdata
    obtain ⟨found, hfound, heq⟩ := Option.map_eq_some_iff.mp hdata.symm
    rw [hfound, (Prod.mk.inj heq).2]
  intro directory hdir clean files hclean hfiles
  rw [hdirs, mem_singleton] at hdir
  have hv : relative "v" = .ok "v" := by decide +kernel
  rw [hdir, hv] at hclean
  cases hclean
  have hlisting : regularTreeFiles lineCodec.toContents vendorDisk (components "v") =
      .ok [("a", sampleVersion 1), ("b", sampleVersion 3)] := by
    decide +kernel
  have hsame : ([("a", sampleVersion 1), ("b", sampleVersion 3)].filterMap fun file =>
      treeFile file.1 file.2) =
        managedFiles "v" [("v/a", sampleVersion 1), ("v/b", sampleVersion 3)] := by
    rfl
  rw [hdir, horiginals, ← Except.ok.inj (hlisting.symm.trans hfiles), hsame]
  have hpaths : ∀ file ∈ managedFiles "v" [("v/a", sampleVersion 1), ("v/b", sampleVersion 3)],
      '\x00' ∉ file.path.toList := by
    decide +kernel
  refine ⟨fun file hfile => ?_, fun s s' hs hs' _ => Except.ok.inj (hs.symm.trans hs')⟩
  exact (mem_append.mp hfile).elim (hpaths file) (hpaths file)

theorem replaceDirectory_exact_vendor : match vendorReplaced with
    | .error _ => False
    | .ok tree =>
      match tree.transaction with
      | .error _ => False
      | .ok transaction =>
        let run := transaction.commit (fun _ _ => .done) sampleNames { tree := vendorDisk }
        run.1 = .ok () ∧ ∀ rest, rest ≠ [] → ¬Reserved (components "v" ++ rest) →
          run.2.tree.file (components "v" ++ rest) = (oneFile (.file 2)).file rest := by
  have hrun : (do
      let tree ← vendorReplaced
      let transaction ← tree.transaction
      return (candidatesOf transaction, (transaction.commit (fun _ _ => .done) sampleNames
        { tree := vendorDisk }).1)) = Except.ok ([sampleVersion 2, {}], Exit.ok ()) := by
    decide +kernel
  cases htree : vendorReplaced with
  | error e =>
    rw [htree] at hrun
    cases hrun
  | ok tree => ?_
  rw [htree] at hrun
  change (tree.transaction >>= _) = _ at hrun
  obtain ⟨transaction, htransaction, hrun⟩ := bind_eq_ok.mp hrun
  obtain ⟨hcandidates, hcommit⟩ := Prod.mk.inj (Except.ok.inj hrun)
  simp only [htransaction]
  have hdisk : OnDisk vendorDisk :=
    onDisk_of_nodes (by decide +kernel) (by simp +contextual [vendorDisk])
  have hreplacement : OnDisk (oneFile (.file 2)) :=
    onDisk_of_nodes (by decide +kernel) (by simp +contextual [oneFile])
  have hidentified : transaction.Identified := by
    intro file hfile hpresent data hdata
    have hmem : file.2.candidate ∈ candidatesOf transaction := mem_map_of_mem hfile
    have hwritten : file.2.candidate = sampleVersion 2 := by
      rw [hcandidates] at hmem
      simp only [mem_cons, not_mem_nil, or_false] at hmem
      exact hmem.resolve_right fun habsent => by simp [habsent] at hpresent
    rw [hwritten] at hdata
    rw [candidateData, hwritten]
    exact lineCodec_identifies hdata
  obtain ⟨edited, hedited, hreplace⟩ := bind_eq_ok.mp htree
  refine ⟨hcommit, (replaceDirectory_exact_iff lineCodec_lines edited tree
    (vendorEdited_built hedited) vendorDisk (oneFile (.file 2)) hdisk hreplacement "v" "v"
    (by decide +kernel) hreplace transaction htransaction hidentified (fun _ _ => .done) sampleNames
    { tree := vendorDisk } hdisk (vendorReplaced_discerns htree) hcommit).mpr ?_⟩
  -- Every file that was proposed was there before.
  have hproposed : vendorEdited.map (·.candidates) =
      .ok [("v/a", {}), ("v/b", sampleVersion 5)] := by
    decide +kernel
  rw [hedited] at hproposed
  have hthere : ∀ file ∈ [("v/a", {}), ("v/b", sampleVersion 5)],
      vendorDisk.file (components file.1) ≠ none := by
    decide +kernel
  rintro other - ⟨-, -, -, ⟨version, hversion, -⟩, hoff, -⟩
  have hproposed : edited.candidates = _ := Except.ok.inj hproposed
  rw [hproposed] at hversion
  exact hthere _ (mem_of_lookup hversion) hoff

/-- A managed directory with one file, and a candidate directory with another version
of it.  The update has tracked the directory and set a new file in it. -/
def leftoverRun : Except String (Exit Unit × Option (Nat × Sample) × Option (Nat × Sample)) := do
  let t ← (FileTree.empty.mkdirAll ["v"]).mapError Errno.text
  let disk ← (t.create ["v", "a"] 0o644 (.file 1)).mapError Errno.text
  let tree ← (CandidateTree.trackVendor {} disk "v" "v" : Except String (CandidateTree lineCodec))
  let tree ← tree.set disk "v/b" (.file 3)
  let tree ← tree.replaceDirectory disk "v" (oneFile (.file 2))
  let transaction ← tree.transaction
  let run := transaction.commit (fun _ _ => .done) sampleNames { tree := disk }
  return (run.1, run.2.tree.file ["v", "a"], run.2.tree.file ["v", "b"])

/-- The new file is still there after the directory was replaced. -/
theorem replaceDirectory_keeps_set_file :
    leftoverRun = .ok (.ok (), some (0o644, .file 2), some (0o644, .file 3)) ∧
      (oneFile (.file 2)).file ["b"] = none := by
  decide +kernel

end Atum.Update
