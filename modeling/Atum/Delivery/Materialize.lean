import Atum.Config.Checks
import Atum.Go.Outcome
import Atum.Library.PathWalk

/-!
# Sources written from a Git snapshot

`materializeBuildWorkspace` and `materializePublicationSource` write the files
and symbolic links of a Git snapshot below a fresh directory.  A link is written
only if `containedLink` accepts it, which joins the directory of the link and its
target and looks at the clean form of the text.

The calls of the operating system follow links, so a file is written where the
walk of its path leads.  The result says when the walk of a path of the written
tree stays below the directory.
-/

namespace Atum.Delivery

open Atum.Go Atum.Config PathWalk List

/-! ## The snapshot -/

/-- `filemode.FileMode`. -/
inductive FileMode where
  | empty
  | dir
  | regular
  | deprecated
  | executable
  | symlink
  | submodule
  deriving DecidableEq, Repr

/-- `FileMode.String`. -/
def FileMode.text : FileMode → String
  | .empty => "0000000"
  | .dir => "0040000"
  | .regular => "0100644"
  | .deprecated => "0100664"
  | .executable => "0100755"
  | .symlink => "0120000"
  | .submodule => "0160000"

/-- `gitsnapshot.File`.  `content` is what opening and reading the tracked file
gives. -/
structure SnapshotFile where
  name : String
  mode : FileMode
  size : Nat
  content : Except String (List UInt8)
  symlink : String := ""

/-- `File.Reader`, read to its end. -/
def SnapshotFile.reader (file : SnapshotFile) : Except String (List UInt8) :=
  if file.mode ≠ .regular ∧ file.mode ≠ .executable ∧ file.mode ≠ .deprecated then
    .error s!"tracked source {file.name} is not a regular file"
  else file.content

/-- `File.Contents`. -/
def SnapshotFile.contents (file : SnapshotFile) : Except String String :=
  if file.mode ≠ .symlink then .error s!"tracked source {file.name} is not a symlink"
  else .ok file.symlink

/-! ## The checks of names -/

/-- `cleanArchiveName`. -/
def cleanArchiveName (name : String) : Except String String :=
  let name := clean name
  if name = "" ∨ name = "." ∨ name = ".." ∨ hasPrefix name "../" ∨ hasPrefix name "/" then
    .error s!"unsafe archive path {quote name}"
  else .ok name

/-- `containedLink`. -/
def containedLink (name target : String) : Bool :=
  if target = "" ∨ isAbs target then false
  else
    let resolved := clean (joinPath [dir name, target])
    resolved != ".." && !hasPrefix resolved "../"

/-- `buildSnapshotPath`. -/
def buildSnapshotPath (name : String) : Bool :=
  name = ".dockerignore" || name = "go.mod" || name = "go.sum" || hasPrefix name "cli/" ||
    hasPrefix name "cmd/atum-operator/" || hasPrefix name "operator/" ||
    hasPrefix name "platform/build/"

/-! ## Writing -/

/-- The text of a location. -/
def locationText (location : List String) : String := "/" ++ join location "/"

/-- The text of an error of the package `os`. -/
def pathError {α : Type} (operation : String) (path : List String) :
    Except Failure α → Except String α
  | .ok value => .ok value
  | .error failure => .error s!"{operation} {locationText path}: {failure.text}"

/-- `materializeGitFile`. -/
def materializeGitFile (disk : Disk (List UInt8)) (file : SnapshotFile) (path : List String)
    (mode : Nat) : Except String (Disk (List UInt8)) := do
  let data ← file.reader
  let disk ← pathError "open" path (make disk path (.regular mode data))
  if data.length ≠ file.size then
    .error s!"Git source {file.name} yielded {data.length} bytes, want {file.size}"
  else .ok disk

/-- The link that `os.Symlink` makes for a target. -/
def linkEntry (target : String) : Entry (List UInt8) := .link (isAbs target) (split target '/')

/-- One file of the snapshot.  `unsupported` is the error for a mode that is not
written. -/
def materializeEntry (unsupported : FileMode → String → String) (destination : List String)
    (disk : Disk (List UInt8)) (file : SnapshotFile) : Except String (Disk (List UInt8)) := do
  let name ← cleanArchiveName file.name
  let path := destination ++ split name '/'
  let disk ← pathError "mkdir" path.dropLast (mkdirAll disk path.dropLast)
  match file.mode with
  | .regular | .deprecated => materializeGitFile disk file path 0o644
  | .executable => materializeGitFile disk file path 0o755
  | .symlink =>
    let target ← file.contents
    if containedLink name target then
      pathError s!"symlink {target}" path (make disk path (linkEntry target))
    else .error s!"Git symlink {name} escapes through {target}"
  | mode => .error (unsupported mode name)

/-- The loop over the files of the snapshot. -/
def materialize (selected : String → Bool) (unsupported : FileMode → String → String)
    (destination : List String) (files : List SnapshotFile) (disk : Disk (List UInt8)) :
    Except String (Disk (List UInt8)) :=
  (files.filter fun file => selected file.name).foldlM (materializeEntry unsupported destination)
    disk

/-- `materializeBuildWorkspace`, from the loaded snapshot and the fresh directory
on. -/
def materializeBuildWorkspace : List String → List SnapshotFile → Disk (List UInt8) →
    Except String (Disk (List UInt8)) :=
  materialize buildSnapshotPath fun mode name =>
    if mode = .submodule then s!"build source contains unsupported submodule {name}"
    else s!"build source contains unsupported mode {mode.text} at {name}"

/-- `materializePublicationSource`, from the loaded snapshot and the fresh
directory on. -/
def materializePublicationSource : List String → List SnapshotFile → Disk (List UInt8) →
    Except String (Disk (List UInt8)) :=
  materialize (fun _ => true) fun mode name =>
    s!"Git source contains unsupported mode {mode.text} at {name}"

/-! ## What is assumed of the directory and of the links -/

/-- The destination is an empty directory that is reached without links. -/
structure Fresh (disk : Disk (List UInt8)) (destination : List String) : Prop where
  named : ∀ name ∈ destination, Named name
  above : ∀ location, location <+: destination → disk location = some .directory
  empty : ∀ path, path ≠ [] → disk (destination ++ path) = none

/-- What `containedLink` does not see in the written tree. -/
structure Detached (files : List SnapshotFile) (destination : List String)
    (disk : Disk (List UInt8)) : Prop where
  /-- A link that was written through another link, and does not stand at its own name, has
  a target that does not climb above the destination from where the link stands. -/
  placed : ∀ directory name target,
    disk (destination ++ directory ++ [name]) = some (.link false target) →
    (¬∃ link ∈ files, link.mode = .symlink ∧ cleanComponents link.name = directory ++ [name] ∧
      linkEntry link.symlink = .link false target) → (climb directory.length target).isSome
  /-- No `..` in the target of a link climbs out of a link. -/
  climbs : ∀ directory name target,
    disk (destination ++ directory ++ [name]) = some (.link false target) →
      Clear disk (destination ++ directory) target

/-! ## The text of a contained link -/

variable {name : String}

theorem cleanArchiveName_ok {clean : String} (h : cleanArchiveName name = .ok clean) :
    clean = join (cleanComponents name) "/" ∧ cleanComponents name ≠ [] ∧
      ∀ part ∈ cleanComponents name, PlainName part := by
  apply relative_ok
  simp only [cleanArchiveName] at h
  split at h
  · cases h
  next hsafe =>
  cases h
  simp only [not_or] at hsafe
  obtain ⟨-, hdot, hdots, hup, hroot⟩ := hsafe
  rw [relative, if_neg]
  simp only [isAbs, not_or]
  refine ⟨?_, hroot, hdot, hdots, hup⟩
  rintro rfl
  exact hdot (by decide +kernel)

variable {path : String}

/-- A relative path that climbs above its start is seen to do so, also in its clean
form. -/
theorem climbs_of_head (hroot : hasPrefix path "/" = false)
    (h : (cleanComponents path).head? = some "..") :
    clean path = ".." ∨ hasPrefix (clean path) "../" = true := by
  obtain ⟨rest, hcomps⟩ := List.head?_eq_some_iff.mp h
  have hclean : clean path = join (".." :: rest) "/" := by
    simp [clean, hroot, hcomps]
  rw [hclean]
  exact hasPrefix_join_dots rest

theorem head_cleanComponents_clean (hroot : hasPrefix path "/" = false)
    (h : (cleanComponents path).head? = some "..") :
    hasPrefix (clean path) "/" = false ∧ (cleanComponents (clean path)).head? = some ".." := by
  obtain ⟨rest, hcomps⟩ := List.head?_eq_some_iff.mp h
  have hclean : clean path = join (".." :: rest) "/" := by
    simp [clean, hroot, hcomps]
  have hsplit : split (clean path) '/' = ".." :: rest := by
    rw [hclean]
    refine split_join (by simp) fun part hpart => ?_
    rw [← hcomps] at hpart
    exact not_mem_of_mem_cleanComponents hpart
  have hrooted : hasPrefix (clean path) "/" = false := by
    rw [← Bool.not_eq_true]
    intro hpre
    have hhead := head_split_of_hasPrefix "" (by simp) hpre
    rw [hsplit] at hhead
    exact absurd (Option.some.inj hhead) (by decide)
  refine ⟨hrooted, ?_⟩
  rw [cleanComponents, hrooted, hsplit, List.head?_reverse]
  exact getLast?_foldl_cleanStep rest _ rfl

variable {names : List String}

/-- The scan of a target from a directory of plain names. -/
theorem cleanComponents_dir_append (target : String)
    (hplain : ∀ other ∈ names ++ [name], PlainName other) :
    hasPrefix (dir (join (names ++ [name]) "/") ++ "/" ++ target) "/" = false ∧
      cleanComponents (dir (join (names ++ [name]) "/") ++ "/" ++ target) =
        ((split target '/').foldl (cleanStep false) names.reverse).reverse := by
  have hnames : ∀ other ∈ names, PlainName other :=
    fun other hother => hplain other (by simp [hother])
  -- What the directory leaves in the scan, and that it is not empty.
  obtain ⟨hfold, first, hfirst, hne⟩ :
      (split (dir (join (names ++ [name]) "/")) '/').foldl (cleanStep false) [] = names.reverse ∧
        ∃ first, (split (dir (join (names ++ [name]) "/")) '/').head? = some first ∧
          first ≠ "" := by
    rw [dir_join hplain]
    split
    · next hnil =>
      subst hnil
      exact ⟨by decide +kernel, ".", by decide +kernel, by decide⟩
    next hnonempty =>
    rw [split_join hnonempty fun other hother => (hnames other hother).2.2.2,
      foldl_cleanStep_plain _ _ hnames, append_nil]
    obtain ⟨first, rest, rfl⟩ := exists_cons_of_ne_nil hnonempty
    exact ⟨rfl, first, rfl, (hnames first (by simp)).1⟩
  have hroot : hasPrefix (dir (join (names ++ [name]) "/") ++ "/" ++ target) "/" = false := by
    rw [← Bool.not_eq_true]
    intro hpre
    have hhead := head_split_of_hasPrefix "" (by simp) hpre
    rw [split_append, List.head?_append, hfirst] at hhead
    exact hne (Option.some.inj hhead)
  exact ⟨hroot, by rw [cleanComponents, hroot, split_append, foldl_append, hfold]⟩

/-- The scan of the target of an accepted link, from the directory of the link,
does not climb above the destination. -/
theorem not_climbs_of_containedLink {target : String}
    (hplain : ∀ other ∈ names ++ [name], PlainName other)
    (h : containedLink (join (names ++ [name]) "/") target = true) : isAbs target = false ∧
      ((split target '/').foldl (cleanStep false) names.reverse).getLast? ≠ some ".." := by
  unfold containedLink at h
  split at h
  · cases h
  next hrelative =>
  rw [not_or] at hrelative
  refine ⟨by simpa using hrelative.2, fun hclimbs => ?_⟩
  obtain ⟨hroot, hcomps⟩ := cleanComponents_dir_append target hplain
  rw [← List.head?_reverse, ← hcomps] at hclimbs
  have hdir : dir (join (names ++ [name]) "/") ≠ "" := by
    rintro hempty
    rw [hempty, hasPrefix] at hroot
    simp at hroot
  obtain ⟨hroot', hhead⟩ := head_cleanComponents_clean hroot hclimbs
  rw [joinPath_pair hdir hrelative.1, Bool.and_eq_true, bne_iff_ne] at h
  rcases climbs_of_head hroot' hhead with hdots | hup
  · exact h.1 hdots
  · rw [hup] at h
    cases h.2

/-- A path whose scan does not climb above its start does not climb above it. -/
theorem climb_of_scan (path : List String) :
    ∀ {directory : List String}, ".." ∉ directory →
      (path.foldl (cleanStep false) directory.reverse).getLast? ≠ some ".." →
      (climb directory.length path).isSome := by
  induction path with
  | nil => exact fun _ _ => rfl
  | cons component rest ih =>
    intro directory hnames hscan
    rw [foldl_cons] at hscan
    by_cases hstay : component = "" ∨ component = "."
    · rw [cleanStep_stay hstay] at hscan
      rw [climb_stay hstay]
      exact ih hnames hscan
    by_cases hup : component = ".."
    · subst hup
      rcases eq_nil_or_concat' directory with rfl | ⟨above, last, rfl⟩
      · exact absurd (getLast?_foldl_cleanStep rest [".."] rfl) hscan
      have hlast : last ≠ ".." := by
        rintro rfl
        simp at hnames
      rw [reverse_append, reverse_singleton, singleton_append, cleanStep_up hlast] at hscan
      rw [length_append, length_singleton, climb_up]
      exact ih (fun hmem => hnames (by simp [hmem])) hscan
    · rw [cleanStep_name hstay hup] at hscan
      have hnext := @ih (directory ++ [component]) (by simp [hnames, Ne.symm hup])
        (by rwa [reverse_append])
      rwa [length_append, length_singleton, ← climb_name (named_of_not hstay hup)] at hnext

/-! ## One file -/

section Entries

variable {destination : List String} {disk disk' : Disk (List UInt8)} {files : List SnapshotFile}
  {file : SnapshotFile} {unsupported : FileMode → String → String} {path : List String}

/-- `pathError` keeps a success. -/
theorem pathError_ok {α : Type} {operation : String} {value : α}
    {result : Except Failure α} (h : pathError operation path result = .ok value) :
    result = .ok value := by
  cases result with
  | ok other => exact congrArg _ (Except.ok.inj h)
  | error failure => cases h

theorem materializeGitFile_ok {mode : Nat}
    (h : materializeGitFile disk file path mode = .ok disk') :
    ∃ data, make disk path (.regular mode data) = .ok disk' := by
  obtain ⟨data, -, h⟩ := bind_eq_ok.mp h
  obtain ⟨made, hmade, h⟩ := bind_eq_ok.mp h
  split at h
  · cases h
  · cases h
    exact ⟨data, pathError_ok hmade⟩

/-- The name and the target of a file that is written as a link. -/
structure Admitted (link : SnapshotFile) : Prop where
  symlink : link.mode = .symlink
  contained : containedLink (join (cleanComponents link.name) "/") link.symlink = true

/-- What a written file does to the disk. -/
theorem materializeEntry_ok (h : materializeEntry unsupported destination disk file = .ok disk') :
    cleanComponents file.name ≠ [] ∧ (∀ part ∈ cleanComponents file.name, PlainName part) ∧
      ∃ between, mkdirAll disk (destination ++ cleanComponents file.name).dropLast = .ok between ∧
        (file.mode ≠ .symlink ∧ (∃ mode data, make between
            (destination ++ cleanComponents file.name) (.regular mode data) = .ok disk') ∨
          Admitted file ∧ make between (destination ++ cleanComponents file.name)
            (linkEntry file.symlink) = .ok disk') := by
  obtain ⟨name, hname, h⟩ := bind_eq_ok.mp h
  obtain ⟨rfl, hne, hplain⟩ := cleanArchiveName_ok hname
  rw [split_join hne fun part hpart => (hplain part hpart).2.2.2] at h
  obtain ⟨between, hbetween, h⟩ := bind_eq_ok.mp h
  refine ⟨hne, hplain, between, pathError_ok hbetween, ?_⟩
  split at h
  · next hmode =>
    obtain ⟨data, hmake⟩ := materializeGitFile_ok h
    exact .inl ⟨by simp [hmode], _, data, hmake⟩
  · next hmode =>
    obtain ⟨data, hmake⟩ := materializeGitFile_ok h
    exact .inl ⟨by simp [hmode], _, data, hmake⟩
  · next hmode =>
    obtain ⟨data, hmake⟩ := materializeGitFile_ok h
    exact .inl ⟨by simp [hmode], _, data, hmake⟩
  · next hmode =>
    obtain ⟨target, htgt, h⟩ := bind_eq_ok.mp h
    rw [SnapshotFile.contents, if_neg (by simp [hmode])] at htgt
    cases htgt
    split at h
    · next hcontained => exact .inr ⟨⟨hmode, hcontained⟩, pathError_ok h⟩
    · cases h
  · cases h

/-- What holds of the disk while the files are written: the way to the destination
stays as it is, names are plain below it, and every new link is a link of the snapshot that
was let pass and has kept its last name. -/
structure Written (files : List SnapshotFile) (destination : List String)
    (start disk : Disk (List UInt8)) : Prop where
  above : ∀ location, location <+: destination → disk location = some .directory
  tidy : Tidy disk destination
  links : ∀ location rooted target, disk location = some (.link rooted target) →
    start location = some (.link rooted target) ∨ ∃ link ∈ files, Admitted link ∧
      linkEntry link.symlink = .link rooted target ∧
      location.getLast? = (cleanComponents link.name).getLast?

variable {start : Disk (List UInt8)}

theorem Fresh.written (h : Fresh start destination) (files : List SnapshotFile) :
    Written files destination start start := by
  refine ⟨h.above, fun path hsome => ?_, fun _ _ _ => .inl⟩
  by_cases hne : path = []
  · simp [hne]
  · rw [h.empty path hne] at hsome
    cases hsome

theorem Written.grows (h : Written files destination start disk) (hgrows : Grows disk disk')
    (htidy : Tidy disk' destination) : Written files destination start disk' :=
  ⟨fun location hloc => hgrows.get_of_some (h.above location hloc), htidy,
    fun path rooted target hlink => h.links path rooted target (hgrows.get_of_link hlink)⟩

/-- A written file keeps the invariant. -/
theorem Written.step (h : Written files destination start disk)
    (hdest : ∀ name ∈ destination, Named name) (hfile : file ∈ files)
    (hwrite : materializeEntry unsupported destination disk file = .ok disk') :
    Written files destination start disk' := by
  obtain ⟨hne, hplain, between, hbetween, hmake⟩ := materializeEntry_ok hwrite
  have hnamed : ∀ name ∈ destination ++ cleanComponents file.name, Named name := by
    intro name hname
    rcases mem_append.mp hname with hname | hname
    · exact hdest name hname
    · exact ⟨(hplain name hname).1, (hplain name hname).2.1, (hplain name hname).2.2.1⟩
  have hdirs : Written files destination start between := by
    refine h.grows (grows_mkdirAll hbetween) (h.tidy.mkdirUp (fun name hname => ?_) hbetween)
    exact hnamed name (mem_of_mem_dropLast (mem_reverse.mp hname))
  rcases hmake with ⟨-, mode, data, hmake⟩ | ⟨hadmitted, hmake⟩
  · refine ⟨fun location hloc => get_make hmake (hdirs.above location hloc),
      hdirs.tidy.make hnamed hmake, fun path rooted target hlink => ?_⟩
    obtain ⟨location, -, -, hdisk⟩ := make_ok hmake
    rw [hdisk] at hlink
    split at hlink
    · cases hlink
    · exact hdirs.links path rooted target hlink
  refine ⟨fun location hloc => get_make hmake (hdirs.above location hloc),
    hdirs.tidy.make hnamed hmake, fun path rooted target hlink => ?_⟩
  obtain ⟨location, hlocate, -, hdisk⟩ := make_ok hmake
  rw [hdisk] at hlink
  split at hlink
  · next heq =>
    -- The last name of a path is not followed.
    have hlast : destination ++ cleanComponents file.name ≠ [] := by simp [hne]
    obtain ⟨directory, -, -, hlocation⟩ := locate_ok hlast hlocate
    refine .inr ⟨file, hfile, hadmitted, Option.some.inj hlink, ?_⟩
    rw [heq, hlocation, getLast?_concat, getLast_append_of_ne_nil _ hne,
      getLast?_eq_some_getLast hne]
  · exact hdirs.links path rooted target hlink

/-- All files of a run keep the invariant, and every link of the snapshot was let pass. -/
theorem Written.run (hdest : ∀ name ∈ destination, Named name) :
    ∀ {rest : List SnapshotFile} {disk : Disk (List UInt8)}, (∀ file ∈ rest, file ∈ files) →
      Written files destination start disk →
      rest.foldlM (materializeEntry unsupported destination) disk = .ok disk' →
      Written files destination start disk' ∧ ∀ file ∈ rest, file.mode = .symlink →
        Admitted file ∧ ∀ part ∈ cleanComponents file.name, PlainName part := by
  intro rest
  induction rest with
  | nil =>
    intro disk _ h hrun
    cases hrun
    exact ⟨h, forall_mem_nil _⟩
  | cons file rest ih =>
    intro disk hfiles h hrun
    obtain ⟨between, hwrite, hrun⟩ := bind_eq_ok.mp hrun
    obtain ⟨hwritten, hrest⟩ := ih (fun other hother => hfiles other (by simp [hother]))
      (h.step hdest (hfiles file (by simp)) hwrite) hrun
    obtain ⟨-, hplain, _, -, hmake⟩ := materializeEntry_ok hwrite
    refine ⟨hwritten, forall_mem_cons.mpr ⟨fun hmode => ⟨?_, hplain⟩, hrest⟩⟩
    rcases hmake with ⟨hnot, -⟩ | ⟨hadmitted, -⟩
    · exact absurd hmode hnot
    · exact hadmitted

end Entries

variable {disk : Disk (List UInt8)}

/-- The links of the written tree do not lead out of it. -/
theorem links_of_materialize {selected : String → Bool}
    {unsupported : FileMode → String → String} {destination : List String}
    {files : List SnapshotFile} {disk' : Disk (List UInt8)} (hfresh : Fresh disk destination)
    (h : materialize selected unsupported destination files disk = .ok disk')
    (hdetached : Detached (files.filter fun file => selected file.name) destination disk') :
    Tidy disk' destination ∧ Links disk' destination := by
  obtain ⟨hwritten, hadmitted⟩ :=
    Written.run hfresh.named (fun _ hmem => hmem) (hfresh.written _) h
  refine ⟨hwritten.tidy, fun path target hlink => ?_, fun directory name target hlink => ?_,
    hdetached.climbs⟩
  · rcases hwritten.links _ _ _ hlink with hstart | ⟨link, hmem, hlinked, hentry, -⟩
    · by_cases hne : path = []
      · rw [hne, append_nil, hfresh.above destination prefix_rfl] at hstart
        cases hstart
      · rw [hfresh.empty path hne] at hstart
        cases hstart
    · have habs := (Entry.link.inj hentry).1
      have hrelative := hlinked.contained
      rw [containedLink, if_pos (.inr habs)] at hrelative
      cases hrelative
  · by_cases hown : ∃ link ∈ files.filter fun file => selected file.name,
        link.mode = .symlink ∧ cleanComponents link.name = directory ++ [name] ∧
          linkEntry link.symlink = .link false target
    · obtain ⟨link, hmem, hmode, hname, hentry⟩ := hown
      obtain ⟨hlinked, hplain⟩ := hadmitted link hmem hmode
      have hcontained := hlinked.contained
      rw [hname] at hcontained hplain
      obtain ⟨-, hscan⟩ := not_climbs_of_containedLink hplain hcontained
      rw [(Entry.link.inj hentry).2] at hscan
      exact climb_of_scan target (fun hdots => (hplain ".." (by simp [hdots])).2.2.1 rfl) hscan
    · exact hdetached.placed directory name target hlink hown

/-- A disk with one directory. -/
def emptyDisk : Disk (List UInt8) := fun location =>
  if location = [] ∨ location = ["w"] then some .directory else none

theorem fresh_emptyDisk : Fresh emptyDisk ["w"] := by
  refine ⟨by simp [Named], fun location hloc => ?_, fun path hne => ?_⟩
  · rcases prefix_cons_iff.mp hloc with rfl | ⟨rest, rfl, hrest⟩
    · rfl
    · rw [prefix_nil.mp hrest]
      rfl
  · simp [emptyDisk, hne]

/-- A link of a snapshot. -/
def linkFile (name target : String) : SnapshotFile where
  name := name
  mode := .symlink
  size := target.utf8ByteSize
  content := .error "not a regular file"
  symlink := target

/-- A link to a directory, and a link through it with a `..` that does not climb out of the
first one. -/
def plainSnapshot : List SnapshotFile :=
  [{ name := "cli/x/b/f", mode := .regular, size := 1, content := .ok [0] },
    { name := "cli/x/c", mode := .regular, size := 1, content := .ok [0] },
    linkFile "cli/a" "x", linkFile "cli/l" "a/b/../c"]

/-- The result of a run that returns one. -/
def writtenDisk (run : Except String (Disk (List UInt8))) : Disk (List UInt8) :=
  match run with
  | .ok disk => disk
  | .error _ => fun _ => none

theorem eq_ok_writtenDisk {run : Except String (Disk (List UInt8))}
    (h : run.isOk = true) : run = .ok (writtenDisk run) := by
  cases run with
  | ok disk => rfl
  | error e => cases h

/-- The links of the tree that is written for the snapshot. -/
theorem links_plainSnapshot {disk' : Disk (List UInt8)} {location target : List String}
    {rooted : Bool}
    (h : materializePublicationSource ["w"] plainSnapshot emptyDisk = .ok disk')
    (hlink : disk' location = some (.link rooted target)) :
    target = ["x"] ∧ location.getLast? = some "a" ∨
      target = ["a", "b", "..", "c"] ∧ location.getLast? = some "l" := by
  have hwritten := (Written.run fresh_emptyDisk.named (fun _ hmem => hmem)
    (fresh_emptyDisk.written _) h).1
  rcases hwritten.links location rooted target hlink with hstart |
    ⟨link, hmem, hlinked, hentry, hlast⟩
  · unfold emptyDisk at hstart
    split at hstart <;> cases hstart
  have hlinks : ∀ link ∈ plainSnapshot, link.mode = .symlink →
      (split link.symlink '/' = ["x"] ∧ (cleanComponents link.name).getLast? = some "a") ∨
        (split link.symlink '/' = ["a", "b", "..", "c"] ∧
          (cleanComponents link.name).getLast? = some "l") := by
    decide +kernel
  rw [hlast, ← (Entry.link.inj hentry).2]
  exact hlinks link (mem_of_mem_filter hmem) hlinked.symlink

theorem detached_plainSnapshot {disk' : Disk (List UInt8)}
    (h : materializePublicationSource ["w"] plainSnapshot emptyDisk = .ok disk') :
    Detached plainSnapshot ["w"] disk' := by
  constructor
  · intro directory name target hlink _
    rcases links_plainSnapshot h hlink with ⟨rfl, -⟩ | ⟨rfl, -⟩
    · exact climb_of_not_mem (by decide)
    · have hclimb : climb 0 ["a", "b", "..", "c"] = some 2 := by decide
      have hdeep := climb_add directory.length _ hclimb
      rw [Nat.zero_add] at hdeep
      simp [hdeep]
  intro directory name target hlink
  rcases links_plainSnapshot h hlink with ⟨rfl, -⟩ | ⟨rfl, -⟩
  · exact clear_of_not_mem (by decide)
  -- The one `..` takes `b` back, and no link has this name.
  intro before component between after hpath hname htop reached _ rooted target hother
  have hlast : component = "a" ∨ component = "l" := by
    rcases links_plainSnapshot h hother with ⟨-, hlast⟩ | ⟨-, hlast⟩
    · exact .inl (by simpa using hlast)
    · exact .inr (by simpa using hlast)
  cases before with
  | nil =>
    simp only [nil_append, List.cons.injEq] at hpath
    obtain ⟨rfl, hrest⟩ := hpath
    rcases between with - | ⟨first, - | ⟨second, between⟩⟩
    · simp at hrest
    · simp only [cons_append, List.cons.injEq] at hrest
      rw [← hrest.1] at htop
      exact absurd htop (by decide)
    · simp only [cons_append, List.cons.injEq] at hrest
      have hmem : ".." ∈ ["c"] := hrest.2.2 ▸ mem_append_right _ mem_cons_self
      exact absurd hmem (by decide)
  | cons first before =>
    have hmem : component ∈ ["b", "..", "c"] :=
      (List.cons.inj hpath).2 ▸ mem_append_right _ mem_cons_self
    rcases hlast with rfl | rfl <;> simp at hmem

/-- A link to the root of the tree, and a link that climbs out of the first one. -/
def climbingSnapshot : List SnapshotFile :=
  [linkFile "cli/a/up" "../..", linkFile "cli/m" "a/up/.."]

/-- The walk of `cli/m` in a tree with the two links. -/
theorem not_confined_of_climbing
    (hcli : disk ["w", "cli"] = some .directory) (ha : disk ["w", "cli", "a"] = some .directory)
    (hup : disk ["w", "cli", "a", "up"] = some (.link false ["..", ".."]))
    (hm : disk ["w", "cli", "m"] = some (.link false ["a", "up", ".."])) :
    ¬Confined disk ["w"] ["cli", "m"] := by
  intro hconfined
  have hnamed : ∀ name ∈ ["cli", "a", "up", "m"], Named name := by simp [Named]
  have houtside := hconfined ⟨[], []⟩ <|
    .head (.enter (hnamed "cli" (by simp)) hcli) <|
    .head (.follow (hnamed "m" (by simp)) hm) <|
    .head (.enter (hnamed "a" (by simp)) ha) <|
    .head (.follow (hnamed "up" (by simp)) hup) <|
    .head .up <| .head .up <| .single .up
  simp at houtside

end Atum.Delivery
