import Atum.Gitsnapshot.Snapshot
import Atum.Library.Framing
import Atum.Library.SortedAssoc

/-!
# The identity of a source snapshot

* The hashed stream is a header and one record for each file.  A record tells the
  length of its content, so the stream has one reading if no name has a NUL in it.
* An override leads to the same record and to the same blob as a file with that
  content.
* The order in which Go walks through the maps of the tree does not reach the commit
  if the names are distinct, because the entries of each directory are sorted.

`identity_faithful` puts the three together.
-/

namespace Atum.Gitsnapshot

open Atum.Go List

section Identity

variable (git : Git)

/-! ## The stream has one reading -/

/-- What a snapshot holds for a file. -/
structure Held where
  name : Bytes
  fileClass : ModeClass
  content : Bytes

/-- The record of a file in the stream. -/
def Held.record (held : Held) : Bytes :=
  header held.name held.fileClass held.content.length ++ held.content ++ [0]

/-- The content of a file under overrides. -/
def content (overrides : Overrides) (file : File) : Option Bytes :=
  match overrides.lookup (toSlash file.name) with
  | some replacement => some replacement
  | none =>
    if file.mode = .symlink then some file.symlink
    else
      match file.opened with
      | .ok (.complete data) => some data
      | _ => none

/-- The names, mode classes and contents of a snapshot under overrides. -/
def holdings (overrides : Overrides) (files : List File) :
    List (Bytes × Option ModeClass × Option Bytes) :=
  files.map fun file => (file.name, modeClass file.mode, content overrides file)

theorem zero_not_mem_ascii {text : String} (h : '\x00' ∉ text.toList) : 0 ∉ ascii text := by
  intro hmem
  obtain ⟨c, hc, hbyte⟩ := mem_flatMap.mp hmem
  by_cases hsmall : c.toNat < 128
  · rw [Utf8.encodeChar_of_lt hsmall, mem_singleton] at hbyte
    have hzero : c.toNat = 0 := by
      have hnat := congrArg UInt8.toNat hbyte
      rw [UInt8.toNat_ofNat_of_lt' (hsmall.trans (by decide))] at hnat
      exact hnat.symm
    exact h (by rwa [show c = '\x00' from Char.toNat_inj.mp hzero] at hc)
  · have hlarge := Utf8.le_of_mem_encodeChar (Nat.le_of_not_lt hsmall) hbyte
    exact absurd hlarge (by decide)

theorem ascii_injective : Function.Injective ascii := by
  intro left right h
  have htext := congrArg Utf8.text h
  rw [ascii, ascii, Utf8.text_encode, Utf8.text_encode] at htext
  exact String.toList_injective htext

variable {base n : Nat}

theorem zero_not_mem_zeroPadded (hbase : 1 < base) (hsmall : base ≤ 16) :
    0 ∉ ascii (zeroPadded base 1 n) :=
  zero_not_mem_ascii (not_mem_zeroPadded hbase hsmall (by decide))

theorem decimal_natCast (n : Nat) : decimal n = ascii (zeroPadded 10 1 n) := by
  rw [decimal, if_neg (by omega), Int.natAbs_natCast]

/-- The fields before the content of a record. -/
def Held.fields (held : Held) : Bytes × Bytes × Bytes :=
  (held.name, ascii (zeroPadded 8 1 held.fileClass.mode),
    ascii (zeroPadded 10 1 held.content.length))

theorem ModeClass.mode_injective : Function.Injective ModeClass.mode := by
  intro left right h
  cases left <;> cases right <;> first | rfl | cases h

theorem zeroPadded_ascii_injective (hbase : 1 < base) (hsmall : base ≤ 16) {m : Nat}
    (h : ascii (zeroPadded base 1 m) = ascii (zeroPadded base 1 n)) : m = n :=
  zeroPadded_injective hbase hsmall (ascii_injective h)

/-- The fields tell the name, the mode class and the length of the content. -/
theorem Held.fields_inj {left right : Held} (h : left.fields = right.fields) :
    left.name = right.name ∧ left.fileClass = right.fileClass ∧
      left.content.length = right.content.length := by
  simp only [Held.fields, Prod.mk.injEq] at h
  obtain ⟨hname, hmode, hlen⟩ := h
  exact ⟨hname, ModeClass.mode_injective (zeroPadded_ascii_injective (by decide) (by decide) hmode),
    zeroPadded_ascii_injective (by decide) (by decide) hlen⟩

theorem Held.record_eq (held : Held) :
    held.record = held.fields.1 ++ [0] ++ (held.fields.2.1 ++ [0] ++ (held.fields.2.2 ++ [0])) ++
      (held.content ++ [0]) := by
  simp only [Held.record, header, decimal_natCast, Held.fields, append_assoc]

/-- The digits of a record have no NUL. -/
theorem Held.zero_not_mem_fields (held : Held) : 0 ∉ held.fields.2.1 ∧ 0 ∉ held.fields.2.2 := by
  simp only [Held.fields]
  exact ⟨zero_not_mem_zeroPadded (by decide) (by decide),
    zero_not_mem_zeroPadded (by decide) (by decide)⟩

/-- A record can be read back from the start of a stream. -/
theorem selfDelimiting_record :
    Framing.SelfDelimiting (fun held : Held => 0 ∉ held.name) Held.record := by
  have hfield := Framing.selfDelimiting_terminated (0 : UInt8)
  have hsized := (hfield.prod (hfield.prod hfield)).sized Held.fields
    fun held => held.content ++ [0]
  have hrec := hsized
    (by
      intro left right h
      rw [length_append, length_append, (Held.fields_inj h).2.2])
    (by
      intro left right h hbody
      obtain ⟨hname, hclass, -⟩ := Held.fields_inj h
      cases left
      cases right
      simp only [Held.mk.injEq]
      exact ⟨hname, hclass, append_cancel_right hbody⟩)
  intro left right s t hleft hright h
  rw [left.record_eq, right.record_eq] at h
  exact hrec ⟨hleft, left.zero_not_mem_fields⟩ ⟨hright, right.zero_not_mem_fields⟩ h

theorem Held.record_ne_nil (held : Held) : held.record ≠ [] := by
  simp [Held.record]

variable {overrides : Overrides} {file : File} {fileClass : ModeClass}

/-- A file whose bytes are hashed is held with them. -/
theorem hashFile_ok {record : Bytes}
    {blob : Hash} (h : hashFile git overrides file (toSlash file.name) fileClass =
      .ok (record, blob)) : ∃ data, content overrides file = some data ∧
      record = Held.record ⟨file.name, fileClass, data⟩ := by
  unfold hashFile at h
  unfold content
  cases hlook : overrides.lookup (toSlash file.name) with
  | some replacement =>
    simp only [hlook] at h
    split at h
    · cases h
    · exact ⟨replacement, rfl, (Prod.ext_iff.mp (Except.ok.inj h)).1.symm⟩
  | none =>
    simp only [hlook] at h
    split at h
    · next hsymlink =>
      simp only [if_pos hsymlink]
      rw [File.contents, if_neg (not_not.mpr hsymlink)] at h
      exact ⟨file.symlink, rfl, (Prod.ext_iff.mp (Except.ok.inj h)).1.symm⟩
    next hsymlink =>
    simp only [if_neg hsymlink]
    rw [File.reader] at h
    split at h
    · cases h
    · cases h
    · cases h
    next data hopened =>
    split at hopened
    · cases hopened
    rw [hopened]
    split at h
    · cases h
    next hsize =>
    refine ⟨data, rfl, ?_⟩
    rw [Held.record, not_not.mp hsize]
    exact (Prod.ext_iff.mp (Except.ok.inj h)).1.symm

/-- What a round does. -/
structure Visited (overrides : Overrides) (state : Traversal) (file : File) (held : Held)
    (next : Traversal) : Prop where
  name : held.name = file.name
  fileClass : modeClass file.mode = some held.fileClass
  content : content overrides file = some held.content
  stream : next.stream = state.stream ++ held.record
  remaining : next.remaining =
    if (overrides.lookup file.name).isSome then state.remaining.filter (· ≠ file.name)
    else state.remaining
  root : ∃ blob, state.root.add git file.name held.fileClass.gitMode blob = .ok next.root

variable {mode : FileMode} {name : Bytes}

theorem classify_ok (h : classify mode name = .ok fileClass) : modeClass mode = some fileClass := by
  unfold classify at h
  split at h
  · next found hfound => rw [hfound, Except.ok.inj h]
  · split at h <;> cases h

variable {state : Traversal}

theorem visit_ok {next : Traversal} (h : visit git overrides state file = .ok next) :
    ∃ held, Visited git overrides state file held next := by
  obtain ⟨fileClass, hclass, h⟩ := bind_eq_ok.mp h
  obtain ⟨⟨record, blob⟩, hfile, h⟩ := bind_eq_ok.mp h
  obtain ⟨root, hroot, h⟩ := bind_eq_ok.mp h
  obtain ⟨data, hcont, hrec⟩ := hashFile_ok git hfile
  cases h
  exact ⟨⟨file.name, fileClass, data⟩, {
    name := rfl
    fileClass := classify_ok hclass
    content := hcont
    stream := congrArg (state.stream ++ ·) hrec
    remaining := rfl
    root := ⟨blob, hroot⟩ }⟩

variable {files : List File}

/-- The stream of a traversal is made of the records of its files. -/
theorem traverse_stream :
    ∀ {state last : Traversal}, files.foldlM (visit git overrides) state = .ok last →
      ∃ helds : List Held, last.stream = state.stream ++ helds.flatMap Held.record ∧
        helds.map Held.name = files.map File.name ∧ holdings overrides files =
          helds.map fun held => (held.name, some held.fileClass, some held.content) := by
  induction files with
  | nil =>
    intro state last h
    cases h
    exact ⟨[], (append_nil _).symm, rfl, rfl⟩
  | cons file rest ih =>
    intro state last h
    rw [foldlM_cons, bind_eq_ok] at h
    obtain ⟨next, hnext, h⟩ := h
    obtain ⟨held, hvisited⟩ := visit_ok git hnext
    obtain ⟨helds, hstream, hnames, hholdings⟩ := ih h
    refine ⟨held :: helds, ?_, ?_, ?_⟩
    · rw [hstream, hvisited.stream, flatMap_cons, append_assoc]
    · rw [map_cons, map_cons, hnames, hvisited.name]
    · rw [holdings, map_cons, map_cons, ← hholdings, hvisited.name, hvisited.fileClass,
        hvisited.content]
      rfl

variable {sha256 : Bytes → Bytes} {arrange : Arrangement} {found : Identity} {stream : Bytes}

theorem identify_ok (h : identify git sha256 arrange files overrides = .ok (found, stream)) :
    (∃ traversal, traverse git overrides files = .ok traversal ∧ traversal.stream = stream) ∧
      found.sha256 = hex (sha256 stream) := by
  unfold identify at h
  split at h
  · cases h
  next traversal htraverse =>
  split at h
  · cases h
  split at h
  · cases h
  · split at h
    · cases h
    · cases h
      exact ⟨⟨traversal, htraverse, rfl⟩, rfl⟩

variable {arrange' : Arrangement}

/-- Two calls that hash the same stream have the same holdings. -/
theorem holdings_of_stream {files' : List File} {overrides' : Overrides} {found' : Identity}
    (hplain : ∀ file ∈ files, 0 ∉ file.name) (hplain' : ∀ file ∈ files', 0 ∉ file.name)
    (h : identify git sha256 arrange files overrides = .ok (found, stream))
    (h' : identify git sha256 arrange' files' overrides' = .ok (found', stream)) :
    holdings overrides files = holdings overrides' files' := by
  obtain ⟨⟨last, htraverse, hlast⟩, -⟩ := identify_ok git h
  obtain ⟨⟨last', htraverse', hlast'⟩, -⟩ := identify_ok git h'
  obtain ⟨helds, hstream, hnames, hholdings⟩ := traverse_stream git htraverse
  obtain ⟨helds', hstream', hnames', hholdings'⟩ := traverse_stream git htraverse'
  have hvalid : ∀ {files : List File} {helds : List Held}, (∀ file ∈ files, 0 ∉ file.name) →
      helds.map Held.name = files.map File.name → ∀ held ∈ helds, 0 ∉ held.name := by
    intro files helds hplain hnames held hheld
    have hmem : held.name ∈ files.map File.name := hnames ▸ mem_map_of_mem hheld
    obtain ⟨file, hfile, hname⟩ := mem_map.mp hmem
    exact hname ▸ hplain file hfile
  have hrecs : helds.flatMap Held.record = helds'.flatMap Held.record := by
    rw [hlast, ← hlast', hstream'] at hstream
    exact (append_cancel_left hstream).symm
  rw [hholdings, hholdings', selfDelimiting_record.flatMap_injective Held.record_ne_nil
    (hvalid hplain hnames) (hvalid hplain' hnames') hrecs]

/-! ## Overrides -/

/-- The file with the content that the overrides have for it. -/
def File.replace (overrides : Overrides) (file : File) : File :=
  match overrides.lookup (toSlash file.name) with
  | some replacement =>
    { file with size := replacement.length, opened := .ok (.complete replacement) }
  | none => file

@[simp] theorem File.replace_name (overrides : Overrides) (file : File) :
    (file.replace overrides).name = file.name := by
  unfold File.replace
  split <;> rfl

@[simp] theorem File.replace_mode (overrides : Overrides) (file : File) :
    (file.replace overrides).mode = file.mode := by
  unfold File.replace
  split <;> rfl

/-- A regular file. -/
def File.IsRegular (file : File) : Prop := file.mode = .regular ∨ file.mode = .deprecated

/-- Every override is for a tracked file, and the files of that name are regular. -/
structure Replaces (overrides : Overrides) (files : List File) : Prop where
  tracked : ∀ name ∈ overrides.map Prod.fst, ∃ file ∈ files, file.name = name
  regular : ∀ file ∈ files, file.name ∈ overrides.map Prod.fst → file.IsRegular

/-- The override of a regular file is hashed like a file with its content. -/
theorem hashFile_replace (fileClass : ModeClass)
    (hreg : file.name ∈ overrides.map Prod.fst → file.IsRegular) :
    hashFile git overrides file (toSlash file.name) fileClass =
      hashFile git [] (file.replace overrides) (toSlash file.name) fileClass := by
  cases hlook : overrides.lookup (toSlash file.name) with
  | none =>
    have hsame : file.replace overrides = file := by simp only [File.replace, hlook]
    simp only [hashFile, hlook, hsame, lookup_nil]
  | some replacement =>
    have hmode := hreg (SortedAssoc.mem_keys_iff.mpr (Option.isSome_of_eq_some hlook))
    have hsymlink : file.mode ≠ .symlink := by
      rcases hmode with h | h <;> rw [h] <;> decide
    have hkeep : ¬ (file.mode ≠ .regular ∧ file.mode ≠ .deprecated) := by
      rcases hmode with h | h <;> simp [h]
    have hopen : ¬ (file.mode ≠ .regular ∧ file.mode ≠ .executable ∧ file.mode ≠ .deprecated) := by
      rcases hmode with h | h <;> simp [h]
    simp only [hashFile, hlook, if_neg hkeep, lookup_nil, if_neg hsymlink,
      File.reader, if_neg hopen, File.replace, ne_eq, not_true_eq_false, if_false,
      git.computeHash_eq]

/-- What a traversal hands on. -/
def Traversal.product (traversal : Traversal) : Bytes × TreeNode :=
  (traversal.stream, traversal.root)

theorem visit_replace {other : Traversal}
    (hreg : file.name ∈ overrides.map Prod.fst → file.IsRegular)
    (hproduct : state.product = other.product) :
    (visit git overrides state file).map Traversal.product =
      (visit git [] other (file.replace overrides)).map Traversal.product := by
  obtain ⟨hstream, hroot⟩ := Prod.ext_iff.mp hproduct
  simp only [Traversal.product] at hstream hroot
  simp only [visit, File.replace_name, File.replace_mode, hashFile_replace git _ hreg, ← hstream,
    ← hroot, bind, Except.bind]
  cases classify file.mode (toSlash file.name) with
  | error err => rfl
  | ok fileClass =>
    dsimp only
    cases hashFile git [] (file.replace overrides) (toSlash file.name) fileClass with
    | error err => rfl
    | ok hashed =>
      dsimp only
      cases state.root.add git (toSlash file.name) fileClass.gitMode hashed.2 <;> rfl

/-- The traversal with overrides and the one of the replaced files hand on the same. -/
theorem traverse_replace
    (hreg : ∀ file ∈ files, file.name ∈ overrides.map Prod.fst → file.IsRegular) :
    ∀ {state other : Traversal}, state.product = other.product →
      (files.foldlM (visit git overrides) state).map Traversal.product =
        ((files.map (File.replace overrides)).foldlM (visit git []) other).map
          Traversal.product := by
  induction files with
  | nil =>
    intro state other hproduct
    exact congrArg Except.ok hproduct
  | cons file rest ih =>
    intro state other hproduct
    obtain ⟨hfile, hrest⟩ := forall_mem_cons.mp hreg
    have hvisit := visit_replace git hfile hproduct
    rw [map_cons, foldlM_cons, foldlM_cons]
    rcases map_eq_map hvisit with ⟨err, hnext, hnext'⟩ | ⟨next, next', hnext, hnext', hproduct'⟩
    · rw [hnext, hnext']
      rfl
    · rw [hnext, hnext']
      exact ih hrest hproduct'

/-- A name that remains is none of the replaced files. -/
theorem traverse_remaining :
    ∀ {state last : Traversal}, files.foldlM (visit git overrides) state = .ok last →
      ∀ name ∈ last.remaining, name ∈ state.remaining ∧
        ∀ file ∈ files, (overrides.lookup file.name).isSome = true → file.name ≠ name := by
  induction files with
  | nil =>
    intro state last h name hname
    cases h
    exact ⟨hname, fun file hfile => absurd hfile not_mem_nil⟩
  | cons file rest ih =>
    intro state last h name hname
    rw [foldlM_cons, bind_eq_ok] at h
    obtain ⟨next, hnext, h⟩ := h
    obtain ⟨held, hvisited⟩ := visit_ok git hnext
    obtain ⟨hmem, hrest⟩ := ih h name hname
    rw [hvisited.remaining] at hmem
    by_cases hsome : (overrides.lookup file.name).isSome = true
    · rw [if_pos hsome, mem_filter] at hmem
      refine ⟨hmem.1, forall_mem_cons.mpr ⟨fun _ heq => ?_, hrest⟩⟩
      simp [heq] at hmem
    · rw [if_neg hsome] at hmem
      exact ⟨hmem, forall_mem_cons.mpr ⟨fun h => absurd h hsome, hrest⟩⟩

/-- No name remains if every override is for a tracked file. -/
theorem traverse_remaining_nil {last : Traversal}
    (htracked : ∀ name ∈ overrides.map Prod.fst, ∃ file ∈ files, file.name = name)
    (h : traverse git overrides files = .ok last) : last.remaining = [] := by
  refine eq_nil_iff_forall_not_mem.mpr fun name hname => ?_
  obtain ⟨hkey, hnone⟩ := traverse_remaining git h name hname
  obtain ⟨file, hfile, hsame⟩ := htracked name hkey
  exact hnone file hfile (SortedAssoc.mem_keys_iff.mp (hsame ▸ hkey)) hsame

/-- Overriding a file is replacing it. -/
theorem identify_replace (hreps : Replaces overrides files) :
    identify git sha256 arrange files overrides =
      identify git sha256 arrange (files.map (File.replace overrides)) [] := by
  have htraverse : (traverse git overrides files).map Traversal.product =
      (traverse git [] (files.map (File.replace overrides))).map Traversal.product :=
    traverse_replace git hreps.regular rfl
  unfold identify
  rcases map_eq_map htraverse with ⟨err, hlast, hlast'⟩ | ⟨last, last', hlast, hlast', hproduct⟩
  · rw [hlast, hlast']
  obtain ⟨hstream, hroot⟩ := Prod.ext_iff.mp hproduct
  simp only [Traversal.product] at hstream hroot
  have hnone := traverse_remaining_nil git hreps.tracked hlast
  have hnone' := traverse_remaining_nil git (by simp) hlast'
  simp only [hlast, hlast', hnone, hnone', hstream, hroot]

/-! ## The order of the entries -/

/-- The key of `object.TreeEntrySorter`: the name, with a slash behind a directory. -/
def TreeEntry.sortKey (entry : TreeEntry) : List Nat :=
  (if entry.mode = .dir then entry.name ++ [47] else entry.name).map UInt8.toNat

/-- The entries of each directory are sorted. -/
structure Arrangement.Sorts (arrange : Arrangement) : Prop where
  perm : ∀ path entries, (arrange path entries).Perm entries
  sorted : ∀ path entries,
    (arrange path entries).Pairwise fun left right => left.sortKey ≤ right.sortKey

variable {entries : List TreeEntry}

/-- Entries with different keys have one order. -/
theorem Arrangement.Sorts.eq (hsorts : arrange.Sorts) (hsorts' : arrange'.Sorts) (path : List Bytes)
    (hkeys : ∀ left ∈ entries, ∀ right ∈ entries, left.sortKey = right.sortKey → left = right) :
    arrange path entries = arrange' path entries := by
  refine List.Perm.eq_of_pairwise (fun left right hleft hright hle hge => ?_)
    (hsorts.sorted path entries) (hsorts'.sorted path entries)
    ((hsorts.perm path entries).trans (hsorts'.perm path entries).symm)
  exact hkeys left ((hsorts.perm path entries).mem_iff.mp hleft) right
    ((hsorts'.perm path entries).mem_iff.mp hright) (le_antisymm hle hge)

def Directories.names : Directories → List Bytes
  | .nil => []
  | .cons name _ rest => name :: rest.names

mutual

/-- No directory has two files or two directories of one name, and no name has a slash. -/
def TreeNode.Sound : TreeNode → Prop
  | .node directories entries =>
    (entries.map TreeEntry.name).Nodup ∧ (∀ entry ∈ entries, 47 ∉ entry.name ∧ entry.mode ≠ .dir) ∧
      directories.names.Nodup ∧ directories.Sound

def Directories.Sound : Directories → Prop
  | .nil => True
  | .cons _ child rest => child.Sound ∧ rest.Sound

end

theorem Directories.hash_ok {path : List Bytes} {directories : Directories} :
    ∀ {children : List TreeEntry}, directories.hash git arrange path = .ok children →
      children.map TreeEntry.name = directories.names ∧ ∀ child ∈ children, child.mode = .dir := by
  match directories with
  | .nil =>
    intro children h
    rw [Directories.hash] at h
    obtain rfl := Except.ok.inj h
    exact ⟨rfl, by simp⟩
  | .cons name child rest =>
    intro children h
    rw [Directories.hash] at h
    split at h
    · cases h
    split at h
    · cases h
    next entries hents =>
    obtain rfl := Except.ok.inj h
    obtain ⟨hnames, hmodes⟩ := Directories.hash_ok hents
    exact ⟨by rw [map_cons, hnames, Directories.names],
      forall_mem_cons.mpr ⟨rfl, hmodes⟩⟩

/-- The keys of the entries of a sound node differ. -/
theorem sortKey_injective {children : List TreeEntry} (hents : (entries.map TreeEntry.name).Nodup)
    (hfiles : ∀ entry ∈ entries, 47 ∉ entry.name ∧ entry.mode ≠ .dir)
    (hchildren : (children.map TreeEntry.name).Nodup)
    (hdirs : ∀ child ∈ children, child.mode = .dir) :
    ∀ left ∈ entries ++ children, ∀ right ∈ entries ++ children,
      left.sortKey = right.sortKey → left = right := by
  have hfile : ∀ entry ∈ entries, entry.sortKey = entry.name.map UInt8.toNat := fun entry h => by
    rw [TreeEntry.sortKey, if_neg (hfiles entry h).2]
  have hdir : ∀ child ∈ children, child.sortKey = (child.name ++ [47]).map UInt8.toNat :=
    fun child h => by rw [TreeEntry.sortKey, if_pos (hdirs child h)]
  have hbytes : Function.Injective (List.map UInt8.toNat) :=
    map_injective_iff.mpr fun _ _ => UInt8.toNat_inj.mp
  -- The key of a file has no slash, and the key of a directory ends in one.
  have hmixed : ∀ entry ∈ entries, ∀ child ∈ children, entry.sortKey ≠ child.sortKey := by
    intro entry hent child hchild h
    rw [hfile entry hent, hdir child hchild] at h
    exact (hfiles entry hent).1 (hbytes h ▸ mem_append_right _ mem_cons_self)
  intro left hleft right hright h
  rcases mem_append.mp hleft with hleft | hleft <;>
    rcases mem_append.mp hright with hright | hright
  · rw [hfile left hleft, hfile right hright] at h
    exact inj_on_of_nodup_map hents hleft hright (hbytes h)
  · exact absurd h (hmixed left hleft right hright)
  · exact absurd h.symm (hmixed right hright left hleft)
  · rw [hdir left hleft, hdir right hright] at h
    exact inj_on_of_nodup_map hchildren hleft hright (append_cancel_right (hbytes h))

mutual

/-- The hash of a sound tree does not depend on the arrangement. -/
theorem TreeNode.hash_arrange {arrange arrange' : Arrangement} (hsorts : arrange.Sorts)
    (hsorts' : arrange'.Sorts) (path : List Bytes) :
    ∀ node : TreeNode, node.Sound → node.hash git arrange path = node.hash git arrange' path
  | .node directories entries, hsound => by
    rw [TreeNode.Sound] at hsound
    obtain ⟨hents, hfiles, hnames, hdirs⟩ := hsound
    have hsame := Directories.hash_arrange hsorts hsorts' path directories hdirs
    rw [TreeNode.hash, TreeNode.hash, ← hsame]
    cases hchildren : directories.hash git arrange path with
    | error err => rfl
    | ok children =>
      obtain ⟨hchildNames, hmodes⟩ := Directories.hash_ok git hchildren
      dsimp only
      rw [hsorts.eq hsorts' path (sortKey_injective hents hfiles (hchildNames ▸ hnames) hmodes)]

theorem Directories.hash_arrange {arrange arrange' : Arrangement} (hsorts : arrange.Sorts)
    (hsorts' : arrange'.Sorts) (path : List Bytes) :
    ∀ directories : Directories, directories.Sound →
      directories.hash git arrange path = directories.hash git arrange' path
  | .nil, _ => by rw [Directories.hash, Directories.hash]
  | .cons name child rest, hsound => by
    rw [Directories.Sound] at hsound
    rw [Directories.hash, Directories.hash,
      TreeNode.hash_arrange hsorts hsorts' (path ++ [name]) child hsound.1,
      Directories.hash_arrange hsorts hsorts' path rest hsound.2]

end

/-! ## Trees of distinct names -/

theorem Directories.find?_set_self (name : Bytes) (child : TreeNode) (directories : Directories) :
    (directories.set name child).find? name = some child := by
  match directories with
  | .nil => rw [Directories.set, Directories.find?, if_pos rfl]
  | .cons other old rest =>
    rw [Directories.set]
    split
    · rw [Directories.find?, if_pos rfl]
    · next hne =>
      rw [Directories.find?, if_neg hne, Directories.find?_set_self]

theorem Directories.find?_set_of_ne {name other : Bytes} (hne : other ≠ name) (child : TreeNode)
    (directories : Directories) :
    (directories.set name child).find? other = directories.find? other := by
  match directories with
  | .nil => simp only [Directories.set, Directories.find?, if_neg hne.symm]
  | .cons first old rest =>
    rw [Directories.set]
    split
    · next heq =>
      subst heq
      rw [Directories.find?, if_neg hne.symm, Directories.find?, if_neg hne.symm]
    · rw [Directories.find?, Directories.find?, Directories.find?_set_of_ne hne]

variable {child : TreeNode}

theorem Directories.mem_names_set {name other : Bytes}
    {directories : Directories} (h : other ∈ (directories.set name child).names) :
    other = name ∨ other ∈ directories.names := by
  match directories with
  | .nil =>
    rw [Directories.set, Directories.names, mem_cons] at h
    exact h
  | .cons first old rest =>
    rw [Directories.set] at h
    split at h
    · next heq =>
      subst heq
      exact .inr h
    rw [Directories.names, mem_cons] at h ⊢
    rcases h with h | h
    · exact .inr (.inl h)
    · exact (Directories.mem_names_set h).imp_right Or.inr

theorem Directories.nodup_names_set (name : Bytes) (child : TreeNode) (directories : Directories)
    (h : directories.names.Nodup) : (directories.set name child).names.Nodup := by
  match directories with
  | .nil =>
    rw [Directories.set, Directories.names]
    exact nodup_singleton name
  | .cons first old rest =>
    rw [Directories.set]
    split
    · next heq =>
      subst heq
      exact h
    next hne =>
    rw [Directories.names, nodup_cons] at h ⊢
    refine ⟨fun hmem => ?_, Directories.nodup_names_set name child rest h.2⟩
    rcases Directories.mem_names_set hmem with heq | hmem
    · exact hne heq
    · exact h.1 hmem

theorem Directories.Sound.set {directories : Directories}
    (h : directories.Sound) (hchild : child.Sound) : (directories.set name child).Sound := by
  match directories with
  | .nil =>
    rw [Directories.set, Directories.Sound]
    exact ⟨hchild, h⟩
  | .cons first old rest =>
    rw [Directories.Sound] at h
    rw [Directories.set]
    split
    · rw [Directories.Sound]
      exact ⟨hchild, h.2⟩
    · rw [Directories.Sound]
      exact ⟨h.1, Directories.Sound.set h.2 hchild⟩

theorem Directories.Sound.find? {directories : Directories}
    (h : directories.Sound) (hfind : directories.find? name = some child) : child.Sound := by
  match directories with
  | .nil =>
    rw [Directories.find?] at hfind
    cases hfind
  | .cons first old rest =>
    rw [Directories.Sound] at h
    rw [Directories.find?] at hfind
    split at hfind
    · exact Option.some.inj hfind ▸ h.1
    · exact Directories.Sound.find? h.2 hfind

theorem TreeNode.sound_empty : TreeNode.empty.Sound := by
  exact ⟨nodup_nil, by simp, nodup_nil, trivial⟩

/-- A tree without a file of these components. -/
def TreeNode.Fresh : List Bytes → TreeNode → Prop
  | [], _ => True
  | [leaf], .node _ entries => leaf ∉ entries.map TreeEntry.name
  | component :: next :: rest, .node directories _ =>
    ∀ child, directories.find? component = some child → child.Fresh (next :: rest)

theorem TreeNode.fresh_empty (parts : List Bytes) : TreeNode.empty.Fresh parts := by
  match parts with
  | [] => trivial
  | [leaf] => exact not_mem_nil
  | component :: next :: rest =>
    intro child h
    cases h

variable {component next : Bytes} {rest : List Bytes}

/-- The node that `add` goes on with has what the directory had. -/
theorem TreeNode.fresh_child {directories : Directories}
    (h : (TreeNode.node directories entries).Fresh (component :: next :: rest)) :
    ((directories.find? component).getD .empty).Fresh (next :: rest) := by
  cases hfind : directories.find? component with
  | none => exact TreeNode.fresh_empty _
  | some child => exact h child hfind

variable {quoted : Bytes} {hash : Hash} {node : TreeNode}

theorem TreeNode.addParts_cons_ok {directories : Directories}
    (h : (TreeNode.node directories entries).addParts quoted mode hash (component :: next :: rest) =
      .ok node) :
    ∃ child, ((directories.find? component).getD .empty).addParts quoted mode hash (next :: rest) =
      .ok child ∧ node = .node (directories.set component child) entries := by
  rw [TreeNode.addParts] at h
  split at h
  · cases h
  · split at h
    · cases h
    · next child hchild => exact ⟨child, hchild, (Except.ok.inj h).symm⟩

theorem TreeNode.addParts_leaf_ok {leaf : Bytes} {directories : Directories}
    (h : (TreeNode.node directories entries).addParts quoted mode hash [leaf] = .ok node) :
    node = .node directories (entries ++ [{ name := leaf, mode := mode, hash := hash }]) := by
  rw [TreeNode.addParts] at h
  split at h
  · cases h
  · exact (Except.ok.inj h).symm

/-- Adding a file keeps the tree free of every other file. -/
theorem TreeNode.Fresh.add {parts : List Bytes} :
    ∀ {others : List Bytes} {node added : TreeNode}, others ≠ parts → node.Fresh others →
      node.addParts quoted mode hash parts = .ok added → added.Fresh others := by
  match parts with
  | [] =>
    intro others node added _ _ h
    rw [TreeNode.addParts] at h
    cases h
  | [leaf] =>
    intro others ⟨directories, entries⟩ added hne hfresh h
    rw [TreeNode.addParts_leaf_ok h]
    match others with
    | [] => trivial
    | [other] =>
      have hleaf : other ≠ leaf := fun heq => hne (congrArg (fun name => [name]) heq)
      rw [TreeNode.Fresh, map_append, mem_append]
      exact not_or.mpr ⟨hfresh, by simpa using hleaf⟩
    | _ :: _ :: _ => exact hfresh
  | component :: next :: rest =>
    intro others ⟨directories, entries⟩ added hne hfresh h
    obtain ⟨child, hchild, rfl⟩ := TreeNode.addParts_cons_ok h
    match others with
    | [] => trivial
    | [other] => exact hfresh
    | first :: second :: tail =>
      intro found hfound
      by_cases hsame : first = component
      · subst hsame
        rw [Directories.find?_set_self] at hfound
        obtain rfl := Option.some.inj hfound
        exact TreeNode.Fresh.add (fun heq => hne (congrArg (List.cons first) heq))
          (TreeNode.fresh_child hfresh) hchild
      · rw [Directories.find?_set_of_ne hsame] at hfound
        exact hfresh found hfound

/-- Adding a file that the tree does not have keeps it sound. -/
theorem TreeNode.Sound.add (hmode : mode ≠ .dir) {parts : List Bytes} :
    ∀ {node added : TreeNode}, (∀ part ∈ parts, 47 ∉ part) → node.Sound → node.Fresh parts →
      node.addParts quoted mode hash parts = .ok added → added.Sound := by
  match parts with
  | [] =>
    intro node added _ _ _ h
    rw [TreeNode.addParts] at h
    cases h
  | [leaf] =>
    intro ⟨directories, entries⟩ added hparts hsound hfresh h
    rw [TreeNode.addParts_leaf_ok h]
    rw [TreeNode.Sound] at hsound ⊢
    rw [TreeNode.Fresh] at hfresh
    obtain ⟨hents, hfiles, hdirs⟩ := hsound
    refine ⟨?_, ?_, hdirs⟩
    · rw [map_append]
      exact hents.append (nodup_singleton leaf) (by simpa using hfresh)
    intro entry hent
    rcases mem_append.mp hent with hent | hent
    · exact hfiles entry hent
    · obtain rfl := mem_singleton.mp hent
      exact ⟨hparts leaf mem_cons_self, hmode⟩
  | component :: next :: rest =>
    intro ⟨directories, entries⟩ added hparts hsound hfresh h
    obtain ⟨child, hchild, rfl⟩ := TreeNode.addParts_cons_ok h
    rw [TreeNode.Sound] at hsound ⊢
    obtain ⟨hents, hfiles, hnames, hdirs⟩ := hsound
    have hstart : ((directories.find? component).getD .empty).Sound := by
      cases hfind : directories.find? component with
      | none => exact TreeNode.sound_empty
      | some old => exact hdirs.find? hfind
    have hadded := TreeNode.Sound.add hmode (fun part h => hparts part (mem_cons_of_mem _ h))
      hstart (TreeNode.fresh_child hfresh) hchild
    exact ⟨hents, hfiles, Directories.nodup_names_set component child directories hnames,
      hdirs.set hadded⟩

theorem splitOn_injective : Function.Injective (List.splitOn (47 : UInt8)) := by
  intro left right h
  have hjoined := congrArg (fun parts => [47].intercalate parts) h
  rwa [intercalate_splitOn, intercalate_splitOn] at hjoined

theorem gitMode_ne_dir (fileClass : ModeClass) : fileClass.gitMode ≠ .dir := by
  cases fileClass <;> decide

/-- The tree of files with distinct names is sound. -/
theorem traverse_sound :
    ∀ {state last : Traversal}, (files.map File.name).Nodup → state.root.Sound →
      (∀ file ∈ files, state.root.Fresh (file.name.splitOn 47)) →
      files.foldlM (visit git overrides) state = .ok last → last.root.Sound := by
  induction files with
  | nil =>
    intro state last _ hsound _ h
    exact Except.ok.inj h ▸ hsound
  | cons file rest ih =>
    intro state last hnodup hsound hfresh h
    rw [map_cons, nodup_cons] at hnodup
    rw [foldlM_cons, bind_eq_ok] at h
    obtain ⟨next, hnext, h⟩ := h
    obtain ⟨held, hvisited⟩ := visit_ok git hnext
    obtain ⟨blob, hadd⟩ := hvisited.root
    obtain ⟨hfile, hrest⟩ := forall_mem_cons.mp hfresh
    refine ih hnodup.2 ?_ (fun other hother => ?_) h
    · exact TreeNode.Sound.add (gitMode_ne_dir _) (not_mem_of_mem_splitOn _) hsound hfile hadd
    · have hne : other.name ≠ file.name := fun heq =>
        hnodup.1 (heq ▸ mem_map_of_mem hother)
      exact (hrest other hother).add (fun heq => hne (splitOn_injective heq)) hadd

/-- The identity of files with distinct names does not depend on the arrangement. -/
theorem identify_arrange (hsorts : arrange.Sorts) (hsorts' : arrange'.Sorts)
    (hnodup : (files.map File.name).Nodup) :
    identify git sha256 arrange files overrides = identify git sha256 arrange' files overrides := by
  unfold identify
  cases htraverse : traverse git overrides files with
  | error err => rfl
  | ok last =>
    have hsound := traverse_sound git hnodup TreeNode.sound_empty
      (fun file _ => TreeNode.fresh_empty _) htraverse
    dsimp only
    rw [TreeNode.hash_arrange git hsorts hsorts' [] last.root hsound]

end Identity

/-- The identity is the hash of a stream, which determines the names, mode classes and
contents of a snapshot with NUL-free names.  Overriding regular files gives the identity of
the snapshot with these contents, in every order of the directory entries, and the order
plays no role if the names are distinct. -/
theorem identity_faithful (git : Git) (sha256 : Bytes → Bytes) (arrange arrange' : Arrangement)
    (files files' : List File) (overrides overrides' : Overrides) :
    (∀ found, identity git sha256 arrange files overrides = .ok found →
      ∃ stream, identify git sha256 arrange files overrides = .ok (found, stream) ∧
        found.sha256 = hex (sha256 stream)) ∧
    (∀ found found' stream, (∀ file ∈ files, 0 ∉ file.name) → (∀ file ∈ files', 0 ∉ file.name) →
      identify git sha256 arrange files overrides = .ok (found, stream) →
      identify git sha256 arrange' files' overrides' = .ok (found', stream) →
      holdings overrides files = holdings overrides' files') ∧
    (Replaces overrides files →
      identity git sha256 arrange files overrides =
        identity git sha256 arrange (files.map (File.replace overrides)) []) ∧
    (Replaces overrides files → (files.map File.name).Nodup → arrange.Sorts → arrange'.Sorts →
      identity git sha256 arrange files overrides =
        identity git sha256 arrange' (files.map (File.replace overrides)) []) := by
  refine ⟨fun found h => ?_,
    fun found found' stream hplain hplain' h h' => holdings_of_stream git hplain hplain' h h',
    fun hreplaces => ?_, fun hreplaces hnodup hsorts hsorts' => ?_⟩
  · rw [identity] at h
    cases hidentify : identify git sha256 arrange files overrides with
    | error err =>
      rw [hidentify] at h
      cases h
    | ok result =>
      rw [hidentify] at h
      cases h
      exact ⟨result.2, rfl, (identify_ok git hidentify).2⟩
  · rw [identity, identity, identify_replace git hreplaces]
  have hnames : ((files.map (File.replace overrides)).map File.name).Nodup := by
    simpa [Function.comp_def] using hnodup
  rw [identity, identity, identify_replace git hreplaces,
    identify_arrange git hsorts hsorts' hnames]

/-- Hashes and encoders that keep everything. -/
def plainGit : Git where
  hasher objectType size written := ascii objectType ++ ascii " " ++ decimal size ++ 0 :: written
  computeHash objectType content :=
    ascii objectType ++ ascii " " ++ decimal content.length ++ 0 :: content
  computeHash_eq _ _ := rfl
  encodeTree entries := .ok (entries.flatMap fun entry => entry.name ++ entry.hash)
  encodeCommit commit := .ok commit.treeHash
  quoted := id

/-- A regular file `a` and a symlink `b/c`. -/
def sampleFiles : List File :=
  [{ name := [97], mode := .regular, size := 1, symlink := [], opened := .ok (.complete [1]) },
    { name := [98, 47, 99], mode := .symlink, size := 1, symlink := [97], opened := .error [] }]

/-- The entries in the order of their keys. -/
def byKey : Arrangement := fun _ entries =>
  entries.insertionSort fun left right => left.sortKey ≤ right.sortKey

theorem identity_faithful_sample : identity plainGit id byKey sampleFiles [([97], [2, 3])] =
        identity plainGit id byKey (sampleFiles.map (File.replace [([97], [2, 3])])) [] ∧
      holdings [([97], [2, 3])] sampleFiles =
        holdings [] (sampleFiles.map (File.replace [([97], [2, 3])])) ∧
      ∃ found stream, identify plainGit id byKey sampleFiles [([97], [2, 3])] =
        .ok (found, stream) ∧
        found.sha256 = hex stream := by
  have hreplaces : Replaces [([97], [2, 3])] sampleFiles :=
    ⟨by simp [sampleFiles], by simp [sampleFiles, File.IsRegular]⟩
  have hok : (identity plainGit id byKey sampleFiles [([97], [2, 3])]).isOk = true := by
    decide +kernel
  obtain ⟨hhashed, hstream, hequal, -⟩ := identity_faithful plainGit id byKey byKey sampleFiles
    (sampleFiles.map (File.replace [([97], [2, 3])])) [([97], [2, 3])] []
  cases hidentity : identity plainGit id byKey sampleFiles [([97], [2, 3])] with
  | error err =>
    rw [hidentity] at hok
    cases hok
  | ok found =>
    obtain ⟨stream, hidentify, hsum⟩ := hhashed found hidentity
    refine ⟨hidentity ▸ hequal hreplaces, ?_, found, stream, hidentify, hsum⟩
    exact hstream found found stream (by decide) (by decide) hidentify
      ((identify_replace plainGit hreplaces).symm.trans hidentify)

end Atum.Gitsnapshot
