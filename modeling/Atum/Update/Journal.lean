import Mathlib.Algebra.Order.BigOperators.Group.List
import Atum.Update.Atomicity

/-!
# The journal on disk

A journal that `Commit` publishes has to be readable, or an interrupted update
cannot be recovered.  The reader takes at most `1 << 20` bytes, and the writer has
no such bound: a published journal is read back exactly if it is not longer than
that (`published_journal_read_iff`).

`journalText` is the text that the writer produces.  It shows how many records fit:
a record of a replaced file takes more than 128 bytes for its two digests alone.
-/

namespace Atum.Update

open Atum.Go Atum.Config Faults Faults.Prog List SortedAssoc

variable {δ : Type} {codec : Codec δ}

/-! ## Reading a published journal back -/

section ReadBack

variable {io : Fates δ} {w : World δ} {directory : TreePath} {journal : TransactionJournal}

theorem writeTransactionJournal_get {suffix : String} {result : Except String Unit} (hpub :
      (writeTransactionJournal codec io directory suffix journal w).1 = .ok (true, result)) :
    (writeTransactionJournal codec io directory suffix journal w).2.tree.get
        (journalPath directory) = some (.regular 0o600 (codec.encode journal)) := by
  have hwp : (writeTransactionJournal codec io directory suffix journal).wp _ _ w :=
    writeTransactionJournal_wp suffix journal
  rcases wp_exit hwp with ⟨outcome, hexit, hwritten⟩ | ⟨e, hexit, -⟩ | ⟨hexit, -⟩
  · obtain rfl := Exit.ok.inj (hexit.symm.trans hpub)
    rcases hwritten with ⟨⟨e, he⟩, -⟩ | ⟨-, hw⟩
    · cases he
    · exact hw.published
  · exact absurd (hexit.symm.trans hpub) (by simp)
  · exact absurd (hexit.symm.trans hpub) (by simp)

/-- The reader on a journal in its place: everything depends on the length. -/
theorem readTransactionJournal_eq (hlawful : codec.Lawful) {transaction : FileTransaction codec}
    (hchanged : transaction.changed ≠ []) {state : JournalState} {t : FileTree δ}
    (hget : t.get (journalPath directory) =
      some (.regular 0o600 (codec.encode (transaction.journal state)))) :
    readTransactionJournal codec t directory =
      if codec.size (codec.encode (transaction.journal state)) > 1048576 then
        .error "update transaction journal exceeds 1048576 bytes"
      else .ok (some (transaction.journal state)) := by
  simp only [readTransactionJournal, hget, transaction.decode_encode_journal hlawful,
    transaction.validateJournal_journal hchanged state]
  rfl

end ReadBack

/-- A journal that `Commit` publishes is read back with the same state and the same
records exactly if its text has at most `1 << 20` bytes.  It is published whether or
not that is so. -/
theorem published_journal_read_iff (hlawful : codec.Lawful) (transaction : FileTransaction codec)
    (hchanged : transaction.changed ≠ []) (state : JournalState) (io : Fates δ)
    (directory : TreePath) (suffix : String) (w : World δ) (result : Except String Unit)
    (hpublished : (writeTransactionJournal codec io directory suffix
      (transaction.journal state) w).1 = .ok (true, result)) :
    readTransactionJournal codec (writeTransactionJournal codec io directory suffix
        (transaction.journal state) w).2.tree directory = .ok (some (transaction.journal state)) ↔
      codec.size (codec.encode (transaction.journal state)) ≤ 1048576 := by
  rw [readTransactionJournal_eq hlawful hchanged (writeTransactionJournal_get hpublished)]
  split
  · next hlong => exact iff_of_false (by simp) (by omega)
  · next hshort => exact iff_of_true rfl (by omega)

/-- The transaction directory before the journal is written. -/
def createdDirectory : World Sample :=
  (createTransactionDirectory (fun _ _ => .done) sampleNames.entropy { tree := .empty }).2

/-! ## The text of a journal -/

/-- One character of a string of `encoding/json`, which also escapes what HTML and
JavaScript would take for markup. -/
def escapeJSON (c : Char) : String :=
  match c with
  | '"' => "\\\""
  | '\\' => "\\\\"
  | '\x08' => "\\b"
  | '\x0c' => "\\f"
  | '\n' => "\\n"
  | '\r' => "\\r"
  | '\t' => "\\t"
  | c =>
    if c.toNat < 0x20 ∨ c ∈ ['<', '>', '&', '\u2028', '\u2029'] then
      "\\u" ++ zeroPadded 16 4 c.toNat
    else String.singleton c

def quoteJSON (s : String) : String :=
  "\"" ++ String.join (s.toList.map escapeJSON) ++ "\""

def boolJSON (value : Bool) : String := if value then "true" else "false"

/-- An object of `json.MarshalIndent` with the fields that are not omitted. -/
def objectJSON (indent : String) (fields : List (String × String)) : String :=
  "\x7b\n" ++ join (fields.map fun field =>
    indent ++ "  " ++ quoteJSON field.1 ++ ": " ++ field.2) ",\n" ++ "\n" ++ indent ++ "\x7d"

/-- A field with `omitempty`, which is left out at its zero value. -/
def omitEmpty (name : String) (zero : Bool) (value : String) : List (String × String) :=
  if zero then [] else [(name, value)]

def recordText (record : TransactionRecord) : String :=
  objectJSON "    "
    ([("path", quoteJSON record.path), ("originalExists", boolJSON record.originalExists)] ++
      omitEmpty "originalMode" (record.originalMode == 0) (toString record.originalMode) ++
      omitEmpty "originalSha256" (record.originalSHA256 == "") (quoteJSON record.originalSHA256) ++
      [("candidateExists", boolJSON record.candidateExists)] ++
      omitEmpty "candidateMode" (record.candidateMode == 0) (toString record.candidateMode) ++
      omitEmpty "candidateSha256" (record.candidateSHA256 == "")
        (quoteJSON record.candidateSHA256))

def JournalState.name : JournalState → String
  | .prepared => "prepared"
  | .committed => "committed"
  | .other name _ => name

/-- The text of the records, `[]` if there is none. -/
def recordsText (records : List TransactionRecord) : String :=
  if records = [] then "[]"
  else "[\n" ++ join (records.map fun record => "    " ++ recordText record) ",\n" ++ "\n  ]"

/-- What `writeTransactionJournal` writes. -/
def journalText (journal : TransactionJournal) : String :=
  objectJSON "" [("schemaVersion", quoteJSON journal.schemaVersion),
    ("state", quoteJSON journal.state.name), ("files", recordsText journal.files)] ++ "\n"

theorem len_append (s t : String) : len (s ++ t) = len s + len t :=
  String.utf8ByteSize_append

theorem sum_len_le_len_join (sep : String) (parts : List String) :
    (parts.map len).sum ≤ len (join parts sep) := by
  induction parts with
  | nil => simp
  | cons part rest ih =>
    cases rest with
    | nil => simp [join]
    | cons next rest =>
      rw [join, String.intercalate_cons_cons, len_append, len_append, map_cons, sum_cons]
      rw [join] at ih
      omega

/-- An object is at least as long as the values of a part of its fields. -/
theorem sum_len_le_len_objectJSON (indent : String) {values : List String}
    {fields : List (String × String)} (h : values.Sublist (fields.map Prod.snd)) :
    (values.map len).sum ≤ len (objectJSON indent fields) := by
  have hvals : (values.map len).sum ≤ ((fields.map Prod.snd).map len).sum :=
    (h.map len).sum_le_sum fun _ _ => Nat.zero_le _
  have hlines : ((fields.map Prod.snd).map len).sum ≤
      ((fields.map fun field => indent ++ "  " ++ quoteJSON field.1 ++ ": " ++ field.2).map
        len).sum := by
    rw [map_map, map_map]
    refine sum_le_sum fun field _ => ?_
    simp only [Function.comp_apply, len_append]
    omega
  have hjoin := sum_len_le_len_join ",\n"
    (fields.map fun field => indent ++ "  " ++ quoteJSON field.1 ++ ": " ++ field.2)
  simp only [objectJSON, len_append]
  omega

/-- A journal is at least as long as its records. -/
theorem sum_len_recordText_le (journal : TransactionJournal) :
    (journal.files.map fun record => len (recordText record)).sum ≤ len (journalText journal) := by
  have hlines : (journal.files.map fun record => len (recordText record)).sum ≤
      ((journal.files.map fun record => "    " ++ recordText record).map len).sum := by
    rw [map_map]
    refine sum_le_sum fun record _ => ?_
    rw [Function.comp_apply, len_append]
    omega
  have hrecs : (journal.files.map fun record => len (recordText record)).sum ≤
      len (recordsText journal.files) := by
    rw [recordsText]
    split
    · next hnone => simp [hnone]
    have hjoin := sum_len_le_len_join ",\n"
      (journal.files.map fun record => "    " ++ recordText record)
    rw [len_append, len_append]
    omega
  have hfield : [recordsText journal.files].Sublist
      ([("schemaVersion", quoteJSON journal.schemaVersion), ("state", quoteJSON journal.state.name),
        ("files", recordsText journal.files)].map Prod.snd) :=
    .cons _ (.cons _ (.cons_cons _ .slnil))
  have hobj := sum_len_le_len_objectJSON "" hfield
  simp only [map_cons, map_nil, sum_cons, sum_nil] at hobj hrecs
  rw [journalText, len_append]
  exact hrecs.trans (by omega)

/-! ## A transaction of many files -/

/-- The lengths are those of the text. -/
def jsonCodec : Codec Sample :=
  { sampleCodec with
    size := fun
      | .journal journal => len (journalText journal)
      | .text text => len text
      | .file _ => 1 }

theorem jsonCodec_lawful : jsonCodec.Lawful := fun _ _ => rfl

def replacedEntry : TransactionEntry Sample where
  expected := withoutData (fileVersion jsonCodec.toContents 0o644 (.file 1))
  candidate := fileVersion jsonCodec.toContents 0o644 (.file 2)

theorem replacedEntry_valid (n : Nat) : EntryValid jsonCodec (zeroPadded 10 6 n) replacedEntry := by
  refine ⟨?_, by decide +kernel, by decide +kernel, rfl, .inl rfl⟩
  have hplain : ∀ name ∈ [zeroPadded 10 6 n], PlainName name := fun name hname =>
    mem_singleton.mp hname ▸ plainName_zeroPadded n (by decide)
  simpa [join] using relative_join (by simp) hplain

/-- Replace the first files of a numbered series. -/
def manyFiles : Nat → FileTransaction jsonCodec
  | 0 => {}
  | n + 1 =>
    { files := SortedAssoc.insert (zeroPadded 10 6 n) replacedEntry (manyFiles n).files
      sorted := (manyFiles n).sorted.insert _ _
      valid := by
        intro file hfile
        rcases SortedAssoc.mem_insert hfile with rfl | hfile
        · exact replacedEntry_valid n
        · exact (manyFiles n).valid file hfile }

theorem mem_manyFiles {n : Nat} {file : String × TransactionEntry Sample}
    (h : file ∈ (manyFiles n).files) : ∃ m < n, file = (zeroPadded 10 6 m, replacedEntry) := by
  induction n with
  | zero => cases h
  | succ n ih =>
    rcases mem_insert h with rfl | h
    · exact ⟨n, by omega, rfl⟩
    · obtain ⟨m, hm, rfl⟩ := ih h
      exact ⟨m, by omega, rfl⟩

theorem length_manyFiles (n : Nat) : (manyFiles n).files.length = n := by
  induction n with
  | zero => rfl
  | succ n ih =>
    have hnew : zeroPadded 10 6 n ∉ (manyFiles n).files.map Prod.fst := by
      intro hfound
      obtain ⟨file, hfile, hkey⟩ := mem_map.mp hfound
      obtain ⟨m, hm, rfl⟩ := mem_manyFiles hfile
      have hsame : m = n := zeroPadded_injective (by decide) (by decide) hkey
      omega
    rw [manyFiles, (perm_insert hnew _).length_eq, length_cons, ih]

theorem changed_manyFiles (n : Nat) : (manyFiles n).changed = (manyFiles n).files := by
  refine filter_eq_self.mpr fun file hfile => ?_
  obtain ⟨m, -, rfl⟩ := mem_manyFiles hfile
  have hdiffer : sameManagedVersion replacedEntry.expected replacedEntry.candidate = false := by
    decide +kernel
  rw [hdiffer]
  rfl

/-- The two digests of a record take 66 bytes each. -/
theorem len_recordText_replacedEntry (path : String) :
    132 ≤ len (recordText (transactionRecord (path, replacedEntry))) := by
  have hdigests : ([quoteJSON replacedEntry.expected.digest,
      quoteJSON replacedEntry.candidate.digest].map len).sum = 132 := by decide +kernel
  rw [← hdigests]
  refine sum_len_le_len_objectJSON _ ?_
  have hdig : (replacedEntry.expected.digest == "") = false ∧
      (replacedEntry.candidate.digest == "") = false := by decide +kernel
  have hmode : (replacedEntry.expected.mode == 0) = false ∧
      (replacedEntry.candidate.mode == 0) = false := ⟨rfl, rfl⟩
  simp only [transactionRecord, omitEmpty, hdig, hmode, Bool.false_eq_true, if_false,
    map_cons, map_nil, cons_append, nil_append]
  exact .cons _ (.cons _ (.cons _ (.cons_cons _ (.cons _ (.cons _ (.cons_cons _ .slnil))))))

theorem size_manyFiles (n : Nat) (state : JournalState) :
    132 * n ≤ jsonCodec.size (jsonCodec.encode ((manyFiles n).journal state)) := by
  have hrecs : ((manyFiles n).journal state).files =
      (manyFiles n).files.map transactionRecord := by
    rw [← changed_manyFiles]
    rfl
  have hsum : ((manyFiles n).files.map transactionRecord).length • 132 ≤
      (((manyFiles n).files.map transactionRecord).map fun record =>
        len (recordText record)).sum := by
    rw [← length_map (f := fun record => len (recordText record))]
    refine card_nsmul_le_sum _ 132 fun size hsize => ?_
    rw [map_map] at hsize
    obtain ⟨file, hfile, rfl⟩ := mem_map.mp hsize
    obtain ⟨m, -, rfl⟩ := mem_manyFiles hfile
    exact len_recordText_replacedEntry _
  have htext := sum_len_recordText_le ((manyFiles n).journal state)
  rw [length_map, length_manyFiles, nsmul_eq_mul, mul_comm] at hsum
  rw [hrecs] at htext
  exact hsum.trans htext

/-- The journal of an update of one file is written, and every call is done. -/
def oneFilePublished : Exit (Bool × Except String Unit) × World Sample :=
  writeTransactionJournal jsonCodec (fun _ _ => .done) (transactionDirectory sampleNames.entropy.id)
    sampleNames.prepared ((manyFiles 1).journal .prepared) createdDirectory

theorem published_journal_read_one_file : oneFilePublished.1 = .ok (true, .ok ()) ∧
      readTransactionJournal jsonCodec oneFilePublished.2.tree
          (transactionDirectory sampleNames.entropy.id) =
        .ok (some ((manyFiles 1).journal .prepared)) := by
  have hpublished : oneFilePublished.1 = .ok (true, .ok ()) := by rfl
  have hchanged : (manyFiles 1).changed ≠ [] := by decide +kernel
  exact ⟨hpublished, (published_journal_read_iff jsonCodec_lawful (manyFiles 1) hchanged
    .prepared (fun _ _ => .done) (transactionDirectory sampleNames.entropy.id)
    sampleNames.prepared createdDirectory (.ok ()) hpublished).mpr (by decide +kernel)⟩

/-- The journal of an update of 8192 files is written, and every call is done. -/
def manyFilesPublished : Exit (Bool × Except String Unit) × World Sample :=
  writeTransactionJournal jsonCodec (fun _ _ => .done) (transactionDirectory sampleNames.entropy.id)
    sampleNames.prepared ((manyFiles 8192).journal .prepared) createdDirectory

/-- The writer publishes the journal of an update of 8192 files, and the reader
refuses it. -/
theorem published_journal_too_long : manyFilesPublished.1 = .ok (true, .ok ()) ∧
      readTransactionJournal jsonCodec manyFilesPublished.2.tree
          (transactionDirectory sampleNames.entropy.id) =
        .error "update transaction journal exceeds 1048576 bytes" := by
  have hpublished : manyFilesPublished.1 = .ok (true, .ok ()) := by rfl
  refine ⟨hpublished, ?_⟩
  have hchanged : (manyFiles 8192).changed ≠ [] := by
    rw [changed_manyFiles, ← length_pos_iff, length_manyFiles]
    decide
  have hlong := size_manyFiles 8192 .prepared
  rw [manyFilesPublished] at hpublished ⊢
  rw [readTransactionJournal_eq jsonCodec_lawful hchanged
    (writeTransactionJournal_get hpublished), if_pos (by omega)]

end Atum.Update
