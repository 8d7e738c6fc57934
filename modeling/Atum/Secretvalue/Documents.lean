import Mathlib.Algebra.Group.Nat.Defs
import Mathlib.Data.List.Sort
import Atum.Go.Outcome
import Atum.Library.Json
import Atum.Library.SortedAssoc

/-!
# The documents of secrets

`MarshalProjection` and `marshalKubernetesSecret` assemble a JSON document from
byte strings, without going through a tree.  Values and digests are written by
`appendQuotedBytes`, which escapes for JSON.  Names and keys are written by
`strconv.AppendQuote`, which escapes for Go, and the two languages do not agree about
all characters.

The main result says for which names and keys the documents say what they should.
`table` stands for the tables of `strconv` that tell which characters beyond Latin-1
are printable.
-/

namespace Atum.Secretvalue

open Atum.Go Utf8 List

/-- A byte string: a Go string, or a slice of bytes. -/
abbrev Bytes := List UInt8

/-- The bytes of a text of the source. -/
def bytes (s : String) : Bytes := encode s.toList

/-- `Values`: a map, with its entries in the order in which Go walks over them. -/
structure Values where
  entries : List (Bytes × Bytes)
  nodup : (entries.map Prod.fst).Nodup

/-! ## The two ways to quote -/

section Quote

variable (table : Char → Bool)

/-- `strconv.IsPrint`. -/
def isPrint (c : Char) : Bool :=
  let r := c.toNat
  if r ≤ 0xff then (0x20 ≤ r && r < 0x7f) || (0xa1 ≤ r && r ≠ 0xad) else table c

/-- The last hexadecimal digits of a number. -/
def lowerHex (width n : Nat) : List Char :=
  (List.range width).reverse.map fun place => Nat.digitChar (n / 16 ^ place % 16)

/-- `appendEscapedRune` of `strconv`, for the quotation mark. -/
def escapedRune (c : Char) : List Char :=
  if c = '"' ∨ c = '\\' then ['\\', c]
  else if isPrint table c then [c]
  else if c = '\x07' then ['\\', 'a']
  else if c = '\x08' then ['\\', 'b']
  else if c = '\x0c' then ['\\', 'f']
  else if c = '\n' then ['\\', 'n']
  else if c = '\r' then ['\\', 'r']
  else if c = '\t' then ['\\', 't']
  else if c = '\x0b' then ['\\', 'v']
  else if c.toNat < 0x20 ∨ c.toNat = 0x7f then '\\' :: 'x' :: lowerHex 2 c.toNat
  else if c.toNat < 0x10000 then '\\' :: 'u' :: lowerHex 4 c.toNat
  else '\\' :: 'U' :: lowerHex 8 c.toNat

/-- One round of `appendQuotedWith` of `strconv`. -/
def quotedRune : Utf8.Rune → List Char
  | .char c => escapedRune table c
  | .invalid b => '\\' :: 'x' :: lowerHex 2 b.toNat

/-- `strconv.AppendQuote`. -/
def appendQuote (destination s : Bytes) : Bytes :=
  destination ++ bytes "\"" ++
    (runes s).flatMap (fun rune => encode (quotedRune table rune)) ++ bytes "\""

/-- One round of `appendQuotedBytes`. -/
def quotedByte (character : UInt8) : Bytes :=
  if character = 0x22 ∨ character = 0x5c then [0x5c, character]
  else if character = 0x08 then bytes "\\b"
  else if character = 0x0c then bytes "\\f"
  else if character = 0x0a then bytes "\\n"
  else if character = 0x0d then bytes "\\r"
  else if character = 0x09 then bytes "\\t"
  else if character < 0x20 then
    bytes "\\u00" ++ encode
      [Nat.digitChar (character >>> 4).toNat, Nat.digitChar (character &&& 0x0f).toNat]
  else [character]

/-- `appendQuotedBytes`. -/
def appendQuotedBytes (destination value : Bytes) : Bytes :=
  destination ++ bytes "\"" ++ value.flatMap quotedByte ++ bytes "\""

end Quote

/-! ## The documents -/

section Marshal

variable (table : Char → Bool)

/-- The value of a key. -/
def Values.get (values : Values) (key : Bytes) : Bytes := (values.entries.lookup key).getD []

/-- The keys after `slices.Sort`. -/
def Values.keys (values : Values) : List Bytes :=
  (values.entries.map Prod.fst).insertionSort (· ≤ ·)

/-- The checks of the keys and values.  `document` is what the texts of the errors
speak of. -/
def checkValues (document : String) (values : Values) : Except Bytes Unit :=
  values.entries.forM fun entry => do
    if entry.1 = [] ∨ valid entry.1 = false then
      throw (bytes (document ++ " contains an invalid key"))
    if valid entry.2 = false then
      throw (appendQuote table (bytes (document ++ " value ")) entry.1 ++
        bytes " is not valid UTF-8")

def exceeds (document : String) (limit : Int) : Bytes :=
  bytes (document ++ " exceeds " ++ toString limit ++ " bytes")

/-- One round of the loop over the sorted keys. -/
def appendValue (document : String) (limit : Int) (values : Values) (result : Bytes)
    (key : Bytes × Nat) : Except Bytes Bytes := do
  let result := if key.2 ≠ 0 then result ++ bytes "," else result
  let result := appendQuote table result key.1
  let result := result ++ bytes ":"
  let result := appendQuotedBytes result (values.get key.1)
  if (result.length : Int) > limit then throw (exceeds document limit)
  pure result

/-- The loop over the sorted keys. -/
def appendValues (document : String) (limit : Int) (values : Values) (result : Bytes) :
    Except Bytes Bytes :=
  values.keys.zipIdx.foldlM (appendValue table document limit values) result

/-- `MarshalProjection`.  A brace of a text is written by its code, and the comments have
the texts as they are in the source. -/
def marshalProjection (valuesField : Bytes) (values : Values) (digestField digest : Bytes)
    (limit : Int) : Except Bytes Bytes := do
  if valuesField = [] ∨ digestField = [] then
    throw (bytes "secret projection field names are required")
  if values.entries = [] ∨ digest = [] then
    throw (bytes "secret projection values and digest are required")
  if limit ≤ 0 then throw (bytes "secret projection limit must be positive")
  checkValues table "secret projection" values
  let result := bytes "\x7b" -- `{`
  let result := appendQuote table result valuesField
  let result := result ++ bytes ":\x7b" -- `:{`
  let result ← appendValues table "secret projection" limit values result
  let result := result ++ bytes "\x7d," -- `},`
  let result := appendQuote table result digestField
  let result := result ++ bytes ":"
  let result := appendQuotedBytes result digest
  let result := result ++ bytes "\x7d" -- `}`
  if (result.length : Int) > limit then throw (exceeds "secret projection" limit)
  pure result

/-- The checks of the three texts.  `order` is the order in which Go walks over the
map of them. -/
def checkTexts (order : List (String × Bytes) → List (String × Bytes))
    (name namespaceName annotation : Bytes) : Except Bytes Unit :=
  (order [("name", name), ("namespace", namespaceName), ("annotation", annotation)]).forM
    fun entry =>
      if entry.2 = [] ∨ valid entry.2 = false then
        throw (bytes ("Kubernetes Secret " ++ entry.1 ++ " is invalid"))
      else pure ()

/-- `marshalKubernetesSecret`, with the texts of the source in the comments. -/
def marshalKubernetesSecret (order : List (String × Bytes) → List (String × Bytes))
    (name namespaceName annotation digest : Bytes) (values : Values) (limit : Int)
    (watch immutable : Bool) : Except Bytes Bytes := do
  checkTexts order name namespaceName annotation
  if values.entries = [] ∨ digest = [] then
    throw (bytes "Kubernetes Secret values and digest are required")
  if limit ≤ 0 then throw (bytes "Kubernetes Secret limit must be positive")
  checkValues table "Kubernetes Secret" values
  -- `{"apiVersion":"v1","kind":"Secret","metadata":{"name":`
  let result := bytes "\x7b\"apiVersion\":\"v1\",\"kind\":\"Secret\",\"metadata\":\x7b\"name\":"
  let result := appendQuote table result name
  let result := result ++ bytes ",\"namespace\":"
  let result := appendQuote table result namespaceName
  -- `,"labels":{"reconcile.fluxcd.io/watch":"Enabled"}`
  let result :=
    if watch then result ++ bytes ",\"labels\":\x7b\"reconcile.fluxcd.io/watch\":\"Enabled\"\x7d"
    else result
  let result := result ++ bytes ",\"annotations\":\x7b" -- `,"annotations":{`
  let result := appendQuote table result annotation
  let result := result ++ bytes ":"
  let result := appendQuotedBytes result digest
  let result := result ++ bytes "\x7d\x7d,\"type\":\"Opaque\"" -- `}},"type":"Opaque"`
  let result := if immutable then result ++ bytes ",\"immutable\":true" else result
  let result := result ++ bytes ",\"stringData\":\x7b" -- `,"stringData":{`
  let result ← appendValues table "Kubernetes Secret" limit values result
  let result := result ++ bytes "\x7d\x7d\n" -- `}}` and a line break
  if (result.length : Int) > limit then throw (exceeds "Kubernetes Secret" limit)
  pure result

end Marshal

/-! ## What the escapes say in JSON -/

section Escapes

variable (table : Char → Bool)

/-- The characters that Go and JSON escape alike. -/
def quotable (c : Char) : Bool :=
  (0x20 ≤ c.toNat || c ∈ ['\x08', '\x0c', '\n', '\r', '\t']) && c.toNat ≠ 0x7f &&
    (c.toNat < 0x10000 || table c)

/-- All characters of a byte string are escaped alike. -/
def Quotable (s : Bytes) : Prop := ∀ c ∈ Utf8.text s, quotable table c = true

theorem lowerHex_four (n : Nat) : lowerHex 4 n = Json.hexText n := by
  simp [lowerHex, Json.hexText, range_succ]

variable {c : Char}

theorem isPrint_bounds (h : isPrint table c = true) :
    0x20 ≤ c.toNat ∧ c.toNat ≠ 0x7f ∧ (c.toNat < 0x10000 ∨ table c = true) := by
  unfold isPrint at h
  dsimp only at h
  split at h
  · simp only [Bool.or_eq_true, Bool.and_eq_true, decide_eq_true_eq, ne_eq] at h
    omega
  · exact ⟨by omega, by omega, .inr h⟩

/-- What `appendQuotedBytes` writes for a character. -/
def escapedChar (c : Char) : List Char :=
  if c = '"' ∨ c = '\\' then ['\\', c]
  else if c = '\x08' then ['\\', 'b']
  else if c = '\x0c' then ['\\', 'f']
  else if c = '\n' then ['\\', 'n']
  else if c = '\r' then ['\\', 'r']
  else if c = '\t' then ['\\', 't']
  else if c.toNat < 0x20 then '\\' :: 'u' :: Json.hexText c.toNat
  else [c]

/-- The characters with a short escape in JSON. -/
def shortEscaped : List Char := ['"', '\\', '\x08', '\x0c', '\n', '\r', '\t']

/-- `appendQuotedBytes` writes JSON for all characters. -/
theorem escapes_escapedChar : Json.Escapes escapedChar fun _ => true := by
  intro c count rest
  by_cases hshort : c ∈ shortEscaped
  · simp only [shortEscaped, mem_cons, not_mem_nil, or_false] at hshort
    rcases hshort with rfl | rfl | rfl | rfl | rfl | rfl | rfl <;>
      exact Json.chars_escape [_] (fun _ => rfl) count rest
  simp only [shortEscaped, mem_cons, not_mem_nil, or_false, not_or] at hshort
  obtain ⟨hquote, hslash, hb, hf, hn, hr, ht⟩ := hshort
  simp only [escapedChar, hquote, hslash, hb, hf, hn, hr, ht, or_self, ↓reduceIte]
  split
  · next hcontrol =>
    have hsmall : c.toNat < 0x10000 := by omega
    exact Json.chars_escape _ (Json.reads_escape_unicode hsmall) count rest
  · next hcontrol =>
    have hplain : Json.plain c = true := by simpa [Json.plain, hquote, hslash] using hcontrol
    exact Json.chars_plain hplain count rest

theorem escapedRune_of_short (h : c ∈ shortEscaped) :
    escapedRune table c = escapedChar c ∧ quotable table c = true := by
  simp only [shortEscaped, mem_cons, not_mem_nil, or_false] at h
  rcases h with rfl | rfl | rfl | rfl | rfl | rfl | rfl <;> exact ⟨rfl, rfl⟩

/-- `strconv.AppendQuote` writes JSON for the quotable characters only. -/
theorem escapes_escapedRune : Json.Escapes (escapedRune table) (quotable table) := by
  intro c count rest
  by_cases hshort : c ∈ shortEscaped
  · obtain ⟨hsame, hquotable⟩ := escapedRune_of_short table hshort
    rw [hsame, hquotable]
    exact escapes_escapedChar c count rest
  simp only [shortEscaped, mem_cons, not_mem_nil, or_false, not_or] at hshort
  obtain ⟨hquote, hslash, hb, hf, hn, hr, ht⟩ := hshort
  simp only [escapedRune, hquote, hslash, hb, hf, hn, hr, ht, or_self, ↓reduceIte]
  by_cases hprint : isPrint table c = true
  · obtain ⟨hlow, hdelete, hhigh⟩ := isPrint_bounds table hprint
    have hplain : Json.plain c = true := by simp [Json.plain, hquote, hslash, hlow]
    have hquotable : quotable table c = true := by simpa [quotable, hlow, hdelete] using hhigh
    rw [if_pos hprint, hquotable]
    exact Json.chars_plain hplain count rest
  rw [if_neg hprint]
  by_cases ha : c = '\x07'
  · subst ha
    exact Json.chars_unknown (fun _ => rfl) count rest
  rw [if_neg ha]
  by_cases hv : c = '\x0b'
  · subst hv
    exact Json.chars_unknown (fun _ => rfl) count rest
  rw [if_neg hv]
  by_cases hcontrol : c.toNat < 0x20 ∨ c.toNat = 0x7f
  · have hquotable : quotable table c = false := by
      rcases hcontrol with h | h
      · simp [quotable, hb, hf, hn, hr, ht, h]
      · simp [quotable, h]
    rw [if_pos hcontrol, hquotable]
    exact Json.chars_unknown (fun _ => rfl) count _
  rw [if_neg hcontrol]
  rw [not_or, not_lt] at hcontrol
  by_cases hsmall : c.toNat < 0x10000
  · have hquotable : quotable table c = true := by simp [quotable, hcontrol, hsmall]
    rw [if_pos hsmall, hquotable, lowerHex_four]
    exact Json.chars_escape _ (Json.reads_escape_unicode hsmall) count rest
  have htable : table c = false := by
    have hlarge : ¬c.toNat ≤ 0xff := by omega
    simpa [isPrint, hlarge] using hprint
  have hquotable : quotable table c = false := by simp [quotable, hsmall, htable]
  rw [if_neg hsmall, hquotable]
  exact Json.chars_unknown (fun _ => rfl) count _

/-- `appendQuotedBytes` goes over bytes, and the bytes of one character are escaped
only if the character is a byte. -/
theorem flatMap_quotedByte (c : Char) :
    (String.utf8EncodeChar c).flatMap quotedByte = encode (escapedChar c) := by
  by_cases hascii : c.toNat < 128
  · have hall : ∀ n : Fin 128,
        quotedByte (UInt8.ofNat n) = encode (escapedChar (Char.ofNat n)) := by
      decide +kernel
    have hchar := hall ⟨c.toNat, hascii⟩
    rw [Char.ofNat_toNat] at hchar
    rw [encodeChar_of_lt hascii, flatMap_singleton, hchar]
  have hbytes : ∀ b ∈ String.utf8EncodeChar c, quotedByte b = [b] := by
    intro b hb
    have hall : ∀ n : Fin 256, 128 ≤ n.val →
        quotedByte (UInt8.ofNat n) = [UInt8.ofNat n] := by
      decide +kernel
    have hbyte := hall ⟨b.toNat, b.toNat_lt⟩ (le_of_mem_encodeChar (not_lt.mp hascii) hb)
    rwa [UInt8.ofNat_toNat] at hbyte
  have hself : escapedChar c = [c] := by
    have hne : ∀ k : Char, k.toNat < 128 → c ≠ k := by
      intro k hk heq
      subst heq
      omega
    have hcontrol : ¬c.toNat < 0x20 := by omega
    simp [escapedChar, hne, hcontrol]
  rw [flatMap_congr hbytes, hself]
  simp

end Escapes

/-! ## The texts of the documents -/

section Texts

variable (table : Char → Bool)

/-- A name or a key as it is written. -/
def nameText (s : Bytes) : List Char := Json.quoted (escapedRune table) (Utf8.text s)

/-- A value or a digest as it is written. -/
def valueText (value : Bytes) : List Char := Json.quoted escapedChar (Utf8.text value)

theorem appendQuote_eq {s : Bytes} (h : valid s = true) (destination : Bytes) :
    appendQuote table destination s = destination ++ encode (nameText table s) := by
  have hrunes : runes s = (Utf8.text s).map .char := by
    rw [← runes_encode, encode_text h]
  rw [appendQuote, hrunes, flatMap_map, nameText, Json.quoted, encode_cons,
    encode_append, encode_flatMap, append_assoc, append_assoc]
  rfl

theorem appendQuotedBytes_eq {value : Bytes} (h : valid value = true) (destination : Bytes) :
    appendQuotedBytes destination value = destination ++ encode (valueText value) := by
  have hbytes : value.flatMap quotedByte = encode ((Utf8.text value).flatMap escapedChar) := by
    conv_lhs => rw [← encode_text h]
    rw [encode, flatMap_assoc, encode_flatMap]
    exact flatMap_congr fun c _ => flatMap_quotedByte c
  rw [appendQuotedBytes, hbytes, valueText, Json.quoted, encode_cons, encode_append,
    append_assoc, append_assoc]
  rfl

/-- An entry as it is written. -/
def entryText (entry : Bytes × Bytes) : List Char × List Char :=
  (nameText table entry.1, valueText entry.2)

/-- The entries of the map in the order of the document. -/
def Values.sorted (values : Values) : List (Bytes × Bytes) :=
  values.keys.map fun key => (key, values.get key)

variable {values : Values}

theorem Values.get_of_mem {entry : Bytes × Bytes} (h : entry ∈ values.entries) :
    values.get entry.1 = entry.2 := by
  rw [Values.get, SortedAssoc.lookup_of_mem values.nodup h]
  rfl

theorem Values.sorted_perm (values : Values) : values.sorted.Perm values.entries := by
  have hents : (values.entries.map Prod.fst).map (fun key => (key, values.get key)) =
      values.entries := by
    rw [map_map]
    conv_rhs => rw [← map_id values.entries]
    apply map_congr_left
    intro entry hent
    exact Prod.ext rfl (get_of_mem hent)
  exact ((perm_insertionSort _ _).map _).trans (List.Perm.of_eq hents)

/-- The keys and values have passed their checks. -/
structure Values.Valid (values : Values) : Prop where
  keys : ∀ entry ∈ values.entries, valid entry.1 = true
  values : ∀ entry ∈ values.entries, valid entry.2 = true

variable {document : String}

theorem valid_of_checkValues (h : checkValues table document values = .ok ()) : values.Valid := by
  rw [checkValues, forM_eq_ok_iff] at h
  constructor
  · intro entry hent
    obtain ⟨hkey, -⟩ := ite_throw_bind_eq_ok.mp (h entry hent)
    rw [not_or, Bool.not_eq_false] at hkey
    exact hkey.2
  intro entry hent
  obtain ⟨-, hrest⟩ := ite_throw_bind_eq_ok.mp (h entry hent)
  obtain ⟨hval, -⟩ := ite_throw_eq_ok.mp hrest
  rwa [Bool.not_eq_false] at hval

variable {limit : Int} {result : Bytes}

/-- One round writes one entry. -/
theorem appendValue_ok {next : Bytes} {key : Bytes} {index : Nat} (hkey : valid key = true)
    (hval : valid (values.get key) = true)
    (h : appendValue table document limit values result (key, index) = .ok next) :
    next = result ++ (if index ≠ 0 then bytes "," else []) ++
      encode (nameText table key ++ ':' :: valueText (values.get key)) := by
  obtain ⟨-, h⟩ := ite_throw_eq_ok.mp h
  cases h
  rw [appendQuotedBytes_eq hval, appendQuote_eq table hkey, encode_append]
  have hcomma : (if index ≠ 0 then result ++ bytes "," else result) =
      result ++ if index ≠ 0 then bytes "," else [] := by
    split <;> simp
  rw [hcomma]
  simp only [append_assoc]
  rfl

variable {output : Bytes}

/-- The loop writes the members of an object without its end. -/
theorem foldlM_appendValue {keys : List Bytes}
    (hkeys : ∀ key ∈ keys, valid key = true ∧ valid (values.get key) = true)
    (hsome : keys ≠ []) {start : Nat}
    (h : (keys.zipIdx start).foldlM (appendValue table document limit values) result = .ok output) :
    output ++ bytes "\x7d" = result ++ (if start ≠ 0 then bytes "," else []) ++
      encode (Json.membersText
        (keys.map fun key => entryText table (key, values.get key))) := by
  induction keys generalizing start result with
  | nil => exact absurd rfl hsome
  | cons key rest ih =>
    obtain ⟨⟨hkey, hval⟩, hrest⟩ := forall_mem_cons.mp hkeys
    rw [zipIdx_cons, foldlM_cons, bind_eq_ok] at h
    obtain ⟨next, hnext, h⟩ := h
    rw [appendValue_ok table hkey hval hnext] at h
    cases rest with
    | nil =>
      cases h
      simp only [map_cons, map_nil, Json.membersText, entryText, encode_append,
        append_assoc]
      rfl
    | cons second others =>
      rw [ih hrest (cons_ne_nil _ _) h]
      simp only [map_cons, Json.membersText, entryText, encode_append, encode_cons,
        append_assoc, if_pos (Nat.succ_ne_zero start)]
      rfl

theorem appendValues_ok (hvalid : values.Valid) (hsome : values.entries ≠ [])
    (h : appendValues table document limit values result = .ok output) : output ++ bytes "\x7d" =
      result ++ encode (Json.membersText (values.sorted.map (entryText table))) := by
  have hmem : ∀ key ∈ values.keys, ∃ entry ∈ values.entries, entry.1 = key := by
    intro key hkey
    exact mem_map.mp ((perm_insertionSort _ _).mem_iff.mp hkey)
  have hkeys : ∀ key ∈ values.keys,
      valid key = true ∧ valid (values.get key) = true := by
    intro key hkey
    obtain ⟨entry, hent, rfl⟩ := hmem key hkey
    rw [Values.get_of_mem hent]
    exact ⟨hvalid.keys entry hent, hvalid.values entry hent⟩
  have hkeysSome : values.keys ≠ [] := by
    intro hnil
    have hperm := values.sorted_perm
    rw [Values.sorted, hnil] at hperm
    exact hsome hperm.symm.eq_nil
  have hwritten := foldlM_appendValue table hkeys hkeysSome h
  rw [hwritten, Values.sorted, map_map]
  simp only [append_assoc]
  rfl

end Texts

/-! ## What the documents should say -/

/-- A byte string as a JSON string. -/
def stringValue (s : Bytes) : Json.Value := .string (Utf8.text s)

/-- Entries as a JSON object. -/
def mapValue (entries : List (Bytes × Bytes)) : Json.Value :=
  .object (entries.map fun entry => (Utf8.text entry.1, stringValue entry.2))

/-- The document is read as the projection of the values and the digest. -/
def IsProjection (output valuesField : Bytes) (values : Values) (digestField digest : Bytes) :
    Prop :=
  ∃ entries : List (Bytes × Bytes), entries.Perm values.entries ∧
    Json.read output = some (.object
      [(Utf8.text valuesField, mapValue entries), (Utf8.text digestField, stringValue digest)])

/-- A text of the source as a JSON string. -/
def literalValue (s : String) : Json.Value := .string s.toList

/-- The metadata of a secret. -/
def metadataValue (name namespaceName annotation digest : Bytes) (watch : Bool) : Json.Value :=
  .object ([("name".toList, stringValue name), ("namespace".toList, stringValue namespaceName)] ++
    (if watch then [("labels".toList,
      .object [("reconcile.fluxcd.io/watch".toList, literalValue "Enabled")])] else []) ++
    [("annotations".toList, .object [(Utf8.text annotation, stringValue digest)])])

/-- The document is read as the secret. -/
def IsSecret (output name namespaceName annotation digest : Bytes) (values : Values)
    (watch immutable : Bool) : Prop :=
  ∃ entries : List (Bytes × Bytes), entries.Perm values.entries ∧
    Json.read output = some (.object (
      [("apiVersion".toList, literalValue "v1"), ("kind".toList, literalValue "Secret"),
        ("metadata".toList, metadataValue name namespaceName annotation digest watch),
        ("type".toList, literalValue "Opaque")] ++
      (if immutable then [("immutable".toList, .bool true)] else []) ++
      [("stringData".toList, mapValue entries)]))

/-! ## Reading the documents -/

section Reading

variable (table : Char → Bool)

/-- Whether a name or a key is read. -/
def readable (s : Bytes) : Bool := (Utf8.text s).all (quotable table)

theorem readable_iff (s : Bytes) : readable table s = true ↔ Quotable table s :=
  all_eq_true

/-- A value or a digest is read. -/
theorem reads_valueText (value : Bytes) :
    Json.ReadsValue 1 (valueText value) true (stringValue value) := by
  have hread := escapes_escapedChar.reads_value (Utf8.text value)
  rwa [all_eq_true.mpr fun _ _ => rfl] at hread

variable {result : Json.Value} {text : List Char} {least : Nat} {good : Bool}

/-- A member whose name is a name or a key. -/
theorem readsMember_nameText (name : Bytes) (h : Json.ReadsValue least text good result)
    (hstarts : Json.Starts text) : Json.ReadsMember least (nameText table name, text)
      (readable table name && good, (Utf8.text name, result)) :=
  (escapes_escapedRune table).readsMember (Utf8.text name) h hstarts

/-- Distinct valid byte strings are distinct texts. -/
theorem text_injOn {s s' : Bytes} (hs : valid s = true) (hs' : valid s' = true)
    (h : Utf8.text s = Utf8.text s') : s = s' := by
  rw [← encode_text hs, h, encode_text hs']

/-- Whether all keys are read. -/
def readableKeys (values : Values) : Bool := values.entries.all fun entry => readable table entry.1

variable {values : Values}

/-- The object of the entries is read if all keys are. -/
theorem reads_entries (hvalid : values.Valid) (hsome : values.entries ≠ []) :
    Json.ReadsValue 2 (Json.objectText (values.sorted.map (entryText table)))
      (readableKeys table values) (mapValue values.sorted) := by
  have hperm := values.sorted_perm
  have hmembers : List.Forall₂ (Json.ReadsMember 1)
      (values.sorted.map (entryText table)) (values.sorted.map fun entry =>
        (readable table entry.1 && true, (Utf8.text entry.1, stringValue entry.2))) := by
    rw [forall₂_map_left_iff, forall₂_map_right_iff, forall₂_same]
    intro entry _
    exact readsMember_nameText table entry.1 (reads_valueText entry.2) (Json.starts_quoted _ _)
  have hsorted : values.sorted.map (entryText table) ≠ [] := by
    intro hnil
    rw [map_eq_nil_iff] at hnil
    rw [hnil] at hperm
    exact hsome hperm.symm.eq_nil
  have hnodup : (((values.sorted.map fun entry =>
      (readable table entry.1 && true, (Utf8.text entry.1, stringValue entry.2))).map
        Prod.snd).map Prod.fst).Nodup := by
    have hkeys : (values.sorted.map Prod.fst).Nodup :=
      (hperm.map Prod.fst).nodup_iff.mpr values.nodup
    have hmem : ∀ key ∈ values.sorted.map Prod.fst, valid key = true := by
      intro key hkey
      obtain ⟨entry, hent, rfl⟩ := mem_map.mp hkey
      exact hvalid.keys entry (hperm.mem_iff.mp hent)
    have htexts := hkeys.map_on fun key hkey key' hkey' =>
      text_injOn (hmem key hkey) (hmem key' hkey')
    rw [map_map] at htexts
    rw [map_map, map_map]
    exact htexts
  have hread := Json.reads_object_of_nodup hmembers hsorted hnodup
  simp only [map_map, all_map, Function.comp_def, Bool.and_true] at hread
  rw [hperm.all_eq] at hread
  exact hread

/-- The text of a projection. -/
def projectionText (valuesField : Bytes) (values : Values) (digestField digest : Bytes) :
    List Char :=
  Json.objectText
    [(nameText table valuesField, Json.objectText (values.sorted.map (entryText table))),
      (nameText table digestField, valueText digest)]

variable {digest output : Bytes} {limit : Int}

theorem marshalProjection_ok {valuesField digestField : Bytes}
    (hvaluesField : valid valuesField = true)
    (hdigestField : valid digestField = true) (hdig : valid digest = true)
    (h : marshalProjection table valuesField values digestField digest limit = .ok output) :
    values.Valid ∧ values.entries ≠ [] ∧
      output = encode (projectionText table valuesField values digestField digest) := by
  obtain ⟨-, h⟩ := ite_throw_bind_eq_ok.mp h
  obtain ⟨hsome, h⟩ := ite_throw_bind_eq_ok.mp h
  obtain ⟨-, h⟩ := ite_throw_bind_eq_ok.mp h
  obtain ⟨_, hcheck, h⟩ := bind_eq_ok.mp h
  obtain ⟨middle, hmiddle, h⟩ := bind_eq_ok.mp h
  obtain ⟨-, h⟩ := ite_throw_eq_ok.mp h
  have hvalid := valid_of_checkValues table hcheck
  rw [not_or] at hsome
  have hwritten := appendValues_ok table hvalid hsome.1 hmiddle
  refine ⟨hvalid, hsome.1, ?_⟩
  cases h
  have hend : bytes "\x7d," = bytes "\x7d" ++ bytes "," := rfl
  rw [appendQuotedBytes_eq hdig, appendQuote_eq table hdigestField, hend, ← append_assoc,
    hwritten, appendQuote_eq table hvaluesField]
  simp only [projectionText, Json.objectText, Json.membersText, encode_cons,
    encode_append, append_assoc]
  rfl

/-- What the reader makes of a projection. -/
theorem read_projectionText (hvalid : values.Valid)
    (hsome : values.entries ≠ []) (valuesField digestField digest : Bytes) :
    Json.read (encode (projectionText table valuesField values digestField digest)) =
      if readable table valuesField ∧ readable table digestField ∧ readableKeys table values ∧
          Utf8.text valuesField ≠ Utf8.text digestField then
        some (.object [(Utf8.text valuesField, mapValue values.sorted),
          (Utf8.text digestField, stringValue digest)]) else none := by
  have hread := Json.reads_object
    (.cons (readsMember_nameText table valuesField (reads_entries table hvalid hsome)
      (Json.starts_objectText _))
    (.cons (readsMember_nameText table digestField ((reads_valueText digest).mono (by decide))
      (Json.starts_quoted _ _)) .nil)) (cons_ne_nil _ _)
  have hlen : 3 ≤ (projectionText table valuesField values digestField digest).length := by
    simp [projectionText, Json.objectText, Json.membersText, nameText, Json.quoted]
    omega
  have hdoc := hread.document (Json.starts_objectText _) hlen [] rfl
  rw [append_nil] at hdoc
  rw [Json.read_encode, projectionText, hdoc]
  simp [and_comm, and_left_comm]

/-- A text of the source as it is written. -/
def literalText (s : String) : List Char := Json.quoted escapedChar s.toList

theorem reads_literalText (s : String) :
    Json.ReadsValue 1 (literalText s) true (literalValue s) := by
  have hread := escapes_escapedChar.reads_value s.toList
  rwa [all_eq_true.mpr fun _ _ => rfl] at hread

/-- A member whose name is a text of the source. -/
theorem readsMember_literal (name : String) (h : Json.ReadsValue least text good result)
    (hstarts : Json.Starts text) :
    Json.ReadsMember least (literalText name, text) (good, (name.toList, result)) := by
  have hread := escapes_escapedChar.readsMember name.toList h hstarts
  rwa [all_eq_true.mpr fun _ _ => rfl, Bool.true_and] at hread

/-- A name as the value of a member. -/
theorem reads_nameText (name : Bytes) :
    Json.ReadsValue 1 (nameText table name) (readable table name) (stringValue name) :=
  (escapes_escapedRune table).reads_value (Utf8.text name)

/-- The text of the metadata. -/
def metadataText (name namespaceName annotation digest : Bytes) (watch : Bool) : List Char :=
  Json.objectText ([(literalText "name", nameText table name),
      (literalText "namespace", nameText table namespaceName)] ++
    (if watch then [(literalText "labels",
      Json.objectText [(literalText "reconcile.fluxcd.io/watch", literalText "Enabled")])]
    else []) ++
    [(literalText "annotations", Json.objectText [(nameText table annotation, valueText digest)])])

/-- The text of a secret. -/
def secretText (name namespaceName annotation digest : Bytes) (values : Values)
    (watch immutable : Bool) : List Char :=
  Json.objectText (
    [(literalText "apiVersion", literalText "v1"), (literalText "kind", literalText "Secret"),
      (literalText "metadata", metadataText table name namespaceName annotation digest watch),
      (literalText "type", literalText "Opaque")] ++
    (if immutable then [(literalText "immutable", "true".toList)] else []) ++
    [(literalText "stringData", Json.objectText (values.sorted.map (entryText table)))])

theorem bytes_secret :
    bytes "\x7b\"apiVersion\":\"v1\",\"kind\":\"Secret\",\"metadata\":\x7b\"name\":" =
      encode ('{' :: literalText "apiVersion" ++ ':' :: literalText "v1" ++
        ',' :: literalText "kind" ++ ':' :: literalText "Secret" ++ ',' :: literalText "metadata" ++
        ':' :: '{' :: literalText "name" ++ [':']) := by
  decide +kernel

theorem bytes_namespace :
    bytes ",\"namespace\":" = encode (',' :: literalText "namespace" ++ [':']) := by
  decide +kernel

theorem bytes_labels : bytes ",\"labels\":\x7b\"reconcile.fluxcd.io/watch\":\"Enabled\"\x7d" =
      encode (',' :: literalText "labels" ++ ':' :: '{' ::
        literalText "reconcile.fluxcd.io/watch" ++ ':' :: literalText "Enabled" ++ ['}']) := by
  decide +kernel

theorem bytes_annotations :
    bytes ",\"annotations\":\x7b" = encode (',' :: literalText "annotations" ++ [':', '{']) := by
  decide +kernel

theorem bytes_type : bytes "\x7d\x7d,\"type\":\"Opaque\"" =
      encode ('}' :: '}' :: ',' :: literalText "type" ++ ':' :: literalText "Opaque") := by
  decide +kernel

theorem bytes_immutable : bytes ",\"immutable\":true" =
      encode (',' :: literalText "immutable" ++ ':' :: "true".toList) := by
  decide +kernel

theorem bytes_stringData :
    bytes ",\"stringData\":\x7b" = encode (',' :: literalText "stringData" ++ [':', '{']) := by
  decide +kernel

theorem marshalKubernetesSecret_ok {order : List (String × Bytes) → List (String × Bytes)}
    {name namespaceName annotation : Bytes}
    {watch immutable : Bool} (horder : ∀ texts, (order texts).Perm texts)
    (hdig : valid digest = true)
    (h : marshalKubernetesSecret table order name namespaceName annotation digest values limit watch
      immutable = .ok output) : values.Valid ∧ values.entries ≠ [] ∧ output = encode
      (secretText table name namespaceName annotation digest values watch immutable ++ ['\n']) := by
  obtain ⟨_, htexts, h⟩ := bind_eq_ok.mp h
  obtain ⟨hsome, h⟩ := ite_throw_bind_eq_ok.mp h
  obtain ⟨-, h⟩ := ite_throw_bind_eq_ok.mp h
  obtain ⟨_, hcheck, h⟩ := bind_eq_ok.mp h
  obtain ⟨middle, hmiddle, h⟩ := bind_eq_ok.mp h
  obtain ⟨-, h⟩ := ite_throw_eq_ok.mp h
  have hvalid := valid_of_checkValues table hcheck
  rw [not_or] at hsome
  have hwritten := appendValues_ok table hvalid hsome.1 hmiddle
  refine ⟨hvalid, hsome.1, ?_⟩
  cases h
  have htext : ∀ entry ∈ [("name", name), ("namespace", namespaceName), ("annotation", annotation)],
      valid entry.2 = true := by
    intro entry hent
    rw [checkTexts, forM_eq_ok_iff] at htexts
    obtain ⟨hent, -⟩ := ite_throw_eq_ok.mp (htexts entry ((horder _).mem_iff.mpr hent))
    rw [not_or, Bool.not_eq_false] at hent
    exact hent.2
  have hname : valid name = true := htext ("name", name) (by simp)
  have hns : valid namespaceName = true := htext ("namespace", namespaceName) (by simp)
  have hannotation : valid annotation = true := htext ("annotation", annotation) (by simp)
  have hend : bytes "\x7d\x7d\n" = bytes "\x7d" ++ encode ['}', '\n'] := rfl
  rw [hend, ← append_assoc, hwritten, appendQuotedBytes_eq hdig,
    appendQuote_eq table hannotation, appendQuote_eq table hns, appendQuote_eq table hname,
    bytes_secret, bytes_namespace, bytes_labels, bytes_annotations, bytes_type, bytes_immutable,
    bytes_stringData]
  cases watch <;> cases immutable <;>
    simp only [secretText, metadataText, Json.objectText, Json.membersText, encode_cons,
      encode_append, encode_nil, append_assoc, cons_append, nil_append,
      append_nil, if_true, Bool.false_eq_true, if_false] <;>
    rfl

theorem reads_true : Json.ReadsValue 1 "true".toList true (.bool true) := by
  intro depth hdepth rest
  obtain ⟨depth, rfl⟩ := Nat.exists_eq_succ_of_ne_zero (ne_of_gt hdepth)
  rfl

/-- A member that is not always there. -/
theorem readsMember_if {member : List Char × List Char} {read : Bool × (List Char × Json.Value)}
    (h : Json.ReadsMember least member read) (flag : Bool) :
    List.Forall₂ (Json.ReadsMember least) (if flag then [member] else [])
      (if flag then [read] else []) := by
  cases flag with
  | false => exact .nil
  | true => exact .cons h .nil

/-- The metadata is read if the three texts are. -/
theorem reads_metadata (name namespaceName annotation digest : Bytes) (watch : Bool) :
    Json.ReadsValue 3 (metadataText table name namespaceName annotation digest watch)
      (readable table name && (readable table namespaceName && readable table annotation))
      (metadataValue name namespaceName annotation digest watch) := by
  have hname := readsMember_literal "name" ((reads_nameText table name).mono (by decide : 1 ≤ 2))
    (Json.starts_quoted _ _)
  have hns := readsMember_literal "namespace"
    ((reads_nameText table namespaceName).mono (by decide : 1 ≤ 2)) (Json.starts_quoted _ _)
  have hlabels := readsMember_literal "labels" (Json.reads_object_of_nodup
    (.cons (readsMember_literal "reconcile.fluxcd.io/watch" (reads_literalText "Enabled")
      (Json.starts_quoted _ _)) .nil) (cons_ne_nil _ _) (nodup_singleton _))
    (Json.starts_objectText _)
  have hannotations := readsMember_literal "annotations" (Json.reads_object_of_nodup
    (.cons (readsMember_nameText table annotation (reads_valueText digest)
      (Json.starts_quoted _ _)) .nil) (cons_ne_nil _ _) (nodup_singleton _))
    (Json.starts_objectText _)
  have hread := Json.reads_object_of_nodup (rel_append (rel_append
    (.cons hname (.cons hns .nil)) (readsMember_if hlabels watch)) (.cons hannotations .nil))
    (by simp) (by cases watch <;> simp)
  cases watch
  all_goals
    simp only [Bool.false_eq_true, if_false, if_true, append_nil, cons_append, nil_append,
      all_cons, all_nil, Bool.and_true, Bool.true_and] at hread
    exact hread

/-- What the reader makes of a secret. -/
theorem read_secretText (hvalid : values.Valid) (hsome : values.entries ≠ [])
    (name namespaceName annotation digest : Bytes) (watch immutable : Bool) : Json.read (encode
        (secretText table name namespaceName annotation digest values watch immutable ++ ['\n'])) =
      if (readable table name && (readable table namespaceName && readable table annotation)) &&
          readableKeys table values then some (.object (
          [("apiVersion".toList, literalValue "v1"), ("kind".toList, literalValue "Secret"),
            ("metadata".toList, metadataValue name namespaceName annotation digest watch),
            ("type".toList, literalValue "Opaque")] ++
          (if immutable then [("immutable".toList, .bool true)] else []) ++
          [("stringData".toList, mapValue values.sorted)])) else none := by
  have hver := readsMember_literal "apiVersion"
    ((reads_literalText "v1").mono (by decide : 1 ≤ 3)) (Json.starts_quoted _ _)
  have hkind := readsMember_literal "kind" ((reads_literalText "Secret").mono (by decide : 1 ≤ 3))
    (Json.starts_quoted _ _)
  have hmetadata := readsMember_literal "metadata"
    (reads_metadata table name namespaceName annotation digest watch) (Json.starts_objectText _)
  have htype := readsMember_literal "type" ((reads_literalText "Opaque").mono (by decide : 1 ≤ 3))
    (Json.starts_quoted _ _)
  have himmutable := readsMember_literal "immutable" (reads_true.mono (by decide : 1 ≤ 3))
    ⟨_, _, rfl, by decide⟩
  have hvals := readsMember_literal "stringData"
    ((reads_entries table hvalid hsome).mono (by decide : 2 ≤ 3)) (Json.starts_objectText _)
  have hread := Json.reads_object_of_nodup (rel_append (rel_append
    (.cons hver (.cons hkind (.cons hmetadata (.cons htype .nil))))
    (readsMember_if himmutable immutable)) (.cons hvals .nil))
    (by simp) (by cases immutable <;> simp)
  rw [Json.read_encode]
  cases immutable
  all_goals
    simp only [Bool.false_eq_true, if_false, if_true, append_nil, cons_append, nil_append,
      all_cons, all_nil, Bool.and_true, Bool.true_and] at hread
    refine hread.document (Json.starts_objectText _) ?_ ['\n'] rfl
    simp only [Json.objectText, Json.membersText, length_cons, length_append]
    omega

end Reading

/-! ## The documents are what they should be -/

/-- A document of either kind is read as what it was made from exactly if its names
and keys have quotable characters only, and for a projection if its two fields have
different names. -/
theorem secretDocuments_decode_iff (table : Char → Bool) (values : Values) (digest : Bytes)
    (hdigest : Utf8.valid digest = true) (limit : Int) :
    (∀ valuesField digestField output, Utf8.valid valuesField = true →
      Utf8.valid digestField = true →
      marshalProjection table valuesField values digestField digest limit = .ok output →
      (IsProjection output valuesField values digestField digest ↔
        Quotable table valuesField ∧ Quotable table digestField ∧
          (∀ entry ∈ values.entries, Quotable table entry.1) ∧ valuesField ≠ digestField)) ∧
    (∀ order : List (String × Bytes) → List (String × Bytes), (∀ texts, (order texts).Perm texts) →
      ∀ name namespaceName annotation watch immutable output,
      marshalKubernetesSecret table order name namespaceName annotation digest values limit watch
        immutable = .ok output →
      (IsSecret output name namespaceName annotation digest values watch immutable ↔
        Quotable table name ∧ Quotable table namespaceName ∧ Quotable table annotation ∧
          ∀ entry ∈ values.entries, Quotable table entry.1)) := by
  have hkeys : readableKeys table values = true ↔
      ∀ entry ∈ values.entries, Quotable table entry.1 := by
    simp [readableKeys, all_eq_true, readable_iff]
  constructor
  · intro valuesField digestField output hvaluesField hdigestField h
    obtain ⟨hvalid, hsome, rfl⟩ := marshalProjection_ok table hvaluesField hdigestField hdigest h
    have hread := read_projectionText table hvalid hsome valuesField digestField digest
    have hfields : Utf8.text valuesField ≠ Utf8.text digestField ↔ valuesField ≠ digestField :=
      not_congr ⟨text_injOn hvaluesField hdigestField, congrArg Utf8.text⟩
    rw [← hkeys, ← readable_iff, ← readable_iff, ← hfields]
    constructor
    · intro ⟨entries, _, hentries⟩
      rw [hread] at hentries
      exact (Option.ite_none_right_eq_some.mp hentries).1
    · intro hgood
      rw [if_pos hgood] at hread
      exact ⟨values.sorted, values.sorted_perm, hread⟩
  · intro order horder name namespaceName annotation watch immutable output h
    obtain ⟨hvalid, hsome, rfl⟩ := marshalKubernetesSecret_ok table horder hdigest h
    have hread := read_secretText table hvalid hsome name namespaceName annotation digest watch
      immutable
    simp only [Bool.and_eq_true, and_assoc] at hread
    rw [← hkeys, ← readable_iff, ← readable_iff, ← readable_iff]
    constructor
    · intro ⟨entries, _, hentries⟩
      rw [hread] at hentries
      exact (Option.ite_none_right_eq_some.mp hentries).1
    · intro hgood
      rw [if_pos hgood] at hread
      exact ⟨values.sorted, values.sorted_perm, hread⟩

/-- One value under one key. -/
def singleValue (key value : String) : Values where
  entries := [(bytes key, bytes value)]
  nodup := List.nodup_singleton _

theorem quotable_bytes {s : String} (h : s.toList.all (quotable fun _ => true) = true) :
    Quotable (fun _ => true) (bytes s) := by
  rw [Quotable, bytes, text_encode]
  exact all_eq_true.mp h

/-- Two values with plain keys; one value has a control character. -/
def plainValues : Values where
  entries := [(bytes "user", bytes "root"), (bytes "token", bytes "a\x01\n")]
  nodup := by decide +kernel

theorem plainValues_quotable :
    ∀ entry ∈ plainValues.entries, Quotable (fun _ => true) entry.1 := by
  simp only [plainValues, mem_cons, not_mem_nil, or_false, forall_eq_or_imp, forall_eq]
  exact ⟨quotable_bytes (by decide +kernel), quotable_bytes (by decide +kernel)⟩

theorem secretDocuments_decode_plain :
    (∃ output, marshalProjection (fun _ => true) (bytes "values") plainValues (bytes "digest")
        (bytes "sha256") 100 = .ok output ∧
      IsProjection output (bytes "values") plainValues (bytes "digest") (bytes "sha256")) ∧
    ∃ output, marshalKubernetesSecret (fun _ => true) id (bytes "wrapper") (bytes "atum")
        (bytes "atum.dev/digest") (bytes "sha256") plainValues 300 true true = .ok output ∧
      IsSecret output (bytes "wrapper") (bytes "atum") (bytes "atum.dev/digest") (bytes "sha256")
        plainValues true true := by
  have hdecode := secretDocuments_decode_iff (fun _ => true) plainValues (bytes "sha256")
    (Utf8.valid_encode _)
  constructor
  · have houtput : ∃ output, marshalProjection (fun _ => true) (bytes "values") plainValues
        (bytes "digest") (bytes "sha256") 100 = .ok output :=
      ⟨bytes ("\x7b\"values\":\x7b\"token\":\"a\\u0001\\n\",\"user\":\"root\"\x7d," ++
        "\"digest\":\"sha256\"\x7d"), by decide +kernel⟩
    obtain ⟨output, houtput⟩ := houtput
    refine ⟨output, houtput, ((hdecode 100).1 (bytes "values") (bytes "digest") output
      (Utf8.valid_encode _) (Utf8.valid_encode _) houtput).mpr
        ⟨?_, ?_, plainValues_quotable, by decide +kernel⟩⟩
    · exact quotable_bytes (by decide +kernel)
    · exact quotable_bytes (by decide +kernel)
  · have houtput : ∃ output, marshalKubernetesSecret (fun _ => true) id (bytes "wrapper")
        (bytes "atum") (bytes "atum.dev/digest") (bytes "sha256") plainValues 300 true true =
          .ok output :=
      ⟨bytes ("\x7b\"apiVersion\":\"v1\",\"kind\":\"Secret\",\"metadata\":" ++
        "\x7b\"name\":\"wrapper\",\"namespace\":\"atum\"," ++
        "\"labels\":\x7b\"reconcile.fluxcd.io/watch\":\"Enabled\"\x7d," ++
        "\"annotations\":\x7b\"atum.dev/digest\":\"sha256\"\x7d\x7d,\"type\":\"Opaque\"," ++
        "\"immutable\":true,\"stringData\":\x7b\"token\":\"a\\u0001\\n\",\"user\":\"root\"" ++
        "\x7d\x7d\n"), by decide +kernel⟩
    obtain ⟨output, houtput⟩ := houtput
    refine ⟨output, houtput, ((hdecode 300).2 id (fun _ => .refl _) (bytes "wrapper")
      (bytes "atum") (bytes "atum.dev/digest") true true output houtput).mpr
        ⟨?_, ?_, ?_, plainValues_quotable⟩⟩
    · exact quotable_bytes (by decide +kernel)
    · exact quotable_bytes (by decide +kernel)
    · exact quotable_bytes (by decide +kernel)

/-- A key with the character for a bell is written with the escape `\a`, which JSON
does not have. -/
theorem secretDocuments_escape_unknown :
    ∃ output, marshalProjection (fun _ => true) (bytes "values") (singleValue "a\x07" "secret")
        (bytes "digest") (bytes "sha256") 100 = .ok output ∧ (Json.read output).isNone = true ∧
      ¬IsProjection output (bytes "values") (singleValue "a\x07" "secret") (bytes "digest")
        (bytes "sha256") := by
  have hnone : (Json.read (bytes
      "\x7b\"values\":\x7b\"a\\a\":\"secret\"\x7d,\"digest\":\"sha256\"\x7d")).isNone = true := by
    decide +kernel
  refine ⟨_, by decide +kernel, hnone, ?_⟩
  intro ⟨entries, _, hread⟩
  rw [hread] at hnone
  cases hnone

end Atum.Secretvalue
