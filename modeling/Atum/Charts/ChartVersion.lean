import Atum.Release.Semver

/-!
# Versions of normalized charts

A chart that has been normalized gets a version of its own: the upstream version with
a pre-release identifier from the digest of what was changed.  The strict parser of
versions comes from a third-party package and is a parameter; `StrictParser` says that it
accepts the grammar of SemVer 2.0.0 with numbers of 64 bits, and nothing else.  The two
kinds of identifiers have different rules: an identifier of a pre-release that is a number
has no zero in front, while the build metadata may have one.

A text of the grammar has one reading (`readVersion_text`), so a rendered text parses
exactly if its pre-release is valid, and then its three numbers are the ones that were
rendered (`StrictParser.rendered`).
-/

namespace Atum.Charts

open Atum.Go Nat
open List (all_append all_eq_false all_eq_true all_map cons_ne_nil exists_cons_of_ne_nil
  length_eq_zero_iff map_congr_left map_id mem_append mem_flatMap mem_pair take_eq_nil_iff)
open Atum.Release (Version)

/-! ## The strict grammar -/

/-- The text has digits only. -/
def onlyDigits (text : String) : Bool := text.toList.all Char.isDigit

/-- The text has letters, digits and dashes only. -/
def onlyAllowed (text : String) : Bool := text.toList.all fun c => c.isAlphanum || c == '-'

/-- A number of several digits that starts with a zero. -/
def zeroPaddedNumber (text : String) : Bool :=
  onlyDigits text && 1 < text.toList.length && text.toList.head? == some '0'

/-- An identifier of a pre-release. -/
def validIdentifier (part : String) : Bool :=
  part != "" && onlyAllowed part && !zeroPaddedNumber part

/-- The identifiers of a pre-release, between dots. -/
def validPrerelease (text : String) : Bool := (split text '.').all validIdentifier

/-- The identifiers of build metadata, between dots. -/
def validMetadata (text : String) : Bool :=
  (split text '.').all fun part => part != "" && onlyAllowed part

/-- A part of a version that may be missing, after its sign. -/
def optional (sign : Char) (part : String) : List Char :=
  if part = "" then [] else sign :: part.toList

/-- The text of a version: its numbers without zeros in front, and the parts that it
has. -/
def versionText (version : Version) : String :=
  toString version.major ++ "." ++ toString version.minor ++ "." ++ toString version.patch ++
    String.ofList (optional '-' version.prerelease ++ optional '+' version.metadata)

/-- The parts of a version are valid, if it has them. -/
structure WellFormed (version : Version) : Prop where
  prerelease : version.prerelease = "" ∨ validPrerelease version.prerelease = true
  metadata : version.metadata = "" ∨ validMetadata version.metadata = true

instance (version : Version) : Decidable (WellFormed version) :=
  decidable_of_iff (_ ∧ _) ⟨fun h => ⟨h.1, h.2⟩, fun h => ⟨h.prerelease, h.metadata⟩⟩

/-- The parser accepts exactly the grammar of SemVer 2.0.0, with numbers of 64 bits. -/
def StrictParser (parse : String → Except String Version) : Prop :=
  ∀ text version, parse text = .ok version ↔ text = versionText version ∧ WellFormed version

/-! ## The version of a normalized chart -/

/-- `hex.DecodeString` reads 32 bytes from the text. -/
def exactDigest (text : String) : Bool :=
  text.toList.length == 64 &&
    text.toList.all fun c => c.isDigit || ('a' ≤ c && c ≤ 'f') || ('A' ≤ c && c ≤ 'F')

/-- `strings.ReplaceAll(text, ".", "-")`. -/
def dashed (text : String) : String :=
  String.ofList (text.toList.map fun c => if c = '.' then '-' else c)

/-- The pre-release of the normalized chart. -/
def normalizedPrerelease (version : Version) (digest : List UInt8) : String :=
  let prerelease := (if version.prerelease = "" then "" else version.prerelease ++ ".") ++
    "atum." ++ hexEncode (digest.take 8)
  if version.metadata = "" then prerelease
  else prerelease ++ ".meta." ++ dashed version.metadata

section

variable {ν : Type}

/-- `normalizedChartVersion`.  `strictNewVersion` is `semver.StrictNewVersion`, and
`identity` is the digest of the canonical JSON of the upstream digest and the
normalizations. -/
def normalizedChartVersion (strictNewVersion : String → Except String Version)
    (identity : String → List ν → Except String (Vector UInt8 32))
    (upstreamVersion upstreamSHA256 : String) (normalizations : List ν) : Except String String :=
  match strictNewVersion upstreamVersion with
  | .error err => .error ("parse upstream chart version " ++ quote upstreamVersion ++ ": " ++ err)
  | .ok version =>
    if normalizations.isEmpty then .ok upstreamVersion
    else if !exactDigest upstreamSHA256 then
      .error "normalized chart requires an exact upstream SHA-256"
    else do
      let digest ← (identity upstreamSHA256 normalizations).mapError
        fun err => "encode normalized chart identity: " ++ err
      return toString version.major ++ "." ++ toString version.minor ++ "." ++
        toString version.patch ++ "-" ++ normalizedPrerelease version digest.toList

end

/-! ## Reading a version back -/

/-- The number that a text starts with. -/
def leadingNumber (chars : List Char) : UInt64 :=
  UInt64.ofNat (Nat.ofDigitChars 10 (chars.takeWhile Char.isDigit) 0)

/-- The version that a text can only be the text of. -/
def readVersion (text : String) : Version :=
  let afterMajor := (text.toList.dropWhile Char.isDigit).tail
  let afterMinor := (afterMajor.dropWhile Char.isDigit).tail
  let parts := afterMinor.dropWhile Char.isDigit
  { major := leadingNumber text.toList
    minor := leadingNumber afterMajor
    patch := leadingNumber afterMinor
    prerelease := String.ofList (parts.takeWhile (· ≠ '+')).tail
    metadata := String.ofList (parts.dropWhile (· ≠ '+')).tail }

theorem isDigit_of_mem_toString {n : UInt64} {c : Char} (h : c ∈ (toString n).toList) :
    c.isDigit = true := by
  have htext : toString n = toString n.toNat := rfl
  rw [htext, toString_eq_ofList_toDigits, String.toList_ofList] at h
  exact isDigit_of_mem_toDigits (by decide) (by decide) h

/-- A number is read up to the first character that is no digit. -/
theorem leadingNumber_toString (n : UInt64) {rest : List Char}
    (hrest : ∀ c ∈ rest.head?, c.isDigit = false) :
    leadingNumber ((toString n).toList ++ rest) = n ∧
      ((toString n).toList ++ rest).dropWhile Char.isDigit = rest := by
  have hstop : rest.takeWhile Char.isDigit = [] ∧ rest.dropWhile Char.isDigit = rest := by
    cases rest with
    | nil => exact ⟨rfl, rfl⟩
    | cons c rest => simp [hrest c rfl]
  have hdigits : ∀ c ∈ (toString n).toList, c.isDigit = true := fun _ => isDigit_of_mem_toString
  have htext : toString n = toString n.toNat := rfl
  constructor
  · rw [leadingNumber, List.takeWhile_append_of_pos hdigits, hstop.1, List.append_nil, htext,
      toString_eq_ofList_toDigits, String.toList_ofList,
      ofDigitChars_toDigits (by decide) (by decide), UInt64.ofNat_toNat]
  · rw [List.dropWhile_append_of_pos hdigits, hstop.2]

/-- What is before the plus sign is the first part, and what is behind it the second. -/
theorem optional_append {first : String} (second : String) (hplus : '+' ∉ first.toList) :
    (optional '-' first ++ optional '+' second).takeWhile (· ≠ '+') = optional '-' first ∧
      (optional '-' first ++ optional '+' second).dropWhile (· ≠ '+') = optional '+' second := by
  have hbefore : ∀ c ∈ optional '-' first, decide (c ≠ '+') = true := by
    intro c hc
    rw [optional] at hc
    split at hc
    · cases hc
    rcases List.mem_cons.mp hc with rfl | hc
    · rfl
    · exact decide_eq_true fun heq => hplus (heq ▸ hc)
  rw [List.takeWhile_append_of_pos hbefore, List.dropWhile_append_of_pos hbefore]
  by_cases hempty : second = ""
  · simp [optional, hempty]
  · simp [optional, hempty]

theorem ofList_tail_optional (sign : Char) (part : String) :
    String.ofList (optional sign part).tail = part := by
  rw [optional]
  split
  · next hempty =>
    rw [hempty]
    rfl
  · rw [List.tail_cons, String.ofList_toList]

/-- A text has one reading. -/
theorem readVersion_text {version : Version} (hplus : '+' ∉ version.prerelease.toList) :
    readVersion (versionText version) = version := by
  have hparts : ∀ c ∈ (optional '-' version.prerelease ++ optional '+' version.metadata).head?,
      c.isDigit = false := by
    intro c hc
    unfold optional at hc
    split at hc <;> split at hc <;> cases hc <;> rfl
  have hnumber : ∀ (n : UInt64) (rest : List Char),
      leadingNumber ((toString n).toList ++ '.' :: rest) = n ∧
        ((toString n).toList ++ '.' :: rest).dropWhile Char.isDigit = '.' :: rest := by
    refine fun n rest => leadingNumber_toString n fun c hc => ?_
    cases hc
    rfl
  have hchars : (versionText version).toList = (toString version.major).toList ++ '.' ::
      ((toString version.minor).toList ++ '.' :: ((toString version.patch).toList ++
        (optional '-' version.prerelease ++ optional '+' version.metadata))) := by
    simp [versionText]
  obtain ⟨hpatch, hafterPatch⟩ := leadingNumber_toString version.patch hparts
  obtain ⟨hfirst, hsecond⟩ := optional_append version.metadata hplus
  simp only [readVersion, hchars, hnumber, List.tail_cons, hpatch, hafterPatch, hfirst, hsecond,
    ofList_tail_optional]

/-! ## Valid pre-releases -/

theorem validPrerelease_append (left right : String) :
    validPrerelease (left ++ "." ++ right) = (validPrerelease left && validPrerelease right) := by
  rw [validPrerelease, split_append_of_sep rfl, all_append]
  rfl

/-- A single identifier that is not empty. -/
theorem validPrerelease_identifier (hne : text ≠ "")
    (hallowed : onlyAllowed text = true) : validPrerelease text = !zeroPaddedNumber text := by
  have hdot : '.' ∉ text.toList := fun hmem =>
    absurd (all_eq_true.mp hallowed '.' hmem) (by decide)
  simp [validPrerelease, split_of_not_mem hdot, validIdentifier, hne, hallowed]

theorem plus_not_mem_of_onlyAllowed (h : onlyAllowed text = true) : '+' ∉ text.toList :=
  fun hmem => absurd (all_eq_true.mp h '+' hmem) (by decide)

theorem plus_not_mem_of_validPrerelease (h : validPrerelease text = true) : '+' ∉ text.toList := by
  intro hmem
  rcases eq_or_mem_split (c := '.') hmem with heq | ⟨part, hpart, hin⟩
  · exact absurd heq (by decide)
  · have hvalid := all_eq_true.mp h part hpart
    simp only [validIdentifier, Bool.and_eq_true] at hvalid
    exact plus_not_mem_of_onlyAllowed hvalid.1.2 hin

theorem WellFormed.plus_not_mem {version : Version} (h : WellFormed version) :
    '+' ∉ version.prerelease.toList := by
  rcases h.prerelease with hempty | hvalid
  · simp [hempty]
  · exact plus_not_mem_of_validPrerelease hvalid

variable {parse : String → Except String Version}

/-- Three numbers and a pre-release without a plus sign parse exactly if the pre-release is
valid. -/
theorem StrictParser.rendered (hparse : StrictParser parse) (major minor patch : UInt64)
    {prerelease : String} (hne : prerelease ≠ "") (hplus : '+' ∉ prerelease.toList)
    (result : Version) :
    parse (toString major ++ "." ++ toString minor ++ "." ++ toString patch ++ "-" ++ prerelease) =
        .ok result ↔
      validPrerelease prerelease = true ∧
        result = { major, minor, patch, prerelease, metadata := "" } := by
  have htext :
      toString major ++ "." ++ toString minor ++ "." ++ toString patch ++ "-" ++ prerelease =
      versionText { major, minor, patch, prerelease, metadata := "" } := by
    apply String.toList_injective
    simp [versionText, optional, hne]
  rw [htext, hparse]
  constructor
  · rintro ⟨hsame, hwell⟩
    have hresult := readVersion_text hwell.plus_not_mem
    rw [← hsame, readVersion_text hplus] at hresult
    subst hresult
    exact ⟨hwell.prerelease.resolve_left hne, rfl⟩
  · rintro ⟨hvalid, rfl⟩
    exact ⟨rfl, .inr hvalid, .inl rfl⟩

theorem onlyAllowed_hexEncode (bytes : List UInt8) : onlyAllowed (hexEncode bytes) = true := by
  have hall : ∀ d : Fin 16, (Nat.digitChar d).isAlphanum = true := by decide
  rw [onlyAllowed, hexEncode, String.toList_ofList, all_eq_true]
  intro c hc
  obtain ⟨byte, -, hin⟩ := mem_flatMap.mp hc
  have hbyte := byte.toNat_lt
  rcases mem_pair.mp hin with rfl | rfl
  · simp [hall ⟨byte.toNat / 16, by omega⟩]
  · simp [hall ⟨byte.toNat % 16, by omega⟩]

theorem hexEncode_ne_empty {bytes : List UInt8} (h : bytes ≠ []) : hexEncode bytes ≠ "" := by
  obtain ⟨byte, rest, rfl⟩ := exists_cons_of_ne_nil h
  intro hempty
  have hchars := congrArg String.toList hempty
  simp [hexEncode] at hchars

theorem onlyAllowed_dashed {metadata : String} (h : validMetadata metadata = true) :
    onlyAllowed (dashed metadata) = true := by
  rw [onlyAllowed, dashed, String.toList_ofList, all_map, all_eq_true]
  intro c hc
  rcases eq_or_mem_split (c := '.') hc with rfl | ⟨part, hpart, hin⟩
  · rfl
  have hvalid := all_eq_true.mp h part hpart
  simp only [Bool.and_eq_true] at hvalid
  have hallowed := all_eq_true.mp hvalid.2 c hin
  by_cases hdot : c = '.'
  · simp [hdot]
  · simpa [hdot] using hallowed

/-- Dots and dashes are not digits. -/
theorem zeroPaddedNumber_dashed (text : String) :
    zeroPaddedNumber (dashed text) = zeroPaddedNumber text := by
  by_cases hdot : '.' ∈ text.toList
  · have hleft : onlyDigits (dashed text) = false := by
      rw [onlyDigits, dashed, String.toList_ofList, all_map]
      exact all_eq_false.mpr ⟨'.', hdot, by decide⟩
    have hright : onlyDigits text = false := all_eq_false.mpr ⟨'.', hdot, by decide⟩
    simp only [zeroPaddedNumber, hleft, hright, Bool.false_and]
  have hsame : dashed text = text := by
    have hmap : ∀ c ∈ text.toList, (if c = '.' then '-' else c) = id c := by
      intro c hc
      exact if_neg fun heq : c = '.' => hdot (heq ▸ hc)
    rw [dashed, map_congr_left hmap, map_id, String.ofList_toList]
  rw [hsame]

theorem dashed_ne_empty (h : text ≠ "") : dashed text ≠ "" := by
  intro hempty
  have hchars := congrArg String.toList hempty
  simp [dashed, h] at hchars

/-! ## The version of a normalized chart -/

section

variable {version : Version} {digest : Vector UInt8 32}

theorem take_ne_nil : digest.toList.take 8 ≠ [] := by
  rw [Ne, take_eq_nil_iff, ← length_eq_zero_iff, Vector.length_toList]
  decide

theorem plus_not_mem_normalizedPrerelease (h : WellFormed version) :
    '+' ∉ (normalizedPrerelease version digest.toList).toList := by
  have hpre := h.plus_not_mem
  have hhex := plus_not_mem_of_onlyAllowed (onlyAllowed_hexEncode (digest.toList.take 8))
  have hbase : '+' ∉ ((if version.prerelease = "" then "" else version.prerelease ++ ".") ++
      "atum." ++ hexEncode (digest.toList.take 8)).toList := by
    split <;> simp [hpre, hhex]
  rw [normalizedPrerelease]
  by_cases hne : version.metadata = ""
  · simpa only [if_pos hne] using hbase
  have hmeta := plus_not_mem_of_onlyAllowed (onlyAllowed_dashed (h.metadata.resolve_left hne))
  simp only [if_neg hne]
  rw [String.toList_append, String.toList_append, mem_append, mem_append]
  exact fun hmem => hmem.elim (fun hmem => hmem.elim hbase (by decide)) hmeta

theorem validPrerelease_normalized (h : WellFormed version) :
    validPrerelease (normalizedPrerelease version digest.toList) =
      (!zeroPaddedNumber (hexEncode (digest.toList.take 8)) &&
        !zeroPaddedNumber version.metadata) := by
  have hhex := validPrerelease_identifier (hexEncode_ne_empty take_ne_nil)
    (onlyAllowed_hexEncode (digest.toList.take 8))
  have hatum : "atum." = "atum" ++ "." := rfl
  have hmeta : ".meta." = "." ++ "meta" ++ "." := rfl
  have hwords : validPrerelease "atum" = true ∧ validPrerelease "meta" = true := by decide
  have hbase : validPrerelease
      ((if version.prerelease = "" then "" else version.prerelease ++ ".") ++
      "atum." ++ hexEncode (digest.toList.take 8)) =
        !zeroPaddedNumber (hexEncode (digest.toList.take 8)) := by
    split
    · rw [String.empty_append, hatum, validPrerelease_append, hwords.1, hhex, Bool.true_and]
    · next hne =>
      rw [hatum, String.append_assoc, validPrerelease_append, validPrerelease_append,
        h.prerelease.resolve_left hne, hwords.1, hhex, Bool.true_and, Bool.true_and]
  rw [normalizedPrerelease]
  split
  · next hempty => rw [hbase, hempty, show zeroPaddedNumber "" = false from rfl, Bool.not_false,
      Bool.and_true]
  next hne =>
  have hdashed := validPrerelease_identifier (dashed_ne_empty hne)
    (onlyAllowed_dashed (h.metadata.resolve_left hne))
  rw [zeroPaddedNumber_dashed] at hdashed
  rw [hmeta, ← String.append_assoc, ← String.append_assoc, validPrerelease_append,
    validPrerelease_append, hbase, hwords.2, hdashed, Bool.and_true]

theorem normalizedPrerelease_ne_empty : normalizedPrerelease version digest.toList ≠ "" := by
  have hmem : 'u' ∈ (normalizedPrerelease version digest.toList).toList := by
    unfold normalizedPrerelease
    split <;> split <;> simp
  intro hempty
  simp [hempty] at hmem

end

/-- The version of a normalized chart is a semantic version with the numbers of the
upstream version exactly if neither the first eight bytes of the digest nor the build
metadata are a number with a zero in front. -/
theorem normalizedChartVersion_valid_iff {ν : Type}
    {strictNewVersion : String → Except String Version} (hstrict : StrictParser strictNewVersion)
    {identity : String → List ν → Except String (Vector UInt8 32)}
    {upstreamVersion upstreamSHA256 : String} {normalizations : List ν} {version : Version}
    {digest : Vector UInt8 32} (hversion : strictNewVersion upstreamVersion = .ok version)
    (hsha : exactDigest upstreamSHA256 = true) (hne : normalizations ≠ [])
    (hdigest : identity upstreamSHA256 normalizations = .ok digest) :
    (∃ text result, normalizedChartVersion strictNewVersion identity upstreamVersion upstreamSHA256
          normalizations = .ok text ∧ strictNewVersion text = .ok result ∧
        result.major = version.major ∧ result.minor = version.minor ∧
        result.patch = version.patch) ↔
      zeroPaddedNumber (hexEncode (digest.toList.take 8)) = false ∧
        zeroPaddedNumber version.metadata = false := by
  have hwell := ((hstrict _ _).mp hversion).2
  have htext : normalizedChartVersion strictNewVersion identity upstreamVersion upstreamSHA256
      normalizations = .ok (toString version.major ++ "." ++ toString version.minor ++ "." ++
        toString version.patch ++ "-" ++ normalizedPrerelease version digest.toList) := by
    simp [normalizedChartVersion, hversion, hsha, hne, hdigest, Except.mapError, bind, Except.bind,
      pure, Except.pure]
  have hread := hstrict.rendered version.major version.minor version.patch
    (@normalizedPrerelease_ne_empty version digest) (plus_not_mem_normalizedPrerelease hwell)
  rw [validPrerelease_normalized hwell, Bool.and_eq_true, Bool.not_eq_true',
    Bool.not_eq_true'] at hread
  constructor
  · rintro ⟨text, result, hok, hresult, -⟩
    obtain rfl := Except.ok.inj (htext.symm.trans hok)
    exact ((hread result).mp hresult).1
  · intro hvalid
    exact ⟨_, _, htext, (hread _).mpr ⟨hvalid, rfl⟩, rfl, rfl, rfl⟩

/-! ## Three charts -/

/-- A parser of the strict grammar. -/
def strictVersion (text : String) : Except String Version :=
  if text = versionText (readVersion text) ∧ WellFormed (readVersion text) then
    .ok (readVersion text)
  else .error "Invalid Semantic Version"

theorem strictVersion_strict : StrictParser strictVersion := by
  intro text version
  rw [strictVersion]
  constructor
  · intro h
    split at h
    · next hread =>
      cases h
      exact hread
    · cases h
  · rintro ⟨rfl, hwell⟩
    rw [readVersion_text hwell.plus_not_mem, if_pos ⟨rfl, hwell⟩]

/-- A digest that starts with a byte. -/
def digestFrom (first : UInt8) : Vector UInt8 32 := (Vector.replicate 32 17).set 0 first

/-- The text of a SHA-256. -/
def sampleSHA256 : String := String.ofList (List.replicate 64 'a')

/-- The version of a chart with one normalization. -/
def normalizedFrom (first : UInt8) (upstreamVersion : String) : Except String String :=
  normalizedChartVersion strictVersion (fun _ (_ : List Unit) => .ok (digestFrom first))
    upstreamVersion sampleSHA256 [()]

theorem normalizedChartVersion_valid_plain :
    ∃ text result, normalizedFrom 0x1f "1.2.3-rc.1+build.5" = .ok text ∧
      strictVersion text = .ok result ∧ result.major = 1 ∧ result.minor = 2 ∧
        result.patch = 3 := by
  have hversion : strictVersion "1.2.3-rc.1+build.5" =
      .ok ⟨1, 2, 3, "rc.1", "build.5"⟩ := by decide +kernel
  have hsha : exactDigest sampleSHA256 = true := by decide +kernel
  exact (normalizedChartVersion_valid_iff strictVersion_strict hversion hsha
    (cons_ne_nil () []) rfl).mpr
    (by decide +kernel)

/-- A digest of decimal digits with a zero in front, and build metadata of that kind: the
pre-release of the result is not valid. -/
theorem normalizedChartVersion_invalid :
    normalizedFrom 0x01 "1.2.3" = .ok "1.2.3-atum.0111111111111111" ∧
      strictVersion "1.2.3-atum.0111111111111111" = .error "Invalid Semantic Version" ∧
    normalizedFrom 0x1f "1.2.3+001" = .ok "1.2.3-atum.1f11111111111111.meta.001" ∧
      strictVersion "1.2.3-atum.1f11111111111111.meta.001" =
        .error "Invalid Semantic Version" := by
  decide +kernel

end Atum.Charts
