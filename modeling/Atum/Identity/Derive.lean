import Atum.Identity.Contract
import Atum.Secretvalue.Documents
import Atum.Library.Framing

/-!
# The derivation of credentials

`Derive` computes the credentials of a cluster from one seed.  Every credential comes
from the key derivation function with an info text of its own, which joins a purpose,
the cluster, the domain and a client with NUL.  The main result says that no two
credentials have the same info text, in one run or in two, that each is stored under a key
of its own, and that none overwrites another entry of the projection.

`Crypto` stands for the packages `crypto` and `encoding`.
-/

namespace Atum.Identity

open Atum.Go List
open Atum.Secretvalue (Bytes bytes)

/-! ## The model -/

/-- The functions of the Go library that are not modelled further. -/
structure Crypto where
  /-- `base64.RawStdEncoding`. -/
  decodeSeed : Bytes → Option Bytes
  /-- `hkdf.Key` with SHA-256, without salt, for 32 bytes. -/
  hkdf : Bytes → String → Except String Bytes
  sha256 : Bytes → Bytes
  /-- `base64.RawURLEncoding`. -/
  encodeRawURL : Bytes → Bytes

def bootstrapPurpose : String := "atum.dev/identity/bootstrap/v1"
def adminPurpose : String := "atum.dev/identity/administrator/v1"
def clientPurpose : String := "atum.dev/identity/client/v1"

/-- What a credential is derived for. -/
structure Info where
  purpose : String
  cluster : String
  domain : String
  client : String
  deriving DecidableEq, Repr

/-- The text for the key derivation function. -/
def Info.text (info : Info) : String :=
  info.purpose ++ "\x00" ++ info.cluster ++ "\x00" ++ info.domain ++ "\x00" ++ info.client

/-- One character of a key. -/
def keyChar (c : Char) : Char := (if c = '-' then '_' else c).toUpper

/-- `clientSecretKey`, for the ASCII text of an identifier. -/
def clientSecretKey (id : String) : String :=
  String.ofList (id.toList.map keyChar) ++ "_CLIENT_SECRET"

/-- What the secret of a client is derived for. -/
def clientInfo (cluster domain : String) (client : Client) : Info where
  purpose := clientPurpose ++ "/" ++ client.secretPurpose
  cluster := cluster
  domain := domain
  client := client.id

/-- `BootstrapProjection`, with the entries of its map in the order of their keys. -/
structure BootstrapProjection where
  values : List (String × Bytes)
  digest : Bytes

section Derive

variable (crypto : Crypto) (parseURL : String → Option URL)

/-- `derive`. -/
def derive (seed : Bytes) (info : Info) : Except String Bytes :=
  match crypto.hkdf seed info.text with
  | .error cause => throw ("derive identity projection: " ++ cause)
  | .ok output => pure output

/-- One round of the loop over the clients. -/
def clientCredential (seed : Bytes) (cluster domain : String) (values : List (String × Bytes))
    (client : Client) : Except String (List (String × Bytes)) :=
  if client.isConfidential then do
    let secret ← derive crypto seed (clientInfo cluster domain client)
    return SortedAssoc.insert (clientSecretKey client.id) (crypto.encodeRawURL secret) values
  else return values

/-- What the digest is made from. -/
def digestStream (canonical : Bytes) (values : List (String × Bytes)) : Bytes :=
  canonical ++ values.flatMap fun entry => 0 :: bytes entry.1 ++ crypto.sha256 entry.2

/-- `hex.Encode`. -/
def hexEncode (value : Bytes) : Bytes :=
  value.flatMap fun b =>
    Utf8.encode [Nat.digitChar (b.toNat / 16), Nat.digitChar (b.toNat % 16)]

/-- The seed of `Derive`. -/
def decodedSeed (encodedSeed : Bytes) : Except String Bytes :=
  match (crypto.decodeSeed encodedSeed).filter fun seed => seed.length = 32 with
  | some seed => pure seed
  | none => throw "identity seed must be 32 raw-base64 encoded bytes"

/-- `Derive`. -/
def deriveProjection (contract : Contract) (encodedSeed : Bytes) (cluster domain : String) :
    Except String BootstrapProjection := do
  let seed ← decodedSeed crypto encodedSeed
  if cluster = "" ∨ domain = "" ∨ domain ≠ contract.domain parseURL then
    throw "identity cluster and contract domain are required and must agree"
  let values := SortedAssoc.insert "ATUM_IDENTITY_SCHEMA_VERSION" (bytes contract.schemaVersion) []
  let values := SortedAssoc.insert "ATUM_IDENTITY_CLUSTER" (bytes cluster) values
  let values := SortedAssoc.insert "ATUM_IDENTITY_DOMAIN" (bytes domain) values
  let values := SortedAssoc.insert "ATUM_IDENTITY_ISSUER" (bytes contract.issuer) values
  let admin := contract.administrator
  let values := SortedAssoc.insert "ATUM_IDENTITY_ADMIN_USERNAME" (bytes admin.username) values
  let values := SortedAssoc.insert "ATUM_IDENTITY_ADMIN_GROUP" (bytes admin.group) values
  let adminPassword ← derive crypto seed
    { purpose := adminPurpose, cluster, domain, client := admin.username }
  let values := SortedAssoc.insert "ATUM_IDENTITY_ADMIN_PASSWORD"
    (crypto.encodeRawURL adminPassword) values
  let bootstrap ← derive crypto seed
    { purpose := bootstrapPurpose, cluster, domain, client := "atum-bootstrap" }
  let values := SortedAssoc.insert "ATUM_IDENTITY_BOOTSTRAP_PASSWORD"
    (crypto.encodeRawURL bootstrap) values
  let values ← contract.clients.foldlM (clientCredential crypto seed cluster domain) values
  let digest := hexEncode (crypto.sha256 (digestStream crypto contract.canonical values))
  return { values := SortedAssoc.insert "ATUM_IDENTITY_DIGEST" digest values, digest }

end Derive

/-! ## The infos and the keys of a run -/

section Infos

variable (parseURL : String → Option URL)

/-- The infos of a run, in the order of their use. -/
def Contract.infos (contract : Contract) (cluster : String) : List Info :=
  let domain := contract.domain parseURL
  { purpose := adminPurpose, cluster, domain, client := contract.administrator.username } ::
  { purpose := bootstrapPurpose, cluster, domain, client := "atum-bootstrap" } ::
  contract.confidentialClients.map (clientInfo cluster domain)

/-- The keys of the credentials, in the same order. -/
def Contract.credentialKeys (contract : Contract) : List String :=
  "ATUM_IDENTITY_ADMIN_PASSWORD" :: "ATUM_IDENTITY_BOOTSTRAP_PASSWORD" ::
    contract.confidentialClients.map fun client => clientSecretKey client.id

/-- The credentials: their keys, each with its info. -/
def Contract.credentials (contract : Contract) (cluster : String) : List (String × Info) :=
  contract.credentialKeys.zip (contract.infos parseURL cluster)

/-- The keys of the other entries. -/
def plainKeys : List String :=
  ["ATUM_IDENTITY_SCHEMA_VERSION", "ATUM_IDENTITY_CLUSTER", "ATUM_IDENTITY_DOMAIN",
    "ATUM_IDENTITY_ISSUER", "ATUM_IDENTITY_ADMIN_USERNAME", "ATUM_IDENTITY_ADMIN_GROUP",
    "ATUM_IDENTITY_DIGEST"]

end Infos

/-! ## Info texts -/

/-- The parts before the last NUL have none. -/
structure Info.Plain (info : Info) : Prop where
  purpose : '\x00' ∉ info.purpose.toList
  cluster : '\x00' ∉ info.cluster.toList
  domain : '\x00' ∉ info.domain.toList

theorem Info.text_toList (info : Info) :
    info.text.toList = info.purpose.toList ++ '\x00' :: (info.cluster.toList ++
      '\x00' :: (info.domain.toList ++ '\x00' :: info.client.toList)) := by
  simp [Info.text]

/-- A text has one reading. -/
theorem Info.text_injective {info info' : Info} (hplain : info.Plain) (hplain' : info'.Plain)
    (h : info.text = info'.text) : info = info' := by
  have hchars := congrArg String.toList h
  rw [info.text_toList, info'.text_toList] at hchars
  obtain ⟨hpurpose, hchars⟩ := Framing.append_cons_inj hplain.purpose hplain'.purpose hchars
  obtain ⟨hclus, hchars⟩ := Framing.append_cons_inj hplain.cluster hplain'.cluster hchars
  obtain ⟨hdomain, hclient⟩ := Framing.append_cons_inj hplain.domain hplain'.domain hchars
  cases info
  cases info'
  simp only [String.toList_inj] at hpurpose hclus hdomain hclient
  subst hpurpose hclus hdomain hclient
  rfl

/-- An identifier has no NUL. -/
theorem isNameChar_of_identifier {s : String} (h : identifierPattern s = true) {c : Char}
    (hc : c ∈ s.toList) : isNameChar c = true := by
  rw [identifierPattern] at h
  cases hchars : s.toList with
  | nil => simp [hchars] at hc
  | cons first rest =>
    rw [hchars] at h hc
    rw [Bool.and_eq_true, all_eq_true] at h
    rcases mem_cons.mp hc with rfl | hc
    · simp [isNameChar, h.1]
    · exact h.2 c hc

section Accepted

variable {parseURL : String → Option URL} {contract : Contract}

theorem Contract.Accepted.plain_infos (h : contract.Accepted parseURL) {cluster : String}
    (hclus : '\x00' ∉ cluster.toList) {info : Info}
    (hinfo : info ∈ contract.infos parseURL cluster) : info.Plain := by
  have hdomain : '\x00' ∉ (contract.domain parseURL).toList := by
    intro hmem
    have hchar := h.domain '\x00' hmem
    revert hchar
    decide
  rcases mem_cons.mp hinfo with rfl | hinfo
  · exact ⟨(by decide : '\x00' ∉ adminPurpose.toList), hclus, hdomain⟩
  rcases mem_cons.mp hinfo with rfl | hinfo
  · exact ⟨(by decide : '\x00' ∉ bootstrapPurpose.toList), hclus, hdomain⟩
  obtain ⟨client, hclient, rfl⟩ := mem_map.mp hinfo
  refine ⟨?_, hclus, hdomain⟩
  have hpurpose : '\x00' ∉ client.secretPurpose.toList := by
    intro hmem
    have hchar := isNameChar_of_identifier (h.purposeIdentifiers client hclient) hmem
    revert hchar
    decide
  have hfixed : '\x00' ∉ (clientPurpose ++ "/").toList := by decide
  rw [clientInfo, String.toList_append, mem_append, not_or]
  exact ⟨hfixed, hpurpose⟩

/-- A purpose of a client is not one of the two fixed ones. -/
theorem clientPurpose_ne (purpose : String) : clientPurpose ++ "/" ++ purpose ≠ adminPurpose ∧
      clientPurpose ++ "/" ++ purpose ≠ bootstrapPurpose := by
  have hstarts : ∀ s, clientPurpose ++ "/" ++ purpose = s →
      hasPrefix s (clientPurpose ++ "/") = true := by
    intro s hs
    rw [hasPrefix, isPrefixOf_iff_prefix, ← hs]
    exact ⟨purpose.toList, String.toList_append.symm⟩
  constructor
  · intro heq
    have hnot := hstarts _ heq
    revert hnot
    decide +kernel
  intro heq
  have hnot := hstarts _ heq
  revert hnot
  decide +kernel

/-- No two credentials of a run have the same purpose. -/
theorem Contract.Accepted.nodup_purposes (h : contract.Accepted parseURL) (cluster : String) :
    ((contract.infos parseURL cluster).map Info.purpose).Nodup := by
  have hclients : (contract.confidentialClients.map fun client =>
      clientPurpose ++ "/" ++ client.secretPurpose).Nodup := by
    have hinj : Function.Injective (clientPurpose ++ "/" ++ ·) := by
      intro purpose purpose' heq
      have hchars := congrArg String.toList heq
      simp only [String.toList_append, append_cancel_left_eq] at hchars
      exact String.toList_injective hchars
    have hmap := h.purposes.map hinj
    rwa [map_map] at hmap
  have hnot : ∀ fixed, fixed = adminPurpose ∨ fixed = bootstrapPurpose →
      fixed ∉ contract.confidentialClients.map fun client =>
        clientPurpose ++ "/" ++ client.secretPurpose := by
    intro fixed hfixed hmem
    obtain ⟨client, -, heq⟩ := mem_map.mp hmem
    obtain ⟨hadmin, hbootstrap⟩ := clientPurpose_ne client.secretPurpose
    rcases hfixed with rfl | rfl
    · exact hadmin heq
    · exact hbootstrap heq
  have hfixed : adminPurpose ≠ bootstrapPurpose := by decide
  simp only [Contract.infos, map_cons, map_map, nodup_cons, mem_cons, not_or]
  exact ⟨⟨hfixed, hnot _ (.inl rfl)⟩, hnot _ (.inr rfl), hclients⟩

/-! ## Keys -/

/-- The characters of identifiers. -/
def nameChars : List Char := "abcdefghijklmnopqrstuvwxyz0123456789-".toList

variable {c : Char}

theorem mem_nameChars (h : isNameChar c = true) : c ∈ nameChars := by
  have hall : ∀ n : Fin 128, isNameChar (Char.ofNat n) = true → Char.ofNat n ∈ nameChars := by
    decide +kernel
  have hsmall : c.toNat < 128 := by
    have hletter : ∀ d : Char, c ≤ d → c.toNat ≤ d.toNat := fun d hle => hle
    simp only [isNameChar, isLower, isDigit, Bool.or_eq_true, Bool.and_eq_true,
      decide_eq_true_eq] at h
    rcases h with (h | h) | h
    · exact Nat.lt_of_le_of_lt (hletter 'z' h.2) (by decide)
    · exact Nat.lt_of_le_of_lt (hletter '9' h.2) (by decide)
    · rw [h]
      decide
  have hc := hall ⟨c.toNat, hsmall⟩
  rw [Char.ofNat_toNat] at hc
  exact hc h

theorem keyChar_injOn {d : Char} (hc : isNameChar c = true) (hd : isNameChar d = true)
    (h : keyChar c = keyChar d) : c = d := by
  have hall : (nameChars.map keyChar).Nodup := by decide +kernel
  exact inj_on_of_nodup_map hall (mem_nameChars hc) (mem_nameChars hd) h

theorem map_keyChar_injOn {chars chars' : List Char} (hchars : ∀ c ∈ chars, isNameChar c = true)
    (hchars' : ∀ c ∈ chars', isNameChar c = true) (h : chars.map keyChar = chars'.map keyChar) :
    chars = chars' := by
  induction chars generalizing chars' with
  | nil => exact (map_eq_nil_iff.mp h.symm).symm
  | cons c rest ih =>
    cases chars' with
    | nil => cases h
    | cons d rest' =>
      obtain ⟨hhead, htail⟩ := List.cons.inj h
      obtain ⟨hc, hrest⟩ := forall_mem_cons.mp hchars
      obtain ⟨hd, hrest'⟩ := forall_mem_cons.mp hchars'
      rw [keyChar_injOn hc hd hhead, ih hrest hrest' htail]

/-- Different identifiers have different keys. -/
theorem clientSecretKey_injOn {id id' : String} (hid : identifierPattern id = true)
    (hid' : identifierPattern id' = true) (h : clientSecretKey id = clientSecretKey id') :
    id = id' := by
  have hchars := congrArg String.toList h
  simp only [clientSecretKey, String.toList_append, append_cancel_right_eq,
    String.toList_ofList] at hchars
  apply String.toList_injective
  exact map_keyChar_injOn (fun _ => isNameChar_of_identifier hid)
    (fun _ => isNameChar_of_identifier hid') hchars

/-- The keys that do not belong to clients. -/
def fixedKeys : List String :=
  plainKeys ++ ["ATUM_IDENTITY_ADMIN_PASSWORD", "ATUM_IDENTITY_BOOTSTRAP_PASSWORD"]

/-- No two entries have the same key. -/
theorem Contract.Accepted.nodup_keys (h : contract.Accepted parseURL) :
    (plainKeys ++ contract.credentialKeys).Nodup := by
  have hclients : (contract.confidentialClients.map fun client =>
      clientSecretKey client.id).Nodup := by
    have hids : (contract.confidentialClients.map Client.id).Nodup :=
      h.ids.sublist (filter_sublist.map _)
    have hidentifiers : ∀ id ∈ contract.confidentialClients.map Client.id,
        identifierPattern id = true := by
      intro id hid
      obtain ⟨client, hclient, rfl⟩ := mem_map.mp hid
      exact h.identifiers client (mem_filter.mp hclient).1
    have hmap := hids.map_on fun id hid id' hid' =>
      clientSecretKey_injOn (hidentifiers id hid) (hidentifiers id' hid')
    rwa [map_map] at hmap
  have hdisjoint : ∀ key ∈ fixedKeys,
      key ∉ contract.confidentialClients.map fun client => clientSecretKey client.id := by
    have hsuf : ∀ key ∈ fixedKeys, hasSuffix key "_CLIENT_SECRET" = false := by decide +kernel
    intro key hkey hmem
    obtain ⟨client, -, rfl⟩ := mem_map.mp hmem
    have hnot := hsuf _ hkey
    rw [hasSuffix, clientSecretKey, String.toList_append, Bool.eq_false_iff] at hnot
    exact hnot (isSuffixOf_iff_suffix.mpr (suffix_append _ _))
  have hfixed : fixedKeys.Nodup := by decide +kernel
  have hall : plainKeys ++ contract.credentialKeys =
      fixedKeys ++ contract.confidentialClients.map fun client => clientSecretKey client.id := rfl
  rw [hall]
  exact List.Nodup.append hfixed hclients fun key hkey hmem => hdisjoint key hkey hmem

end Accepted

/-! ## What a run writes -/

/-- The pairs are the credentials, each derived from the text of its info. -/
structure Stores (crypto : Crypto) (seed : Bytes) (credentials : List (String × Info))
    (pairs : List (String × Bytes)) : Prop where
  keys : pairs.map Prod.fst = credentials.map Prod.fst
  derived : ∀ credential ∈ credentials, ∃ output, crypto.hkdf seed credential.2.text = .ok output ∧
    (credential.1, crypto.encodeRawURL output) ∈ pairs

section Run

variable {crypto : Crypto} {parseURL : String → Option URL} {seed : Bytes}

theorem Stores.cons {credentials : List (String × Info)} {pairs : List (String × Bytes)}
    {info : Info}
    {output : Bytes} (h : Stores crypto seed credentials pairs) (key : String)
    (hderive : derive crypto seed info = .ok output) :
    Stores crypto seed ((key, info) :: credentials)
      ((key, crypto.encodeRawURL output) :: pairs) := by
  have houtput : crypto.hkdf seed info.text = .ok output := by
    rw [derive] at hderive
    split at hderive
    · cases hderive
    · next found hfound =>
      cases hderive
      exact hfound
  refine ⟨by rw [map_cons, map_cons, h.keys], forall_mem_cons.mpr
    ⟨⟨output, houtput, mem_cons_self⟩, fun credential hcredential => ?_⟩⟩
  obtain ⟨output, houtput, hmem⟩ := h.derived credential hcredential
  exact ⟨output, houtput, mem_cons_of_mem _ hmem⟩

variable {cluster domain : String}

/-- The loop over the clients stores a credential for each confidential one. -/
theorem foldlM_clientCredential {clients : List Client} {values values' : List (String × Bytes)}
    (h : clients.foldlM (clientCredential crypto seed cluster domain) values = .ok values') :
    ∃ pairs, Stores crypto seed ((clients.filter Client.isConfidential).map fun client =>
        (clientSecretKey client.id, clientInfo cluster domain client)) pairs ∧
      values' = pairs.foldl (fun entries pair => SortedAssoc.insert pair.1 pair.2 entries)
        values := by
  induction clients generalizing values with
  | nil =>
    cases h
    exact ⟨[], ⟨rfl, by simp⟩, rfl⟩
  | cons client rest ih =>
    rw [foldlM_cons, bind_eq_ok] at h
    obtain ⟨next, hnext, h⟩ := h
    obtain ⟨pairs, hpairs, rfl⟩ := ih h
    rw [clientCredential] at hnext
    by_cases hconfidential : client.isConfidential = true
    · rw [if_pos hconfidential] at hnext
      obtain ⟨secret, hsecret, hnext⟩ := bind_eq_ok.mp hnext
      cases hnext
      rw [filter_cons_of_pos hconfidential]
      exact ⟨_ :: pairs, hpairs.cons _ hsecret, rfl⟩
    · rw [if_neg hconfidential] at hnext
      cases hnext
      rw [filter_cons_of_neg hconfidential]
      exact ⟨pairs, hpairs, rfl⟩

/-- What a run stores, in its order: six entries, the credentials, and the digest. -/
theorem deriveProjection_ok {contract : Contract} {encodedSeed : Bytes}
    {projection : BootstrapProjection}
    (h : deriveProjection crypto parseURL contract encodedSeed cluster domain = .ok projection) :
    ∃ (seed : Bytes) (before pairs : List (String × Bytes)), crypto.decodeSeed encodedSeed =
      some seed ∧
      before.map Prod.fst = plainKeys.dropLast ∧
      Stores crypto seed (contract.credentials parseURL cluster) pairs ∧
      projection.values = (before ++ pairs ++
        [("ATUM_IDENTITY_DIGEST", projection.digest)]).foldl
        (fun entries pair => SortedAssoc.insert pair.1 pair.2 entries) [] := by
  obtain ⟨seed, hseed, h⟩ := bind_eq_ok.mp h
  obtain ⟨hdomain, h⟩ := ite_throw_bind_eq_ok.mp h
  obtain ⟨adminPassword, hadmin, h⟩ := bind_eq_ok.mp h
  obtain ⟨bootstrap, hbootstrap, h⟩ := bind_eq_ok.mp h
  obtain ⟨values, hclients, h⟩ := bind_eq_ok.mp h
  obtain ⟨pairs, hpairs, rfl⟩ := foldlM_clientCredential hclients
  cases h
  have hfound : crypto.decodeSeed encodedSeed = some seed := by
    rw [decodedSeed] at hseed
    split at hseed
    · next found hfound =>
      cases hseed
      exact (Option.filter_eq_some_iff.mp hfound).1
    · cases hseed
  obtain rfl : domain = contract.domain parseURL := by
    by_contra hne
    exact hdomain (.inr (.inr hne))
  refine ⟨seed, [("ATUM_IDENTITY_SCHEMA_VERSION", bytes contract.schemaVersion),
    ("ATUM_IDENTITY_CLUSTER", bytes cluster),
    ("ATUM_IDENTITY_DOMAIN", bytes (contract.domain parseURL)),
    ("ATUM_IDENTITY_ISSUER", bytes contract.issuer),
    ("ATUM_IDENTITY_ADMIN_USERNAME", bytes contract.administrator.username),
    ("ATUM_IDENTITY_ADMIN_GROUP", bytes contract.administrator.group)],
    ("ATUM_IDENTITY_ADMIN_PASSWORD", crypto.encodeRawURL adminPassword) ::
      ("ATUM_IDENTITY_BOOTSTRAP_PASSWORD", crypto.encodeRawURL bootstrap) :: pairs,
        hfound, rfl, ?_, ?_⟩
  · rw [Contract.credentials, Contract.credentialKeys, Contract.infos, zip_cons_cons, zip_cons_cons,
      zip_map']
    exact (hpairs.cons _ hbootstrap).cons _ hadmin
  · simp only [foldl_append, foldl_cons, foldl_nil]

end Run

/-! ## The credentials are separated -/

/-- The infos of a contract have different texts, and texts of any two contracts and
clusters are equal only for equal infos.  A run derives every credential from the text of
its info and stores it under its key, and the projection has these keys, seven further ones,
and no other. -/
theorem derivedCredentials_separated (crypto : Crypto) (parseURL : String → Option URL)
    (contract : Contract) (hcontract : contract.validate parseURL = .ok ()) (cluster : String)
    (hcluster : '\x00' ∉ cluster.toList) : ((contract.infos parseURL cluster).map Info.text).Nodup ∧
    (∀ (contract' : Contract) (cluster' : String), contract'.validate parseURL = .ok () →
      '\x00' ∉ cluster'.toList → ∀ info ∈ contract.infos parseURL cluster,
      ∀ info' ∈ contract'.infos parseURL cluster', info.text = info'.text → info = info') ∧
    contract.credentialKeys.Nodup ∧ ∀ encodedSeed domain projection,
      deriveProjection crypto parseURL contract encodedSeed cluster domain = .ok projection →
      (∃ seed, crypto.decodeSeed encodedSeed = some seed ∧
        ∀ credential ∈ contract.credentials parseURL cluster, ∃ output,
          crypto.hkdf seed credential.2.text = .ok output ∧
          projection.values.lookup credential.1 = some (crypto.encodeRawURL output)) ∧
        (projection.values.map Prod.fst).Perm (plainKeys ++ contract.credentialKeys) ∧
        projection.values.length = contract.confidentialClients.length + 9 := by
  have haccepted := Contract.accepted_of_validate parseURL hcontract
  have hkeys := haccepted.nodup_keys
  refine ⟨?_, ?_, (nodup_append.mp hkeys).2.1, ?_⟩
  · have hinfos : (contract.infos parseURL cluster).Nodup :=
      List.Nodup.of_map _ (haccepted.nodup_purposes cluster)
    exact hinfos.map_on fun info hinfo info' hinfo' => Info.text_injective
      (haccepted.plain_infos hcluster hinfo) (haccepted.plain_infos hcluster hinfo')
  · intro contract' cluster' hcontract' hcluster' info hinfo info' hinfo'
    have haccepted' := Contract.accepted_of_validate parseURL hcontract'
    exact Info.text_injective (haccepted.plain_infos hcluster hinfo)
      (haccepted'.plain_infos hcluster' hinfo')
  intro encodedSeed domain projection h
  obtain ⟨seed, before, pairs, hseed, hbefore, hpairs, hvalues⟩ := deriveProjection_ok h
  have hwritten : (before ++ pairs ++ [("ATUM_IDENTITY_DIGEST", projection.digest)]).map Prod.fst =
      plainKeys.dropLast ++ contract.credentialKeys ++ ["ATUM_IDENTITY_DIGEST"] := by
    rw [map_append, map_append, hbefore, hpairs.keys, Contract.credentials, map_fst_zip]
    · rfl
    · simp [Contract.credentialKeys, Contract.infos]
  have hperm :
      ((before ++ pairs ++ [("ATUM_IDENTITY_DIGEST", projection.digest)]).map Prod.fst).Perm
      (plainKeys ++ contract.credentialKeys) := by
    rw [hwritten, append_assoc]
    exact perm_append_comm.append_left _
  have hstored := SortedAssoc.perm_foldl_insert (hperm.nodup_iff.mpr hkeys)
  rw [← hvalues] at hstored
  have hall := (hstored.map Prod.fst).trans hperm
  refine ⟨⟨seed, hseed, fun credential hcredential => ?_⟩, hall, ?_⟩
  · obtain ⟨output, houtput, hmem⟩ := hpairs.derived credential hcredential
    refine ⟨output, houtput, SortedAssoc.lookup_of_mem (hall.nodup_iff.mpr hkeys) ?_⟩
    exact hstored.mem_iff.mpr (by simp [hmem])
  · rw [← length_map, hall.length_eq]
    simp [plainKeys, Contract.credentialKeys]

/-! ## A run -/

section Sample

/-- A URL of a scheme, a host and a path. -/
def plainURL (text : String) : Option URL :=
  if hasPrefix text "https://" then
    let rest := (trimPrefix text "https://").toList
    some
      { scheme := "https"
        path := String.ofList (rest.dropWhile (· ≠ '/'))
        rawQuery := ""
        fragment := ""
        user := false
        port := ""
        hostname := String.ofList (rest.takeWhile (· ≠ '/')) }
  else none

/-- A client that an application asks for. -/
def sampleClient (application : Application) : Client :=
  let expected := applicationContract application "atum-admins"
  let name := application.text
  { id := name
    application
    type := expected.1
    host := name ++ ".atum.test"
    category := .identity
    integration := expected.2.1
    secretPurpose := if expected.1 = .publicPKCE then "" else name
    callbacks := ["https://" ++ name ++ ".atum.test/callback"]
    administratorMapping := expected.2.2.2
    audience := expected.2.2.1 }

def sampleContract : Contract where
  schemaVersion := "atum.dev/identity/v1"
  realm := "master"
  issuer := "https://keycloak.atum.test/auth/realms/master"
  scopes := requiredScopes
  groupClaim := "groups"
  administrator := { username := "atum", group := "atum-admins", serverRole := "admin" }
  endpoints := []
  clients := requiredApplications.map sampleClient
  canonical := []

/-- Functions that keep their arguments, or what fits. -/
def sampleCrypto : Crypto where
  decodeSeed encoded := some encoded
  hkdf seed info := .ok (seed ++ bytes info)
  sha256 value := value.take 32
  encodeRawURL output := output

/-- A contract with nine confidential clients gives eighteen entries. -/
theorem derivedCredentials_separated_sample :
    ((sampleContract.infos plainURL "production").map Info.text).Nodup ∧
      ∃ projection, deriveProjection sampleCrypto plainURL sampleContract (List.replicate 32 0)
          "production" "atum.test" = .ok projection ∧
        (∀ credential ∈ sampleContract.credentials plainURL "production",
          projection.values.lookup credential.1 =
            some (List.replicate 32 0 ++ bytes credential.2.text)) ∧
        projection.values.length = 18 := by
  have hcontract : sampleContract.validate plainURL = .ok () := by decide +kernel
  have hok : (deriveProjection sampleCrypto plainURL sampleContract (List.replicate 32 0)
      "production" "atum.test").toOption.isSome = true := by
    decide +kernel
  obtain ⟨hnodup, -, -, hrun⟩ := derivedCredentials_separated sampleCrypto plainURL sampleContract
    hcontract "production" (by decide)
  cases hprojection : deriveProjection sampleCrypto plainURL sampleContract (List.replicate 32 0)
    "production" "atum.test" with
  | error cause =>
    rw [hprojection] at hok
    cases hok
  | ok projection =>
    obtain ⟨⟨seed, hseed, hstored⟩, -, hlength⟩ := hrun _ _ _ hprojection
    cases hseed
    refine ⟨hnodup, projection, rfl, fun credential hcredential => ?_, ?_⟩
    · obtain ⟨output, houtput, hlookup⟩ := hstored credential hcredential
      cases houtput
      exact hlookup
    · rw [hlength]
      decide +kernel

end Sample

end Atum.Identity
