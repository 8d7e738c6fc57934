import Mathlib.Data.List.Nodup
import Atum.Go.Outcome
import Atum.Go.Strings

/-!
# The identity contract

The contract names the clients of the identity provider, and `validate` accepts it.
The later modules use four facts about an accepted contract: the domain is a host
name, the clients have different identifiers, a confidential client has an identifier
for the purpose of its secret, and no two have the same (`Contract.Accepted`).

`parseURL` stands for `url.Parse`.  Its answers are used through the checks of
`validate` only.
-/

namespace Atum.Identity

open Atum.Go List

/-! ## The parts of a contract -/

inductive ClientType where
  | publicPKCE
  | confidential
  | other (text : String)
  deriving DecidableEq, Repr

def ClientType.text : ClientType → String
  | .publicPKCE => "public-pkce"
  | .confidential => "confidential"
  | .other text => text

inductive Integration where
  | nativeOIDC
  | authservice
  | fluxReconciliation
  | other (text : String)
  deriving DecidableEq, Repr

def Integration.text : Integration → String
  | .nativeOIDC => "native-oidc"
  | .authservice => "authservice"
  | .fluxReconciliation => "flux-reconciliation"
  | .other text => text

inductive Application where
  | headlamp
  | kiali
  | grafana
  | gitLab
  | policyReporter
  | harbor
  | vault
  | prometheus
  | alertmanager
  | openSearch
  | other (text : String)
  deriving DecidableEq, Repr

def Application.text : Application → String
  | .headlamp => "headlamp"
  | .kiali => "kiali"
  | .grafana => "grafana"
  | .gitLab => "gitlab"
  | .policyReporter => "policy-reporter"
  | .harbor => "harbor"
  | .vault => "vault"
  | .prometheus => "prometheus"
  | .alertmanager => "alertmanager"
  | .openSearch => "opensearch"
  | .other text => text

inductive Category where
  | identity
  | development
  | observability
  | other (text : String)
  deriving DecidableEq, Repr

def Category.text : Category → String
  | .identity => "identity"
  | .development => "development"
  | .observability => "observability"
  | .other text => text

inductive Access where
  | browser
  | token
  | other (text : String)
  deriving DecidableEq, Repr

def Access.text : Access → String
  | .browser => "browser"
  | .token => "token"
  | .other text => text

/-- `Administrator`. -/
structure Administrator where
  username : String
  group : String
  serverRole : String
  deriving DecidableEq, Repr

/-- `Client`. -/
structure Client where
  id : String
  application : Application
  type : ClientType
  host : String
  category : Category
  integration : Integration
  secretPurpose : String := ""
  callbacks : List String
  administratorMapping : String
  audience : Bool := false
  deriving DecidableEq, Repr

/-- `Endpoint`. -/
structure Endpoint where
  id : String
  host : String
  category : Category
  access : Access
  deriving DecidableEq, Repr

/-- `Contract`, without the indexes that `validate` builds. -/
structure Contract where
  schemaVersion : String
  realm : String
  issuer : String
  scopes : List String
  groupClaim : String
  administrator : Administrator
  endpoints : List Endpoint
  clients : List Client
  /-- The encoded contract. -/
  canonical : List UInt8

/-- The parts of a parsed URL that the checks look at. -/
structure URL where
  scheme : String
  path : String
  rawQuery : String
  fragment : String
  /-- Whether there is user information. -/
  user : Bool
  port : String
  hostname : String
  deriving DecidableEq, Repr

/-! ## The patterns -/

def isLower (c : Char) : Bool := 'a' ≤ c && c ≤ 'z'

def isDigit (c : Char) : Bool := '0' ≤ c && c ≤ '9'

/-- A character of an identifier or a host name. -/
def isNameChar (c : Char) : Bool := isLower c || isDigit c || c = '-'

/-- `identifierPattern`. -/
def identifierPattern (s : String) : Bool :=
  match s.toList with
  | [] => false
  | first :: rest => isLower first && rest.all isNameChar

/-- One label of a host name. -/
def isLabel (label : String) : Bool :=
  let chars := label.toList
  chars.length ≤ 63 && chars.all isNameChar &&
    (chars.head?.any fun c => isLower c || isDigit c) &&
    (chars.getLast?.any fun c => isLower c || isDigit c)

/-- `hostnamePattern`: two or more labels. -/
def hostnamePattern (s : String) : Bool :=
  2 ≤ (split s '.').length && (split s '.').all isLabel

/-! ## The checks -/

section Validate

variable (parseURL : String → Option URL)

/-- The issuer is the local Keycloak. -/
def checkIssuer (contract : Contract) : Option URL := do
  let issuer ← parseURL contract.issuer
  if contract.realm ≠ "master" ∨ issuer.scheme ≠ "https" ∨ issuer.path ≠ "/auth/realms/master" ∨
      issuer.rawQuery ≠ "" ∨ issuer.fragment ≠ "" ∨ issuer.user = true ∨ issuer.port ≠ "" ∨
      len issuer.hostname ≤ len "keycloak." ∨ 253 < len issuer.hostname ∨
      hostnamePattern issuer.hostname = false ∨ hasPrefix issuer.hostname "keycloak." = false then
    none
  else some issuer

/-- `Contract.Domain`. -/
def Contract.domain (contract : Contract) : String :=
  match parseURL contract.issuer with
  | none => ""
  | some issuer => String.ofList (issuer.hostname.toList.drop "keycloak.".toList.length)

/-- One scope, after the ones of `seen`. -/
def checkScope (seen : List String) (scope : String) : Except String (List String) :=
  if identifierPattern scope = false then throw s!"scope {quote scope} is invalid"
  else if scope ∈ seen then throw s!"scope {quote scope} is duplicated"
  else pure (seen ++ [scope])

def requiredScopes : List String := ["openid", "profile", "email", "groups"]

/-- The host is a host name of the domain. -/
def checkHost (what host domain : String) : Except String Unit :=
  if 253 < len host ∨ hostnamePattern host = false then
    throw s!"{what} has invalid host {quote host}"
  else if len host ≤ len domain + 1 ∨ hasSuffix host ("." ++ domain) = false then
    throw s!"{what} host {quote host} is outside issuer domain {quote domain}"
  else pure ()

def Category.known : Category → Bool
  | .other _ => false
  | _ => true

/-- What the loops have seen so far. -/
structure Seen where
  endpointIDs : List String := []
  hosts : List String := []
  ids : List String := []
  applications : List Application := []
  purposes : List String := []
  callbacks : List String := []

/-- One round of the loop over the endpoints. -/
def checkEndpoint (domain : String) (seen : Seen) (entry : Endpoint × Nat) :
    Except String Seen := do
  let endpoint := entry.1
  if identifierPattern endpoint.id = false then
    throw s!"additional endpoint {entry.2} has invalid id {quote endpoint.id}"
  if endpoint.id ∈ seen.endpointIDs then
    throw s!"additional endpoint id {quote endpoint.id} is duplicated"
  if endpoint.host ∈ seen.hosts then throw s!"endpoint host {quote endpoint.host} is duplicated"
  checkHost ("endpoint " ++ endpoint.id) endpoint.host domain
  if endpoint.category.known = false then
    throw s!"endpoint {endpoint.id} has unknown category {quote endpoint.category.text}"
  if endpoint.access ≠ .browser ∧ endpoint.access ≠ .token then
    throw s!"endpoint {endpoint.id} has unknown access {quote endpoint.access.text}"
  pure { seen with
    endpointIDs := seen.endpointIDs ++ [endpoint.id]
    hosts := seen.hosts ++ [endpoint.host] }

def Application.known : Application → Bool
  | .other _ => false
  | _ => true

/-- `applicationContract`. -/
def applicationContract (application : Application) (administratorGroup : String) :
    ClientType × Integration × Bool × String :=
  match application with
  | .headlamp =>
    (.publicPKCE, .nativeOIDC, true, "oidc:" ++ administratorGroup ++ "=cluster-admin")
  | .kiali => (.confidential, .nativeOIDC, true, "authenticated-cluster-admin")
  | .grafana => (.confidential, .nativeOIDC, false, "Admin")
  | .gitLab => (.confidential, .nativeOIDC, false, "adminGroups")
  | .policyReporter => (.confidential, .nativeOIDC, false, "authenticated-ui-admin")
  | .harbor => (.confidential, .nativeOIDC, false, "oidc-admin-group")
  | .vault => (.confidential, .fluxReconciliation, false, "administrator-policy")
  | .prometheus | .alertmanager | .openSearch =>
    (.confidential, .authservice, false, "authenticated")
  | .other _ => (.other "", .other "", false, "")

/-- One callback of a client. -/
def checkCallback (client : Client) (seen : List String) (callback : String) :
    Except String (List String) :=
  let accepted := (parseURL callback).any fun parsed =>
    parsed.scheme = "https" && parsed.hostname = client.host && !parsed.user &&
      parsed.rawQuery = "" && parsed.fragment = ""
  if accepted = false then
    throw (s!"client {client.id} callback {quote callback} must be public HTTPS on its " ++
      "declared host")
  else if callback ∈ seen then throw s!"callback {quote callback} is duplicated"
  else pure (seen ++ [callback])

/-- The purpose of the secret of a client. -/
def checkPurpose (client : Client) (purposes : List String) : Except String (List String) :=
  if client.type = .publicPKCE then
    if client.secretPurpose ≠ "" then
      throw s!"public client {client.id} must not declare secretPurpose"
    else pure purposes
  else if identifierPattern client.secretPurpose = false then
    throw s!"confidential client {client.id} must declare a valid secretPurpose"
  else if client.secretPurpose ∈ purposes then
    throw s!"secret purpose {quote client.secretPurpose} is duplicated"
  else pure (purposes ++ [client.secretPurpose])

/-- One round of the loop over the clients. -/
def checkClient (administratorGroup domain : String) (seen : Seen) (entry : Client × Nat) :
    Except String Seen := do
  let client := entry.1
  if identifierPattern client.id = false then
    throw s!"client {entry.2} has invalid id {quote client.id}"
  if client.id ∈ seen.ids then throw s!"client id {quote client.id} is duplicated"
  if client.application.known = false then
    throw s!"client {client.id} has unsupported application {quote client.application.text}"
  if client.application ∈ seen.applications then
    throw s!"application projection {quote client.application.text} is duplicated"
  if client.host ∈ seen.hosts then throw s!"client host {quote client.host} is duplicated"
  checkHost ("client " ++ client.id) client.host domain
  if client.type ≠ .publicPKCE ∧ client.type ≠ .confidential then
    throw s!"client {client.id} has unknown type {quote client.type.text}"
  if client.integration ≠ .nativeOIDC ∧ client.integration ≠ .authservice ∧
      client.integration ≠ .fluxReconciliation then
    throw s!"client {client.id} has unknown integration {quote client.integration.text}"
  if (client.type, client.integration, client.audience, client.administratorMapping) ≠
      applicationContract client.application administratorGroup then
    throw (s!"client {client.id} does not match the {client.application.text} application " ++
      "projection contract")
  if client.category.known = false then
    throw s!"client {client.id} has unknown category {quote client.category.text}"
  let purposes ← checkPurpose client seen.purposes
  if client.callbacks = [] ∨ client.administratorMapping = "" then
    throw s!"client {client.id} must declare callbacks and administratorMapping"
  let callbacks ← client.callbacks.foldlM (checkCallback parseURL client) seen.callbacks
  pure { seen with
    hosts := seen.hosts ++ [client.host]
    ids := seen.ids ++ [client.id]
    applications := seen.applications ++ [client.application]
    purposes
    callbacks }

def requiredApplications : List Application :=
  [.headlamp, .kiali, .grafana, .gitLab, .policyReporter, .harbor, .vault, .prometheus,
    .alertmanager, .openSearch]

/-- `Contract.validate`. -/
def Contract.validate (contract : Contract) : Except String Unit := do
  if contract.schemaVersion ≠ "atum.dev/identity/v1" then
    throw "schemaVersion must be atum.dev/identity/v1"
  if checkIssuer parseURL contract = none then
    throw "issuer must declare the local Keycloak master realm"
  let domain := contract.domain parseURL
  if contract.groupClaim ≠ "groups" then throw "groupClaim must be groups"
  let scopes ← contract.scopes.foldlM checkScope []
  requiredScopes.forM fun required =>
    if required ∉ scopes then throw s!"required scope {quote required} is absent" else pure ()
  let admin := contract.administrator
  if admin.username ≠ "atum" ∨ admin.group ≠ "atum-admins" ∨ admin.serverRole ≠ "admin" then
    throw "administrator must be atum in atum-admins with server role admin"
  let seen ← contract.endpoints.zipIdx.foldlM (checkEndpoint domain) {}
  let seen ← contract.clients.zipIdx.foldlM (checkClient parseURL admin.group domain) seen
  requiredApplications.forM fun required =>
    if required ∉ seen.applications then
      throw s!"required application projection {quote required.text} is absent"
    else pure ()

/-! ## What an accepted contract has -/

/-- A client has a secret. -/
def Client.isConfidential (client : Client) : Bool := client.type = .confidential

/-- The clients that have a secret. -/
def Contract.confidentialClients (contract : Contract) : List Client :=
  contract.clients.filter Client.isConfidential

/-- What the later modules use of an accepted contract. -/
structure Contract.Accepted (contract : Contract) : Prop where
  domain : ∀ c ∈ (contract.domain parseURL).toList, isNameChar c = true ∨ c = '.'
  identifiers : ∀ client ∈ contract.clients, identifierPattern client.id = true
  ids : (contract.clients.map Client.id).Nodup
  purposeIdentifiers : ∀ client ∈ contract.confidentialClients,
    identifierPattern client.secretPurpose = true
  purposes : (contract.confidentialClients.map Client.secretPurpose).Nodup

/-- The characters of a host name. -/
theorem mem_hostname {host : String} (h : hostnamePattern host = true) {c : Char}
    (hc : c ∈ host.toList) : isNameChar c = true ∨ c = '.' := by
  rw [hostnamePattern, Bool.and_eq_true, all_eq_true] at h
  obtain heq | ⟨label, hlabel, hc⟩ := eq_or_mem_split hc
  · exact .inr heq
  · have hchars := h.2 label hlabel
    simp only [isLabel, Bool.and_eq_true, all_eq_true] at hchars
    exact .inl (hchars.1.1.2 c hc)

variable {contract : Contract}

theorem domain_of_checkIssuer (h : checkIssuer parseURL contract ≠ none) :
    ∀ c ∈ (contract.domain parseURL).toList, isNameChar c = true ∨ c = '.' := by
  intro c hc
  rw [checkIssuer] at h
  rw [Contract.domain] at hc
  cases hparse : parseURL contract.issuer with
  | none => simp [hparse] at h
  | some issuer =>
    rw [hparse] at h hc
    have hpattern : hostnamePattern issuer.hostname = true := by
      by_contra hnot
      simp [hnot] at h
    rw [String.toList_ofList] at hc
    exact mem_hostname hpattern (mem_of_mem_drop hc)

/-- What one round of the loop over the clients adds. -/
structure Seen.Adds (seen seen' : Seen) (client : Client) : Prop where
  identifier : identifierPattern client.id = true
  newID : client.id ∉ seen.ids
  ids : seen'.ids = seen.ids ++ [client.id]
  purposes : if client.isConfidential then
      identifierPattern client.secretPurpose = true ∧ client.secretPurpose ∉ seen.purposes ∧
        seen'.purposes = seen.purposes ++ [client.secretPurpose]
    else seen'.purposes = seen.purposes

theorem checkPurpose_adds {client : Client} {purposes purposes' : List String}
    (htype : ¬(client.type ≠ .publicPKCE ∧ client.type ≠ .confidential))
    (h : checkPurpose client purposes = .ok purposes') : if client.isConfidential then
      identifierPattern client.secretPurpose = true ∧ client.secretPurpose ∉ purposes ∧
        purposes' = purposes ++ [client.secretPurpose] else purposes' = purposes := by
  rw [checkPurpose] at h
  by_cases hpublic : client.type = .publicPKCE
  · rw [if_pos hpublic] at h
    obtain ⟨-, h⟩ := ite_throw_eq_ok.mp h
    have hnot : client.isConfidential = false := by simp [Client.isConfidential, hpublic]
    rw [hnot]
    exact (Except.ok.inj h).symm
  have hconfidential : client.type = .confidential := by
    by_contra hnot
    exact htype ⟨hpublic, hnot⟩
  rw [if_neg hpublic] at h
  obtain ⟨hidentifier, h⟩ := ite_throw_eq_ok.mp h
  obtain ⟨hnew, h⟩ := ite_throw_eq_ok.mp h
  rw [if_pos (by simp [Client.isConfidential, hconfidential])]
  exact ⟨by simpa using hidentifier, hnew, (Except.ok.inj h).symm⟩

variable {domain : String} {seen : Seen}

/-- The loop over the endpoints does not look at clients. -/
theorem foldlM_checkEndpoint {endpoints : List (Endpoint × Nat)}
    (h : endpoints.foldlM (checkEndpoint domain) {} = .ok seen) :
    seen.ids = [] ∧ seen.purposes = [] := by
  refine foldlM_keep (P := fun seen => seen.ids = [] ∧ seen.purposes = [])
    (fun seen entry next hnext hseen => ?_) ⟨rfl, rfl⟩ h
  obtain ⟨-, hnext⟩ := ite_throw_bind_eq_ok.mp hnext
  obtain ⟨-, hnext⟩ := ite_throw_bind_eq_ok.mp hnext
  obtain ⟨-, hnext⟩ := ite_throw_bind_eq_ok.mp hnext
  obtain ⟨_, -, hnext⟩ := bind_eq_ok.mp hnext
  obtain ⟨-, hnext⟩ := ite_throw_bind_eq_ok.mp hnext
  obtain ⟨-, hnext⟩ := ite_throw_bind_eq_ok.mp hnext
  cases hnext
  exact hseen

variable {group : String} {seen' : Seen}

theorem checkClient_adds {entry : Client × Nat}
    (h : checkClient parseURL group domain seen entry = .ok seen') : seen.Adds seen' entry.1 := by
  obtain ⟨hidentifier, h⟩ := ite_throw_bind_eq_ok.mp h
  obtain ⟨hnew, h⟩ := ite_throw_bind_eq_ok.mp h
  obtain ⟨-, h⟩ := ite_throw_bind_eq_ok.mp h
  obtain ⟨-, h⟩ := ite_throw_bind_eq_ok.mp h
  obtain ⟨-, h⟩ := ite_throw_bind_eq_ok.mp h
  obtain ⟨_, -, h⟩ := bind_eq_ok.mp h
  obtain ⟨htype, h⟩ := ite_throw_bind_eq_ok.mp h
  obtain ⟨-, h⟩ := ite_throw_bind_eq_ok.mp h
  obtain ⟨-, h⟩ := ite_throw_bind_eq_ok.mp h
  obtain ⟨-, h⟩ := ite_throw_bind_eq_ok.mp h
  obtain ⟨purposes, hpurposes, h⟩ := bind_eq_ok.mp h
  obtain ⟨-, h⟩ := ite_throw_bind_eq_ok.mp h
  obtain ⟨callbacks, -, h⟩ := bind_eq_ok.mp h
  cases h
  refine ⟨by simpa using hidentifier, hnew, rfl, ?_⟩
  exact checkPurpose_adds htype hpurposes

theorem foldlM_checkClient {clients : List Client} {start : Nat}
    (h : (clients.zipIdx start).foldlM (checkClient parseURL group domain) seen = .ok seen') :
    (∀ client ∈ clients, identifierPattern client.id = true) ∧
      (∀ client ∈ clients.filter Client.isConfidential,
        identifierPattern client.secretPurpose = true) ∧
      (seen.ids.Nodup → (seen.ids ++ clients.map Client.id).Nodup) ∧
      (seen.purposes.Nodup → (seen.purposes ++
        (clients.filter Client.isConfidential).map Client.secretPurpose).Nodup) := by
  induction clients generalizing start seen with
  | nil => simp
  | cons client rest ih =>
    rw [zipIdx_cons, foldlM_cons, bind_eq_ok] at h
    obtain ⟨next, hnext, h⟩ := h
    have hadds := checkClient_adds parseURL hnext
    obtain ⟨hidentifiers, hpurposeIdentifiers, hids, hpurposes⟩ := ih h
    have hpurpose := hadds.purposes
    rw [hadds.ids, append_assoc] at hids
    refine ⟨forall_mem_cons.mpr ⟨hadds.identifier, hidentifiers⟩, ?_, ?_, ?_⟩
    · by_cases hconfidential : client.isConfidential = true
      · rw [if_pos hconfidential] at hpurpose
        rw [filter_cons_of_pos hconfidential]
        exact forall_mem_cons.mpr ⟨hpurpose.1, hpurposeIdentifiers⟩
      · rw [filter_cons_of_neg hconfidential]
        exact hpurposeIdentifiers
    · intro hnodup
      exact hids (List.Nodup.append hnodup (nodup_singleton _) (by simp [hadds.newID]))
    intro hnodup
    by_cases hconfidential : client.isConfidential = true
    · rw [if_pos hconfidential] at hpurpose
      rw [hpurpose.2.2, append_assoc] at hpurposes
      rw [filter_cons_of_pos hconfidential]
      exact hpurposes
        (List.Nodup.append hnodup (nodup_singleton _) (by simp [hpurpose.2.1]))
    rw [if_neg hconfidential] at hpurpose
    rw [hpurpose] at hpurposes
    rw [filter_cons_of_neg hconfidential]
    exact hpurposes hnodup

/-- `validate` accepts only what the later modules need. -/
theorem Contract.accepted_of_validate
    (h : contract.validate parseURL = .ok ()) : contract.Accepted parseURL := by
  obtain ⟨-, h⟩ := ite_throw_bind_eq_ok.mp h
  obtain ⟨hissuer, h⟩ := ite_throw_bind_eq_ok.mp h
  obtain ⟨-, h⟩ := ite_throw_bind_eq_ok.mp h
  obtain ⟨scopes, -, h⟩ := bind_eq_ok.mp h
  obtain ⟨_, -, h⟩ := bind_eq_ok.mp h
  obtain ⟨-, h⟩ := ite_throw_bind_eq_ok.mp h
  obtain ⟨seen, hendpoints, h⟩ := bind_eq_ok.mp h
  obtain ⟨seen', hclients, -⟩ := bind_eq_ok.mp h
  obtain ⟨hids, hpurposes⟩ := foldlM_checkEndpoint hendpoints
  obtain ⟨hidentifiers, hpurposeIdentifiers, hnodup, hpurposesNodup⟩ :=
    foldlM_checkClient parseURL hclients
  rw [hids] at hnodup
  rw [hpurposes] at hpurposesNodup
  exact
    { domain := domain_of_checkIssuer parseURL hissuer
      identifiers := hidentifiers
      ids := hnodup nodup_nil
      purposeIdentifiers := hpurposeIdentifiers
      purposes := hpurposesNodup nodup_nil }

end Validate

end Atum.Identity
