import Atum.Identity.Contract

/-!
# The runtime check of the operator

Before the operator talks to its providers, `validateRuntime` checks that every URI
of the configuration stays inside the platform domain.  The check asks the parsed URL
for its host before it looks at the error of the parser, so a URI that does not parse
makes the operator panic.

`validatePlatformURIs_verdict` says what one list of URIs comes to: the first URI that is
not admissible decides.  `validateRuntime_returns_iff` puts the lists together.
-/

namespace Atum.Operator

open Atum.Go List Option
open Atum.Identity (URL)

structure KeycloakClient where
  id : String
  redirectURIs : List String
  webOrigins : List String := []

structure VaultRole where
  name : String
  redirectURIs : List String

/-- `PlatformIdentityConfigurationSpec`, as far as the check reads it. -/
structure ConfigurationSpec where
  domain : String
  clients : List KeycloakClient
  role : VaultRole

section Parse

-- `url.Parse`: a URL, or an error without one.
variable (parse : String → Option URL)

/-- The check of one parsed URL. -/
def outside (domain : String) (parsed : URL) : Bool :=
  let host := parsed.hostname
  parsed.scheme != "https" || parsed.user || parsed.port != "" || parsed.rawQuery != "" ||
    parsed.fragment != "" || decide (len host ≤ len domain + 1) || !hasSuffix host ("." ++ domain)

def validatePlatformURIs (domain owner : String) : List String → Outcome Unit
  | [] => .ok ()
  | value :: rest =>
    match parse value with
    -- `parsed.Hostname()` reads a field of the nil URL.
    | none => .panics "invalid memory address or nil pointer dereference"
    | some parsed =>
      if outside domain parsed then
        .error (owner ++ " URI " ++ quote value ++ " is outside the platform domain")
      else validatePlatformURIs domain owner rest

/-- The loop of `validateRuntime` over the clients. -/
def validateClients (domain : String) : List KeycloakClient → Outcome Unit
  | [] => .ok ()
  | item :: rest => do
    validatePlatformURIs parse domain ("client " ++ item.id) item.redirectURIs
    validatePlatformURIs parse domain ("client " ++ item.id) item.webOrigins
    validateClients domain rest

def validateRuntime (spec : ConfigurationSpec) : Outcome Unit := do
  validateClients parse spec.domain spec.clients
  validatePlatformURIs parse spec.domain ("Vault role " ++ spec.role.name) spec.role.redirectURIs

/-! ## The first URI that is not admissible -/

/-- A host below the domain. -/
def StrictSubdomain (host domain : String) : Prop :=
  ∃ label, label ≠ "" ∧ host = label ++ "." ++ domain

/-- A URI that stays inside the domain. -/
def Admissible (domain uri : String) : Prop :=
  ∃ parsed, parse uri = some parsed ∧ parsed.scheme = "https" ∧ parsed.user = false ∧
    parsed.port = "" ∧ parsed.rawQuery = "" ∧ parsed.fragment = "" ∧
    StrictSubdomain parsed.hostname domain

/-- The URI does not pass the check, or does not get that far. -/
def rejected (domain uri : String) : Bool := (parse uri).elim true (outside domain)

/-- The URIs of a configuration in the order of the check. -/
def runtimeURIs (spec : ConfigurationSpec) : List String :=
  spec.clients.flatMap (fun item => item.redirectURIs ++ item.webOrigins) ++ spec.role.redirectURIs

end Parse

theorem strictSubdomain_iff {host domain : String} :
    StrictSubdomain host domain ↔
      len domain + 1 < len host ∧ hasSuffix host ("." ++ domain) = true := by
  have hdot : len ("." ++ domain) = 1 + len domain := by
    rw [len, String.utf8ByteSize_append]
    rfl
  constructor
  · rintro ⟨label, hlabel, rfl⟩
    constructor
    · have hpos : 0 < label.utf8ByteSize := by
        rw [Nat.pos_iff_ne_zero, ne_eq, String.utf8ByteSize_eq_zero_iff]
        exact hlabel
      have hsum : len (label ++ ("." ++ domain)) = label.utf8ByteSize + len ("." ++ domain) :=
        String.utf8ByteSize_append ..
      rw [String.append_assoc]
      omega
    · rw [hasSuffix, isSuffixOf_iff_suffix, String.append_assoc]
      exact ⟨label.toList, (String.toList_append ..).symm⟩
  · rintro ⟨hlong, hsuf⟩
    rw [hasSuffix, isSuffixOf_iff_suffix] at hsuf
    obtain ⟨chars, hchars⟩ := hsuf
    have hhost : host = String.ofList chars ++ ("." ++ domain) := by
      apply String.toList_inj.mp
      rw [String.toList_append, String.toList_ofList, hchars]
    refine ⟨String.ofList chars, ?_, by rw [hhost, String.append_assoc]⟩
    rintro hempty
    rw [hhost, hempty, String.empty_append] at hlong
    omega

theorem admissible_iff {parse : String → Option URL} {domain uri : String} :
    Admissible parse domain uri ↔ rejected parse domain uri = false := by
  unfold Admissible rejected
  cases parse uri with
  | none => simp
  | some parsed =>
    simp only [Option.some.injEq, exists_eq_left', elim_some, strictSubdomain_iff, outside,
      Bool.or_eq_false_iff, bne_eq_false_iff_eq, decide_eq_false_iff_not, not_le,
      Bool.not_eq_false']
    tauto

section Check

variable (parse : String → Option URL) (domain : String)

/-- What a list of URIs comes to, by its first rejected one. -/
def Verdict (values : List String) (result : Outcome Unit) : Prop :=
  match values.find? (rejected parse domain) with
  | none => result = .ok ()
  | some value => result ≠ .ok () ∧ (result.Returns ↔ (parse value).isSome = true)

theorem validatePlatformURIs_verdict (owner : String) (values : List String) :
    Verdict parse domain values (validatePlatformURIs parse domain owner values) := by
  induction values with
  | nil => rfl
  | cons value rest ih =>
    unfold Verdict
    rw [validatePlatformURIs, List.find?_cons]
    cases hparse : parse value with
    | none => simp [rejected, hparse, Outcome.Returns]
    | some parsed =>
      have hrejected : rejected parse domain value = outside domain parsed := by
        rw [rejected, hparse, elim_some]
      rw [hrejected]
      cases houtside : outside domain parsed with
      | true => simp [hparse, houtside, Outcome.Returns]
      | false =>
        simp only [houtside, Bool.false_eq_true, if_false]
        exact ih

/-- One list after the other. -/
theorem Verdict.bind {values others : List String} {result : Outcome Unit}
    {next : Unit → Outcome Unit} (h : Verdict parse domain values result)
    (hnext : Verdict parse domain others (next ())) :
    Verdict parse domain (values ++ others) (result >>= next) := by
  unfold Verdict at h ⊢
  rw [List.find?_append]
  cases hfirst : values.find? (rejected parse domain) with
  | none =>
    rw [hfirst] at h
    obtain rfl := h
    exact hnext
  | some value =>
    rw [hfirst] at h
    cases result with
    | ok _ => exact absurd rfl h.1
    | error message => exact ⟨(fun heq => by cases heq), h.2⟩
    | panics reason => exact ⟨(fun heq => by cases heq), h.2⟩
    | diverges => exact ⟨(fun heq => by cases heq), h.2⟩

theorem validateClients_verdict (clients : List KeycloakClient) :
    Verdict parse domain (clients.flatMap fun item => item.redirectURIs ++ item.webOrigins)
      (validateClients parse domain clients) := by
  induction clients with
  | nil => rfl
  | cons item rest ih =>
    rw [flatMap_cons, append_assoc]
    refine Verdict.bind parse domain (validatePlatformURIs_verdict ..) ?_
    exact Verdict.bind parse domain (validatePlatformURIs_verdict ..) ih

theorem validateRuntime_verdict (spec : ConfigurationSpec) :
    Verdict parse spec.domain (runtimeURIs spec) (validateRuntime parse spec) :=
  Verdict.bind parse spec.domain (validateClients_verdict ..) (validatePlatformURIs_verdict ..)

end Check

/-- The check returns, and accepts exactly the configurations with admissible URIs,
exactly if the first URI that is not admissible can be parsed. -/
theorem validateRuntime_returns_iff (parse : String → Option URL) (spec : ConfigurationSpec) :
    (validateRuntime parse spec).Returns ∧
        (validateRuntime parse spec = .ok () ↔
          ∀ uri ∈ runtimeURIs spec, Admissible parse spec.domain uri) ↔
      ∀ before uri after, runtimeURIs spec = before ++ uri :: after →
        (∀ earlier ∈ before, Admissible parse spec.domain earlier) →
        ¬ Admissible parse spec.domain uri → ∃ parsed, parse uri = some parsed := by
  have hverdict := validateRuntime_verdict parse spec
  unfold Verdict at hverdict
  simp only [admissible_iff, Bool.not_eq_false]
  cases hfirst : (runtimeURIs spec).find? (rejected parse spec.domain) with
  | none =>
    rw [hfirst] at hverdict
    have hall : ∀ uri ∈ runtimeURIs spec, rejected parse spec.domain uri = false := by
      simpa using hfirst
    rw [hverdict]
    refine iff_of_true ⟨trivial, iff_of_true rfl hall⟩ fun before uri after hsplit _ hrejected => ?_
    have hmem : uri ∈ runtimeURIs spec := by
      rw [hsplit]
      exact mem_append_right _ mem_cons_self
    exact absurd hrejected (by rw [hall uri hmem]; decide)
  | some first =>
    rw [hfirst] at hverdict
    obtain ⟨hrejected, before, after, hsplit, hbefore⟩ := List.find?_eq_some_iff_append.mp hfirst
    have hsome : ¬ ∀ uri ∈ runtimeURIs spec, rejected parse spec.domain uri = false := by
      intro hall
      have hmem : first ∈ runtimeURIs spec := mem_of_find?_eq_some hfirst
      exact absurd hrejected (by rw [hall first hmem]; decide)
    rw [hverdict.2]
    constructor
    · rintro ⟨hparses, -⟩ before' uri after' hsplit' hbefore' hrejected'
      have hfirst' : (runtimeURIs spec).find? (rejected parse spec.domain) = some uri :=
        List.find?_eq_some_iff_append.mpr
          ⟨hrejected', before', after', hsplit', fun a ha => by rw [hbefore' a ha]; rfl⟩
      obtain rfl := Option.some.inj (hfirst.symm.trans hfirst')
      exact isSome_iff_exists.mp hparses
    intro hparses
    refine ⟨isSome_iff_exists.mpr (hparses before first after hsplit ?_ hrejected),
      iff_of_false hverdict.1 hsome⟩
    intro earlier hearlier
    simpa using hbefore earlier hearlier

/-- A parser that knows two kinds of texts. -/
def sampleParse (uri : String) : Option URL :=
  if hasPrefix uri "https://" then
    some {
      scheme := "https", path := "", rawQuery := "", fragment := "", user := false, port := ""
      hostname := trimPrefix uri "https://" }
  else none

/-- A redirect URI that does not parse makes the operator panic. -/
theorem validateRuntime_panics :
    validateRuntime sampleParse
      { domain := "atum.test"
        clients := [{ id := "portal", redirectURIs := ["https://portal.atum.test", ":"] }]
        role := { name := "admin", redirectURIs := [] } } =
      .panics "invalid memory address or nil pointer dereference" := by
  decide +kernel

end Atum.Operator
