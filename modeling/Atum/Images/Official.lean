import Atum.Images.Reference
import Atum.Go.Any
import Atum.Release.Semver

/-!
# Official images

The updater replaces every rendered image by one of its vendor.  `officialImageFor`
is the table of the vendors: it reads the repository and the tag of a rendered
reference and returns the identity of the image in the inventory and the reference
of the vendor.  `officialImageForObservation` adds the one substitution that the
repository alone does not decide, the readiness checker of Kyverno.
-/

namespace Atum.Images

open Atum.Go Atum.Config
open Atum.Release (Semver Version)

/-- `officialImageSpec`. -/
structure OfficialImageSpec where
  id : String
  targetName : String := ""
  family : String := ""
  version : String := ""
  targetTag : String := ""
  license : String := ""
  provenance : String := ""
  source : String
  deriving DecidableEq, Repr

/-- `configuredOfficialIdentity`. -/
structure ConfiguredOfficialIdentity where
  id : String
  family : String
  provenance : String
  license : String

def configuredOfficialImages : List (String × ConfiguredOfficialIdentity) :=
  [("docker.io/library/busybox",
      ⟨"busybox", "foundation", "https://github.com/mirror/busybox", "GPL-2.0-only"⟩),
    ("docker.io/docker/buildkit-syft-scanner",
      ⟨"sbom-scanner", "build-system", "docker.io/docker/buildkit-syft-scanner", "Apache-2.0"⟩),
    ("docker.io/moby/buildkit",
      ⟨"buildkit", "build-system", "https://github.com/moby/buildkit", "Apache-2.0"⟩),
    ("docker.io/library/golang",
      ⟨"operator-builder", "build-system", "docker.io/library/golang", "BSD-3-Clause"⟩),
    ("docker.io/rancher/local-path-provisioner",
      ⟨"local-path-provisioner", "storage", "https://github.com/rancher/local-path-provisioner",
        "Apache-2.0"⟩),
    ("ghcr.io/kube-vip/kube-vip",
      ⟨"kube-vip", "cluster", "https://github.com/kube-vip/kube-vip", "Apache-2.0"⟩),
    ("ghcr.io/kube-vip/kube-vip-cloud-provider",
      ⟨"kube-vip-cloud-provider", "cluster", "https://github.com/kube-vip/kube-vip-cloud-provider",
        "Apache-2.0"⟩),
    certManager "acmesolver", certManager "cainjector", certManager "controller",
    certManager "startupapicheck", certManager "webhook"]
where
  certManager (name : String) : String × ConfiguredOfficialIdentity :=
    ("quay.io/jetstack/cert-manager-" ++ name,
      ⟨"cert-manager-" ++ name, "cert-manager", "https://github.com/cert-manager/cert-manager",
        "Apache-2.0"⟩)

/-- A text with dashes for the given characters. -/
def dashed (chars : List Char) (s : String) : String :=
  String.ofList (s.toList.map fun c => if c ∈ chars then '-' else c)

/-- `directOfficialImage`: a reference that is one of a vendor already. -/
def directOfficialImage (repository tag : String) : Except String OfficialImageSpec :=
  let sourceRepository :=
    if !contains ((split repository '/').headD "") "." then
      if contains repository "/" then "docker.io/" ++ repository
      else "docker.io/library/" ++ repository
    else repository
  let id := match cutLast repository '/' with
    | some (_, name) => name
    | none => repository
  let spec : OfficialImageSpec :=
    { id := id, source := sourceRepository ++ ":" ++ tag, provenance := sourceRepository }
  match configuredOfficialImages.lookup sourceRepository with
  | some identity =>
    .ok { spec with
      id := identity.id
      family := identity.family
      license := identity.license
      provenance := identity.provenance }
  | none =>
    if hasPrefix sourceRepository "ghcr.io/fluxcd/" then
      .ok { spec with family := "flux", license := "Apache-2.0" }
    else if sourceRepository = "ghcr.io/cloudnative-pg/postgresql" then
      .ok { spec with
        id := "postgresql-" ++ trimPrefix tag "v"
        family := "data"
        license := "PostgreSQL"
        provenance := "https://github.com/cloudnative-pg/postgres-containers" }
    else if sourceRepository = "docker.io/opensearchproject/opensearch" ∨
        sourceRepository = "docker.io/opensearchproject/opensearch-dashboards" then
      .ok { spec with
        family := "search"
        license := "Apache-2.0"
        provenance := "https://github.com/opensearch-project" }
    else
      .error ("rendered image " ++ sourceRepository ++ ":" ++ tag ++
        " has no verified official vendor provenance")

def kubectlRepository : String := "registry1.dso.mil/ironbank/opensource/kubernetes/kubectl"

def officialKubectlImage (reference kubernetesVersion : String)
    (minorVersions : List (String × String)) : Except String OfficialImageSpec := do
  if (split kubernetesVersion '.').length ≠ 3 then
    throw ("Kubernetes version " ++ quote kubernetesVersion ++ " is not exact")
  let renderedTag := imageTag reference
  let trimmed := trimPrefix renderedTag "v"
  let version ←
    if imageRepository reference = kubectlRepository then
      match (split trimmed '.').length with
      | 3 => .ok ("v" ++ trimmed)
      | 2 =>
        match minorVersions.lookup ("v" ++ trimmed) with
        | some version => .ok version
        | none =>
          .error ("rendered kubectl tag " ++ renderedTag ++ " has no resolved official patch")
      | _ => .error ("rendered kubectl tag " ++ renderedTag ++
          " is not a precise major/minor or patch identity")
    else .ok ("v" ++ kubernetesVersion)
  return {
    id := if version ≠ "v" ++ kubernetesVersion then
        "kubectl-" ++ dashed ['.'] (trimPrefix version "v")
      else "kubectl"
    family := "cluster"
    license := "Apache-2.0"
    provenance := "https://github.com/kubernetes/kubernetes"
    source := "registry.k8s.io/kubectl:" ++ version }

/-! ## The vendors of Iron Bank images -/

/-- What a case of the switch compares with the path. -/
inductive PathCase where
  | exact (path : String)
  | under (directory : String)

/-- The name that a case gives its image: the path, without the directory. -/
def PathCase.name? : PathCase → String → Option String
  | .exact expected, path => if path = expected then some path else none
  | .under directory, path => cutPrefix path directory

/-- A case of the switch: its condition, and the image by name and tag. -/
abbrev VendorCase := PathCase × (String → String → OfficialImageSpec)

/-- A case for one path, with the tag as it is. -/
def vendorPath (path id family license source : String) : VendorCase :=
  (.exact path, fun _ tag =>
    { id := id, family := family, license := license, source := source ++ ":" ++ tag })

/-- The cases of the switch in `officialImageFor`, in order.  Each of them sets the
family, so the family that `artifactFamily` gives before the switch is never kept. -/
def vendorCases : List VendorCase :=
  [(.under "fluxcd/", fun name tag =>
      { id := "flux-" ++ name, targetName := name, family := "flux", license := "Apache-2.0"
        source := "ghcr.io/fluxcd/" ++ name ++ ":" ++ tag }),
    (.under "opensource/goharbor/", fun name tag =>
      { id := "harbor-" ++ name, family := "harbor", license := "Apache-2.0"
        source := "docker.io/goharbor/" ++
          (if name = "registry" then "registry-photon"
            else if name = "trivy-adapter" then "trivy-adapter-photon" else name) ++ ":" ++ tag }),
    busybox "afdco/docker/busybox",
    busybox "frontiertechnology/cortex/busybox",
    vendorPath "opensource/istio/pilot" "pilot" "mesh" "Apache-2.0" "docker.io/istio/pilot",
    vendorPath "opensource/istio/proxyv2" "proxyv2" "mesh" "Apache-2.0" "docker.io/istio/proxyv2",
    vendorPath "opensource/kiali/kiali-operator" "kiali-operator" "mesh" "Apache-2.0"
      "quay.io/kiali/kiali-operator",
    vendorPath "opensource/kiali/kiali" "kiali" "mesh" "Apache-2.0" "quay.io/kiali/kiali",
    vendorPath "opensource/headlamp-k8s/headlamp" "headlamp" "cluster" "Apache-2.0"
      "ghcr.io/headlamp-k8s/headlamp",
    vendorPath "istio-ecosystem/authservice" "authservice" "identity" "Apache-2.0"
      "ghcr.io/istio-ecosystem/authservice/authservice",
    vendorPath "opensource/kyverno" "kyverno-admission-controller" "policy" "Apache-2.0"
      "reg.kyverno.io/kyverno/kyverno",
    vendorPath "opensource/kyverno/kyvernopre" "kyverno-preflight" "policy" "Apache-2.0"
      "reg.kyverno.io/kyverno/kyvernopre",
    vendorPath "opensource/kyverno/kyvernocli" "kyverno-cli" "policy" "Apache-2.0"
      "reg.kyverno.io/kyverno/kyverno-cli",
    (.under "opensource/kyverno/kyverno/", fun name tag =>
      { id := "kyverno-" ++ name, family := "policy", license := "Apache-2.0"
        source := if name = "readiness-checker" then "ghcr.io/kyverno/readiness-checker:" ++ tag
          else "reg.kyverno.io/kyverno/" ++ name ++ ":" ++ tag }),
    vendorPath "opensource/kyverno/policy-reporter" "policy-reporter" "policy" "MIT"
      "ghcr.io/kyverno/policy-reporter",
    vendorPath "nirmata/policy-reporter/policy-reporter-ui" "policy-reporter-ui" "policy" "MIT"
      "ghcr.io/kyverno/policy-reporter-ui",
    vendorPath "opensource/kyverno/policy-reporter/kyverno-plugin" "policy-reporter-kyverno-plugin"
      "policy" "MIT" "ghcr.io/kyverno/policy-reporter/kyverno-plugin",
    (.exact "opensource/fluent/fluent-bit", fun _ tag =>
      { id := "fluent-bit", family := "observability", license := "Apache-2.0"
        source := "cr.fluentbit.io/fluent/fluent-bit:" ++ trimPrefix tag "v" }),
    vendorPath "opensource/grafana/tempo" "tempo" "observability" "AGPL-3.0-only"
      "docker.io/grafana/tempo",
    (.under "opensource/prometheus-operator/", fun name tag =>
      { id := name, family := "observability", license := "Apache-2.0"
        source := "quay.io/prometheus-operator/" ++ name ++ ":" ++ tag }),
    vendorPath "opensource/thanos/thanos" "thanos" "observability" "Apache-2.0"
      "quay.io/thanos/thanos",
    vendorPath "opensource/kubernetes/kube-state-metrics" "kube-state-metrics" "observability"
      "Apache-2.0" "registry.k8s.io/kube-state-metrics/kube-state-metrics",
    vendorPath "opensource/prometheus/node-exporter" "node-exporter" "observability" "Apache-2.0"
      "quay.io/prometheus/node-exporter",
    (.exact "opensource/prometheus/blackbox_exporter", fun _ tag =>
      { id := "blackbox-exporter", targetName := "blackbox-exporter", family := "observability"
        license := "Apache-2.0", source := "quay.io/prometheus/blackbox-exporter:" ++ tag }),
    vendorPath "opensource/prometheus/alertmanager" "alertmanager" "observability" "Apache-2.0"
      "quay.io/prometheus/alertmanager",
    vendorPath "opensource/prometheus/prometheus" "prometheus" "observability" "Apache-2.0"
      "quay.io/prometheus/prometheus",
    vendorPath "opensource/ingress-nginx/kube-webhook-certgen" "kube-webhook-certgen" "cluster"
      "Apache-2.0" "registry.k8s.io/ingress-nginx/kube-webhook-certgen",
    vendorPath "kiwigrid/k8s-sidecar" "k8s-sidecar" "observability" "MIT"
      "quay.io/kiwigrid/k8s-sidecar",
    vendorPath "opensource/keycloak/keycloak" "keycloak" "identity" "Apache-2.0"
      "quay.io/keycloak/keycloak",
    vendorPath "redhat/ubi/ubi9" "ubi9" "foundation" "GPL-2.0-or-later"
      "registry.access.redhat.com/ubi9/ubi",
    vendorPath "redhat/ubi/ubi9-minimal" "ubi9-minimal" "foundation" "GPL-2.0-or-later"
      "registry.access.redhat.com/ubi9/ubi-minimal",
    vendorPath "hashicorp/vault" "vault" "secrets" "BUSL-1.1" "docker.io/hashicorp/vault",
    (.exact "hashicorp/vault/vault-k8s", fun _ tag =>
      { id := "vault-k8s", family := "secrets", license := "MPL-2.0"
        source := "docker.io/hashicorp/vault-k8s:" ++ trimPrefix tag "v" }),
    (.exact "opensource/cloudnativepg/cloudnative-pg", fun _ tag =>
      { id := "cloudnative-pg", family := "data", license := "Apache-2.0"
        source := "ghcr.io/cloudnative-pg/cloudnative-pg:" ++ trimSuffix tag "-ubi9" }),
    (.exact "opensource/deuxfleurs-org/garage", fun _ tag =>
      { id := "garage", family := "data", license := "AGPL-3.0-only"
        source := "docker.io/dxflrs/garage:v" ++ trimPrefix tag "v" }),
    vendorPath "opensource/kubernetes-sigs/metrics-server" "metrics-server" "cluster" "Apache-2.0"
      "registry.k8s.io/metrics-server/metrics-server"]
where
  busybox (path : String) : VendorCase :=
    (.exact path, fun _ tag =>
      { id := "busybox", family := "foundation", license := "GPL-2.0-only"
        source := "docker.io/library/busybox:" ++ trimPrefix tag "v" })

/-- The first case that applies to the path. -/
def vendorImage (path tag : String) : Option OfficialImageSpec :=
  vendorCases.findSome? fun (condition, image) =>
    (condition.name? path).map fun name => image name tag

/-- An image of the registry of GitLab. -/
def gitlabImage (name tag : String) : OfficialImageSpec :=
  let sourceTag := trimSuffix (trimSuffix tag "-ubi") "-gitlab"
  let sourceTag := if contains tag "-gitlab-ubi" then sourceTag ++ "-gitlab" else sourceTag
  let id := trimSuffix name "-ee"
  { id := if id = "kubectl" then "gitlab-kubectl" else id
    family := "gitlab"
    license := "MIT"
    provenance := "https://gitlab.com/gitlab-org/build/CNG @ " ++ sourceTag
    source := "registry.gitlab.com/gitlab-org/build/cng/" ++ name ++ ":" ++ sourceTag }

/-- The cases of `officialImageFor`, none if no case applies. -/
def officialCase (reference kubernetesVersion : String) (kubectlVersions : List (String × String))
    (buildBase : String) : Option (Except String OfficialImageSpec) :=
  let repository := imageRepository reference
  let tag := imageTag reference
  let version := trimPrefix tag "v"
  if repository = "registry1.dso.mil/ironbank/big-bang/base" then
    some (.ok {
      id := "garage-init-helper", family := "data", version := version, targetTag := tag
      license := "Debian", provenance := "https://www.debian.org/", source := buildBase })
  else if repository = "registry1.dso.mil/ironbank/big-bang/grafana/grafana-plugins" then
    some (.ok {
      id := "grafana-plugins", family := "observability", version := version, targetTag := tag
      license := "AGPL-3.0-only", provenance := "https://github.com/grafana/grafana"
      source := "docker.io/grafana/grafana:" ++ version })
  else if repository = "registry1.dso.mil/ironbank/opensource/postgres/postgresql" then
    some (.ok {
      id := "postgresql-" ++ (split version '.').headD "", family := "data", version := version
      targetTag := version, license := "PostgreSQL"
      provenance := "https://github.com/docker-library/postgres"
      source := "docker.io/library/postgres:" ++ version })
  else if repository = "registry1.dso.mil/ironbank/opensource/redis/redis8-slim" then
    some (.ok {
      id := "redis-" ++ dashed ['.', '_'] version, family := "data", version := version
      targetTag := version, license := "RSALv2 OR SSPLv1 OR AGPLv3"
      provenance := "https://github.com/redis/redis"
      source := "docker.io/library/redis:" ++ version })
  else if repository = kubectlRepository then some do
    let spec ← officialKubectlImage reference kubernetesVersion kubectlVersions
    let version := trimPrefix (imageTag spec.source) "v"
    return { spec with
      id := if version = kubernetesVersion then "kubectl"
        else "kubectl-helper-" ++ dashed ['.', '_'] version
      version := version
      targetTag := "v" ++ version
      provenance := "https://github.com/kubernetes/kubernetes" }
  else
    match cutPrefix repository "registry1.dso.mil/gitlab/gitlab-org/build/cng/" with
    | some name => some (.ok (gitlabImage name tag))
    | none =>
      if !hasPrefix repository "registry1.dso.mil/" then some (directOfficialImage repository tag)
      else
        (vendorImage (trimPrefix repository "registry1.dso.mil/ironbank/") tag).map fun spec =>
          .ok (if spec.provenance = "" then
            { spec with provenance := imageRepository spec.source } else spec)

def officialImageFor (reference artifact kubernetesVersion : String)
    (kubectlVersions : List (String × String)) (buildBase : String) :
    Except String OfficialImageSpec :=
  if imageRepository reference = "" ∨ imageTag reference = "" then
    .error (artifact ++ " renders invalid image " ++ quote reference)
  else
    (officialCase reference kubernetesVersion kubectlVersions buildBase).getD
      (.error (artifact ++ " renders " ++ reference ++ " without an official vendor image mapping"))

/-- A mapped reference has a tag. -/
theorem officialImageFor_tag {reference artifact kubernetesVersion buildBase : String}
    {kubectlVersions : List (String × String)} {spec : OfficialImageSpec}
    (h : officialImageFor reference artifact kubernetesVersion kubectlVersions buildBase =
      .ok spec) : imageTag reference ≠ "" := by
  intro htag
  rw [officialImageFor, if_pos (.inr htag)] at h
  cases h

/-! ## Observations -/

/-- `containerInvocation`, as far as the mapping reads it. -/
structure ContainerInvocation where
  location : String
  repository : String
  command : Any := .null
  args : Any := .null

/-- `chartInspection`, as far as the inventory reads it.  `SourceImages` may be nil. -/
structure ChartInspection where
  images : List String := []
  sourceImages : Option (List String) := none
  declared : List String := []
  invocations : List ContainerInvocation := []

def observedSourceImages (inspection : ChartInspection) : List String :=
  inspection.sourceImages.getD inspection.images

/-- `renderedImageObservation`. -/
structure RenderedImageObservation where
  artifact : String
  reference : String
  inspection : ChartInspection := {}
  invocations : List ContainerInvocation := []

def stringSlice : Any → List String
  | .list items => (items.mapM Any.text?).getD []
  | _ => []

/-- The loop over the invocations: which of the two arguments it has met. -/
def readinessArguments : List ContainerInvocation → Bool → Bool → Except String (Bool × Bool)
  | [], deletes, scales => .ok (deletes, scales)
  | invocation :: rest, deletes, scales =>
    match stringSlice invocation.command, stringSlice invocation.args with
    | [], [argument] =>
      if argument = "delete-webhooks" then readinessArguments rest true scales
      else if argument = "scale-deploy" then readinessArguments rest deletes true
      else
        .error ("selected Kyverno webhook cleanup invocation " ++ invocation.location ++
          " uses unsupported argument " ++ quote argument)
    | _, _ =>
      .error ("selected Kyverno webhook cleanup invocation " ++ invocation.location ++
        " no longer has one readiness-checker argument")

def kyvernoReadinessCheckerRepository : String :=
  "registry1.dso.mil/ironbank/opensource/kyverno/kyverno/readiness-checker"

/-- The loop over the declared images. -/
def declaredReadinessChecker : List String → String → Except String String
  | [], reference => .ok reference
  | declared :: rest, reference =>
    if imageRepository declared ≠ kyvernoReadinessCheckerRepository then
      declaredReadinessChecker rest reference
    else if reference ≠ "" ∧ reference ≠ declared then
      .error "selected Kyverno package declares multiple readiness-checker versions"
    else declaredReadinessChecker rest declared

def kyvernoReadinessCheckerReference (observation : RenderedImageObservation) :
    Except String String := do
  if observation.invocations.isEmpty then
    throw "selected Kyverno webhook cleanup image has no rendered invocation"
  let (deletes, scales) ← readinessArguments observation.invocations false false
  if !deletes then
    throw "selected Kyverno package no longer renders the delete-webhooks readiness-checker hook"
  if !scales then
    throw "selected Kyverno package no longer renders the scale-deploy readiness-checker hook"
  let reference ← declaredReadinessChecker observation.inspection.declared ""
  if reference = "" then
    throw "selected Kyverno package does not declare its readiness-checker image"
  return reference

/-- The image is the webhook cleanup of Kyverno. -/
def KyvernoCleanup (observation : RenderedImageObservation) : Prop :=
  observation.artifact = "package/kyverno" ∧
    imageRepository observation.reference = kubectlRepository

instance (observation : RenderedImageObservation) : Decidable (KyvernoCleanup observation) :=
  inferInstanceAs (Decidable (_ ∧ _))

def officialImageForObservation (observation : RenderedImageObservation)
    (kubernetesVersion : String) (kubectlVersions : List (String × String)) (buildBase : String) :
    Except String OfficialImageSpec := do
  let reference ←
    if KyvernoCleanup observation then kyvernoReadinessCheckerReference observation
    else .ok observation.reference
  officialImageFor reference observation.artifact kubernetesVersion kubectlVersions buildBase

section Observations

variable {kubernetesVersion buildBase : String} {kubectlVersions : List (String × String)}
  {observation : RenderedImageObservation}

theorem officialImageForObservation_of_not (h : ¬ KyvernoCleanup observation) :
    officialImageForObservation observation kubernetesVersion kubectlVersions buildBase =
      officialImageFor observation.reference observation.artifact kubernetesVersion kubectlVersions
        buildBase := by
  have hbind : ∀ f : String → Except String OfficialImageSpec,
      (Except.ok observation.reference >>= f) = f observation.reference := fun _ => rfl
  rw [officialImageForObservation, if_neg h, hbind]

/-- An observation that is mapped has a reference. -/
theorem reference_ne_of_mapped {spec : OfficialImageSpec}
    (h : officialImageForObservation observation kubernetesVersion kubectlVersions buildBase =
      .ok spec) : observation.reference ≠ "" := by
  intro hempty
  have hcleanup : ¬ KyvernoCleanup observation := by
    rintro ⟨-, hrepo⟩
    rw [hempty] at hrepo
    revert hrepo
    decide +kernel
  rw [officialImageForObservation_of_not hcleanup, hempty] at h
  exact officialImageFor_tag h (by decide +kernel)

end Observations

/-! ## Patches of kubectl -/

/-- The first loop of `resolveKubectlMinorTags`: the tags without a patch. -/
def kubectlMinorTags (cluster : List String) (kubernetesVersion : String)
    (observations : List RenderedImageObservation) : List (String × String) :=
  observations.foldl (fun result observation =>
    if imageRepository observation.reference ≠ kubectlRepository then result
    else
      let tag := imageTag observation.reference
      match split (trimPrefix tag "v") '.' with
      | [major, minor] =>
        SortedAssoc.insert tag
          (if cluster[0]? = some major ∧ cluster[1]? = some minor then "v" ++ kubernetesVersion
            else "") result
      | _ => result) []

/-- The loop over the official tags: the newest stable patch of each wanted minor. -/
def bestPatches (semver : Semver) (result : List (String × String)) (tags : List String) :
    List (String × Version × String) :=
  tags.foldl (fun best tag =>
    match semver.newVersion (trimPrefix tag "v") with
    | none => best
    | some version =>
      let minor := "v" ++ toString version.major ++ "." ++ toString version.minor
      if version.prerelease ≠ "" ∨ result.lookup minor ≠ some "" then best
      else
        match best.lookup minor with
        | none => SortedAssoc.insert minor (version, tag) best
        | some (newest, _) =>
          if semver.greaterThan version newest then SortedAssoc.insert minor (version, tag) best
          else best) []

/-- The last loop of `resolveKubectlMinorTags`. -/
def fillPatches (best : List (String × Version × String)) :
    List (String × String) → List (String × String) → Except String (List (String × String))
  | [], result => .ok result
  | (minor, selected) :: rest, result =>
    if selected ≠ "" then fillPatches best rest result
    else
      match best.lookup minor with
      | some (_, tag) =>
        if tag = "" then .error ("official kubectl has no stable patch for " ++ minor)
        else fillPatches best rest (SortedAssoc.insert minor tag result)
      | none => .error ("official kubectl has no stable patch for " ++ minor)

/-- `resolveKubectlMinorTags`.  `listTags` is the answer of the registry of kubectl, and
`order` the order in which Go walks over the tags without a patch. -/
def resolveKubectlMinorTags (semver : Semver) (listTags : Except String (List String))
    (order : List (String × String) → List (String × String))
    (observations : List RenderedImageObservation) (kubernetesVersion : String) :
    Except String (List (String × String)) := do
  let cluster := split kubernetesVersion '.'
  if cluster.length ≠ 3 then
    throw ("Kubernetes version " ++ quote kubernetesVersion ++ " is not exact")
  let result := kubectlMinorTags cluster kubernetesVersion observations
  if result.all fun entry => entry.2 != "" then return result
  let tags ← listTags.mapError fun err => "list official kubectl patches: " ++ err
  fillPatches (bestPatches semver result tags) (order result) result

end Atum.Images
