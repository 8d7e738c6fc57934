import Atum.Config.Image

/-!
# Image references

How the updater reads an image reference: quotes and blanks around it do not count,
a name without a registry is one of `docker.io`, and a digest takes the place of the
tag.  `parses` stands for the parser of the registry library.
-/

namespace Atum.Images

open Atum.Go Atum.Config List

/-- A reference without the quotes and the blanks around it. -/
def bareReference (reference : String) : String := trimSpace (trim reference "\"'")

/-- `imageRepository`. -/
def imageRepository (reference : String) : String :=
  let reference := bareReference reference
  let reference := match cut reference '@' with
    | some (before, _) => before
    | none => reference
  let reference := match cutTag reference with
    | some (repository, _) => repository
    | none => reference
  if reference = "" ∨ reference = "auto" then reference
  else
    match cut reference '/' with
    | none => "docker.io/library/" ++ reference
    | some (registry, remainder) =>
      if registry = "docker.io" ∨ registry = "index.docker.io" then "docker.io/" ++ remainder
      else if registry ≠ "localhost" ∧ ¬containsAny registry ".:" then "docker.io/" ++ reference
      else reference

/-- `imageTag`. -/
def imageTag (reference : String) : String :=
  let reference := bareReference reference
  match cut reference '@' with
  | some (_, digest) => digest
  | none =>
    match cutTag reference with
    | some (_, tag) => tag
    | none => ""

/-- `validImageReference`. -/
def validImageReference (parses : String → Bool) (reference : String) : Bool :=
  let reference := bareReference reference
  reference != "" && !contains reference "://" && !contains reference "\x7b\x7b" &&
    !containsAny reference " \t\r\n$" && parses reference

/-- `embeddedImageReference`: the text up to the first `=`, and the reference. -/
def embeddedImageReference (parses : String → Bool) (value : String) :
    Option (String × String) :=
  let trimmed := trimSpace value
  let candidates := match cut trimmed '=' with
    | some (before, after) => [(before ++ "=", after), ("", trimmed)]
    | none => [("", trimmed)]
  candidates.find? fun candidate =>
    contains candidate.2 "/" && imageTag candidate.2 != "" &&
      validImageReference parses candidate.2

/-- `equivalentTag`. -/
def equivalentTag (left right : String) : Bool := trimPrefix left "v" == trimPrefix right "v"

/-- `matchTagStyle`. -/
def matchTagStyle (template value : String) : String :=
  if hasPrefix template "v" then "v" ++ trimPrefix value "v" else trimPrefix value "v"

end Atum.Images
