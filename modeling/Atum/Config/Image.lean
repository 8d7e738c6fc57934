import Atum.Go.Strings

/-!
# Images

The parts of an image of the project that deliver it: its identity, its target in
the registry of the platform, and where it comes from.  License, provenance,
version mapping and compatibility evidence are not modelled.
-/

namespace Atum.Config

open Atum.Go

/-- `DeliveryChoice.Type`. -/
inductive DeliveryType where
  | mirror
  | build
  | other (name : String)
  deriving DecidableEq, Repr

/-- `DeliveryChoice`. -/
structure DeliveryChoice where
  type : DeliveryType
  source : String := ""
  digest : String := ""
  deriving DecidableEq, Repr

/-- `Image`; `delivery` is `Delivery.Default`. -/
structure Image where
  id : String
  family : String := ""
  target : String
  scopes : List String := []
  runtime : Bool := false
  consumers : List String := []
  discovery : String := ""
  delivery : DeliveryChoice
  deriving DecidableEq, Repr

/-! ## References -/

/-- A reference up to the colon before its tag, and the tag.  A colon that a slash
follows is part of the registry. -/
def cutTag (reference : String) : Option (String × String) :=
  match cutLast reference ':' with
  | some (before, after) => if '/' ∈ after.toList then none else some (before, after)
  | none => none

/-- `imageReferenceRepository`. -/
def imageReferenceRepository (reference : String) : String :=
  let reference := match cut reference '@' with
    | some (before, _) => before
    | none => reference
  match cutTag reference with
  | some (repository, _) => repository
  | none => reference

/-- `imageReferenceTag`. -/
def imageReferenceTag (reference : String) : String :=
  match cutTag reference with
  | some (_, tag) => tag
  | none => ""

end Atum.Config
