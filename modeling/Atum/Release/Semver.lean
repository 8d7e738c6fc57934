import Atum.Go.Strings
import Atum.Library.SortedAssoc

/-!
# The semantic-version package as a parameter

The release code parses and compares versions with a third-party package.  Its
source is not part of the repository, so the package is a parameter here:
`Semver` collects the functions that the code calls, and `Semver.Lawful` states
the documented behaviour that the proofs rely on.

* `compare` is a total preorder, and the major and the minor number come before
  everything else.
* `String()` writes the canonical form, which never starts with `v`, and the
  canonical form of a parsed version parses back to that version.

`tableSemver` is a concrete package that knows finitely many stable versions.
It behaves as the real one does on the versions of its table, and it is what a
concrete run uses.
-/

namespace Atum.Release

/-- The fields of a parsed version, as the accessors `Major()`, `Minor()`,
`Patch()`, `Prerelease()` and `Metadata()` return them. -/
structure Version where
  major : UInt64
  minor : UInt64
  patch : UInt64
  prerelease : String
  metadata : String
  deriving DecidableEq, Repr

/-- A parsed version constraint. -/
structure Constraints where
  string : String
  check : Version → Bool

/-- The functions of the semantic-version package that the code calls. -/
structure Semver where
  /-- `semver.NewVersion`. -/
  newVersion : String → Option Version
  /-- `Version.String()`. -/
  string : Version → String
  /-- `Version.Compare`. -/
  compare : Version → Version → Ordering
  /-- `semver.NewConstraint`. -/
  newConstraint : String → Option Constraints

namespace Semver

variable (semver : Semver)

/-- `Version.LessThan`. -/
def lessThan (a b : Version) : Bool := semver.compare a b == .lt

/-- `Version.GreaterThan`. -/
def greaterThan (a b : Version) : Bool := semver.compare a b == .gt

/-- `Version.Equal`.  Build metadata does not take part in it. -/
def equal (a b : Version) : Bool := semver.compare a b == .eq

/-- Two version texts parse, and their versions are in a relation. -/
def relates (rel : Version → Version → Bool) (a b : String) : Bool :=
  match semver.newVersion a, semver.newVersion b with
  | some v, some w => rel v w
  | _, _ => false

/-- Two texts of one version. -/
def sameVersion : String → String → Bool := semver.relates semver.equal

/-- The first text is a newer version than the second. -/
def newer : String → String → Bool := semver.relates semver.greaterThan

/-- Two texts of one major and minor. -/
def sameMinor : String → String → Bool :=
  semver.relates fun v w => v.major == w.major && v.minor == w.minor

/-- The documented behaviour of the package that the code relies on. -/
structure Lawful : Prop where
  transCmp : Std.TransCmp semver.compare
  compare_major : ∀ a b : Version, a.major < b.major → semver.compare a b = .lt
  compare_minor : ∀ a b : Version, a.major = b.major → a.minor < b.minor →
    semver.compare a b = .lt
  newVersion_string : ∀ s v, semver.newVersion s = some v →
    semver.newVersion (semver.string v) = some v
  string_no_v : ∀ s v, semver.newVersion s = some v →
    Go.hasPrefix (semver.string v) "v" = false

variable {semver}

theorem relates_of_parsed {rel : Version → Version → Bool} {a b : String} {v w : Version}
    (hv : semver.newVersion a = some v) (hw : semver.newVersion b = some w) :
    semver.relates rel a b = rel v w := by
  simp [relates, hv, hw]

theorem Lawful.compare_self (hlaw : semver.Lawful) (a : Version) : semver.compare a a = .eq :=
  have := hlaw.transCmp
  Std.ReflCmp.compare_self

variable {a b c : Version}

theorem Lawful.lt_trans (hlaw : semver.Lawful)
    (hab : semver.compare a b = .lt) (hbc : semver.compare b c = .lt) : semver.compare a c = .lt :=
  have := hlaw.transCmp
  Std.TransCmp.lt_trans hab hbc

theorem Lawful.gt_iff_lt (hlaw : semver.Lawful) :
    semver.compare a b = .gt ↔ semver.compare b a = .lt :=
  have := hlaw.transCmp
  Std.OrientedCmp.gt_iff_lt

theorem Lawful.eq_symm (hlaw : semver.Lawful)
    (h : semver.compare a b = .eq) : semver.compare b a = .eq :=
  have := hlaw.transCmp
  Std.OrientedCmp.eq_symm h

/-- Equal versions compare alike with a third one. -/
theorem Lawful.congr_right (hlaw : semver.Lawful)
    (h : semver.compare b c = .eq) : semver.compare a b = semver.compare a c :=
  have := hlaw.transCmp
  Std.TransCmp.congr_right h

/-- Equal versions have the same major and the same minor number. -/
theorem Lawful.coordinates_of_eq (hlaw : semver.Lawful)
    (h : semver.compare a b = .eq) : a.major = b.major ∧ a.minor = b.minor := by
  have hba := hlaw.eq_symm h
  have hmajor : a.major = b.major := by
    rcases Std.lt_trichotomy a.major b.major with hlt | heq | hgt
    · rw [hlaw.compare_major a b hlt] at h
      exact absurd h (by decide)
    · exact heq
    · rw [hlaw.compare_major b a hgt] at hba
      exact absurd hba (by decide)
  refine ⟨hmajor, ?_⟩
  rcases Std.lt_trichotomy a.minor b.minor with hlt | heq | hgt
  · rw [hlaw.compare_minor a b hmajor hlt] at h
    exact absurd h (by decide)
  · exact heq
  · rw [hlaw.compare_minor b a hmajor.symm hgt] at hba
    exact absurd hba (by decide)

/-- A version above another one of the same major number has no lower minor
number. -/
theorem Lawful.minor_le_of_lt (hlaw : semver.Lawful)
    (hmajor : a.major = b.major) (h : semver.compare a b = .lt) : a.minor ≤ b.minor := by
  refine UInt64.not_lt.mp fun hlt => ?_
  have hgt := hlaw.compare_minor b a hmajor.symm hlt
  rw [← hlaw.gt_iff_lt, h] at hgt
  exact absurd hgt (by decide)

end Semver

/-! ## A package over a finite table -/

/-- The canonical text of a stable version. -/
def stableString (v : Version) : String :=
  toString v.major ++ "." ++ toString v.minor ++ "." ++ toString v.patch

/-- The order of stable versions: major, then minor, then patch. -/
def stableCompare : Version → Version → Ordering :=
  compareLex (compareOn Version.major)
    (compareLex (compareOn Version.minor) (compareOn Version.patch))

/-- The package that parses exactly the texts of a table of stable versions,
and that reads no constraint but the empty one. -/
def tableSemver (table : List (String × Version)) : Semver where
  newVersion s := table.lookup s
  string := stableString
  compare := stableCompare
  newConstraint _ := none

/-- Every entry of the table is a stable version under its canonical text. -/
def CanonicalTable (table : List (String × Version)) : Prop :=
  ∀ entry ∈ table, stableString entry.2 = entry.1 ∧ Go.hasPrefix entry.1 "v" = false

instance (table : List (String × Version)) : Decidable (CanonicalTable table) :=
  inferInstanceAs (Decidable (∀ entry ∈ table, _))

/-- The package over a canonical table behaves as documented. -/
theorem tableSemver_lawful {table : List (String × Version)}
    (htable : CanonicalTable table) : (tableSemver table).Lawful where
  transCmp := by
    unfold tableSemver stableCompare
    infer_instance
  compare_major a b h := by
    simp [tableSemver, stableCompare, compareLex, compareOn, Std.compare_eq_lt.mpr h]
  compare_minor a b hmajor h := by
    simp [tableSemver, stableCompare, compareLex, compareOn, hmajor, Std.compare_eq_lt.mpr h]
  newVersion_string s v h := by
    have hcanon := (htable _ (SortedAssoc.mem_of_lookup h)).1
    simp only [tableSemver] at h ⊢
    rw [hcanon]
    exact h
  string_no_v s v h := by
    have hent := htable _ (SortedAssoc.mem_of_lookup h)
    simp only [tableSemver]
    rw [hent.1]
    exact hent.2

end Atum.Release
