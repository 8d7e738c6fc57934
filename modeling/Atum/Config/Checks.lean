import Atum.Go.Strings

/-!
# Field checks of the configuration package

The small checks that several validators of the configuration share.  A
validator of the source appends its findings to a list of problems; here every
validator returns the problems that it appends, so that a document is accepted
exactly when the list is empty.
-/

namespace Atum.Config

open Atum.Go List

/-- `fssecure.Relative`: the clean form of a project-relative path. -/
def relative (path : String) : Except String String :=
  let clean := Go.clean path
  if path = "" ∨ isAbs clean ∨ clean = "." ∨ clean = ".." ∨ hasPrefix clean "../" then
    .error s!"path {quote path} is not project-relative"
  else .ok clean

variable {clean path : String}

theorem clean_of_relative (h : relative path = .ok clean) : Go.clean path = clean := by
  simp only [relative] at h
  split at h
  · cases h
  · exact Except.ok.inj h

theorem hasPrefix_join_dots (rest : List String) :
    join (".." :: rest) "/" = ".." ∨ hasPrefix (join (".." :: rest) "/") "../" = true := by
  cases rest with
  | nil => exact .inl rfl
  | cons next rest =>
    refine .inr ?_
    rw [hasPrefix, isPrefixOf_iff_prefix, join]
    exact ⟨_, by simp; rfl⟩

/-- The components of an accepted path are plain names, and joining them gives
the clean path back. -/
theorem relative_ok (h : relative path = .ok clean) :
    clean = join (cleanComponents path) "/" ∧ cleanComponents path ≠ [] ∧
      ∀ name ∈ cleanComponents path, PlainName name := by
  simp only [relative] at h
  split at h
  · cases h
  next hvalid =>
  cases h
  simp only [not_or] at hvalid
  obtain ⟨-, habs, hdot, hdots, hup⟩ := hvalid
  have hrooted : hasPrefix path "/" = false := by
    cases hroot : hasPrefix path "/" with
    | false => rfl
    | true =>
      refine absurd ?_ habs
      simp only [clean, hroot]
      rw [isAbs, hasPrefix, isPrefixOf_iff_prefix, String.toList_append]
      exact prefix_append _ _
  have hclean : ∀ first rest, cleanComponents path = first :: rest →
      clean path = join (first :: rest) "/" := by
    intro first rest heq
    simp [clean, hrooted, heq]
  cases hcomps : cleanComponents path with
  | nil => exact absurd (by simp only [clean, hrooted, hcomps]) hdot
  | cons first rest =>
    refine ⟨hclean first rest hcomps, by simp, fun name hname => ?_⟩
    rw [← hcomps] at hname
    refine plainName_of_mem_cleanComponents ?_ hname
    rw [hcomps]
    intro hfirst
    cases hfirst
    rw [hclean _ rest hcomps] at hdots hup
    rcases hasPrefix_join_dots rest with heq | hpre
    · exact hdots heq
    · exact hup hpre

/-- A path of plain names is accepted as it is. -/
theorem relative_join {names : List String} (hne : names ≠ [])
    (hplain : ∀ name ∈ names, PlainName name) :
    relative (join names "/") = .ok (join names "/") := by
  obtain ⟨hroot, hcomps⟩ := cleanComponents_join hne hplain
  have hsplit : split (join names "/") '/' = names :=
    split_join hne fun name hname => (hplain name hname).2.2.2
  -- A path that is one of the special names has that name as its only component.
  have hspecial : ∀ special : String, '/' ∉ special.toList → ¬PlainName special →
      join names "/" ≠ special := by
    intro special hslash hnot heq
    have hone : split special '/' = [special] := by
      rw [split, splitOn_eq_singleton hslash]
      simp
    rw [heq, hone] at hsplit
    exact hnot (hplain special (by simp [← hsplit]))
  have hclean : clean (join names "/") = join names "/" := by
    simp [clean, hroot, hcomps]
  simp only [relative, hclean]
  rw [if_neg]
  rintro (hempty | habs | hdot | hdots | hup)
  · exact hspecial "" (by simp) (by simp [PlainName]) hempty
  · rw [isAbs, hroot] at habs
    cases habs
  · exact hspecial "." (by decide) (by simp [PlainName]) hdot
  · exact hspecial ".." (by decide) (by simp [PlainName]) hdots
  · have hhead := head_split_of_hasPrefix ".." (by decide) hup
    rw [hsplit] at hhead
    exact (hplain ".." (mem_of_head? hhead)).2.2.1 rfl

/-- The clean form of a path is clean. -/
theorem relative_idem (h : relative path = .ok clean) : relative clean = .ok clean := by
  obtain ⟨rfl, hne, hplain⟩ := relative_ok h
  exact relative_join hne hplain

/-- A lowercase hexadecimal digit. -/
def isLowerHexDigit (c : Char) : Bool :=
  ('0' ≤ c && c ≤ '9') || ('a' ≤ c && c ≤ 'f')

/-- `lowerHex`. -/
def lowerHex (value : String) : Bool := value.toList.all isLowerHexDigit

/-- Digits take one byte each. -/
theorem length_of_lowerHex {value : String} (h : lowerHex value = true) :
    value.toList.length = len value := by
  refine (len_of_ascii fun c hc => ?_).symm
  have hdigit := all_eq_true.mp h c hc
  simp only [isLowerHexDigit, Bool.or_eq_true, Bool.and_eq_true, decide_eq_true_eq] at hdigit
  rcases hdigit with ⟨-, hdigit⟩ | ⟨-, hdigit⟩
  · exact UInt32.le_trans hdigit (by decide : '9'.val ≤ 127)
  · exact UInt32.le_trans hdigit (by decide : 'f'.val ≤ 127)

/-- `validHexSHA256`. -/
def validHexSHA256 (value : String) : Bool := len value == 64 && lowerHex value

/-- `validDigest`. -/
def validDigest (value : String) : Bool :=
  hasPrefix value "sha256:" && validHexSHA256 (trimPrefix value "sha256:")

/-- `validGitBranch`. -/
def validGitBranch (branch : String) : Bool :=
  branch != "" &&
    !hasPrefix branch "." &&
    !hasSuffix branch "." &&
    !hasSuffix branch "/" &&
    !hasSuffix branch ".lock" &&
    !containsAny branch " \\~^:?*[" &&
    !contains branch ".." &&
    !contains branch "@\x7b" &&
    !contains branch "//"

/-- `validateRelative`. -/
def validateRelative (field value : String) : List String :=
  match relative value with
  | .ok _ => []
  | .error _ => [s!"{field} must be a non-empty project-relative path"]

end Atum.Config
